import ContractTree.Proofs.Consistency
import ContractTree.Proofs.Dumped
import ContractTree.Proofs.Rendered

/-!
The pass keeps the tree printable. What comes in the place of a node plays the role of that node, and what is put
in front of a statement or at the end of the module is made of statements (`Rewritten.grammatical`,
`Getter.grammatical`), so that each visit leaves a tree in which every node is what its place takes
(`Lowering.kept_rendered`). A tree that has a source text before the pass therefore has one after it, and a dump as
well (`Lowering.run_printable`).
-/

namespace ContractTree

variable {c : Catalog} {ν : NodeId} {t t' : Tree} {ts ts' es : List Tree}

/-! ## What lowering makes -/

namespace Tree

theorem role_of_access {v : StorageVar} (h : t.access? c = some v) : t.label.role = .expression := by
  by_cases hl : t.label = .subscript
  · rw [hl]
    rfl
  · have hr := (access?_eq_some_iff.1 h).1
    rw [reach, base_of_label hl] at hr
    by_cases hm : ∃ attr, t.label = .member attr
    · obtain ⟨attr, hm⟩ := hm
      rw [hm]
      rfl
    · rw [receiver?_of_label fun attr he => hm ⟨attr, he⟩] at hr
      cases hr

/-- The keys of a chain are expressions. -/
theorem Grammatical.keys (h : t.Grammatical) : ∀ k ∈ t.links.map Link.key, k.Grammatical ∧
    k.label.role = .expression := by
  rw [List.forall_mem_map]
  refine fun l hl => ⟨All.key h hl, ?_⟩
  induction t with
  | step t ih =>
    unfold links at hl
    split at hl
    · rcases List.mem_append.1 hl with hl | hl
      · exact ih _ (by simp) (h.kid (by simp)) hl
      · rw [List.mem_singleton.1 hl]
        exact h.top.1 _ (by simp)
    · simp at hl

theorem grammatical_leaf {i : NodeId} {ty : Option Ty} {l : Label} : (leaf i ty l).Grammatical :=
  all_leaf.2 ⟨by simp [leaf], by simp [leaf]⟩

/-- A node without statement lists over expressions. -/
theorem grammatical_node {i : NodeId} {ty : Option Ty} {l : Label} {hs : List Tree}
    (h : ∀ k ∈ hs, k.Grammatical ∧ k.label.role = l.headRole) : (node i ty l hs [] []).Grammatical := by
  refine all_iff.2 ⟨⟨fun k hk => (h k hk).2, by simp⟩, fun k hk => ?_⟩
  rw [kids_node, List.append_nil, List.append_nil] at hk
  exact (h k hk).1

/-- Trees that agree at the top and in the roles of their children. -/
theorem Alike.grammatical (ha : t.Alike t') (ht : t.Grammatical)
    (hroles : t'.kids.map (·.label.role) = t.kids.map (·.label.role)) (hk : ∀ k ∈ t'.kids, k.Grammatical) :
    t'.Grammatical := by
  simp only [kids, List.map_append] at hroles
  obtain ⟨hhb, ho⟩ := List.append_inj hroles (by simp [ha.heads, ha.body])
  obtain ⟨hh, hb⟩ := List.append_inj hhb (by simp [ha.heads])
  have hsame : ∀ {us us' : List Tree} {r : Role}, us'.map (·.label.role) = us.map (·.label.role) →
      (∀ k ∈ us, k.label.role = r) → ∀ k ∈ us', k.label.role = r := by
    intro us us' r heq h k hk
    obtain ⟨k', hk', he⟩ := List.mem_map.1 (heq ▸ List.mem_map_of_mem hk : k.label.role ∈ us.map (·.label.role))
    rw [← he, h k' hk']
  obtain ⟨htop, hlists⟩ := ht.top
  rw [List.forall_mem_append] at hlists
  refine all_iff.2 ⟨⟨?_, List.forall_mem_append.2 ⟨hsame hb hlists.1, hsame ho hlists.2⟩⟩, hk⟩
  rw [ha.label]
  exact hsame hh htop

end Tree

/-- Reads are hoisted out of expressions, which stay expressions. -/
theorem Hoisted.roles (h : Hoisted c ν ts es ts') : ts'.map (·.label.role) = ts.map (·.label.role) := by
  induction h with
  | nil => rfl
  | access i temp slot read hnew ht _ _ _ ihts =>
    rw [List.map_cons, List.map_cons, ihts, Tree.role_of_access ht]
    rfl
  | inner ht ha _ _ _ ihts => rw [List.map_cons, List.map_cons, ihts, ha.label]

theorem grammatical_readTree {i temp slot : NodeId} {v : StorageVar} {ty : Option Ty} {ks : List Tree}
    (hk : ∀ k ∈ ks, k.Grammatical ∧ k.label.role = .expression) : (readTree i temp slot v ty ks).Grammatical :=
  Tree.grammatical_node (List.forall_mem_cons.2 ⟨⟨Tree.grammatical_leaf, rfl⟩,
    List.forall_mem_cons.2 ⟨⟨Tree.grammatical_leaf, rfl⟩, hk⟩⟩)

theorem grammatical_writeTree {i slot : NodeId} {v : StorageVar} {ty : Option Ty} {ks : List Tree} {x : Tree}
    (hk : ∀ k ∈ ks, k.Grammatical ∧ k.label.role = .expression) (hx : x.Grammatical)
    (hr : x.label.role = .expression) : (writeTree i slot v ty ks x).Grammatical :=
  Tree.grammatical_node (List.forall_mem_cons.2 ⟨⟨Tree.grammatical_leaf, rfl⟩,
    List.forall_mem_append.2 ⟨hk, List.forall_mem_singleton.2 ⟨hx, hr⟩⟩⟩)

theorem grammatical_assignTree {i temp : NodeId} {ty : Option Ty} {x : Tree} (hx : x.Grammatical)
    (hr : x.label.role = .expression) : (assignTree i (tempLeaf temp ty) x).Grammatical :=
  Tree.grammatical_node (List.forall_mem_cons.2 ⟨⟨Tree.grammatical_leaf, rfl⟩,
    List.forall_mem_singleton.2 ⟨hx, hr⟩⟩)

theorem Hoisted.grammatical (h : Hoisted c ν ts es ts') (hg : ∀ t ∈ ts, t.Grammatical) :
    (∀ t ∈ ts', t.Grammatical) ∧ ∀ e ∈ es, e.Grammatical ∧ e.label.role = .statement := by
  induction h with
  | nil => simp
  | @access t v es ks ts es' ts' i temp slot read hnew ht hk _ ihk ihts =>
    obtain ⟨hts, hes'⟩ := ihts fun u hu => hg u (List.mem_cons_of_mem _ hu)
    have hkeys := (hg t List.mem_cons_self).keys
    obtain ⟨hks, hes⟩ := ihk fun k hk => (hkeys k hk).1
    have hroles : ∀ k ∈ ks, k.label.role = .expression := by
      intro k hk'
      obtain ⟨k', hmem, he⟩ := List.mem_map.1
        (hk.roles ▸ List.mem_map_of_mem hk' : k.label.role ∈ (t.links.map Link.key).map (·.label.role))
      rw [← he, (hkeys k' hmem).2]
    refine ⟨List.forall_mem_cons.2 ⟨Tree.grammatical_leaf, hts⟩, ?_⟩
    rw [List.forall_mem_append, List.forall_mem_cons]
    exact ⟨hes, ⟨grammatical_readTree fun k hk' => ⟨hks k hk', hroles k hk'⟩, rfl⟩, hes'⟩
  | @inner t t' es ts es' ts' ht ha hk _ ihk ihts =>
    obtain ⟨hts, hes'⟩ := ihts fun u hu => hg u (List.mem_cons_of_mem _ hu)
    have hgt := hg t List.mem_cons_self
    obtain ⟨hkids, hes⟩ := ihk fun k hk => hgt.kid hk
    exact ⟨List.forall_mem_cons.2 ⟨ha.grammatical hgt hk.roles hkids, hts⟩, List.forall_mem_append.2 ⟨hes, hes'⟩⟩

/-- Reads that are hoisted out of expressions leave expressions. -/
theorem Hoisted.expressions (h : Hoisted c ν ts es ts')
    (hg : ∀ t ∈ ts, t.Grammatical ∧ t.label.role = .expression) :
    (∀ t ∈ ts', t.Grammatical ∧ t.label.role = .expression) ∧ ∀ e ∈ es, e.Grammatical ∧
    e.label.role = .statement := by
  obtain ⟨hts, hes⟩ := h.grammatical fun t ht => (hg t ht).1
  refine ⟨fun t ht => ⟨hts t ht, ?_⟩, hes⟩
  obtain ⟨u, hu, he⟩ := List.mem_map.1 (h.roles ▸ List.mem_map_of_mem ht : t.label.role ∈ ts.map (·.label.role))
  rw [← he, (hg u hu).2]

theorem SharedAll.grammatical {ν : NodeId} {ks bs rs ws : List Tree} (h : SharedAll ν ks bs rs ws)
    (hk : ∀ k ∈ ks, k.Grammatical ∧ k.label.role = .expression) :
    (∀ b ∈ bs, b.Grammatical ∧ b.label.role = .statement) ∧
    (∀ r ∈ rs, r.Grammatical ∧ r.label.role = .expression) ∧
      ∀ w ∈ ws, w.Grammatical ∧ w.label.role = .expression := by
  induction h with
  | nil => simp
  | cons h _ ih =>
    obtain ⟨hkey, hrest⟩ := List.forall_mem_cons.1 hk
    obtain ⟨hbs, hrs, hws⟩ := ih hrest
    simp only [List.forall_mem_append, List.forall_mem_cons]
    cases h with
    | atom copy hnew _ => exact ⟨⟨by simp, hbs⟩, ⟨hkey, hrs⟩, ⟨Tree.grammatical_leaf, hkey.2⟩, hws⟩
    | bound bind temp forRead forWrite hnew _ =>
      exact ⟨⟨List.forall_mem_singleton.2 ⟨grammatical_assignTree hkey.1 hkey.2, rfl⟩, hbs⟩,
        ⟨⟨Tree.grammatical_leaf, rfl⟩, hrs⟩, ⟨Tree.grammatical_leaf, rfl⟩, hws⟩

/-- The operands of an assignment are expressions. -/
theorem Tree.Grammatical.operands {i : NodeId} {ty : Option Ty} {l : Label} {target value : Tree}
    (h : (node i ty l [target, value] [] []).Grammatical) (hl : l.headRole = .expression) :
    target.Grammatical ∧ ∀ k ∈ [value], k.Grammatical ∧ k.label.role = .expression :=
  ⟨h.kid (by simp), List.forall_mem_singleton.2 ⟨h.kid (by simp), (h.top.1 value (by simp)).trans hl⟩⟩

/-- What comes in the place of a node plays its role, with statements in front. -/
theorem Rewritten.grammatical (h : Rewritten c ν t es t') (ht : t.Grammatical) :
    (t'.Grammatical ∧ t'.label.role = t.label.role) ∧ ∀ e ∈ es, e.Grammatical ∧ e.label.role = .statement := by
  cases h with
  | read i temp ty hacc h =>
    obtain ⟨hts, hes⟩ := h.grammatical (List.forall_mem_singleton.2 ht)
    exact ⟨⟨hts _ List.mem_cons_self, (Tree.role_of_access hacc).symm⟩, hes⟩
  | store h =>
    obtain ⟨bind, temp, slot, operand, write, -, hacc, hval, hks⟩ := h
    obtain ⟨htarget, hvalue⟩ := ht.operands rfl
    obtain ⟨hv, he₁⟩ := hval.expressions hvalue
    obtain ⟨hk, he₂⟩ := hks.expressions htarget.keys
    rw [List.forall_mem_singleton] at hv
    refine ⟨⟨grammatical_writeTree hk Tree.grammatical_leaf rfl, rfl⟩, ?_⟩
    simp only [List.forall_mem_append, List.forall_mem_singleton]
    exact ⟨⟨he₁, he₂⟩, grammatical_assignTree hv.1 hv.2, rfl⟩
  | combine h =>
    obtain ⟨current, combined, readSlot, writeSlot, read, currentRef, combination, compute, combinedRef, write, -,
      hacc, hval, hks, hsh⟩ := h
    obtain ⟨htarget, hvalue⟩ := ht.operands rfl
    obtain ⟨hv, he₁⟩ := hval.expressions hvalue
    obtain ⟨hk, he₂⟩ := hks.expressions htarget.keys
    obtain ⟨hbs, hrs, hws⟩ := hsh.grammatical hk
    refine ⟨⟨grammatical_writeTree hws Tree.grammatical_leaf rfl, rfl⟩, ?_⟩
    simp only [List.forall_mem_append, List.forall_mem_cons]
    refine ⟨⟨⟨he₁, he₂⟩, hbs⟩, ⟨grammatical_readTree hrs, rfl⟩, ⟨grammatical_assignTree ?_ rfl, rfl⟩, by simp⟩
    exact Tree.grammatical_node (List.forall_mem_cons.2 ⟨⟨Tree.grammatical_leaf, rfl⟩, hv⟩)

theorem GetterKeys.grammatical {n : Nat} {tys : List Ty} {as rs : List Tree} (h : GetterKeys n tys as rs) :
    (∀ a ∈ as, a.Grammatical ∧ a.label.role = .argument) ∧ ∀ r ∈ rs, r.Grammatical ∧
    r.label.role = .expression := by
  induction h with
  | nil => simp
  | cons i j _ ih =>
    exact ⟨List.forall_mem_cons.2 ⟨⟨Tree.grammatical_leaf, rfl⟩, ih.1⟩,
      List.forall_mem_cons.2 ⟨⟨Tree.grammatical_leaf, rfl⟩, ih.2⟩⟩

theorem Getter.grammatical {v : StorageVar} {g : Tree} (h : Getter v g) :
    g.Grammatical ∧ g.label.role = .statement := by
  obtain ⟨i, read, temp, slot, result, reference, hkeys⟩ := h
  obtain ⟨has, hrs⟩ := hkeys.grammatical
  have hret : (Tree.node result none .ret [tempRef reference temp (some v.value)] [] []).Grammatical :=
    Tree.grammatical_node (List.forall_mem_singleton.2 ⟨Tree.grammatical_leaf, rfl⟩)
  refine ⟨Tree.all_iff.2 ⟨⟨fun k hk => (has k hk).2, by simp [readTree, Label.role]⟩, fun k hk => ?_⟩, rfl⟩
  simp only [Tree.kids_node, List.append_nil, List.mem_append, List.mem_cons, List.not_mem_nil, or_false] at hk
  rcases hk with hk | rfl | rfl
  · exact (has k hk).1
  · exact grammatical_readTree hrs
  · exact hret

theorem Getters.grammatical {v : StorageVar} {gs : List Tree} (h : Getters v gs) :
    ∀ g ∈ gs, g.Grammatical ∧ g.label.role = .statement := by
  cases h with
  | none _ => simp
  | one _ hg => exact List.forall_mem_singleton.2 hg.grammatical

/-! ## Places -/

/-- A tree of the same role takes the place of another, and statements go in front of it in a statement list. -/
theorem Frame.grammatical_plug {f : Frame} (h : (f.plug [t]).Grammatical) (ht : t'.Grammatical)
    (hrole : t'.label.role = t.label.role) (hes : ∀ e ∈ es, e.Grammatical ∧ e.label.role = .statement)
    (hpart : es = [] ∨ f.part ≠ .heads) : (f.plug (es ++ [t'])).Grammatical := by
  have htop := h.top
  refine Tree.all_iff.2 ⟨?_, fun k hk => ?_⟩
  · have hstmt := fun e he => (hes e he).2
    unfold Frame.plug at htop ⊢
    split at htop <;> simp only [Tree.heads_node, Tree.body_node, Tree.orelse_node, Tree.label_node,
      List.forall_mem_append, List.forall_mem_singleton] at htop ⊢
    · next hheads =>
      obtain rfl : es = [] := hpart.resolve_right (· hheads)
      exact ⟨⟨⟨htop.1.1.1, by simp, hrole.trans htop.1.1.2⟩, htop.1.2⟩, htop.2⟩
    · exact ⟨htop.1, ⟨⟨htop.2.1.1.1, hstmt, hrole.trans htop.2.1.1.2⟩, htop.2.1.2⟩, htop.2.2⟩
    · exact ⟨htop.1, htop.2.1, ⟨htop.2.2.1.1, hstmt, hrole.trans htop.2.2.1.2⟩, htop.2.2.2⟩
  · simp only [kids_plug, List.mem_append, List.mem_singleton] at hk
    rcases hk with (hk | hk | rfl) | hk
    · exact h.kid (by simp [hk])
    · exact (hes k hk).1
    · exact ht
    · exact h.kid (by simp [hk])

theorem Ctx.grammatical_plug {K : Ctx} (h : (K.plug t).Grammatical) (ht : t'.Grammatical)
    (hrole : t'.label.role = t.label.role) : (K.plug t').Grammatical := by
  induction K generalizing t t' with
  | nil => exact ht
  | cons f C ih =>
    exact ih h (@Frame.grammatical_plug _ _ [] f (.of_plug h) ht hrole (by simp) (.inl rfl)) (by simp)

/-- Statements go in front of the statement that the place is in. -/
theorem Ctx.grammatical_emit {K : Ctx} (h : (K.plug t).Grammatical) (ht : t'.Grammatical)
    (hrole : t'.label.role = t.label.role) (hes : ∀ e ∈ es, e.Grammatical ∧ e.label.role = .statement) :
    ((K.emit es).plug t').Grammatical := by
  induction K generalizing t t' with
  | nil => exact ht
  | cons f C ih =>
    have hf : (f.plug [t]).Grammatical := .of_plug h
    by_cases hp : f.part = .heads
    · rw [emit_heads hp]
      exact ih h (@Frame.grammatical_plug _ _ [] f hf ht hrole (by simp) (.inl rfl)) (by simp)
    · rw [emit_list hp, plug_cons, Frame.plug_push]
      exact grammatical_plug h (f.grammatical_plug hf ht hrole hes (.inr hp)) (by simp)

theorem Ctx.label_plug_congr {K : Ctx} (h : t'.label = t.label) : (K.plug t').label = (K.plug t).label := by
  cases K with
  | nil => exact h
  | cons f C => exact label_plug_cons

namespace Tree

theorem Grammatical.declareSlot {v : StorageVar} (h : t.Grammatical) : (t.declareSlot v).Grammatical := by
  unfold Tree.declareSlot
  split
  · next i ty l target hs bs os =>
    have htarget : (target.withTy (some v.slotTy)).Grammatical := by
      have := h.kid (k := target) (by simp)
      cases target
      exact this
    refine all_iff.2 ⟨?_, fun k hk => ?_⟩
    · have htop := h.top
      simp only [heads_node, List.forall_mem_cons, label_node, body_node, orelse_node] at htop ⊢
      exact ⟨⟨by simpa using htop.1.1, htop.1.2⟩, htop.2⟩
    · simp only [kids_node, List.cons_append, List.mem_cons] at hk
      rcases hk with rfl | hk
      · exact htarget
      · exact h.kid (List.mem_cons_of_mem _ hk)
  · exact h

theorem Grammatical.addDecls {gs : List Tree} (h : t.Grammatical)
    (hgs : ∀ g ∈ gs, g.Grammatical ∧ g.label.role = .statement) : (t.addDecls gs).Grammatical := by
  obtain ⟨i, ty, l, hs, bs, os⟩ := t
  have htop := h.top
  simp only [heads_node, label_node, body_node, orelse_node, List.forall_mem_append] at htop
  refine all_iff.2 ⟨?_, fun k hk => ?_⟩
  · simp only [Tree.addDecls, heads_node, label_node, body_node, orelse_node, List.forall_mem_append]
    exact ⟨htop.1, ⟨htop.2.1, fun g hg => (hgs g hg).2⟩, htop.2.2⟩
  · simp only [Tree.addDecls, kids_node, List.mem_append] at hk
    rcases hk with (hk | hk | hk) | hk
    · exact h.kid (by simp [hk])
    · exact h.kid (by simp [hk])
    · exact (hgs k hk).1
    · exact h.kid (by simp [hk])

end Tree

/-! ## The pass -/

namespace Lowering

open Print (render)

variable {w w' : Workspace Progress} {st : Stats} {G : Outside} {K : Ctx} {T : Tree} {m : NodeId}
  {config : Print.Config}

theorem Has.exists_render_iff (h : Has w c st [(none, T)] [] G) (hm : T.label = .module) :
    (∃ text, render w.store config T.id = .ok text) ↔ T.Grammatical := by
  rw [Print.exists_render_iff h.holds h.fits
    h.nodup, hm]
  exact and_iff_left rfl

/-- Each visit leaves a tree that has a source text, if there was one. -/
theorem kept_rendered : Kept G m (fun w => ∃ text, render w.store config m = .ok text) fun _ => True := by
  intro w T i h hi hr
  obtain ⟨c, st, hc⟩ := h.has
  obtain ⟨K, t, rfl, rfl⟩ := Tree.exists_place hi
  obtain rfl := h.id
  have hg := (Has.exists_render_iff hc h.label).1 hr
  have ht : t.Grammatical := .of_plug hg
  refine (dispatch_spec hc).mono (fun _ w' hv => ?_) fun _ _ _ => trivial
  cases hv with
  | module _ hs _ _ => rwa [hs]
  | left hw _ _ => rwa [hw]
  | @declared v gs hl _ _ hgs _ h' =>
    have hlabel : ((K.plug (t.declareSlot v)).addDecls gs).label = .module := by
      rw [Tree.label_addDecls, ← h.label]
      exact Ctx.label_plug_congr Tree.label_declareSlot
    have hid : ((K.plug (t.declareSlot v)).addDecls gs).id = (K.plug t).id := by
      rw [Tree.id_addDecls]
      exact Ctx.id_plug_congr Tree.id_declareSlot
    rw [← hid, Has.exists_render_iff h' hlabel]
    exact (Ctx.grammatical_plug hg ht.declareSlot (by rw [Tree.label_declareSlot])).addDecls hgs.grammatical
  | @rewritten es t' σ hrew hσ h' _ _ =>
    obtain ⟨⟨ht', hrole⟩, hes⟩ := hrew.grammatical ht
    have hlabel : ((K.emit es).plug t').label = .module := by
      cases K with
      | nil => cases hσ
      | cons f C => rw [Ctx.label_plug_emit, ← h.label, Ctx.label_plug_cons]
    have hid : ((K.emit es).plug t').id = (K.plug t).id := by
      rw [Ctx.id_plug_emit]
      exact Ctx.id_plug_of_site hσ
    rw [← hid, Has.exists_render_iff h' hlabel]
    exact Ctx.grammatical_emit hg ht' hrole hes

open Print (render)

variable {w w' : Workspace Progress} {m : NodeId} {config : Print.Config}

/-- **The pass keeps the tree printable.** A module in which the check finds no flaw has a source text exactly when
each node below it is what its place takes. If it has one and the pass succeeds, then it has one afterwards, in
every layout, and a dump as well. -/
theorem run_printable (hs : w.store.Sound) (hv : w.store.verify m = .ok ()) :
    ((∃ text, render w.store config m = .ok text) ↔
      ∃ T, w.store.tree? m = some T ∧ T.Grammatical ∧ T.label.role = .statement) ∧
    ((∃ text, render w.store config m = .ok text) → ∀ w', run m w = .ok () w' →
      (∀ layout, ∃ text, render w'.store layout m = .ok text) ∧ ∃ dump, Dump.text w'.store m = .ok dump) := by
  have hwhole : Whole m w := ⟨hs, (Store.verify_iff hs.nodup m).1 hv⟩
  constructor
  · obtain ⟨-, T, rfl, hf, hn, hT⟩ := hwhole
    rw [Print.exists_render_iff hT hf hn, hT.tree?_eq hf hn]
    simp
  · intro hr w' hrun
    obtain ⟨⟨-, T, rfl, hf, hn, hT⟩, hr'⟩ := (run_keeps kept_rendered (fun _ _ => trivial) hwhole hr).of_ok hrun
    have hlen := hT.length_le hn
    obtain ⟨j, hj, -⟩ := Dump.exists_dumps hT hf hn (by omega : T.ids.length ≤ w'.store.size + 1)
    rw [Print.exists_render_iff hT hf hn] at hr'
    exact ⟨fun layout => (Print.exists_render_iff hT hf hn).2 hr', _, Print.bind_eq_ok.2 ⟨j, hj, rfl⟩⟩

theorem run_printable_ledger : ∃ w', run ⟨0⟩ ⟨ledger, {}⟩ = .ok () w' ∧
    (∀ layout, ∃ text, render w'.store layout ⟨0⟩ = .ok text) ∧ ∃ dump, Dump.text w'.store ⟨0⟩ = .ok dump := by
  obtain ⟨w', hw'⟩ := run_ledger
  have hr : ∃ text, render ledger {} ⟨0⟩ = .ok text := by decide +kernel
  exact ⟨w', hw', (run_printable sound_ledger verify_ledger).2 hr w' hw'⟩

end Lowering

end ContractTree
