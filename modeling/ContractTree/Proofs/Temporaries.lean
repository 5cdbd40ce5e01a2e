import ContractTree.Proofs.Expansion
import ContractTree.Proofs.Getters

/-!
Where temporaries occur. Lowering binds each temporary by one statement and puts that statement in front of all
that refers to the temporary. On trees: if a name does not occur in the source, then it does not occur in what the
walk leaves, or the statements that the walk puts in front bind it before it occurs in them (`Opens`), or it is
bound in a statement list inside of one tree and occurs only there (`Confines`); `Walked.toScoped` shows that one
of the three is the case. The identity that a temporary is spelled after is that of the node where it is bound, and
no identity is in a tree twice, so the three cases of different parts of a tree do not meet.
`Lowering.run_binds_temporaries` says it for a run, and that no other statement binds the temporary, unless the
source reads a slot into a state variable (`Lowering.run_binds_twice`).
-/

namespace ContractTree

/-- The name does not occur in the tree. -/
def Tree.Avoids (x : String) (t : Tree) : Prop := t.All fun u => u.label ≠ .name x

/-- A read of a slot or an assignment that binds the temporary of this name, which does not occur in it a second
time. -/
inductive Binder (x : String) : Tree → Prop where
  | mk {i temp : NodeId} {ty ty' : Option Ty} {l : Label} {hs : List Tree} (hl : l = .storageRead ∨ l = .assign)
      (hx : tempName temp = x) (hrest : ∀ h ∈ hs, h.Avoids x) :
      Binder x (.node i ty l (tempLeaf temp ty' :: hs) [] [])

/-- The statements bind the name before it occurs in them. -/
def Opens (x : String) (ts : List Tree) : Prop :=
  ∃ before b after, ts = before ++ b :: after ∧ (∀ t ∈ before, t.Avoids x) ∧ Binder x b

/-- A statement list inside of the tree binds the name before it occurs there, and it occurs nowhere else in the
tree. -/
inductive Confines (x : String) : Tree → Prop where
  | here {f : Frame} {b : Tree} (hp : f.part ≠ .heads) (hl : f.label ≠ .name x)
      (hs : ∀ t ∈ f.left ++ f.first ++ f.second, t.Avoids x) (hb : Binder x b) : Confines x (f.plug [b])
  | inside {t u : Tree} {before after : List Tree} (hl : t.label ≠ .name x) (hk : t.kids = before ++ u :: after)
      (hs : ∀ k ∈ before ++ after, k.Avoids x) (hu : Confines x u) : Confines x t

/-- One of the trees confines the name, and it does not occur in the others. -/
def Contains (x : String) (ts : List Tree) : Prop :=
  ∃ before u after, ts = before ++ u :: after ∧ (∀ t ∈ before ++ after, t.Avoids x) ∧ Confines x u

/-- What becomes of the name in a statement list. -/
def Listed (x : String) (ts : List Tree) : Prop := (∀ t ∈ ts, t.Avoids x) ∨ Opens x ts ∨ Contains x ts

/-- What becomes of the name in trees `ts` with the statements `es` in front. -/
def Scoped (x : String) (es ts : List Tree) : Prop :=
  (∀ t ∈ es ++ ts, t.Avoids x) ∨ Opens x es ∨ (∀ e ∈ es, e.Avoids x) ∧ Contains x ts

section

variable {x : String} {es es' ts ts' : List Tree} {t u : Tree}

theorem Tree.Avoids.top (h : t.Avoids x) : t.label ≠ .name x := All.top h

theorem Tree.Avoids.kid (h : t.Avoids x) (hu : u ∈ t.kids) : u.Avoids x := All.kid h hu

theorem Tree.Avoids.keys (h : t.Avoids x) : ∀ k ∈ t.links.map Link.key, k.Avoids x := by
  intro k hk
  obtain ⟨l, hl, rfl⟩ := List.mem_map.1 hk
  exact All.key h hl

theorem Tree.avoids_iff : t.Avoids x ↔ t.label ≠ .name x ∧ ∀ k ∈ t.kids, k.Avoids x := all_iff

theorem Tree.avoids_leaf {i : NodeId} {ty : Option Ty} {l : Label} : (leaf i ty l).Avoids x ↔ l ≠ .name x :=
  all_leaf

namespace Opens

theorem append_right (h : Opens x ts) (us : List Tree) : Opens x (ts ++ us) := by
  obtain ⟨before, b, after, rfl, hbefore, hb⟩ := h
  exact ⟨before, b, after ++ us, by simp, hbefore, hb⟩

theorem append_left (h : Opens x ts) {us : List Tree} (hus : ∀ t ∈ us, t.Avoids x) : Opens x (us ++ ts) := by
  obtain ⟨before, b, after, rfl, hbefore, hb⟩ := h
  exact ⟨us ++ before, b, after, by simp, List.forall_mem_append.2 ⟨hus, hbefore⟩, hb⟩

theorem of_binder (hb : Binder x t) : Opens x [t] := ⟨[], t, [], rfl, by simp, hb⟩

end Opens

namespace Contains

theorem append_right (h : Contains x ts) {us : List Tree} (hus : ∀ t ∈ us, t.Avoids x) :
    Contains x (ts ++ us) := by
  obtain ⟨before, u, after, rfl, hside, hu⟩ := h
  refine ⟨before, u, after ++ us, by simp, ?_, hu⟩
  rw [← List.append_assoc]
  exact List.forall_mem_append.2 ⟨hside, hus⟩

theorem append_left (h : Contains x ts) {us : List Tree} (hus : ∀ t ∈ us, t.Avoids x) : Contains x (us ++ ts) := by
  obtain ⟨before, u, after, rfl, hside, hu⟩ := h
  refine ⟨us ++ before, u, after, by simp, ?_, hu⟩
  rw [List.append_assoc]
  exact List.forall_mem_append.2 ⟨hus, hside⟩

theorem of_confines (hu : Confines x u) : Contains x [u] := ⟨[], u, [], rfl, by simp, hu⟩

/-- A node confines what its children contain. -/
theorem confines (h : Contains x t.kids) (hl : t.label ≠ .name x) : Confines x t := by
  obtain ⟨before, u, after, hk, hside, hu⟩ := h
  exact .inside hl hk hside hu

end Contains

/-! ## At most one part of a tree binds a name -/

/-- One of the identities is that of a temporary of this name. -/
def Holder (x : String) (is : List NodeId) : Prop := ∃ temp ∈ is, tempName temp = x

theorem Holder.disjoint {is js : List NodeId} (h : Holder x is) (h' : Holder x js) (hn : (is ++ js).Nodup) :
    False := by
  obtain ⟨i, hi, hx⟩ := h
  obtain ⟨j, hj, rfl⟩ := h'
  obtain rfl := tempName_injective hx
  exact (List.nodup_append'.1 hn).2.2 hi hj

theorem Holder.mono {is js : List NodeId} (h : Holder x is) (hsub : is ⊆ js) : Holder x js := by
  obtain ⟨i, hi, hx⟩ := h
  exact ⟨i, hsub hi, hx⟩

theorem Binder.holder (h : Binder x t) : Holder x t.ids := by
  obtain ⟨hl, hx, hrest⟩ := h
  exact ⟨_, by simp [tempLeaf, Tree.leaf, Tree.ids, Tree.idsAll], hx⟩

theorem Opens.holder (h : Opens x ts) : Holder x (ts.flatMap Tree.ids) := by
  obtain ⟨before, b, after, rfl, -, hb⟩ := h
  exact hb.holder.mono fun i hi => List.mem_flatMap.2 ⟨b, by simp, hi⟩

theorem Confines.holder (h : Confines x t) : Holder x t.ids := by
  induction h with
  | @here f b hp hl hs hb => exact hb.holder.mono (Tree.ids_subset_of_mem_kids (by simp))
  | inside hl hk hs hu ih => exact ih.mono (Tree.ids_subset_of_mem_kids (by simp [hk]))

theorem Contains.holder (h : Contains x ts) : Holder x (ts.flatMap Tree.ids) := by
  obtain ⟨before, u, after, rfl, -, hu⟩ := h
  exact hu.holder.mono fun i hi => List.mem_flatMap.2 ⟨u, by simp, hi⟩

theorem Listed.avoids_or (h : Listed x ts) : (∀ t ∈ ts, t.Avoids x) ∨ Holder x (ts.flatMap Tree.ids) := by
  rcases h with h | h | h
  · exact .inl h
  · exact .inr h.holder
  · exact .inr h.holder

theorem Scoped.avoids_or (h : Scoped x es ts) :
    (∀ t ∈ es ++ ts, t.Avoids x) ∨ Holder x ((es ++ ts).flatMap Tree.ids) := by
  rw [List.flatMap_append]
  rcases h with h | h | ⟨-, h⟩
  · exact .inl h
  · exact .inr (h.holder.mono (List.subset_append_left ..))
  · exact .inr (h.holder.mono (List.subset_append_right ..))

theorem nodup_interleave (ts : List Tree) (hn : ((es ++ es' ++ (ts ++ ts')).flatMap Tree.ids).Nodup) :
    ((es ++ ts).flatMap Tree.ids ++ (es' ++ ts').flatMap Tree.ids).Nodup := by
  refine (List.Perm.nodup_iff ?_).1 hn
  simp only [List.flatMap_append, List.perm_iff_count, List.count_append]
  omega

theorem nodup_lists {i : NodeId} {ty : Option Ty} {l : Label} {hs bs os : List Tree}
    (hn : ((es ++ [Tree.node i ty l hs bs os]).flatMap Tree.ids).Nodup) :
    ((es ++ hs).flatMap Tree.ids ++ (bs.flatMap Tree.ids ++ os.flatMap Tree.ids)).Nodup := by
  rw [List.flatMap_append, List.flatMap_singleton, Tree.ids_eq, List.nodup_middle, List.nodup_cons] at hn
  simpa [List.flatMap_append] using hn.2

/-- Two statement lists, one after the other. -/
theorem Listed.append (h : Listed x ts) (h' : Listed x ts') (hn : ((ts ++ ts').flatMap Tree.ids).Nodup) :
    Listed x (ts ++ ts') := by
  rw [List.flatMap_append] at hn
  rcases h.avoids_or with ha | hh
  · rcases h' with h' | h' | h'
    · exact .inl (List.forall_mem_append.2 ⟨ha, h'⟩)
    · exact .inr (.inl (h'.append_left ha))
    · exact .inr (.inr (h'.append_left ha))
  · have ha' := h'.avoids_or.resolve_right fun hh' => hh.disjoint hh' hn
    rcases h with h | h | h
    · exact .inl (List.forall_mem_append.2 ⟨h, ha'⟩)
    · exact .inr (.inl (h.append_right _))
    · exact .inr (.inr (h.append_right ha'))

theorem Scoped.listed (h : Scoped x es ts) : Listed x (es ++ ts) := by
  rcases h with h | h | ⟨he, h⟩
  · exact .inl h
  · exact .inr (.inl (h.append_right _))
  · exact .inr (.inr (h.append_left he))

theorem Scoped.append (h : Scoped x es ts) (h' : Scoped x es' ts')
    (hn : ((es ++ es' ++ (ts ++ ts')).flatMap Tree.ids).Nodup) : Scoped x (es ++ es') (ts ++ ts') := by
  have hn' := nodup_interleave ts hn
  rcases h.avoids_or with ha | hh
  · obtain ⟨hes, hts⟩ := List.forall_mem_append.1 ha
    rcases h' with h' | h' | ⟨he', h'⟩
    · obtain ⟨hes', hts'⟩ := List.forall_mem_append.1 h'
      exact .inl (by simp only [List.forall_mem_append]; exact ⟨⟨hes, hes'⟩, hts, hts'⟩)
    · exact .inr (.inl (h'.append_left hes))
    · exact .inr (.inr ⟨List.forall_mem_append.2 ⟨hes, he'⟩, h'.append_left hts⟩)
  · obtain ⟨hes', hts'⟩ := List.forall_mem_append.1 (h'.avoids_or.resolve_right fun hh' => hh.disjoint hh' hn')
    rcases h with h | h | ⟨he, h⟩
    · obtain ⟨hes, hts⟩ := List.forall_mem_append.1 h
      exact .inl (by simp only [List.forall_mem_append]; exact ⟨⟨hes, hes'⟩, hts, hts'⟩)
    · exact .inr (.inl (h.append_right _))
    · exact .inr (.inr ⟨List.forall_mem_append.2 ⟨he, hes'⟩, h.append_right hts'⟩)

/-- A node whose heads have statements in front. -/
theorem Scoped.node {i : NodeId} {ty : Option Ty} {l : Label} {hs bs os : List Tree} (hl : l ≠ .name x)
    (hh : Scoped x es hs) (hb : Listed x bs) (ho : Listed x os)
    (hn : ((es ++ [Tree.node i ty l hs bs os]).flatMap Tree.ids).Nodup) : Scoped x es [.node i ty l hs bs os] := by
  have hn' := nodup_lists hn
  have hnode : (∀ k ∈ hs ++ bs ++ os, k.Avoids x) → (Tree.node i ty l hs bs os).Avoids x :=
    fun hk => Tree.avoids_iff.2 ⟨hl, hk⟩
  have hinside : (∀ e ∈ es, e.Avoids x) → Contains x (hs ++ bs ++ os) → Scoped x es [.node i ty l hs bs os] :=
    fun he h => .inr (.inr ⟨he, .of_confines (h.confines hl)⟩)
  rcases hh.avoids_or with ha | hholder
  · obtain ⟨hes, hhs⟩ := List.forall_mem_append.1 ha
    rcases hb.avoids_or with hbs | hholder
    · -- only the last list may have the name
      rcases ho with hos | ⟨before, b, after, rfl, hbefore, hb⟩ | hos
      · exact .inl (List.forall_mem_append.2
          ⟨hes, by simpa using hnode (by simp only [List.forall_mem_append]; tauto)⟩)
      · have hc : Confines x (Frame.plug ⟨i, ty, l, .orelse, before, after, hs, bs⟩ [b]) :=
          .here (by simp) hl (by simp only [List.forall_mem_append]; tauto) hb
        exact .inr (.inr ⟨hes, .of_confines (by simpa [Frame.plug] using hc)⟩)
      · exact hinside hes (hos.append_left (List.forall_mem_append.2 ⟨hhs, hbs⟩))
    · -- only the first list may have the name
      have hos := ho.avoids_or.resolve_right fun h => hholder.disjoint h (List.nodup_append'.1 hn').2.1
      rcases hb with hbs | ⟨before, b, after, rfl, hbefore, hb⟩ | hbs
      · exact .inl (List.forall_mem_append.2
          ⟨hes, by simpa using hnode (by simp only [List.forall_mem_append]; tauto)⟩)
      · have hc : Confines x (Frame.plug ⟨i, ty, l, .body, before, after, hs, os⟩ [b]) :=
          .here (by simp) hl (by simp only [List.forall_mem_append]; tauto) hb
        exact .inr (.inr ⟨hes, .of_confines (by simpa [Frame.plug] using hc)⟩)
      · exact hinside hes ((hbs.append_left hhs).append_right hos)
  · -- the lists do not have the name, since the heads or the statements in front do
    have hbs := hb.avoids_or.resolve_right fun h => hholder.disjoint (h.mono (List.subset_append_left ..)) hn'
    have hos := ho.avoids_or.resolve_right fun h => hholder.disjoint (h.mono (List.subset_append_right ..)) hn'
    rcases hh with h | h | ⟨hes, h⟩
    · obtain ⟨hes, hhs⟩ := List.forall_mem_append.1 h
      exact .inl (List.forall_mem_append.2
        ⟨hes, by simpa using hnode (by simp only [List.forall_mem_append]; tauto)⟩)
    · exact .inr (.inl h)
    · exact hinside hes ((h.append_right hbs).append_right hos)

/-! ## What is put in front of an expression -/

/-- The name is none of a slot. -/
def Slotless (x : String) : Prop := ∀ v : StorageVar, v.slotName ≠ x

theorem avoids_tempRef {i temp : NodeId} {ty : Option Ty} (h : tempName temp ≠ x) : (tempRef i temp ty).Avoids x :=
  Tree.avoids_leaf.2 fun he => h (Label.name.inj he)

theorem avoids_slotLeaf {i : NodeId} {v : StorageVar} (hx : Slotless x) : (slotLeaf i v).Avoids x :=
  Tree.avoids_leaf.2 fun he => hx v (Label.name.inj he)

/-- The name does not occur, or the statements `es` in front of the trees `ts` bind it. -/
def Leads (x : String) (es ts : List Tree) : Prop := (∀ t ∈ es ++ ts, t.Avoids x) ∨ Opens x es

namespace Leads

theorem toScoped (h : Leads x es ts) : Scoped x es ts := h.imp_right .inl

theorem append (h : Leads x es ts) (h' : Leads x es' ts') : Leads x (es ++ es') (ts ++ ts') := by
  rcases h with h | h
  · obtain ⟨hes, hts⟩ := List.forall_mem_append.1 h
    rcases h' with h' | h'
    · obtain ⟨hes', hts'⟩ := List.forall_mem_append.1 h'
      exact .inl (by simp only [List.forall_mem_append]; exact ⟨⟨hes, hes'⟩, hts, hts'⟩)
    · exact .inr (h'.append_left hes)
  · exact .inr (h.append_right es')

/-- Trees that do not have the name if `ts` do not. -/
theorem map {us : List Tree} (h : Leads x es ts) (hus : (∀ t ∈ ts, t.Avoids x) → ∀ u ∈ us, u.Avoids x) :
    Leads x es us := by
  refine h.imp_left fun h => ?_
  obtain ⟨hes, hts⟩ := List.forall_mem_append.1 h
  exact List.forall_mem_append.2 ⟨hes, hus hts⟩

/-- More statements in front, which have the trees in them. -/
theorem seq {us : List Tree} (h : Leads x es ts) (h' : (∀ t ∈ ts, t.Avoids x) → Leads x es' us) :
    Leads x (es ++ es') us := by
  rcases h with h | h
  · obtain ⟨hes, hts⟩ := List.forall_mem_append.1 h
    have hfront : Leads x es [] := .inl (by simpa using hes)
    exact hfront.append (h' hts)
  · exact .inr (h.append_right es')

/-- One more statement in front, which binds a temporary. -/
theorem bind {i temp : NodeId} {ty ty' : Option Ty} {l : Label} {hs us : List Tree} (h : Leads x es ts)
    (hl : l = .storageRead ∨ l = .assign) (hhs : (∀ t ∈ ts, t.Avoids x) → ∀ h ∈ hs, h.Avoids x)
    (hus : (∀ t ∈ ts, t.Avoids x) → tempName temp ≠ x → ∀ u ∈ us, u.Avoids x) :
    Leads x (es ++ [.node i ty l (tempLeaf temp ty' :: hs) [] []]) us := by
  refine h.seq fun hts => ?_
  by_cases hx : tempName temp = x
  · exact .inr (.of_binder ⟨hl, hx, hhs hts⟩)
  · refine .inl (List.forall_mem_cons.2 ⟨Tree.avoids_iff.2 ⟨by rcases hl with rfl | rfl <;> simp, ?_⟩, hus hts hx⟩)
    simp only [Tree.kids_node, List.append_nil, List.forall_mem_cons]
    exact ⟨avoids_tempRef hx, hhs hts⟩

end Leads

/-- What is hoisted out of trees is bound in front of them. -/
theorem Hoisted.leads {c : Catalog} {ν : NodeId} (h : Hoisted c ν ts es ts') (hx : Slotless x)
    (hts : ∀ t ∈ ts, t.Avoids x) :
    Leads x es ts' := by
  induction h with
  | nil => exact .inl (by simp)
  | @access t v es ks ts es' ts' i temp slot read hnew ht hk hrest ihk ihrest =>
    obtain ⟨ht', hts'⟩ := List.forall_mem_cons.1 hts
    have hread : Leads x (es ++ [readTree read temp slot v (some (t.ty.getD v.value)) ks])
        [tempRef i temp (some (t.ty.getD v.value))] :=
      (ihk ht'.keys).bind (.inl rfl) (fun hks => List.forall_mem_cons.2 ⟨avoids_slotLeaf hx, hks⟩)
        fun _ hne => by simpa using avoids_tempRef hne
    simpa using hread.append (ihrest hts')
  | @inner t t' es ts es' ts' hr ha hk hrest ihk ihrest =>
    obtain ⟨ht', hts'⟩ := List.forall_mem_cons.1 hts
    have htop : Leads x es [t'] := (ihk fun k hk => ht'.kid hk).map fun hks => by
      simpa using Tree.avoids_iff.2 ⟨ha.label ▸ ht'.top, hks⟩
    exact htop.append (ihrest hts')

/-- The statements that bind shared keys are in front of the keys. -/
theorem SharedAll.leads {ν : NodeId} {ks bs rs ws : List Tree} (h : SharedAll ν ks bs rs ws)
    (hks : ∀ k ∈ ks, k.Avoids x) : Leads x bs (rs ++ ws) := by
  induction h with
  | nil => exact .inl (by simp)
  | @cons k r w bs ks bs' rs ws hone hs ih =>
    obtain ⟨hk, hks'⟩ := List.forall_mem_cons.1 hks
    have hfirst : Leads x bs [r, w] := by
      cases hone with
      | atom copy hnew hatom => exact .inl (by simpa using ⟨hk, Tree.avoids_leaf.2 hk.top⟩)
      | bound bind temp forRead forWrite hnew _ =>
        have hempty : Leads x [] [k] := .inl (by simpa using hk)
        exact hempty.bind (.inr rfl) (fun h => h) fun _ hne => by
          simpa using ⟨avoids_tempRef hne, avoids_tempRef hne⟩
    refine (hfirst.append (ih hks')).map fun h => ?_
    simp only [List.forall_mem_append, List.forall_mem_cons, List.cons_append] at h ⊢
    tauto

/-- What a node is rewritten to has its temporaries bound in front. -/
theorem Rewritten.leads {c : Catalog} {ν : NodeId} (h : Rewritten c ν t es u) (hx : Slotless x) (ht : t.Avoids x) :
    Leads x es [u] := by
  have hwrite : ∀ {i slot : NodeId} {v : StorageVar} {ty : Option Ty} {ks : List Tree} {y : Tree},
      (∀ k ∈ ks, k.Avoids x) → y.Avoids x → (writeTree i slot v ty ks y).Avoids x := by
    intro i slot v ty ks y hks hy
    refine Tree.avoids_iff.2 ⟨by simp [writeTree], ?_⟩
    simp only [writeTree, Tree.kids_node, List.append_nil, List.forall_mem_cons, List.forall_mem_append]
    exact ⟨avoids_slotLeaf hx, hks, by simpa using hy⟩
  cases h with
  | read i temp ty hacc hes => exact hes.leads hx (by simpa using ht)
  | store hst =>
    obtain ⟨bind, temp, slot, operand, write, -, hacc, hval, hks⟩ := hst
    have h1 := hval.leads hx (by simpa using ht.kid (by simp))
    have h2 := hks.leads hx (ht.kid (by simp)).keys
    refine (h1.append h2).bind (.inr rfl) (fun h => ?_) fun h hne => ?_
    · simpa using h _ (by simp)
    · simpa using hwrite (fun k hk => h k (by simp [hk])) (avoids_tempRef hne)
  | combine hst =>
    obtain @⟨_, _, op, target, value, value', v, e₁, e₂, ks, bs, rs, ws, current, combined, readSlot, writeSlot,
      read, currentRef, combination, compute, combinedRef, write, -, hacc, hval, hks, hsh⟩ := hst
    have h1 := hval.leads hx (by simpa using ht.kid (by simp))
    have h2 := hks.leads hx (ht.kid (by simp)).keys
    have h3 : Leads x (e₁ ++ e₂ ++ bs) (value' :: (rs ++ ws)) := (h1.append h2).seq fun h => by
      obtain ⟨hv, hks'⟩ := List.forall_mem_cons.1 h
      have hvalue : Leads x [] [value'] := .inl (by simpa using hv)
      exact hvalue.append (hsh.leads hks')
    have h4 : Leads x (e₁ ++ e₂ ++ bs ++ [readTree read current readSlot v (some v.value) rs])
        (tempRef currentRef current (some v.value) :: value' :: ws) := by
      refine h3.bind (.inl rfl) (fun h => ?_) fun h hne => ?_
      · exact List.forall_mem_cons.2 ⟨avoids_slotLeaf hx, fun k hk => h k (by simp [hk])⟩
      · exact List.forall_mem_cons.2 ⟨avoids_tempRef hne, fun k hk => h k (by simp at hk ⊢; tauto)⟩
    have h5 : Leads x (e₁ ++ e₂ ++ bs ++ [readTree read current readSlot v (some v.value) rs] ++
        [assignTree compute (tempLeaf combined (some v.value)) (.node combination (some v.value) (.binOp op)
          [tempRef currentRef current (some v.value), value'] [] [])])
        [writeTree write writeSlot v (some v.value) ws (tempRef combinedRef combined (some v.value))] := by
      refine h4.bind (.inr rfl) (fun h => ?_) fun h hne => ?_
      · simp only [List.forall_mem_cons] at h
        exact List.forall_mem_singleton.2 (Tree.avoids_iff.2 ⟨by simp, by simpa using ⟨h.1, h.2.1⟩⟩)
      · simpa using hwrite (fun k hk => h k (by simp [hk])) (avoids_tempRef hne)
    simpa using h5

/-! ## The walk -/

/-- **Temporaries are bound in front of what refers to them.** If a name that is none of a slot does not occur in
the trees, then in what they become by a walk it is bound before it occurs. -/
theorem Walked.toScoped {c : Catalog} {ν : NodeId} {inList : Bool} (h : Walked c ν inList ts es ts')
    (hx : Slotless x) (hts : ∀ t ∈ ts, t.Avoids x) (hn : ((es ++ ts').flatMap Tree.ids).Nodup) :
    (inList = false → Scoped x es ts') ∧ (inList = true → Listed x ts') := by
  induction h with
  | nil => exact ⟨fun _ => .inl (by simp), fun _ => .inl (by simp)⟩
  | @rewrite t t' es ts es' ts' ht hrest ih =>
    obtain ⟨ht', hts'⟩ := List.forall_mem_cons.1 hts
    obtain ⟨-, hn', -⟩ := List.nodup_append'.1 (nodup_interleave [t'] hn)
    exact ⟨fun _ => (ht.leads hx ht').toScoped.append ((ih hts' hn').1 rfl) hn, by simp⟩
  | @inner i ty l hs bs os es hs' bs' os' ts es' ts' hr htarget hh hb ho hrest ihh ihb iho ihrest =>
    obtain ⟨ht', hts'⟩ := List.forall_mem_cons.1 hts
    obtain ⟨hnode, hn', -⟩ := List.nodup_append'.1 (nodup_interleave [_] hn)
    obtain ⟨hnh, hnl, -⟩ := List.nodup_append'.1 (nodup_lists hnode)
    obtain ⟨hnb, hno, -⟩ := List.nodup_append'.1 hnl
    obtain ⟨-, hxh, hxb, hxo⟩ := Tree.all_lists.1 ht'
    have htop := Scoped.node ht'.top ((ihh hxh hnh).1 rfl) ((ihb hxb hnb).2 rfl) ((iho hxo hno).2 rfl) hnode
    exact ⟨fun _ => htop.append ((ihrest hts' hn').1 rfl) hn, by simp⟩
  | @stmt t t' es ts ts' ht hrest iht ihrest =>
    obtain ⟨ht', hts'⟩ := List.forall_mem_cons.1 hts
    have hn' : ((es ++ [t'] ++ ts').flatMap Tree.ids).Nodup := by simpa using hn
    rw [List.flatMap_append, List.nodup_append'] at hn'
    have h1 := (iht (by simpa using ht') hn'.1).1 rfl
    have h2 := (ihrest hts' hn'.2.1).2 rfl
    refine ⟨by simp, fun _ => ?_⟩
    simpa using h1.listed.append h2 (by simpa using hn)

/-! ## What source statements bind -/

/-- What a read of a slot or an assignment binds is, if it has this name, the node that the name is spelled after.
-/
def Tree.Owns (x : String) (u : Tree) : Prop :=
  (u.label = .storageRead ∨ u.label = .assign) → ∀ target ∈ u.heads.head?, target.label = .name x →
    tempName target.id = x

theorem Tree.owns_of_label (hr : t.label ≠ .storageRead) (ha : t.label ≠ .assign) : t.Owns x :=
  fun h => (h.elim hr ha).elim

theorem carries_owns {c : Catalog} : Carries c (fun u => u.label.isStatement = false) (Tree.Owns x) where
  keep {i ty l hs bs os hs' bs' os'} _ hl := Tree.owns_of_label (by rintro rfl; cases hl) (by rintro rfl; cases hl)
  atom {i ty l} h := Tree.owns_of_label (by rintro rfl; cases h) (by rintro rfl; cases h)
  read _ _ := by
    rintro - target ⟨⟩ hx
    exact Label.name.inj hx
  write _ _ := Tree.owns_of_label (by simp [writeTree]) (by simp [writeTree])
  assign {i temp ty y} := by
    rintro - target ⟨⟩ hx
    exact Label.name.inj hx
  binOp := Tree.owns_of_label (by simp) (by simp)

/-- What is no statement has no statements in it. -/
theorem Tree.Proper.all_expr (h : t.Proper) (hf : t.Fits) (hl : t.label.isStatement = false) :
    t.All fun u => u.label.isStatement = false := by
  induction t with
  | step t ih =>
    obtain ⟨hb, ho⟩ := hf.no_lists hl
    refine Tree.all_iff.2 ⟨hl, fun k hk => ih k hk (h.kid hk) (hf.kid hk) ?_⟩
    rw [Tree.kids, hb, ho, List.append_nil, List.append_nil] at hk
    exact h.top.1 k hk

theorem Rewritten.owns {c : Catalog} {ν : NodeId} (h : Rewritten c ν t es u) (hf : t.Fits) (hp : t.Proper) :
    u.All (Tree.Owns x) ∧ ∀ e ∈ es, e.All (Tree.Owns x) := by
  have hexpr : (t.access? c).isSome = true → t.label.isStatement = false := by
    intro hacc
    obtain ⟨v, hv⟩ := Option.isSome_iff_exists.1 hacc
    have hreach := (Tree.access?_eq_some_iff.1 hv).1
    by_cases hl : t.label = .subscript
    · rw [hl]
      rfl
    · rw [Tree.reach, Tree.base_of_label hl] at hreach
      by_contra hstmt
      rw [Tree.receiver?_of_label fun attr he => hstmt (by rw [he]; rfl)] at hreach
      cases hreach
  refine carries_owns.toMakes.rewritten carries_owns.hoisted h hexpr fun k hk => ?_
  have hlists : t.body = [] ∧ t.orelse = [] := by
    cases h with
    | read i temp ty ht hes => exact hf.no_lists (hexpr (by simp [ht]))
    | store hst => cases hst; exact ⟨rfl, rfl⟩
    | combine hst => cases hst; exact ⟨rfl, rfl⟩
  refine Tree.Proper.all_expr (hp.kid hk) (hf.kid hk) (hp.top.1 k ?_)
  simpa [Tree.kids, hlists] using hk

/-- A tree of the source in which the name does not occur, and in which no read of a slot binds an access. -/
structure Tree.Source (c : Catalog) (x : String) (t : Tree) : Prop where
  fits : t.Fits
  proper : t.Proper
  avoids : t.Avoids x
  reads : t.All fun u => u.label = .storageRead → ∀ target ∈ u.heads.head?, target.access? c = none

theorem Tree.Source.kid {c : Catalog} (h : t.Source c x) (hu : u ∈ t.kids) : u.Source c x :=
  ⟨h.fits.kid hu, h.proper.kid hu, h.avoids.kid hu, h.reads.kid hu⟩

/-- What a source statement binds is not rewritten, and so it does not have the name. -/
theorem Walked.owns_top {c : Catalog} {ν i : NodeId} {ty : Option Ty} {l : Label}
    {hs bs os hs' bs' os' : List Tree} (h : Walked c ν false hs es hs')
    (hsource : (Tree.node i ty l hs bs os).Source c x)
    (htarget : (l = .assign ∨ ∃ op, l = .augAssign op) → ∀ target ∈ hs.head?, target.reach c = none) :
    (Tree.node i ty l hs' bs' os').Owns x := by
  intro hl target ht hx
  cases hs with
  | nil =>
    obtain rfl : hs' = [] := List.length_eq_zero_iff.1 h.length_eq
    cases ht
  | cons y hs =>
    obtain ⟨e₁, y', e₂, us, rfl, rfl, hy, -⟩ := h.cons_inv
    obtain rfl : y' = target := by simpa using ht
    have hacc : y.access? c = none := by
      rcases hl with rfl | rfl
      · exact hsource.reads.top rfl y rfl
      · rw [Tree.access?, htarget (.inl rfl) y rfl]
        rfl
    cases hy with
    | rewrite hr hrest =>
      cases hr with
      | read i temp ty hread hes =>
        rw [hacc] at hread
        cases hread
      | store hst =>
        cases hst
        cases hx
      | combine hst =>
        cases hst
        cases hx
    | @inner i' ty' l' hs' bs' os' =>
      have hy : (Tree.node i' ty' l' hs' bs' os').Avoids x := hsource.avoids.kid (by simp)
      exact absurd hx hy.top

/-- If no read of a slot in the source binds an access, then what the walk leaves binds the name only where it is
new. -/
theorem Walked.owns {c : Catalog} {ν : NodeId} {inList : Bool} (h : Walked c ν inList ts es ts')
    (hts : ∀ t ∈ ts, t.Source c x) : (∀ t ∈ ts', t.All (Tree.Owns x)) ∧ ∀ e ∈ es, e.All (Tree.Owns x) := by
  induction h with
  | nil => simp
  | @rewrite t t' es ts es' ts' ht hrest ih =>
    obtain ⟨ht', hts'⟩ := List.forall_mem_cons.1 hts
    have h1 := ht.owns (x := x) ht'.fits ht'.proper
    have h2 := ih hts'
    exact ⟨List.forall_mem_cons.2 ⟨h1.1, h2.1⟩, List.forall_mem_append.2 ⟨h1.2, h2.2⟩⟩
  | @inner i ty l hs bs os es hs' bs' os' ts es' ts' hr htarget hh hb ho hrest ihh ihb iho ihrest =>
    obtain ⟨ht', hts'⟩ := List.forall_mem_cons.1 hts
    have hheads := ihh fun k hk => ht'.kid (by simp [hk])
    have hbody := ihb fun k hk => ht'.kid (by simp [hk])
    have horelse := iho fun k hk => ht'.kid (by simp [hk])
    have h2 := ihrest hts'
    refine ⟨List.forall_mem_cons.2 ⟨?_, h2.1⟩, List.forall_mem_append.2 ⟨hheads.2, h2.2⟩⟩
    exact Tree.all_lists.2 ⟨hh.owns_top ht' htarget, hheads.1, hbody.1, horelse.1⟩
  | @stmt t t' es ts ts' ht hrest iht ihrest =>
    obtain ⟨ht', hts'⟩ := List.forall_mem_cons.1 hts
    have h1 := iht (by simpa using ht')
    have h2 := ihrest hts'
    exact ⟨List.forall_mem_append.2 ⟨h1.2, List.forall_mem_cons.2 ⟨h1.1 t' (by simp), h2.1⟩⟩, by simp⟩

end

/-! ## The body of the module -/

section

variable {x : String} {c : Catalog} {ν : NodeId} {names : List String} {d e g : Tree} {ds es gs : List Tree}
  {v : StorageVar}

/-- A name that is none of a slot and none of a key of a getter. -/
structure Spare (x : String) : Prop where
  slotless : Slotless x
  keyless : ∀ n : Nat, "key" ++ toString n ≠ x

theorem GetterKeys.avoids {n : Nat} {tys : List Ty} {as rs : List Tree} (h : GetterKeys n tys as rs)
    (hx : Spare x) : (∀ a ∈ as, a.Avoids x) ∧ ∀ r ∈ rs, r.Avoids x := by
  induction h with
  | nil => simp
  | @cons n ty tys as rs i j h ih =>
    refine ⟨List.forall_mem_cons.2 ⟨Tree.avoids_leaf.2 (by simp), ih.1⟩,
      List.forall_mem_cons.2 ⟨Tree.avoids_leaf.2 ?_, ih.2⟩⟩
    exact fun he => hx.keyless n (Label.name.inj he)

theorem Getter.toScoped (h : Getter v g) (hx : Spare x) (hn : g.ids.Nodup) : Scoped x [] [g] := by
  obtain @⟨as, rs, i, read, temp, slot, result, reference, hkeys⟩ := h
  obtain ⟨has, hrs⟩ := hkeys.avoids hx
  have hbody : Leads x ([] ++ [readTree read temp slot v (some v.value) rs])
      [.node result none .ret [tempRef reference temp (some v.value)] [] []] := by
    refine Leads.bind (.inl (by simpa using hrs)) (.inl rfl) (fun h => ?_) fun _ hne => ?_
    · exact List.forall_mem_cons.2 ⟨avoids_slotLeaf hx.slotless, h⟩
    · exact List.forall_mem_singleton.2 (Tree.avoids_iff.2 ⟨by simp, by simpa using avoids_tempRef hne⟩)
  exact Scoped.node (by simp) (.inl (by simpa using has)) hbody.toScoped.listed (.inl (by simp))
    (by simpa using hn)

theorem Getter.owns (h : Getter v g) : g.All (Tree.Owns x) := by
  refine h.all ⟨?_, ?_⟩ (fun _ => ?_) ?_ ?_
  · exact Tree.owns_of_label (by simp [Tree.leaf]) (by simp [Tree.leaf])
  · exact Tree.owns_of_label (by simp [Tree.leaf]) (by simp [Tree.leaf])
  · rintro - target ⟨⟩ hx
    exact Label.name.inj hx
  · exact Tree.owns_of_label (by simp) (by simp)
  · exact Tree.owns_of_label (by simp) (by simp)

theorem Tree.Avoids.declareSlot (h : d.Avoids x) : (d.declareSlot v).Avoids x :=
  All.declareSlot (fun _ hl hu => hl ▸ hu) h

theorem DeclWalked.toScoped (h : DeclWalked c ν names d gs e) (hx : Spare x) (hd : d.Avoids x) (hn : e.ids.Nodup) :
    Scoped x [] [e] := by
  cases h with
  | kept hset hw => exact (hw.toScoped hx.slotless (by simpa using hd) (by simpa using hn)).1 rfl
  | declared hl hv hty hgs hfree hw =>
    exact (hw.toScoped hx.slotless (by simpa using hd.declareSlot) (by simpa using hn)).1 rfl

theorem Tree.Proper.declareSlot (h : d.Proper) : (d.declareSlot v).Proper := by
  unfold Tree.declareSlot
  split
  · next i ty l x hs bs os =>
    rw [Tree.proper_iff, List.forall_mem_cons] at h ⊢
    have hx : (x.withTy (some v.slotTy)).Proper := (Tree.all_withTy (by simp)).2 h.1.1.1
    exact ⟨⟨⟨hx, by simpa using h.1.1.2⟩, h.1.2⟩, h.2⟩
  · exact h

theorem Tree.Source.declareSlot (h : d.Source c x) (hl : d.label ≠ .storageRead) :
    (d.declareSlot v).Source c x := by
  refine ⟨h.fits.declareSlot, h.proper.declareSlot, h.avoids.declareSlot, ?_⟩
  have hreads := h.reads
  unfold Tree.declareSlot
  split
  · rw [Tree.all_iff] at hreads ⊢
    refine ⟨fun hr => absurd hr hl, ?_⟩
    simp only [Tree.kids_node, List.cons_append, List.forall_mem_cons] at hreads ⊢
    exact ⟨(Tree.all_withTy (by simp)).2 hreads.2.1, hreads.2.2⟩
  · exact hreads

theorem DeclWalked.owns (h : DeclWalked c ν names d gs e) (hd : d.Source c x) : e.All (Tree.Owns x) := by
  cases h with
  | kept hset hw => exact (hw.owns (by simpa using hd)).1 e (by simp)
  | declared hl hv hty hgs hfree hw =>
    obtain ⟨_, _, _, hl⟩ := hl
    exact (hw.owns (by simpa using hd.declareSlot (by simp [hl]))).1 e (by simp)

/-- Trees that share no node, each of which confines the name or does not have it. -/
theorem toScoped_of_forall {ts : List Tree} (h : ∀ t ∈ ts, Scoped x [] [t]) (hn : (ts.flatMap Tree.ids).Nodup) :
    Scoped x [] ts := by
  induction ts with
  | nil => exact .inl (by simp)
  | cons t ts ih =>
    obtain ⟨ht, hts⟩ := List.forall_mem_cons.1 h
    have hn' : (([t] ++ ts).flatMap Tree.ids).Nodup := hn
    rw [List.flatMap_append, List.nodup_append'] at hn'
    simpa using ht.append (ih hts hn'.2.1) (by simpa using hn)

namespace Rooted

/-- What is in the body of the module after the walk. -/
theorem exists_of_mem (h : Rooted c ν names ds es) (he : e ∈ es) :
    (∃ d ∈ ds, ∃ names gs, DeclWalked c ν names d gs e) ∨ ∃ v, Getter v e := by
  obtain ⟨es, gs, rfl, hes, hgs⟩ := h.exists_getters
  rcases List.mem_append.1 he with he | he
  · obtain ⟨k, hk, rfl⟩ := List.getElem_of_mem he
    exact .inl ⟨_, List.getElem_mem (hes.length_eq ▸ hk), hes.get (hes.length_eq ▸ hk) hk⟩
  · obtain ⟨k, hk, rfl⟩ := List.getElem_of_mem he
    exact .inr ⟨_, hgs.get (hgs.length_eq ▸ hk) hk⟩

/-- **Temporaries in a module.** What the walk makes of the module confines the name, or does not have it. -/
theorem confines {i : NodeId} {ty : Option Ty} (h : Rooted c ν names ds es) (hx : Spare x)
    (hds : ∀ d ∈ ds, d.Avoids x) (hn : (Tree.node i ty .module [] es []).ids.Nodup) :
    (Tree.node i ty .module [] es []).Avoids x ∨ Confines x (.node i ty .module [] es []) := by
  have hall : ∀ e ∈ es, Scoped x [] [e] := by
    intro e he
    have hids : e.ids.Nodup := Tree.nodup_kid hn (by simpa using he)
    rcases h.exists_of_mem he with ⟨d, hd, _, _, hwalked⟩ | ⟨v, hg⟩
    · exact hwalked.toScoped hx (hds d hd) hids
    · exact hg.toScoped hx hids
  rcases toScoped_of_forall hall (Tree.nodup_body hn) with h | ⟨before, b, after, hnil, -⟩ | ⟨-, h⟩
  · exact .inl (Tree.avoids_iff.2 ⟨by simp, by simpa using h⟩)
  · simp at hnil
  · exact .inr (Contains.confines (by simpa using h) (by simp))

theorem owns (h : Rooted c ν names ds es) (hds : ∀ d ∈ ds, d.Source c x) : ∀ e ∈ es, e.All (Tree.Owns x) := by
  intro e he
  rcases h.exists_of_mem he with ⟨d, hd, _, _, hwalked⟩ | ⟨v, hg⟩
  · exact hwalked.owns (hds d hd)
  · exact hg.owns

end Rooted

end

/-! ## The store -/

theorem Tree.Fits.bound?_kind {t : Tree} (h : t.Fits) :
    t.kind.bound? = if t.label = .storageRead ∨ t.label = .assign then t.heads.head?.map Tree.id else none := by
  obtain ⟨hl, hheads, -⟩ := Label.parts_kind h.top
  rw [Kind.bound?_eq, Tree.kind, hl, hheads, List.head?_map]

theorem Frame.mem_kids_cases {f : Frame} {us : List Tree} {k : Tree} (hk : k ∈ (f.plug us).kids) :
    k ∈ f.left ++ f.first ++ f.second ∨ k ∈ us ∨ k ∈ f.right := by
  rw [kids_plug, before, after] at hk
  simp only [List.mem_append]
  cases hp : f.part <;> simp only [hp, List.mem_append] at hk <;> tauto

theorem Kind.links_mem_statementLists {k : Kind} {p : Part} (hp : p ≠ .heads) (hne : k.links p ≠ []) :
    k.links p ∈ k.statementLists := by
  cases p with
  | heads => exact absurd rfl hp
  | body => cases k <;> simp_all [links, body, statementLists]
  | orelse => cases k <;> simp_all [links, orelse, statementLists]

namespace Store

/-- A statement in a list of one of the nodes binds `target`, which has the name, and whatever else among the nodes
has the name is in a statement behind it in that list. -/
def BindsFirst (s : Store) (ns : List Node) (x : String) (bind target : NodeId) : Prop :=
  ∃ block ∈ ns, ∃ before after, before ++ bind :: after ∈ block.kind.statementLists ∧
    (s.kind? bind).bind Kind.bound? = some target ∧ s.kind? target = some (.name x) ∧
    ∀ n ∈ ns, n.kind = .name x → n.id = target ∨ ∃ stmt ∈ after, n ∈ s.preorder stmt

variable {s : Store} {p : Option NodeId} {t : Tree} {x : String}

theorem Holds.avoids_iff (h : s.Holds p t) (hf : t.Fits) : t.Avoids x ↔ ∀ n ∈ t.nodes p, n.kind ≠ .name x := by
  induction t generalizing p with
  | step t ih =>
    have htop : t.label ≠ .name x ↔ t.kind ≠ .name x := by
      rw [← hf.label_kind]
      exact ⟨fun hne he => hne (by rw [he]; rfl), fun hne he => hne (Kind.eq_name_of_label he)⟩
    rw [Tree.avoids_iff, htop, Tree.nodes_eq]
    simp only [List.forall_mem_cons, List.mem_flatMap, forall_exists_index, and_imp, Tree.root_kind]
    exact and_congr_right fun _ => ⟨fun hk n k hmem hn => (ih k hmem (h.kid hmem) (hf.kid hmem)).1
      (hk k hmem) n hn, fun hk k hmem => (ih k hmem (h.kid hmem) (hf.kid hmem)).2 fun n hn => hk n k hmem hn⟩

/-- What a store says of the node at the top of each part of a tree. -/
theorem Holds.all {P : Tree → Prop} (h : s.Holds p t) (hf : t.Fits) (hn : t.ids.Nodup)
    (hP : ∀ u q, s.Holds q u → u.Fits → u.ids.Nodup → u.root q ∈ t.nodes p → P u) : t.All P := by
  induction t generalizing p with
  | step t ih =>
    rw [Tree.nodes_eq] at hP
    refine Tree.all_iff.2 ⟨hP t p h hf hn List.mem_cons_self, fun k hk => ?_⟩
    refine ih k hk (h.kid hk) (hf.kid hk) (Tree.nodup_kid hn hk) fun u q hu hfu hnu hmem => hP u q hu hfu hnu ?_
    exact List.mem_cons_of_mem _ (List.mem_flatMap.2 ⟨k, hk, hmem⟩)

theorem Holds.access?_eq_none {c : Catalog} (h : s.Holds p t) (hf : t.Fits) (hn : t.ids.Nodup)
    (hno : ∀ a, s.accessAt c t.id ≠ .ok (some a)) : t.access? c = none := by
  rcases h.accessAt (c := c) hf hn with ⟨-, hnone, -⟩ | ⟨-, ⟨v, hreach, hshort⟩, -⟩ | ⟨v, -, hat⟩
  · exact hnone
  · rw [Tree.access?, hreach, Option.filter_some, if_neg (by simpa using hshort.ne')]
  · exact absurd hat (hno _)

/-- A statement that binds a temporary. -/
theorem Holds.binder (h : s.Holds p t) (hf : t.Fits) (hb : Binder x t) : ∃ target, tempName target = x ∧
    (s.kind? t.id).bind Kind.bound? = some target ∧ s.kind? target = some (.name x) ∧
    s.parent? target = some t.id ∧ ∀ n ∈ t.nodes p, n.kind = .name x → n.id = target := by
  obtain @⟨i, temp, ty, ty', l, hs, hl, rfl, hrest⟩ := hb
  have hkid : ∀ k ∈ tempLeaf temp ty' :: hs, s.Holds (some i) k := fun k hk => h.kid (by simpa using hk)
  have hleaf := hkid _ List.mem_cons_self
  refine ⟨temp, rfl, ?_, hleaf.kind?, hleaf.parent?, fun n hn hx => ?_⟩
  · rw [h.kind?, Option.bind_some, hf.bound?_kind]
    exact if_pos hl
  · rw [Tree.nodes_eq, List.mem_cons, List.mem_flatMap] at hn
    rcases hn with rfl | ⟨k, hk, hn⟩
    · have htop : l = .name (tempName temp) := hf.label_kind.symm.trans (congrArg Kind.label hx)
      rcases hl with rfl | rfl <;> cases htop
    · simp only [Tree.kids_node, List.append_nil, List.mem_cons] at hk
      rcases hk with rfl | hk
      · obtain rfl : n = (tempLeaf temp ty').root (some i) := by
          simpa [tempLeaf, Tree.leaf, Tree.nodes_eq] using hn
        rfl
      · exact absurd hx (((hkid k (by simp [hk])).avoids_iff (hf.kid (by simp [hk]))).1 (hrest k hk) n hn)

/-- Where a name that a tree confines is bound in a store that holds the tree. -/
theorem Holds.bindsFirst (h : s.Holds p t) (hf : t.Fits) (hn' : t.ids.Nodup) (hc : Confines x t) :
    ∃ bind target, s.BindsFirst (t.nodes p) x bind target ∧ tempName target = x ∧
      s.parent? target = some bind := by
  have hnodes : ∀ {t : Tree} {p : Option NodeId} {n : Node}, t.Fits → t.label ≠ .name x → n ∈ t.nodes p →
      n.kind = .name x → ∃ k ∈ t.kids, n ∈ k.nodes (some t.id) := by
    intro t p n hf hl hn hx
    rw [Tree.nodes_eq, List.mem_cons, List.mem_flatMap] at hn
    refine hn.resolve_left ?_
    rintro rfl
    rw [← hf.label_kind] at hl
    exact hl (congrArg Kind.label hx)
  induction hc generalizing p with
  | @here f b hp hl hs hb =>
    have hkid : ∀ {k}, k ∈ (f.plug [b]).kids → s.Holds (some f.id) k := fun hk => by simpa using h.kid hk
    have hmem : b ∈ (f.plug [b]).kids := by simp
    obtain ⟨target, hx, hbound, hname, hparent, honly⟩ := (hkid hmem).binder (hf.kid hmem) hb
    refine ⟨b.id, target, ⟨(f.plug [b]).root p, by rw [Tree.nodes_eq]; exact List.mem_cons_self,
      f.left.map Tree.id, f.right.map Tree.id, ?_, hbound, hname, fun n hn hnx => ?_⟩, hx, hparent⟩
    · have hlist : (f.plug [b]).kind.links f.part = f.left.map Tree.id ++ b.id :: f.right.map Tree.id := by
        simpa using Frame.links_kind hf hp
      rw [Tree.root_kind, ← hlist]
      exact Kind.links_mem_statementLists hp (by rw [hlist]; simp)
    · obtain ⟨k, hk, hnk⟩ := hnodes hf (by simpa using hl) hn hnx
      rw [Frame.id_plug] at hnk
      rcases Frame.mem_kids_cases hk with hside | hb | hright
      · exact absurd hnx (((hkid hk).avoids_iff (hf.kid hk)).1 (hs k hside) n hnk)
      · obtain rfl := List.mem_singleton.1 hb
        exact .inl (honly n hnk hnx)
      · refine .inr ⟨k.id, List.mem_map_of_mem hright, ?_⟩
        rwa [(hkid hk).preorder_eq (hf.kid hk) (Tree.nodup_kid hn' hk)]
  | @inside t u before after hl hk hs hu ih =>
    have hmem : u ∈ t.kids := by simp [hk]
    obtain ⟨bind, target, ⟨block, hblock, before', after', hlist, hbound, hname, hocc⟩, hx, hparent⟩ :=
      ih (h.kid hmem) (hf.kid hmem) (Tree.nodup_kid hn' hmem)
    refine ⟨bind, target, ⟨block, ?_, before', after', hlist, hbound, hname, fun n hn hnx => ?_⟩, hx, hparent⟩
    · rw [Tree.nodes_eq]
      exact List.mem_cons_of_mem _ (List.mem_flatMap.2 ⟨u, hmem, hblock⟩)
    · obtain ⟨k, hkmem, hnk⟩ := hnodes hf hl hn hnx
      have hout : k ∉ before ++ after := fun hside =>
        ((h.kid hkmem).avoids_iff (hf.kid hkmem)).1 (hs k hside) n hnk hnx
      rw [hk, List.mem_append, List.mem_cons] at hkmem
      obtain rfl : k = u := by
        rw [List.mem_append] at hout
        tauto
      exact hocc n hnk hnx

/-- A statement that binds a node of this name binds the one that the name is spelled after. -/
theorem Holds.bound_own {n : Node} {i : NodeId} (h : s.Holds none t) (hf : t.Fits) (ho : t.All (Tree.Owns x))
    (hn : n ∈ t.nodes none) (hb : n.kind.bound? = some i) (hi : s.kind? i = some (.name x)) :
    tempName i = x ∧ s.parent? i = some n.id := by
  refine ⟨?_, (h.parent?_of_child hf hn (Kind.mem_children_of_bound? hb)).2⟩
  obtain ⟨C, u, rfl, rfl⟩ := h.exists_of_mem_nodes hn
  have hfu : u.Fits := Ctx.fits_of_plug hf
  rw [Tree.root_kind, hfu.bound?_kind] at hb
  split_ifs at hb with hl
  obtain ⟨y, hy, rfl⟩ := Option.map_eq_some_iff.1 hb
  have hmem : y ∈ u.kids := by simp [Tree.kids, List.mem_of_mem_head? hy]
  refine (Tree.All.of_plug ho).top hl y hy ?_
  rw [← (hfu.kid hmem).label_kind, Option.some.inj ((h.inside.kid hmem).kind?.symm.trans hi)]
  rfl

end Store

theorem spare_temp (k : Nat) : Spare ("__tmp_" ++ toString k) where
  slotless v h := by
    -- a slot has a letter that neither the stem nor a digit is
    have hmem : 'E' ∈ ("__tmp_" ++ toString k).toList := by
      rw [← h]
      simp [StorageVar.slotName]
    rw [String.toList_append, List.mem_append] at hmem
    rcases hmem with hmem | hmem
    · revert hmem
      decide
    · rw [Nat.toString_eq_ofList_toDigits, String.toList_ofList] at hmem
      have hdigit : 'E'.isDigit = true := Nat.isDigit_of_mem_toDigits (b := 10) (by decide) (by decide) hmem
      revert hdigit
      decide
  keyless n h := by
    have := congrArg String.toList h
    simp [String.toList_append] at this

namespace Lowering

variable {w w' : Workspace Progress} {m : NodeId}

/-- **Temporaries are bound before they are used.** Let no name or argument of the source be spelled like a
temporary, and let the pass come to its end. Then each temporary in the tree is bound by a statement, and whatever
else has its name is in a statement behind that one in the same list. No second statement binds it, if no read of a
slot in the source has a complete access for its target. -/
theorem run_binds_temporaries {cfg : Print.Config} {text : String} {n : Node} {k : Nat} (hs : w.store.Sound)
    (hv : w.store.verify m = .ok ()) (honly : ∀ n ∈ w.store.preorder m, n.kind.isModule = true → n.id = m)
    (hrender : Print.render w.store cfg m = .ok text)
    (hnames : ∀ n ∈ w.store.preorder m, ∀ x, n.kind.identifier? = some x → ¬ IsTemp x) (hrun : run m w = .ok () w')
    (hn : n ∈ w'.store.preorder m) (hx : n.kind = .name ("__tmp_" ++ toString k)) :
    ∃ bind target, w'.store.BindsFirst (w'.store.preorder m) ("__tmp_" ++ toString k) bind target ∧
      ((∀ r ∈ w.store.preorder m, ∀ target slot keys, r.kind = .storageRead target slot keys →
          ∀ a, w.store.accessAt (w.store.stateVars m) target ≠ .ok (some a)) →
        ∀ b ∈ w'.store.preorder m, ∀ i, b.kind.bound? = some i →
          w'.store.kind? i = some (.name ("__tmp_" ++ toString k)) → b.id = bind) := by
  have htemp : IsTemp ("__tmp_" ++ toString k) := by
    rw [IsTemp, String.toList_append]
    exact List.prefix_append ..
  have hspare := spare_temp k
  generalize "__tmp_" ++ toString k = x at *
  obtain ⟨T, rfl, hf, hnodup, hT⟩ := (Store.verify_iff hs.nodup m).1 hv
  obtain ⟨hproper, -⟩ := Print.proper_of_render hT hf hrender
  obtain ⟨ty, body, body', hbody, hran⟩ := exists_ran hs hf hnodup hT (hT.no_module hf hnodup honly) hrun
  have hpre := hT.preorder_eq hf hnodup
  have hcat := hT.stateVars_eq hf hnodup
  have havoids : T.Avoids x := (hT.avoids_iff hf).2 fun n hn he => hnames n (hpre ▸ hn) x (by rw [he]; rfl) htemp
  generalize T.id = m at *
  subst hbody
  have h' := hran.has
  have hT' := h'.holds
  have hf' := h'.fits
  have hn' := h'.nodup
  have hpre' : w'.store.preorder m = (Tree.node m ty .module [] body' []).nodes none := hT'.preorder_eq hf' hn'
  have hconf := (hran.rooted.confines hspare (fun d hd => havoids.kid (by simpa using hd)) hn').resolve_left
    fun h => (hT'.avoids_iff hf').1 h n (hpre' ▸ hn) hx
  obtain ⟨bind, target, hfirst, hname, hparent⟩ := hT'.bindsFirst hf' hn' hconf
  rw [← hpre'] at hfirst
  refine ⟨bind, target, hfirst, fun hreads b hb i hbound hi => ?_⟩
  have hreading : (Tree.node m ty .module [] body []).All fun u =>
      u.label = .storageRead → ∀ target ∈ u.heads.head?, target.access? (Tree.catalogOf body) = none := by
    refine hT.all hf hnodup fun u q hu hfu hnu hmem hl target ht => ?_
    have hkid : target ∈ u.kids := by simp [Tree.kids, List.mem_of_mem_head? ht]
    have hkind : u.kind.bound? = some target.id := by
      rw [hfu.bound?_kind, if_pos (.inl hl), ht]
      rfl
    obtain ⟨slot, keys, hread⟩ : ∃ slot keys, u.kind = .storageRead target.id slot keys := by
      have hlabel := hfu.label_kind.trans hl
      generalize u.kind = kind at hkind hlabel
      cases kind <;> cases hlabel
      cases hkind
      exact ⟨_, _, rfl⟩
    refine (hu.kid hkid).access?_eq_none (hfu.kid hkid) (Tree.nodup_kid hnu hkid) ?_
    exact hcat ▸ hreads (u.root q) (hpre ▸ hmem) target.id slot keys hread
  have hsource : ∀ d ∈ body, d.Source (Tree.catalogOf body) x := fun d hd =>
    have hmem : d ∈ (Tree.node m ty .module [] body []).kids := by simpa using hd
    ⟨hf.kid hmem, hproper.kid hmem, havoids.kid hmem, hreading.kid hmem⟩
  have howns : (Tree.node m ty .module [] body' []).All (Tree.Owns x) :=
    Tree.all_iff.2 ⟨Tree.owns_of_label (by simp) (by simp), by simpa using hran.rooted.owns hsource⟩
  obtain ⟨hown, hbparent⟩ := hT'.bound_own hf' howns (hpre' ▸ hb) hbound hi
  rw [tempName_injective (hown.trans hname.symm), hparent] at hbparent
  exact (Option.some.inj hbparent).symm

theorem run_binds_temporaries_vault : ∃ w' bind target, run ⟨0⟩ ⟨vault, {}⟩ = .ok () w' ∧
    w'.store.BindsFirst (w'.store.preorder ⟨0⟩) "__tmp_28" bind target ∧
    ∀ b ∈ w'.store.preorder ⟨0⟩, ∀ i, b.kind.bound? = some i → w'.store.kind? i = some (.name "__tmp_28") →
      b.id = bind := by
  have hrun : ∃ w', run ⟨0⟩ ⟨vault, {}⟩ = .ok () w' ∧
      (w'.store.preorder ⟨0⟩).any (fun n => decide (n.kind = .name "__tmp_28")) = true := by decide +kernel
  obtain ⟨w', hrun, hany⟩ := hrun
  obtain ⟨n, hn, hx⟩ := List.any_eq_true.1 hany
  obtain ⟨text, hrender⟩ := render_vault
  have hnames : ∀ n ∈ vault.preorder ⟨0⟩, ∀ x ∈ n.kind.identifier?, ¬ IsTemp x := by decide
  have hreads : ∀ r ∈ vault.preorder ⟨0⟩, r.kind.label ≠ .storageRead := by decide
  have hs := sound_vault
  have hv := verify_vault
  have honly := only_module_vault
  generalize vault = s at *
  obtain ⟨bind, target, hfirst, honce⟩ :=
    run_binds_temporaries (w := ⟨s, {}⟩) (k := 28) hs hv (fun n hn => (honly n hn).1)
    hrender hnames hrun hn (of_decide_eq_true hx)
  exact ⟨w', bind, target, hrun, hfirst, honce fun r hr _ _ _ hk => absurd (congrArg Kind.label hk) (hreads r hr)⟩

/-- A contract that reads a slot into a state variable:
```
x: uint256
y: uint256
def f():
    self.x = storage_read y_STORAGE
```
-/
def reread : Store :=
  .ofTree
    (.node ⟨0⟩ none .module [] [
      .node ⟨1⟩ (some (.uint 256)) (.variableDecl false false false) [.leaf ⟨2⟩ none (.name "x")] [] [],
      .node ⟨3⟩ (some (.uint 256)) (.variableDecl false false false) [.leaf ⟨4⟩ none (.name "y")] [] [],
      .node ⟨5⟩ none (.functionDef "f" .external .nonPayable) [] [
        .node ⟨6⟩ none .storageRead [.node ⟨7⟩ none (.member "x") [.leaf ⟨8⟩ none (.name "self")] [] [],
          .leaf ⟨9⟩ none (.name "y_STORAGE")] [] []] []] [])
    ⟨10⟩

/-- The target of a read of a slot that the source has is taken for a value, and so its temporary is bound a second
time. -/
theorem run_binds_twice : reread.Sound ∧ reread.verify ⟨0⟩ = .ok () ∧
    (∀ n ∈ reread.preorder ⟨0⟩, n.kind.isModule = true → n.id = ⟨0⟩) ∧
    (∃ text, Print.render reread {} ⟨0⟩ = .ok text) ∧
    (∀ n ∈ reread.preorder ⟨0⟩, ∀ x ∈ n.kind.identifier?, ¬ IsTemp x) ∧
    ∃ w', run ⟨0⟩ ⟨reread, {}⟩ = .ok () w' ∧ ((w'.store.preorder ⟨0⟩).filter fun b =>
      b.kind.bound?.bind w'.store.kind? = some (.name "__tmp_10")).map Node.id = [⟨13⟩, ⟨6⟩] :=
  ⟨⟨by decide, by decide, by decide⟩, by decide +kernel, by decide, by decide +kernel, by decide, by
    decide +kernel⟩

end Lowering

end ContractTree
