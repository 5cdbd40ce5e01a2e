import ContractTree.Proofs.Accounting
import ContractTree.Proofs.Consistency
import ContractTree.Proofs.Targets

/-!
Code that does not refer to storage is left alone. Functions and statements without a reference to storage are
watched by a guard (`Watch.guard`): whatever is moved, taken apart or put in front of a statement, they are parts
of the trees in the store (`Tree.PartOf`), and those that were in one statement list still are, in the same order.
So the pass leaves them as they were, whether it comes to its end or stops on the way (`Lowering.run_untouched`).
-/

namespace ContractTree

/-! ## Parts of trees -/

namespace Tree

/-- The tree `u` is `t` or below it. -/
def PartOf (u t : Tree) : Prop := ∃ C : Ctx, C.plug u = t

/-- One of the lists of children. -/
def list (t : Tree) : Part → List Tree
  | .heads => t.heads
  | .body => t.body
  | .orelse => t.orelse

variable {t u x k : Tree} {K : Ctx} {P : Tree → Prop} {c : Catalog} {v : StorageVar}

theorem PartOf.refl (t : Tree) : t.PartOf t := ⟨[], rfl⟩

theorem PartOf.trans (h : u.PartOf t) (h' : t.PartOf x) : u.PartOf x := by
  obtain ⟨C, rfl⟩ := h
  obtain ⟨D, rfl⟩ := h'
  exact ⟨C ++ D, Ctx.plug_append ..⟩

theorem PartOf.of_kid (hk : k ∈ t.kids) : k.PartOf t := by
  obtain ⟨f, rfl⟩ := exists_frame hk
  exact ⟨[f], rfl⟩

theorem partOf_iff : u.PartOf t ↔ u = t ∨ ∃ k ∈ t.kids, u.PartOf k := by
  constructor
  · rintro ⟨C, rfl⟩
    rcases List.eq_nil_or_concat C with rfl | ⟨D, f, rfl⟩
    · exact .inl rfl
    · rw [List.concat_eq_append, Ctx.plug_append]
      exact .inr ⟨Ctx.plug D u, by simp, D, rfl⟩
  · rintro (rfl | ⟨k, hk, h⟩)
    · exact .refl u
    · exact h.trans (.of_kid hk)

theorem PartOf.ids_subset (h : u.PartOf t) : u.ids ⊆ t.ids := by
  obtain ⟨C, rfl⟩ := h
  exact fun i hi => (Ctx.mem_ids_plug _ _ _).2 (.inr hi)

theorem PartOf.fits (h : u.PartOf t) (hf : t.Fits) : u.Fits := by
  obtain ⟨C, rfl⟩ := h
  exact Ctx.fits_of_plug hf

theorem PartOf.nodup (h : u.PartOf t) (hn : t.ids.Nodup) : u.ids.Nodup := by
  obtain ⟨C, rfl⟩ := h
  exact ((Ctx.nodup_plug C u).1 hn).2.1

theorem PartOf.all (h : u.PartOf t) (ht : t.All P) : u.All P := by
  obtain ⟨C, rfl⟩ := h
  exact All.of_plug ht

theorem mem_kids_of_list {p : Part} (h : k ∈ t.list p) : k ∈ t.kids := by
  cases p <;> simp_all [list, kids]

theorem all_iff_partOf : t.All P ↔ ∀ u, PartOf u t → P u := by
  refine ⟨fun h u hu => (hu.all h).top, fun h => ?_⟩
  induction t with
  | step t ih => exact all_iff.2 ⟨h t (.refl t), fun k hk => ih k hk fun u hu => h u (hu.trans (.of_kid hk))⟩

/-- Parts with one identity are one. -/
theorem PartOf.unique {y : Tree} (hn : t.ids.Nodup) (hu : u.PartOf t) (hy : y.PartOf t) (hid : u.id = y.id) :
    u = y := by
  obtain ⟨C, rfl⟩ := hu
  obtain ⟨D, hD⟩ := hy
  exact (Ctx.plug_inj hD.symm hn hid).2

/-- In trees that share no node, parts with one identity are one. -/
theorem PartOf.eq_of_id {ts : List Tree} {y : Tree} (hn : (ts.flatMap ids).Nodup) (ht : t ∈ ts) (hu : u.PartOf t)
    (hx : x ∈ ts) (hy : y.PartOf x) (hid : u.id = y.id) : u = y := by
  have hin : u.id ∈ x.ids := hid ▸ hy.ids_subset y.id_mem_ids
  obtain ⟨xs, ys, rfl⟩ := List.append_of_mem ht
  rw [List.flatMap_append, List.flatMap_cons, List.nodup_append', List.nodup_append'] at hn
  obtain ⟨-, ⟨ht, -, hright⟩, hleft⟩ := hn
  rcases List.mem_append.1 hx with hx | hx
  · exact absurd (List.mem_append_left _ (hu.ids_subset u.id_mem_ids)) (hleft (List.mem_flatMap.2 ⟨_, hx, hin⟩))
  · rcases List.mem_cons.1 hx with rfl | hx
    · exact hu.unique ht hy hid
    · exact absurd (List.mem_flatMap.2 ⟨_, hx, hin⟩) (hright (hu.ids_subset u.id_mem_ids))

/-- The nodes of a part, with its parent. -/
theorem PartOf.nodes_subset (h : u.PartOf t) (p : Option NodeId) : ∃ q, u.nodes q ⊆ t.nodes p := by
  obtain ⟨C, rfl⟩ := h
  induction C generalizing u with
  | nil => exact ⟨p, fun n hn => hn⟩
  | cons f C ih =>
    obtain ⟨q, hq⟩ := ih (u := f.plug [u])
    refine ⟨some f.id, fun n hn => hq ?_⟩
    rw [nodes_eq, Frame.id_plug, Frame.kids_plug]
    exact List.mem_cons_of_mem _ (List.mem_flatMap.2 ⟨u, by simp, hn⟩)

/-- A declaration of a state variable has its name in front. -/
theorem exists_target_of_stateVar? (h : t.stateVar? = some v) : ∃ ty name hs bs os,
    t = .node v.decl ty (.variableDecl v.isPublic false false) (name :: hs) bs os ∧ name.label = .name v.name := by
  unfold stateVar? at h
  split at h
  · obtain ⟨declared, -, rfl⟩ := Option.map_eq_some_iff.1 h
    exact ⟨_, _, _, _, _, rfl, rfl⟩
  · cases h

theorem exists_of_receiver? (h : t.receiver? c = some v) : ∃ i ty attr x bs os,
    t = .node i ty (.member attr) [x] bs os ∧ x.label = .name "self" ∧ c.find? attr = some v := by
  unfold receiver? at h
  split at h
  · split at h
    · next hself => exact ⟨_, _, _, _, _, _, rfl, hself, h⟩
    · cases h
  · cases h

/-- Only the parent of the top depends on what the tree is below. -/
theorem nodes_modifyHead (t : Tree) (p q : Option NodeId) :
    t.nodes q = (t.nodes p).modifyHead ({ · with parent := q }) := by
  rw [nodes_eq, nodes_eq, List.modifyHead_cons]
  rfl

theorem Fits.links_list {p : Part} (hf : t.Fits) (hp : p ≠ .heads) : t.kind.links p = (t.list p).map id := by
  cases p with
  | heads => exact absurd rfl hp
  | body => exact hf.links_kind.1
  | orelse => exact hf.links_kind.2

/-- A part of an access is a node of the chain, `self`, or in a key. -/
theorem PartOf.reach_or_key (h : u.PartOf t) (hf : t.Fits) (hv : t.reach c = some v) :
    (u.reach c = some v ∨ u.label = .name "self") ∨ ∃ l ∈ t.links, u.PartOf l.key := by
  induction t with
  | step t ih =>
    rcases partOf_iff.1 h with rfl | ⟨k, hk, hu⟩
    · exact .inl (.inl hv)
    · rcases hf.subscript_cases with ⟨i, ty, y, key, rfl⟩ | hl
      · have hlinks : links (.node i ty .subscript [y, key] [] []) = y.links ++ [⟨i, ty, key⟩] := rfl
        have hy : y ∈ (Tree.node i ty .subscript [y, key] [] []).kids := by simp
        rw [hlinks]
        obtain rfl | rfl : k = y ∨ k = key := by simpa using hk
        · rcases ih k hy hu (hf.kid hy) hv with hspine | ⟨l, hl, hkey⟩
          · exact .inl hspine
          · exact .inr ⟨l, List.mem_append_left _ hl, hkey⟩
        · exact .inr ⟨_, List.mem_append_right _ (List.mem_singleton.2 rfl), hu⟩
      · obtain ⟨i, ty, attr, j, ty', hb, -⟩ := exists_self_of_reach hf hv
        rw [base_of_label hl] at hb
        subst hb
        obtain rfl : k = leaf j ty' (.name "self") := by simpa using hk
        rcases partOf_iff.1 hu with rfl | ⟨k', hk', -⟩
        · exact .inl (.inr rfl)
        · simp [leaf] at hk'

end Tree

namespace Frame

variable {f : Frame} {p : Part} {us vs : List Tree} {k k' y : Tree}

theorem list_plug_self : (f.plug us).list f.part = f.left ++ us ++ f.right := by
  unfold plug
  split <;> simp_all [Tree.list]

theorem list_plug_of_ne (h : p ≠ f.part) (us vs : List Tree) : (f.plug us).list p = (f.plug vs).list p := by
  unfold plug
  cases hf : f.part <;> cases p <;> simp_all [Tree.list]

/-- The first head of a node is beside the place, or in it. -/
theorem head?_heads_plug (h : y ∈ (f.plug [k']).heads.head?) :
    y ∈ (f.plug [k]).heads.head? ∨ y = k' ∧ k ∈ (f.plug [k]).heads.head? := by
  unfold plug at h ⊢
  cases hf : f.part <;> cases hl : f.left <;> simp_all

/-- Statements of a list stay there in order, if what is in the place is none of them. -/
theorem sublist_list_plug (h : us.Sublist ((f.plug [k]).list p)) (hk : k ∉ us) :
    us.Sublist ((f.plug vs).list p) := by
  by_cases hp : p = f.part
  · subst hp
    rw [list_plug_self] at h ⊢
    rw [List.append_assoc, List.sublist_append_iff] at h
    obtain ⟨as, bs, rfl, has, hbs⟩ := h
    rw [List.append_assoc]
    refine has.append (List.Sublist.trans ?_ (List.sublist_append_right vs f.right))
    rcases List.sublist_cons_iff.1 hbs with hbs | ⟨cs, rfl, -⟩
    · exact hbs
    · simp at hk
  · rwa [list_plug_of_ne hp _ [k]]

end Frame

namespace Ctx

variable {K : Ctx} {u t x : Tree} {P : Tree → Prop}

/-- The tree `u` is beside the way up from the place. -/
def Beside (K : Ctx) (u : Tree) : Prop := ∃ f ∈ K, ∃ k ∈ f.before ++ f.after, u.PartOf k

theorem Beside.partOf (h : K.Beside u) (x : Tree) : u.PartOf (K.plug x) := by
  obtain ⟨f, hf, k, hk, hu⟩ := h
  obtain ⟨D, C, rfl⟩ := List.append_of_mem hf
  rw [plug_append, plug_cons]
  refine (hu.trans (.of_kid ?_)).trans ⟨C, rfl⟩
  rw [Frame.kids_plug]
  simp only [List.mem_append] at hk ⊢
  tauto

/-- A part of a tree is inside of a place, or around it, or beside the way up from it. -/
theorem partOf_plug_cases (h : u.PartOf (K.plug t)) :
    u.PartOf t ∨ (∃ D C, K = D ++ C ∧ u = plug D t) ∨ K.Beside u := by
  induction K generalizing t with
  | nil => exact .inl h
  | cons f C ih =>
    rcases ih h with h | ⟨D, C', rfl, rfl⟩ | ⟨g, hg, hu⟩
    · rcases Tree.partOf_iff.1 h with rfl | ⟨k, hk, hu⟩
      · exact .inr (.inl ⟨[f], C, rfl, rfl⟩)
      · rw [Frame.kids_plug] at hk
        simp only [List.mem_append, List.mem_singleton] at hk
        rcases hk with (hk | rfl) | hk
        · exact .inr (.inr ⟨f, List.mem_cons_self, k, List.mem_append_left _ hk, hu⟩)
        · exact .inl hu
        · exact .inr (.inr ⟨f, List.mem_cons_self, k, List.mem_append_right _ hk, hu⟩)
    · exact .inr (.inl ⟨f :: D, C', rfl, rfl⟩)
    · exact .inr (.inr ⟨g, List.mem_cons_of_mem _ hg, hu⟩)

/-- Statements are put into the nearest statement list around the place. -/
theorem exists_emit_split (h : ∃ f ∈ K, f.part ≠ .heads) :
    ∃ I b O, K = I ++ b :: O ∧ b.part ≠ .heads ∧ ∀ es, K.emit es = I ++ b.push es :: O := by
  induction K with
  | nil => simp at h
  | cons f C ih =>
    by_cases hf : f.part = .heads
    · obtain ⟨g, hg, hpart⟩ := h
      rcases List.mem_cons.1 hg with rfl | hg
      · exact absurd hf hpart
      · obtain ⟨I, b, O, rfl, hb, hemit⟩ := ih ⟨g, hg, hpart⟩
        exact ⟨f :: I, b, O, rfl, hb, fun es => by rw [emit_heads hf, hemit, List.cons_append]⟩
    · exact ⟨[], f, C, rfl, hf, fun es => emit_list hf⟩

end Ctx

/-- What is true of all parts of a tree stays true when a part is exchanged, if it is true of the new part and does
not depend on more than the identities and the labels of children. -/
theorem Tree.All.exchange {P : Tree → Prop} {K : Ctx} {t x : Tree} (h : (K.plug t).All P) (hx : x.All P)
    (hcongr : ∀ {f : Frame} {k k' : Tree}, k'.id = k.id → k'.label = k.label → P (f.plug [k]) → P (f.plug [k']))
    (hplace : ∀ f : Frame, P (f.plug [t]) → P (f.plug [x])) : (K.plug x).All P := by
  induction K generalizing t x with
  | nil => exact hx
  | cons f C ih =>
    have hf : (f.plug [t]).All P := All.of_plug (C := C) h
    refine ih h (all_iff.2 ⟨hplace f hf.top, fun k hk => ?_⟩) fun g hg => hcongr (by simp) (by simp) hg
    rw [Frame.kids_plug] at hk
    simp only [List.mem_append, List.mem_singleton] at hk
    rcases hk with (hk | rfl) | hk
    · exact hf.kid (by simp [hk])
    · exact hx
    · exact hf.kid (by simp [hk])

/-! ## What is watched -/

/-- Whether a node of this sort is a function or a statement. -/
def Label.isCode (l : Label) : Bool := l.tag = .functionDef || l.tag.isStatement

/-- Somewhere in the tree the node `b` has `us` in one of its lists, in this order. -/
def Tree.Lines (b : NodeId) (p : Part) (us : List Tree) (t : Tree) : Prop :=
  ∃ v : Tree, v.PartOf t ∧ v.id = b ∧ us.Sublist (v.list p)

namespace Watch

/-- A function or statement of `T` that does not refer to storage. -/
structure Inert (c : Catalog) (T u : Tree) : Prop where
  part : u.PartOf T
  code : u.label.isCode = true
  clean : u.Clean c

/-- Functions and statements of `T` that do not refer to storage and are in one statement list of the node `b`, in
this order. -/
structure Lined (c : Catalog) (T : Tree) (b : NodeId) (p : Part) (us : List Tree) : Prop where
  part : p ≠ .heads
  ne_nil : us ≠ []
  inert : ∀ u ∈ us, Inert c T u
  lines : T.Lines b p us

/-- The nodes of such code, and the nodes that have it in their statement lists. -/
def Held (c : Catalog) (T : Tree) (i : NodeId) : Prop := (∃ u, Inert c T u ∧ i ∈ u.ids) ∨ ∃ p us, Lined c T i p us

/-- What is to be seen in one of the trees of the store. -/
inductive Watched (c : Catalog) (T : Tree) : (Tree → Prop) → Prop
  | inert {u : Tree} (h : Inert c T u) : Watched c T u.PartOf
  | lined {b : NodeId} {p : Part} {us : List Tree} (h : Lined c T b p us) : Watched c T (Tree.Lines b p us)

variable {c : Catalog} {T t u x y : Tree} {ts us vs : List Tree} {O : Tree → Prop} {K : Ctx} {f : Frame}
  {i b : NodeId} {p : Part}

theorem Inert.held (h : Inert c T u) (hi : i ∈ u.ids) : Held c T i := .inl ⟨u, h, hi⟩

theorem Lined.held (h : Lined c T b p us) : Held c T b := .inr ⟨p, us, h⟩

/-- What has such code in a list has statements. -/
theorem Lined.lists_ne_nil (h : Lined c T b p us) (hsub : us.Sublist (t.list p)) :
    ¬ (t.body = [] ∧ t.orelse = []) := by
  rintro ⟨hb, ho⟩
  refine h.ne_nil (List.sublist_nil.1 (hsub.trans ?_))
  cases hp : p with
  | heads => exact absurd hp h.part
  | body => exact hb ▸ List.Sublist.refl _
  | orelse => exact ho ▸ List.Sublist.refl _

/-- What has a node that is not held is no such code, and no such code is around it. -/
theorem Inert.ne_plug (h : Inert c T u) (hx : ∃ i ∈ x.ids, ¬ Held c T i) (D : Ctx) : u ≠ D.plug x := by
  rintro rfl
  obtain ⟨i, hi, hfree⟩ := hx
  exact hfree (h.held ((Ctx.mem_ids_plug _ _ _).2 (.inr hi)))

namespace Watched

theorem mono (h : Watched c T O) (hp : t.PartOf x) (ho : O t) : O x := by
  cases h with
  | inert h => exact ho.trans hp
  | lined h =>
    obtain ⟨v, hv, hrest⟩ := ho
    exact ⟨v, hv.trans hp, hrest⟩

/-- What is seen in a tree is seen below its top, unless the top is held. -/
theorem kid (h : Watched c T O) (ho : O t) (ht : ¬ Held c T t.id) : ∃ k ∈ t.kids, O k := by
  cases h with
  | inert h =>
    rcases Tree.partOf_iff.1 ho with rfl | hk
    · exact absurd (h.held (Tree.id_mem_ids _)) ht
    · exact hk
  | lined h =>
    obtain ⟨v, hv, rfl, hsub⟩ := ho
    rcases Tree.partOf_iff.1 hv with rfl | ⟨k, hk, hv⟩
    · exact absurd h.held ht
    · exact ⟨k, hk, v, hv, rfl, hsub⟩

/-- What is seen in an access is seen in one of its keys. -/
theorem key {v : StorageVar} (h : Watched c T O) (ho : O t) (hf : t.Fits) (hv : t.reach c = some v) :
    ∃ l ∈ t.links, O l.key := by
  cases h with
  | @inert u h =>
    rcases Tree.PartOf.reach_or_key ho hf hv with (hu | hu) | hkey
    · exact absurd h.clean (Tree.not_clean_of_reach hu)
    · have hcode := h.code
      rw [hu] at hcode
      cases hcode
    · exact hkey
  | @lined b p us h =>
    obtain ⟨w, hw, rfl, hsub⟩ := ho
    -- a node of the chain has no statements
    have hfw := hw.fits hf
    rcases hw.reach_or_key hf hv with (hu | hu) | ⟨l, hl, hkey⟩
    · exact absurd (Tree.lists_of_reach hfw hu) (h.lists_ne_nil hsub)
    · exact absurd (hfw.no_lists (by simp [hu, Label.isStatement])) (h.lists_ne_nil hsub)
    · exact ⟨l, hl, w, hkey, rfl, hsub⟩

/-- What is seen in a tree is seen in a part that is not held throughout, or whatever takes the place of the part.
-/
theorem exchange (h : Watched c T O) (ho : O (K.plug t)) (ht : ∃ i ∈ t.ids, ¬ Held c T i) :
    O t ∨ ∀ x, O (K.plug x) := by
  cases h with
  | inert h =>
    rcases Ctx.partOf_plug_cases ho with hu | ⟨D, C, -, hu⟩ | hu
    · exact .inl hu
    · exact absurd hu (h.ne_plug ht D)
    · exact .inr hu.partOf
  | lined h =>
    obtain ⟨v, hv, rfl, hsub⟩ := ho
    rcases Ctx.partOf_plug_cases hv with hv | ⟨D, C, rfl, rfl⟩ | hv
    · exact .inl ⟨v, hv, rfl, hsub⟩
    · rcases List.eq_nil_or_concat D with rfl | ⟨D, f, rfl⟩
      · exact .inl ⟨t, .refl t, rfl, hsub⟩
      · rw [List.concat_eq_append, Ctx.plug_append, Ctx.plug_cons, Ctx.plug_nil] at hsub
        refine .inr fun x => ⟨f.plug [Ctx.plug D x], ⟨C, ?_⟩, ?_, Frame.sublist_list_plug hsub fun hmem => ?_⟩
        · rw [List.concat_eq_append, List.append_assoc, Ctx.plug_append]
          rfl
        · rw [List.concat_eq_append, Ctx.plug_append, Ctx.plug_cons, Ctx.plug_nil, Frame.id_plug, Frame.id_plug]
        · exact (h.inert _ hmem).ne_plug ht D rfl
    · exact .inr fun x => ⟨v, hv.partOf x, rfl, hsub⟩

/-- What is seen in a tree is seen when more trees are put into a list of its top. -/
theorem grown (h : Watched c T O) (ho : O (f.plug us)) (hsub : us.Sublist vs)
    (hf : f.label = .module ∨ ∃ i ∈ (f.plug us).ids, ¬ Held c T i) : O (f.plug vs) := by
  have hkids : ∀ k ∈ (f.plug us).kids, k.PartOf (f.plug vs) := by
    intro k hk
    refine .of_kid ?_
    rw [Frame.kids_plug] at hk ⊢
    simp only [List.mem_append] at hk ⊢
    exact hk.imp_left (Or.imp_right (hsub.subset ·))
  cases h with
  | inert h =>
    rcases Tree.partOf_iff.1 ho with rfl | ⟨k, hk, hu⟩
    · rcases hf with hf | hf
      · have hcode := h.code
        rw [Frame.label_plug, hf] at hcode
        cases hcode
      · exact absurd rfl (h.ne_plug hf [])
    · exact hu.trans (hkids k hk)
  | @lined b p xs h =>
    obtain ⟨v, hv, rfl, hxs⟩ := ho
    rcases Tree.partOf_iff.1 hv with rfl | ⟨k, hk, hv⟩
    · refine ⟨f.plug vs, .refl _, by simp, hxs.trans ?_⟩
      by_cases hp : p = f.part
      · subst hp
        rw [Frame.list_plug_self, Frame.list_plug_self]
        exact ((List.Sublist.refl _).append hsub).append (List.Sublist.refl _)
      · rw [Frame.list_plug_of_ne hp us vs]
    · exact ⟨v, hv.trans (hkids k hk), rfl, hxs⟩

/-- What is held is in what is seen. -/
theorem of_held (hi : Held c T i) : ∃ O, Watched c T O ∧ ∀ t, O t → ∃ v : Tree, v.PartOf t ∧ i ∈ v.ids := by
  rcases hi with ⟨u, hu, hi⟩ | ⟨p, us, h⟩
  · exact ⟨_, .inert hu, fun t ht => ⟨u, ht, hi⟩⟩
  · refine ⟨_, .lined h, ?_⟩
    rintro t ⟨v, hv, rfl, -⟩
    exact ⟨v, hv, v.id_mem_ids⟩

end Watched

/-! ## The guard -/

/-- What a node that brings names into the program is: the module is `T`, and a declaration that the catalog lists
declares a name that is not held. -/
structure Scoped (c : Catalog) (T d : Tree) : Prop where
  module : d.label = .module → d.id = T.id
  declared : (∃ a b e, d.label = .variableDecl a b e) → (c.declaredAt? d.id).isSome → ∀ x ∈ d.heads.head?,
    (∃ y, x.label = .name y) ∧ ¬ Held c T x.id

/-- All that is watched is seen in one of the trees. -/
structure Safe (c : Catalog) (T : Tree) (ts : List Tree) : Prop where
  seen : ∀ {O : Tree → Prop}, Watched c T O → ∃ t ∈ ts, O t
  scopes : ∀ t ∈ ts, t.All (Scoped c T)

theorem Scoped.congr (h : Scoped c T t) (hid : u.id = t.id) (hl : u.label = t.label)
    (hheads : ∀ x ∈ u.heads.head?, ∃ y ∈ t.heads.head?, x.id = y.id ∧ x.label = y.label) : Scoped c T u := by
  refine ⟨fun hm => hid.trans (h.module (hl ▸ hm)), fun hd hv x hx => ?_⟩
  obtain ⟨y, hy, hxid, hxl⟩ := hheads x hx
  rw [hxid, hxl]
  exact h.declared (hl ▸ hd) (hid ▸ hv) y hy

/-- A node is no different when something else of the same identity and sort takes the place of a child. -/
theorem Scoped.congr_kid {k k' : Tree} (hid : k'.id = k.id) (hl : k'.label = k.label)
    (h : Scoped c T (f.plug [k])) : Scoped c T (f.plug [k']) := by
  refine h.congr (by simp) (by simp) fun x hx => ?_
  rcases Frame.head?_heads_plug hx with hx | ⟨rfl, hk⟩
  · exact ⟨x, hx, rfl, rfl⟩
  · exact ⟨k, hk, hid, hl⟩

/-- Nor when statements are put into one of its lists. -/
theorem Scoped.grown (hf : f.part ≠ .heads) (h : Scoped c T (f.plug us)) : Scoped c T (f.plug vs) := by
  have hheads : (f.plug vs).heads = (f.plug us).heads := Frame.list_plug_of_ne hf.symm vs us
  exact h.congr (by simp) (by simp) fun x hx => ⟨x, hheads ▸ hx, rfl, rfl⟩

namespace Safe

theorem perm (hp : ts.Perm us) (h : Safe c T ts) : Safe c T us where
  seen hO := by
    obtain ⟨t, ht, ho⟩ := h.seen hO
    exact ⟨t, hp.subset ht, ho⟩
  scopes t ht := h.scopes t (hp.mem_iff.2 ht)

theorem grow {ty : Option Ty} {l : Label} {hs bs os : List Tree} (hl : l.isScope = false)
    (h : Safe c T (hs ++ bs ++ os ++ us)) : Safe c T (.node i ty l hs bs os :: us) where
  seen hO := by
    obtain ⟨t, ht, ho⟩ := h.seen hO
    rcases List.mem_append.1 ht with ht | ht
    · exact ⟨_, List.mem_cons_self, hO.mono (.of_kid (by simpa using ht)) ho⟩
    · exact ⟨t, List.mem_cons_of_mem _ ht, ho⟩
  scopes := by
    refine List.forall_mem_cons.2 ⟨Tree.all_iff.2 ⟨⟨?_, ?_⟩, fun k hk => ?_⟩,
      fun t ht => h.scopes t (by simp [ht])⟩
    · rintro rfl
      cases hl
    · rintro ⟨a, b, e, rfl⟩
      cases hl
    · exact h.scopes k (List.mem_append_left _ (by simpa using hk))

theorem swap (ht : ¬ Held c T t.id) (hname : ∀ y, t.label ≠ .name y) (h : Safe c T (K.plug t :: x :: us)) :
    Safe c T (K.plug x :: t :: us) where
  seen hO := by
    obtain ⟨t', ht', ho⟩ := h.seen hO
    rcases List.mem_cons.1 ht' with rfl | ht'
    · rcases hO.exchange ho ⟨t.id, t.id_mem_ids, ht⟩ with ho | ho
      · exact ⟨t, by simp, ho⟩
      · exact ⟨K.plug x, by simp, ho x⟩
    · rcases List.mem_cons.1 ht' with rfl | ht'
      · exact ⟨K.plug t', by simp, hO.mono ⟨K, rfl⟩ ho⟩
      · exact ⟨t', by simp [ht'], ho⟩
  scopes := by
    obtain ⟨hK, hx, hus⟩ := List.forall_mem_cons.1 h.scopes |>.imp_right List.forall_mem_cons.1
    refine List.forall_mem_cons.2 ⟨hK.exchange hx Scoped.congr_kid fun f hf => ?_,
      List.forall_mem_cons.2 ⟨.of_plug hK, hus⟩⟩
    -- what is replaced is no name, so no declaration that the catalog lists has it in front
    refine ⟨fun hm => ?_, fun hd hv y hy => ?_⟩
    · rw [Frame.label_plug] at hm
      simpa using hf.module (by simpa using hm)
    · rw [Frame.label_plug] at hd
      rw [Frame.id_plug] at hv
      have hdecl := hf.declared (by simpa using hd) (by simpa using hv)
      rcases Frame.head?_heads_plug hy with hy | ⟨-, ht⟩
      · exact hdecl y hy
      · obtain ⟨⟨z, hz⟩, -⟩ := hdecl t ht
        exact absurd hz (hname z)

theorem fell (ht : ¬ Held c T t.id) (h : Safe c T (t :: us)) : Safe c T (t.kids ++ us) where
  seen hO := by
    obtain ⟨t', ht', ho⟩ := h.seen hO
    rcases List.mem_cons.1 ht' with rfl | ht'
    · obtain ⟨k, hk, ho⟩ := hO.kid ho ht
      exact ⟨k, List.mem_append_left _ hk, ho⟩
    · exact ⟨t', List.mem_append_right _ ht', ho⟩
  scopes := by
    obtain ⟨ht, hus⟩ := List.forall_mem_cons.1 h.scopes
    exact List.forall_mem_append.2 ⟨fun k hk => ht.kid hk, hus⟩

theorem strip {v : StorageVar} (hf : t.Fits) (hv : t.reach c = some v) (h : Safe c T (t :: us)) :
    Safe c T (t.links.map Link.key ++ us) where
  seen hO := by
    obtain ⟨t', ht', ho⟩ := h.seen hO
    rcases List.mem_cons.1 ht' with rfl | ht'
    · obtain ⟨l, hl, ho⟩ := hO.key ho hf hv
      exact ⟨l.key, List.mem_append_left _ (List.mem_map_of_mem hl), ho⟩
    · exact ⟨t', List.mem_append_right _ ht', ho⟩
  scopes := by
    obtain ⟨ht, hus⟩ := List.forall_mem_cons.1 h.scopes
    refine List.forall_mem_append.2 ⟨fun k hk => ?_, hus⟩
    obtain ⟨l, hl, rfl⟩ := List.mem_map.1 hk
    exact ht.key hl

/-- A list of a node, in a place of the first tree, takes up the second one. -/
theorem grown {O : Ctx} {e : Tree} (hf : f.part ≠ .heads)
    (hfree : f.label = .module ∨ ∃ i ∈ (f.plug us).ids, ¬ Held c T i) (hsub : us.Sublist vs)
    (hvs : ∀ v ∈ vs, v ∈ us ∨ v = e) (he : e ∈ vs) (h : Safe c T (O.plug (f.plug us) :: e :: ts))
    (hlist : O = [] ∨ ∃ i ∈ (f.plug us).ids, ¬ Held c T i) : Safe c T (O.plug (f.plug vs) :: ts) where
  seen hO := by
    obtain ⟨t, ht, ho⟩ := h.seen hO
    rcases List.mem_cons.1 ht with rfl | ht
    · refine ⟨O.plug (f.plug vs), by simp, ?_⟩
      rcases hlist with rfl | hlist
      · exact hO.grown ho hsub hfree
      · rcases hO.exchange ho hlist with ho | ho
        · exact hO.mono ⟨O, rfl⟩ (hO.grown ho hsub hfree)
        · exact ho _
    · rcases List.mem_cons.1 ht with rfl | ht
      · refine ⟨O.plug (f.plug vs), by simp, hO.mono ?_ ho⟩
        exact (Tree.PartOf.of_kid (by rw [Frame.kids_plug]; simp [he])).trans ⟨O, rfl⟩
      · exact ⟨t, by simp [ht], ho⟩
  scopes := by
    obtain ⟨hO, he, hts⟩ := List.forall_mem_cons.1 h.scopes |>.imp_right List.forall_mem_cons.1
    have hfu := Tree.All.of_plug hO
    refine List.forall_mem_cons.2 ⟨hO.exchange (Tree.all_iff.2 ⟨.grown hf hfu.top, fun k hk => ?_⟩)
      Scoped.congr_kid fun g hg => .congr_kid (by simp) (by simp) hg, hts⟩
    rw [Frame.kids_plug] at hk
    simp only [List.mem_append] at hk
    rcases hk with (hk | hk) | hk
    · exact hfu.kid (by simp [hk])
    · rcases hvs k hk with hk | rfl
      · exact hfu.kid (by simp [hk])
      · exact he
    · exact hfu.kid (by simp [hk])

theorem emit {e : Tree} (hx : ∃ i ∈ x.ids, ¬ Held c T i) (hK : ∃ f ∈ K, f.part ≠ .heads)
    (h : Safe c T (K.plug x :: e :: us)) : Safe c T ((K.emit [e]).plug x :: us) := by
  obtain ⟨I, b, O, rfl, hb, hemit⟩ := Ctx.exists_emit_split hK
  have hfree : ∃ i ∈ (b.plug [Ctx.plug I x]).ids, ¬ Held c T i := by
    obtain ⟨i, hi, hfree⟩ := hx
    exact ⟨i, (Ctx.mem_ids_plug [b] _ _).2 (.inr ((Ctx.mem_ids_plug I _ _).2 (.inr hi))), hfree⟩
  rw [Ctx.plug_append, Ctx.plug_cons] at h
  rw [hemit, Ctx.plug_append, Ctx.plug_cons, Frame.plug_push]
  exact grown hb (.inr hfree) (List.sublist_append_right [e] _) (by simp) (by simp) h (.inr hfree)

theorem append {ty : Option Ty} {body : List Tree} (h : Safe c T (.node i ty .module [] body [] :: u :: us)) :
    Safe c T (.node i ty .module [] (body ++ [u]) [] :: us) := by
  let f : Frame := ⟨i, ty, .module, .body, [], [], [], []⟩
  have hplug : ∀ vs, f.plug vs = .node i ty .module [] vs [] := fun vs => by simp [f, Frame.plug]
  rw [← hplug body] at h
  have hgrown : Safe c T (Ctx.plug [] (f.plug (body ++ [u])) :: us) :=
    grown (by simp [f]) (.inl rfl) (List.sublist_append_left _ _) (by simp) (by simp) h (.inl rfl)
  rwa [hplug, Ctx.plug_nil] at hgrown

theorem retype {ty : Option Ty} (ht : ¬ Held c T t.id) (h : Safe c T (K.plug t :: us)) :
    Safe c T (K.plug (t.withTy ty) :: us) where
  seen hO := by
    obtain ⟨t', ht', ho⟩ := h.seen hO
    rcases List.mem_cons.1 ht' with rfl | ht'
    · refine ⟨_, List.mem_cons_self, ?_⟩
      rcases hO.exchange ho ⟨t.id, t.id_mem_ids, ht⟩ with ho | ho
      · obtain ⟨k, hk, ho⟩ := hO.kid ho ht
        exact hO.mono (.trans (.of_kid (by simpa using hk)) ⟨K, rfl⟩) ho
      · exact ho _
    · exact ⟨t', List.mem_cons_of_mem _ ht', ho⟩
  scopes := by
    obtain ⟨hK, hus⟩ := List.forall_mem_cons.1 h.scopes
    have ht := Tree.All.of_plug hK
    refine List.forall_mem_cons.2 ⟨hK.exchange (Tree.all_iff.2 ⟨ht.top.congr (by simp) (by simp) fun x hx => ?_,
      fun k hk => ?_⟩) Scoped.congr_kid fun g hg => .congr_kid (by simp) (by simp) hg, hus⟩
    · exact ⟨x, by simpa using hx, rfl, rfl⟩
    · exact ht.kid (by simpa using hk)

theorem known (h : Safe c T ts) (hi : Held c T i) : i ∈ ts.flatMap Tree.ids := by
  obtain ⟨O, hO, hin⟩ := Watched.of_held hi
  obtain ⟨t, ht, ho⟩ := h.seen hO
  obtain ⟨v, hv, hi⟩ := hin t ho
  exact List.mem_flatMap.2 ⟨t, ht, hv.ids_subset hi⟩

theorem dirty {C : Ctx} (h : Safe c T ts) (hn : (ts.flatMap Tree.ids).Nodup) (ht : C.plug t ∈ ts)
    (hc : ¬ t.Clean c) (hb : t.body = []) (ho : t.orelse = []) : ¬ Held c T t.id := by
  rintro (⟨u, hu, hi⟩ | ⟨p, us, hus⟩)
  · obtain ⟨t', ht', hin⟩ := h.seen (.inert hu)
    obtain ⟨D, y, rfl, hid⟩ := Tree.exists_place hi
    have hy : y.PartOf (D.plug y) := ⟨D, rfl⟩
    obtain rfl := (hy.trans hin).eq_of_id hn ht' ht ⟨C, rfl⟩ hid
    exact hc (hy.all hu.clean)
  · obtain ⟨t', ht', v, hv, hid, hsub⟩ := h.seen (.lined hus)
    obtain rfl := hv.eq_of_id hn ht' ht ⟨C, rfl⟩ hid
    exact hus.lists_ne_nil hsub ⟨hb, ho⟩

theorem declared {C : Ctx} (h : Safe c T ts) (ht : C.plug t ∈ ts) (hl : ∃ a b d, t.label = .variableDecl a b d)
    (hv : (c.declaredAt? t.id).isSome) : ∀ x ∈ t.heads.head?, ¬ Held c T x.id := fun x hx =>
  ((Tree.All.of_plug (h.scopes _ ht)).top.declared hl hv x hx).2

end Safe

/-- The guard of all code that does not refer to storage. -/
def guard (c : Catalog) (T : Tree) (hdecl : ∀ i, (c.declaredAt? i).isSome → ¬ Held c T i) : Guard c where
  Safe := Safe c T
  held := Held c T
  perm := .perm
  grow := .grow
  swap := .swap
  fell := .fell
  strip := .strip
  emit := .emit
  retype := .retype
  append := .append
  known := Safe.known
  dirty := Safe.dirty
  declared h _ ht hl hv := ⟨hdecl _ (by simp [hv]), h.declared ht hl (by simp [hv])⟩

/-! ## The guard at the start -/

/-- Code around a part of `T` is around it in `T`. -/
theorem Inert.around (h : Inert c T u) (hn : T.ids.Nodup) (hy : K.plug y = T) (hi : y.id ∈ u.ids) :
    ∃ D C, K = D ++ C ∧ u = Ctx.plug D y := by
  obtain ⟨C, hC⟩ := h.part
  obtain ⟨D, y', rfl, hid⟩ := Tree.exists_place hi
  rw [← Ctx.plug_append] at hC
  obtain ⟨rfl, rfl⟩ := Ctx.plug_inj (hy.trans hC.symm) (hy ▸ hn) hid.symm
  exact ⟨D, C, rfl, rfl⟩

section Module

variable (hl : T.label = .module) (hf : T.Fits) (hn : T.ids.Nodup) {d : Tree} (hd : d ∈ T.kids)
  (hld : ∃ a b e, d.label = .variableDecl a b e)
include hl hf hn hd hld

/-- No code of the module is around one of its declarations. -/
theorem not_held_of_decl : ¬ Held c T d.id := by
  obtain ⟨a, b, e, hld⟩ := hld
  obtain ⟨f, rfl⟩ := Tree.exists_frame hd
  rintro (⟨u, hu, hi⟩ | ⟨p, us, h⟩)
  · have hcode := hu.code
    obtain ⟨D, C, hDC, rfl⟩ := hu.around (K := [f]) hn rfl hi
    rcases List.append_eq_singleton_iff.1 hDC.symm with ⟨rfl, -⟩ | ⟨rfl, -⟩
    · rw [Ctx.plug_nil, hld] at hcode
      cases hcode
    · rw [Ctx.plug_cons, Ctx.plug_nil, hl] at hcode
      cases hcode
  · -- a declaration has no statements
    obtain ⟨v, hv, hid, hsub⟩ := h.lines
    obtain rfl := hv.unique hn ⟨[f], rfl⟩ hid
    have htop := ((Tree.fits_iff v).1 (hf.kid hd)).1
    rw [hld] at htop
    exact h.lists_ne_nil hsub (htop.2.2.imp List.eq_nil_of_length_eq_zero List.eq_nil_of_length_eq_zero)

/-- Nor is it around a name that is declared there. -/
theorem not_held_of_target {name : String} (hx : x ∈ d.heads) (hlx : x.label = .name name) : ¬ Held c T x.id := by
  obtain ⟨a, b, e, hld⟩ := hld
  obtain ⟨f, rfl⟩ := Tree.exists_frame hd
  obtain ⟨g, rfl⟩ := Tree.exists_frame (t := d) (k := x) (by simp [Tree.kids, hx])
  rintro (⟨u, hu, hi⟩ | ⟨p, us, h⟩)
  · have hcode := hu.code
    obtain ⟨D, C, hDC, rfl⟩ := hu.around (K := [g, f]) hn rfl hi
    rcases D with _ | ⟨g, _ | ⟨f, D⟩⟩
    · rw [Ctx.plug_nil, hlx] at hcode
      cases hcode
    · obtain ⟨rfl, -⟩ := List.cons.inj hDC
      rw [Ctx.plug_cons, Ctx.plug_nil, hld] at hcode
      cases hcode
    · obtain ⟨rfl, rfl, rfl, -⟩ : _ ∧ _ ∧ D = [] ∧ C = [] := by simpa using hDC
      rw [Ctx.plug_cons, Ctx.plug_cons, Ctx.plug_nil, hl] at hcode
      cases hcode
  · obtain ⟨v, hv, hid, hsub⟩ := h.lines
    obtain rfl := hv.unique hn ⟨[g, f], rfl⟩ hid
    exact h.lists_ne_nil hsub ((hv.fits hf).no_lists (by simp [hlx, Label.isStatement]))

end Module

/-- What a catalog lists at a node is declared there. -/
theorem exists_decl_of_declaredAt? (h : ((Tree.catalogOf T.body).declaredAt? i).isSome) :
    ∃ d ∈ T.kids, d.id = i ∧ ∃ name v, name ∈ d.heads.head? ∧ d.stateVar? = some v ∧
      name.label = .name v.name := by
  obtain ⟨v, hv⟩ := Option.isSome_iff_exists.1 h
  obtain ⟨d, hd, hvar⟩ := Tree.exists_decl_of_mem_catalogOf (List.mem_of_find?_eq_some hv)
  have hid : v.decl = i := by simpa using List.find?_some hv
  obtain ⟨ty, name, hs, bs, os, rfl, hname⟩ := Tree.exists_target_of_stateVar? hvar
  exact ⟨.node v.decl ty (.variableDecl v.isPublic false false) (name :: hs) bs os, by simp [Tree.kids, hd], hid,
    name, v, rfl, hvar, hname⟩

section Start

variable (hl : T.label = .module) (hf : T.Fits) (hn : T.ids.Nodup)
include hl hf hn

theorem not_held_of_declaredAt? (i : NodeId) (h : ((Tree.catalogOf T.body).declaredAt? i).isSome) :
    ¬ Held c T i := by
  obtain ⟨d, hd, rfl, name, v, -, hvar, -⟩ := exists_decl_of_declaredAt? h
  obtain ⟨isPublic, hld⟩ := Tree.label_of_stateVar? hvar
  exact not_held_of_decl hl hf hn hd ⟨_, _, _, hld⟩

/-- All that is watched is in the tree of the module, if there is no other module in it. -/
theorem safe_start (honly : ∀ k ∈ T.kids, k.All fun u => u.label ≠ .module) :
    Safe (Tree.catalogOf T.body) T [T] where
  seen hO := by
    cases hO with
    | inert h => exact ⟨T, List.mem_cons_self, h.part⟩
    | lined h => exact ⟨T, List.mem_cons_self, h.lines⟩
  scopes := by
    simp only [List.mem_singleton, forall_eq]
    refine Tree.all_iff_partOf.2 fun u hu => ⟨fun hm => ?_, fun hlu hv x hx => ?_⟩
    · rcases Tree.partOf_iff.1 hu with rfl | ⟨k, hk, hu⟩
      · rfl
      · exact absurd hm (hu.all (honly k hk)).top
    · obtain ⟨d, hd, hid, name, v, hname, -, hlname⟩ := exists_decl_of_declaredAt? hv
      obtain rfl := hu.unique hn (.of_kid hd) hid.symm
      obtain rfl : name = x := Option.some.inj (hname.symm.trans hx)
      exact ⟨⟨_, hlname⟩, not_held_of_target hl hf hn hd hlu (List.mem_of_mem_head? hname) hlname⟩

end Start

end Watch

/-! ## Code without state -/

namespace Store

variable {s : Store} {p : Option NodeId} {T t u : Tree} {m i : NodeId}

theorem Holds.partOf (h : s.Holds p t) (hu : u.PartOf t) : ∃ q, s.Holds q u := by
  obtain ⟨C, rfl⟩ := hu
  induction C generalizing u with
  | nil => exact ⟨p, h⟩
  | cons f C ih =>
    obtain ⟨q, hq⟩ := ih h
    exact ⟨_, hq.kid (by simp)⟩

/-- Whether a state variable of `m` has this name: it is declared in `m`, and is neither constant nor immutable. -/
def namesState (s : Store) (m : NodeId) (x : String) : Bool :=
  (s.children m).any fun decl =>
    match s.kind? decl with
    | some (.variableDecl target _ _ false false) => (s.kind? target).any (·.isName x)
    | _ => false

/-- Whether a node is a member of `self` with the name of a state variable of `m`. -/
def refersToState (s : Store) (m : NodeId) (n : Node) : Bool :=
  match n.kind with
  | .member value attr => (s.kind? value).any (·.isName "self") && s.namesState m attr
  | _ => false

/-- A function or statement below `m` in which nothing refers to a state variable of `m`. -/
structure Stateless (s : Store) (m i : NodeId) : Prop where
  code : ∃ n ∈ s.preorder m, n.id = i ∧ (n.tag = .functionDef ∨ n.tag.isStatement = true)
  apart : ∀ n ∈ s.preorder i, s.refersToState m n = false

instance decidableStateless (s : Store) (m i : NodeId) : Decidable (s.Stateless m i) :=
  decidable_of_iff ((∃ n ∈ s.preorder m, n.id = i ∧ (n.tag = .functionDef ∨ n.tag.isStatement = true)) ∧
    ∀ n ∈ s.preorder i, s.refersToState m n = false) ⟨fun h => ⟨h.1, h.2⟩, fun h => ⟨h.code, h.apart⟩⟩

section Module

variable (hT : s.Holds none T) (hf : T.Fits)
include hT hf

theorem namesState_of_mem {v : StorageVar} (hv : v ∈ Tree.catalogOf T.body) : s.namesState T.id v.name = true := by
  obtain ⟨d, hd, hvar⟩ := Tree.exists_decl_of_mem_catalogOf hv
  have hkid : d ∈ T.kids := by simp [Tree.kids, hd]
  have hhold := hT.kid hkid
  obtain ⟨ty, name, hs, bs, os, rfl, hname⟩ := Tree.exists_target_of_stateVar? hvar
  rw [namesState, hT.children hf, List.any_map, List.any_eq_true]
  refine ⟨_, hkid, ?_⟩
  rw [Function.comp_apply, hhold.kind?]
  show (s.kind? name.id).any (·.isName v.name) = true
  rw [(hhold.kid (k := name) (by simp)).kind?, Option.any_some, isName_kind ((hf.kid hkid).kid (by simp))]
  exact hname

theorem Stateless.inert (hn : T.ids.Nodup) (h : s.Stateless T.id i) :
    ∃ u, Watch.Inert (Tree.catalogOf T.body) T u ∧ u.id = i := by
  obtain ⟨n, hmem, rfl, hcode⟩ := h.code
  rw [hT.preorder_eq hf hn] at hmem
  obtain ⟨C, u, rfl, rfl⟩ := hT.exists_of_mem_nodes hmem
  have hu := Holds.inside hT
  have hfu := Ctx.fits_of_plug hf
  refine ⟨u, ⟨⟨C, rfl⟩, ?_, Tree.all_iff_partOf.2 fun y hy => ?_⟩, rfl⟩
  · rw [Node.tag, Tree.root_kind, ← Kind.tag_label, hfu.label_kind] at hcode
    simpa [Label.isCode] using hcode
  · cases hrec : y.receiver? (Tree.catalogOf (C.plug u).body) with
    | none => rfl
    | some v =>
      obtain ⟨i, ty, attr, x, bs, os, rfl, hself, hfind⟩ := Tree.exists_of_receiver? hrec
      have hname : v.name = attr := by simpa using List.find?_some hfind
      obtain ⟨q, hsub⟩ := hy.nodes_subset C.parent
      obtain ⟨q', hhold⟩ := hu.partOf hy
      have hfx : x.Fits := (hy.fits hfu).kid (by simp)
      -- the member is a node of the code, and it refers to state
      have hrefers : s.refersToState (C.plug u).id (Tree.root (.node i ty (.member attr) [x] bs os) q) = true := by
        show ((s.kind? x.id).any (·.isName "self") && s.namesState _ attr) = true
        rw [(hhold.kid (k := x) (by simp)).kind?, Option.any_some, (isName_kind hfx _).2 hself, Bool.true_and,
          ← hname]
        exact namesState_of_mem hT hf (List.mem_of_find?_eq_some hfind)
      have hin := hsub (by rw [Tree.nodes_eq]; exact List.mem_cons_self)
      rw [← hu.preorder_eq hfu ((Ctx.nodup_plug C u).1 hn).2.1] at hin
      exact absurd hrefers (by rw [h.apart _ hin]; simp)

end Module

end Store

/-! ## The run -/

namespace Lowering

open Watch (Inert Lined)

variable {w w' : Workspace Progress} {c : Catalog} {g : Guard c} {G : Outside} {m : NodeId} {T : Tree}

/-- The visits below the module keep what a guard watches, and the catalog, if the guard sees to it that there is
no other module. -/
theorem keptBelow_tends (hg : ∀ ts, g.Safe ts → ∀ t ∈ ts, t.All fun u => u.label = .module → u.id = m) :
    KeptBelow G m (fun w => w.own.catalog = c ∧ w.store.Tends g m G) fun w => w.store.Tends g m G := by
  rintro w T i hst hi hne ⟨hc, hI⟩
  obtain ⟨c', st, h⟩ := hst.has
  obtain rfl : c' = c := h.catalog.symm.trans hc
  obtain ⟨K, t, rfl, rfl⟩ := Tree.exists_place hi
  obtain rfl := hst.id
  refine (dispatch_course h hI rfl).ends_way.mono ?_ fun _ _ he => he.2.finish
  rintro _ w' ⟨hv, hway⟩
  refine ⟨?_, hway.finish⟩
  cases hv with
  | module hl =>
    have hall := hg _ (hI.bears h.keeps rfl).safe _ List.mem_cons_self
    exact absurd ((Tree.All.of_plug hall).top hl) hne
  | left hw => rw [hw, h.catalog]
  | declared _ _ _ _ _ h' => exact h'.catalog
  | rewritten _ _ h' => exact h'.catalog

/-- The run keeps what a guard of the module's catalog watches. -/
theorem run_tends {g : Guard (Tree.catalogOf T.body)}
    (hg : ∀ ts, g.Safe ts → ∀ t ∈ ts, t.All fun u => u.label = .module → u.id = T.id) (hl : T.label = .module)
    (hs : w.store.Sound) (hf : T.Fits) (hn : T.ids.Nodup) (hT : w.store.Holds none T) (hsafe : g.Safe [T]) :
    Ends (run T.id) w (fun _ w' => (∃ T', Stands (w.store.outside T) T.id w' T') ∧
        w'.store.Tends g T.id (w.store.outside T))
      fun _ w' => w'.store.Tends g T.id (w.store.outside T) := by
  -- the catalog at the start is of no account
  have hrun := run_own (w := w) hT.top (hf.isModule_kind.2 hl) ⟨Tree.catalogOf T.body, {}⟩
  have h := has_of_holds (w := ⟨w.store, ⟨Tree.catalogOf T.body, {}⟩⟩) hs hf hn hT
  have hstart : w.store.Tends g T.id (w.store.outside T) := ⟨T, [], [], ⟨h.keeps, by simp, hsafe⟩, rfl⟩
  rw [Ends, hrun]
  refine (run_stands_below (w := ⟨w.store, ⟨Tree.catalogOf T.body, {}⟩⟩) (fun _ => ?_) (keptBelow_tends hg)
    (fun _ h => h.2) hs hf hn hT hstart).mono (fun _ _ h => ⟨h.1, h.2.2⟩) fun _ _ h => h.2
  refine (dispatch_course (K := []) h hstart rfl).ends_way.mono ?_ fun _ _ he => he.2.finish
  rintro _ w' ⟨hv, hway⟩
  refine ⟨?_, hway.finish⟩
  cases hv with
  | module _ _ ho => rw [ho]
  | left _ hl' => exact absurd hl hl'
  | declared hd =>
    obtain ⟨a, b, d, hd⟩ := hd
    rw [hl] at hd
    cases hd
  | rewritten _ hσ => cases hσ

/-- What is watched is in one of the trees that the store holds. -/
theorem exists_seen {O : Tree → Prop} {hdecl} (h : w.store.Tends (Watch.guard c T hdecl) m G)
    (hO : Watch.Watched c T O) : ∃ t q, O t ∧ t.Fits ∧ t.ids.Nodup ∧ w.store.Holds q t := by
  obtain ⟨U, F, H, hb, -⟩ := h
  have hsafe : Watch.Safe c T _ := hb.safe
  obtain ⟨t, ht, hot⟩ := hsafe.seen hO
  obtain ⟨⟨q, t⟩, hmem, rfl⟩ := List.mem_map.1 ht
  exact ⟨t, q, hot, hb.fits _ hmem, hb.tree_nodup hmem, hb.holds _ hmem⟩

section Module

variable {s : Store} {hdecl : ∀ i, ((Tree.catalogOf T.body).declaredAt? i).isSome →
  ¬ Watch.Held (Tree.catalogOf T.body) T i}
  (hT : s.Holds none T) (hf : T.Fits) (hn : T.ids.Nodup)
  (h : w.store.Tends (Watch.guard (Tree.catalogOf T.body) T hdecl) m G)
include hT hf hn h

/-- Code that is watched has the nodes that it had at the start. -/
theorem preorder_of_tends {i : NodeId} (hi : s.Stateless T.id i) :
    ∃ p, w.store.preorder i = (s.preorder i).modifyHead ({ · with parent := p }) := by
  obtain ⟨u, hu, rfl⟩ := hi.inert hT hf hn
  obtain ⟨p, hp⟩ := hT.partOf hu.part
  obtain ⟨t, q, hut, hft, hnt, ht⟩ := exists_seen h (.inert hu)
  obtain ⟨q', hq'⟩ := ht.partOf hut
  rw [hp.preorder_eq (hu.part.fits hf) (hu.part.nodup hn), hq'.preorder_eq (hut.fits hft) (hut.nodup hnt)]
  exact ⟨q', u.nodes_modifyHead p q'⟩

/-- Code that is watched is in the lists in which it was at the start. -/
theorem links_of_tends {n : Node} {part : Part} {ids : List NodeId} (hmem : n ∈ T.nodes none)
    (hpart : part ≠ .heads) (hne : ids ≠ []) (hsub : ids.Sublist (n.kind.links part))
    (hids : ∀ i ∈ ids, s.Stateless T.id i) : ∃ k, w.store.kind? n.id = some k ∧ ids.Sublist (k.links part) := by
  obtain ⟨C, b, hb, rfl⟩ := hT.exists_of_mem_nodes hmem
  have hbT : b.PartOf T := ⟨C, hb⟩
  rw [Tree.root_kind, (hbT.fits hf).links_list hpart] at hsub
  obtain ⟨us, hus, rfl⟩ := List.sublist_map_iff.1 hsub
  have hinert : ∀ u ∈ us, Inert (Tree.catalogOf T.body) T u := by
    intro u hu
    obtain ⟨u', hu', hid⟩ := (hids u.id (List.mem_map_of_mem hu)).inert hT hf hn
    have huT : u.PartOf T := .trans (.of_kid (Tree.mem_kids_of_list (hus.subset hu))) hbT
    exact hu'.part.unique hn huT hid ▸ hu'
  have hlined : Lined (Tree.catalogOf T.body) T b.id part us :=
    ⟨hpart, fun hnil => hne (by rw [hnil]; rfl), hinert, b, hbT, rfl, hus⟩
  obtain ⟨t, q, ⟨v, hvt, hid, hvs⟩, hft, hnt, ht⟩ := exists_seen h (.lined hlined)
  obtain ⟨q', hq'⟩ := ht.partOf hvt
  refine ⟨v.kind, ?_, ?_⟩
  · rw [Tree.root_id, ← hid, hq'.kind?]
  · rw [(hvt.fits hft).links_list hpart]
    exact hvs.map Tree.id

end Module

/-- When the run has come to its end, what is watched is below the module. -/
theorem mem_preorder_of_stands {s : Store} {hdecl} {T' : Tree} {i : NodeId} (hT : s.Holds none T) (hf : T.Fits)
    (hn : T.ids.Nodup) (h : w.store.Tends (Watch.guard (Tree.catalogOf T.body) T hdecl) m G)
    (hst : Stands G m w T') (hi : s.Stateless T.id i) : ∃ n ∈ w.store.preorder m, n.id = i := by
  obtain ⟨u, hu, rfl⟩ := hi.inert hT hf hn
  obtain ⟨c, st, hc⟩ := hst.has
  have hsafe : Watch.Safe _ T [T'] := (h.bears hc.keeps hst.id).safe
  obtain ⟨t, ht, hut⟩ := hsafe.seen (.inert hu)
  obtain rfl := List.mem_singleton.1 ht
  have hmem := hut.ids_subset u.id_mem_ids
  rw [← hst.id, hc.holds.preorder_eq hc.fits
    hc.nodup, ← List.mem_map]
  rwa [← Tree.map_id_nodes none] at hmem

/-- **Code without state is left alone.** Let `m` be the only module below `m`. When the pass has run or has
stopped with an error, each function or statement below `m` in which nothing refers to a state variable of `m` has
the nodes that it had before, and only its own parent may have changed. Those of them that were in one statement
list are still in it, in their order. If the pass has come to its end, they are all still below `m`. -/
theorem run_untouched (hs : w.store.Sound) (hv : w.store.verify m = .ok ())
    (honly : ∀ n ∈ w.store.preorder m, n.kind.isModule = true → n.id = m)
    (hrun : run m w = .ok () w' ∨ ∃ e, run m w = .error e w') :
    (∀ i, w.store.Stateless m i →
      ∃ p, w'.store.preorder i = (w.store.preorder i).modifyHead ({ · with parent := p })) ∧
    (∀ n ∈ w.store.preorder m, ∀ part ≠ Part.heads, ∀ ids ≠ [], ids.Sublist (n.kind.links part) →
      (∀ i ∈ ids, w.store.Stateless m i) → ∃ k, w'.store.kind? n.id = some k ∧ ids.Sublist (k.links part)) ∧
    (run m w = .ok () w' → ∀ i, w.store.Stateless m i → ∃ n ∈ w'.store.preorder m, n.id = i) := by
  obtain ⟨T, rfl, hf, hn, hT⟩ := (Store.verify_iff hs.nodup m).1 hv
  have hpre := hT.preorder_eq hf hn
  have hreturns : ∀ {Q : Workspace Progress → Prop}, Ends (run T.id) w (fun _ => Q) (fun _ => Q) → Q w' := by
    intro Q hends
    rcases hrun with hrun | ⟨e, hrun⟩
    · exact hends.of_ok hrun
    · exact hends.of_error hrun
  by_cases hl : T.label = .module
  · have hdecl := Watch.not_held_of_declaredAt? (c := Tree.catalogOf T.body) hl hf hn
    have htends := run_tends (w := w) (g := Watch.guard _ T hdecl)
      (fun ts h t ht => (Watch.Safe.scopes h t ht).mono fun _ hu => hu.module) hl hs hf hn hT
      (Watch.safe_start hl hf hn (hT.no_module hf hn honly))
    have h := hreturns (htends.mono (fun _ _ h => h.2) fun _ _ h => h)
    refine ⟨fun i hi => preorder_of_tends hT hf hn h hi, fun n hmem part hpart ids hne hsub hids => ?_,
      fun hok i hi => ?_⟩
    · exact links_of_tends hT hf hn h (hpre ▸ hmem) hpart hne hsub hids
    · obtain ⟨⟨T', hst⟩, -⟩ := htends.of_ok hok
      exact mem_preorder_of_stands hT hf hn h hst hi
  · -- what is no module is refused
    have hk : T.kind.isModule = false := eq_false_of_ne_true (mt hf.isModule_kind.1 hl)
    have hsame : w'.store = w.store := hreturns ((run_refuses hT.top hk).mono (fun _ _ h => h.elim) fun _ _ h => h)
    rw [hsame]
    refine ⟨fun i hi => ?_, fun n hmem part _ ids _ hsub _ => ?_, fun hok => ?_⟩
    · obtain ⟨u, hu, rfl⟩ := hi.inert hT hf hn
      obtain ⟨p, hp⟩ := hT.partOf hu.part
      rw [hp.preorder_eq (hu.part.fits hf) (hu.part.nodup hn)]
      exact ⟨p, u.nodes_modifyHead p p⟩
    · obtain ⟨C, b, rfl, rfl⟩ := hT.exists_of_mem_nodes (hpre ▸ hmem)
      exact ⟨_, (Store.Holds.inside hT).kind?, hsub⟩
    · exact absurd (isModule_of_run hT.top hok) (by simp [hk])

/-- A contract with code that refers to storage among code that does not:
```
x: uint256
limit: constant(uint256)
def f():
    a = self.limit
    self.x = a
    if a:
        pass
def g():
    pass
```
-/
def mixture : Store :=
  let member (i j : NodeId) (x : String) : Tree := .node i none (.member x) [.leaf j none (.name "self")] [] []
  .ofTree
    (.node ⟨0⟩ none .module [] [
      .node ⟨1⟩ (some (.uint 256)) (.variableDecl false false false) [.leaf ⟨2⟩ none (.name "x")] [] [],
      .node ⟨3⟩ (some (.uint 256)) (.variableDecl false true false) [.leaf ⟨4⟩ none (.name "limit")] [] [],
      .node ⟨5⟩ none (.functionDef "f" .external .nonPayable) [] [
        .node ⟨6⟩ none .assign [.leaf ⟨7⟩ none (.name "a"), member ⟨8⟩ ⟨9⟩ "limit"] [] [],
        .node ⟨10⟩ none .assign [member ⟨11⟩ ⟨12⟩ "x", .leaf ⟨13⟩ none (.name "a")] [] [],
        .node ⟨14⟩ none .ifElse [.leaf ⟨15⟩ none (.name "a")] [.leaf ⟨16⟩ none .pass] []] [],
      .node ⟨17⟩ none (.functionDef "g" .external .nonPayable) [] [.leaf ⟨18⟩ none .pass] []] [])
    ⟨19⟩

/-- The statements around the one that is lowered, and the other function. -/
theorem run_untouched_mixture : ∃ w', run ⟨0⟩ ⟨mixture, {}⟩ = .ok () w' ∧
    (∀ i ∈ [⟨6⟩, ⟨14⟩, ⟨17⟩], mixture.Stateless ⟨0⟩ i ∧
      ∃ p, w'.store.preorder i = (mixture.preorder i).modifyHead ({ · with parent := p })) ∧
    ¬ mixture.Stateless ⟨0⟩ ⟨10⟩ ∧ ¬ mixture.Stateless ⟨0⟩ ⟨5⟩ ∧
    ∃ k, w'.store.kind? ⟨5⟩ = some k ∧ [⟨6⟩, ⟨14⟩].Sublist (k.links .body) := by
  have hrun : ∃ w', run ⟨0⟩ ⟨mixture, {}⟩ = .ok () w' := by decide +kernel
  have hstateless : (∀ i ∈ [⟨6⟩, ⟨14⟩, ⟨17⟩], mixture.Stateless ⟨0⟩ i) ∧ ¬ mixture.Stateless ⟨0⟩ ⟨10⟩ ∧
      ¬ mixture.Stateless ⟨0⟩ ⟨5⟩ := by decide +kernel
  have hlist : ∃ n ∈ mixture.preorder ⟨0⟩, n.id = ⟨5⟩ ∧ [⟨6⟩, ⟨14⟩].Sublist (n.kind.links .body) := by
    decide +kernel
  have hs : mixture.Sound := ⟨by decide, by decide, by decide⟩
  have hv : mixture.verify ⟨0⟩ = .ok () := by decide +kernel
  have honly : ∀ n ∈ mixture.preorder ⟨0⟩, n.kind.isModule = true → n.id = ⟨0⟩ := by decide
  generalize mixture = s at hrun hstateless hlist hs hv honly ⊢
  obtain ⟨w', hw'⟩ := hrun
  obtain ⟨n, hn, hid, hsub⟩ := hlist
  obtain ⟨hcode, horder, -⟩ := run_untouched (w := ⟨s, {}⟩) hs hv honly (.inl hw')
  refine ⟨w', hw', fun i hi => ⟨hstateless.1 i hi, hcode i (hstateless.1 i hi)⟩, hstateless.2.1,
    hstateless.2.2, ?_⟩
  rw [← hid]
  refine horder n hn .body (by simp) _ (by simp) hsub fun i hi => hstateless.1 i ?_
  simp only [List.mem_cons] at hi ⊢
  tauto

end Lowering

end ContractTree
