import ContractTree.Proofs.Accounting
import ContractTree.Proofs.Budget
import ContractTree.Proofs.Issued
import ContractTree.Proofs.Position

/-!
Which modules can be lowered. `Store.Lowerable` says it of the tree as it is before the pass: the declarations have
names and types, no getter takes the name of a function, and every reference to storage is inside a function, with
as many subscripts as its variable has keys where something is stored to it and with no fewer elsewhere. The pass
comes to its end exactly if this holds (`Lowering.run_verdict`), with as many identities left as a run may need.
-/

namespace ContractTree

open Lowering (Progress)

namespace Store

/-- Whether a node declares a variable that is neither constant nor immutable. -/
def declaresState (s : Store) (decl : NodeId) : Bool :=
  match s.kind? decl with
  | some (.variableDecl _ _ _ false false) => true
  | _ => false

/-- The state variable that a node declares: what it declares is a name, and it has a type, or else the name has
one. -/
def stateVar? (s : Store) (decl : NodeId) : Option StorageVar :=
  match s.kind? decl with
  | some (.variableDecl target _ isPublic false false) =>
    match s.kind? target, (s.ty? decl).or (s.ty? target) with
    | some (.name name), some declared => some { name, decl, declared, isPublic }
    | _, _ => none
  | _ => none

/-- The state variables that are declared in a module, one after the other. -/
def declaredVars (s : Store) (m : NodeId) : Catalog := (s.children m).filterMap s.stateVar?

/-- The name of a function. -/
def functionName? (s : Store) (id : NodeId) : Option String :=
  match s.kind? id with
  | some (.functionDef name _ _ _ _) => some name
  | _ => none

/-- Whether an assignment below `m`, augmented or not, stores to `r` with subscripts around it. -/
def StoredTo (s : Store) (m r : NodeId) : Prop :=
  ∃ n ∈ s.preorder m, n.kind.assigns = true ∧ ∃ target ∈ n.kind.target?, s.innermost target = r

/-- Whether each reference below `m` to a variable of `c` can be lowered where it stands. The nearest statement
list above it is not the body of `m`; if an assignment stores to it, the target has a subscript for each key; and
otherwise it is inside of a chain that has at least that many. -/
structure ReferencesFit (s : Store) (m : NodeId) (c : Catalog) : Prop where
  sited : ∀ n ∈ s.preorder m, (s.receiver? c n.id).isSome → (s.enclosingStatement? n.id).map Prod.snd ≠ some m
  stored : ∀ n ∈ s.preorder m, n.kind.assigns = true → ∀ target ∈ n.kind.target?,
    ∀ v ∈ s.receiver? c (s.innermost target), (s.chain target).length = v.depth
  read : ∀ n ∈ s.preorder m, ∀ v ∈ s.receiver? c n.id, ¬ s.StoredTo m n.id →
    ∃ top ∈ s.preorder m, s.innermost top.id = n.id ∧ v.depth ≤ (s.chain top.id).length

/-- Whether the state variables of a module can be lowered. Each declaration of one has a name and a type, no
public one without the type of a slot has the name of a function, and the references to them can be lowered. -/
structure Lowerable (s : Store) (m : NodeId) : Prop where
  declared : ∀ decl ∈ s.children m, s.declaresState decl = true → (s.stateVar? decl).isSome
  getters : ∀ v ∈ s.declaredVars m, v.isPublic = true → (s.ty? v.decl).any Ty.isSlot = false →
    ∀ id ∈ s.children m, s.functionName? id ≠ some v.name
  references : s.ReferencesFit m (s.declaredVars m)

/-! ## Declarations -/

section Declarations

variable {s : Store} {p : Option NodeId} {t : Tree} {ts : List Tree}

theorem Holds.declaresState_iff (h : s.Holds p t) (hf : t.Fits) :
    s.declaresState t.id = true ↔ ∃ isPublic, t.label = .variableDecl isPublic false false := by
  have hl := hf.label_kind
  rw [declaresState, h.kind?, ← hl]
  cases t.kind <;> simp [Kind.label]
  case variableDecl isPublic isConstant isImmutable => cases isConstant <;> cases isImmutable <;> simp

theorem declaresState_of_stateVar? {decl : NodeId} {v : StorageVar} (h : s.stateVar? decl = some v) :
    s.declaresState decl = true := by
  unfold stateVar? at h
  split at h
  · next hk => rw [declaresState, hk]
  · cases h

theorem Holds.stateVar?_eq (h : s.Holds p t) (hf : t.Fits) : s.stateVar? t.id = t.stateVar? := by
  by_cases hl : ∃ isPublic, t.label = .variableDecl isPublic false false
  · obtain ⟨isPublic, hl⟩ := hl
    obtain ⟨i, ty, l, hs, bs, os⟩ := t
    obtain rfl : l = .variableDecl isPublic false false := hl
    obtain ⟨x, hs, rfl⟩ := List.exists_cons_of_length_pos (show 0 < hs.length from ((Tree.fits_iff _).1 hf).1.1)
    have hx := h.kid (k := x) (by simp)
    have hlx := (hf.kid (k := x) (by simp)).label_kind
    have hkind : s.kind? i = some (.variableDecl x.id (hs.map Tree.id).head? isPublic false false) := h.kind?
    rw [Tree.id_node, stateVar?, hkind]
    simp only [hx.kind?, hx.ty?, show s.ty? i = ty from h.ty?]
    obtain ⟨j, tyx, lx, h1, h2, h3⟩ := x
    cases hk : Tree.kind (.node j tyx lx h1 h2 h3) <;> rw [hk] at hlx <;> obtain rfl : _ = lx := hlx
    case name => cases hty : ty.or tyx <;> simp [Tree.stateVar?, Kind.label, hty]
    all_goals rfl
  · have hnone : s.stateVar? t.id = none := by
      rw [Option.eq_none_iff_forall_ne_some]
      exact fun v hv => hl ((h.declaresState_iff hf).1 (declaresState_of_stateVar? hv))
    rw [hnone, eq_comm, Option.eq_none_iff_forall_ne_some]
    exact fun v hv => hl (Tree.label_of_stateVar? hv)

theorem Holds.functionName?_eq (h : s.Holds p t) (hf : t.Fits) : s.functionName? t.id = t.functionName? := by
  have hl := hf.label_kind
  rw [functionName?, h.kind?]
  obtain ⟨i, ty, l, hs, bs, os⟩ := t
  cases hkind : Tree.kind (.node i ty l hs bs os) <;> rw [hkind] at hl <;> obtain rfl : _ = l := hl <;> rfl

end Declarations

end Store

/-- Variables with different names are listed one after the other. -/
theorem Catalog.foldl_insert {c vs : Catalog} (h : ((c ++ vs).map StorageVar.name).Nodup) :
    vs.foldl Catalog.insert c = c ++ vs := by
  induction vs generalizing c with
  | nil => simp
  | cons v vs ih =>
    have hv : v.name ∉ c.map StorageVar.name := by
      rw [List.map_append, List.map_cons, List.nodup_middle, List.nodup_cons, List.mem_append, not_or] at h
      exact h.1.1
    have hinsert : c.insert v = c ++ [v] := by
      rw [Catalog.insert, if_neg]
      rw [List.any_eq_true]
      rintro ⟨w, hw, hname⟩
      exact hv (List.mem_map.2 ⟨w, hw, by simpa using hname⟩)
    rw [List.foldl_cons, hinsert, ih (by simpa using h), List.append_assoc, List.singleton_append]

namespace Store

section Module

variable {s : Store} {i : NodeId} {ty : Option Ty} {body : List Tree}

theorem declaredVars_eq (hT : s.Holds none (.node i ty .module [] body []))
    (hf : (Tree.node i ty .module [] body []).Fits) : s.declaredVars i = body.filterMap Tree.stateVar? := by
  have hch : s.children i = body.map Tree.id := by simpa using hT.children hf
  rw [declaredVars, hch, List.filterMap_map]
  refine List.filterMap_congr fun d hd => ?_
  exact (hT.kid (by simpa using hd)).stateVar?_eq (hf.kid (by simpa using hd))

theorem declared_iff (hT : s.Holds none (.node i ty .module [] body []))
    (hf : (Tree.node i ty .module [] body []).Fits) :
    (∀ decl ∈ s.children i, s.declaresState decl = true → (s.stateVar? decl).isSome) ↔
    ∀ d ∈ body, d.Declarable := by
  have hch : s.children i = body.map Tree.id := by simpa using hT.children hf
  rw [hch, List.forall_mem_map]
  refine forall₂_congr fun d hd => ?_
  have hd' : d ∈ (Tree.node i ty .module [] body []).kids := by simpa using hd
  rw [(hT.kid hd').declaresState_iff (hf.kid hd'), (hT.kid hd').stateVar?_eq (hf.kid hd'),
    Option.isSome_iff_ne_none]
  rfl

theorem catalogOf_eq (hT : s.Holds none (.node i ty .module [] body []))
    (hf : (Tree.node i ty .module [] body []).Fits) (hnames : ((s.declaredVars i).map StorageVar.name).Nodup) :
    Tree.catalogOf body = s.declaredVars i := by
  rw [Tree.catalogOf, ← declaredVars_eq hT hf, Catalog.foldl_insert hnames, List.nil_append]

/-- The catalog lists a variable at its declaration. -/
theorem declaredAt?_of_stateVar? (hT : s.Holds none (.node i ty .module [] body []))
    (hf : (Tree.node i ty .module [] body []).Fits) (hn : (Tree.node i ty .module [] body []).ids.Nodup)
    (hnames : ((s.declaredVars i).map StorageVar.name).Nodup) {d : Tree} (hd : d ∈ body) {v : StorageVar}
    (hv : d.stateVar? = some v) : (s.declaredVars i).declaredAt? d.id = some v := by
  cases hfind : (s.declaredVars i).declaredAt? d.id with
  | none =>
    have hmem : v ∈ s.declaredVars i := declaredVars_eq hT hf ▸ List.mem_filterMap.2 ⟨d, hd, hv⟩
    exact absurd (List.find?_eq_none.1 hfind v hmem) (by simp [Tree.decl_of_stateVar? hv])
  | some v' =>
    rw [← catalogOf_eq hT hf hnames] at hfind
    rw [← hv, Tree.stateVar?_of_declaredAt? (Tree.nodup_body hn) hd hfind]

/-- The variables that are to have a getter are the public ones whose declarations have no type of a slot yet. -/
theorem getterVars_eq (hT : s.Holds none (.node i ty .module [] body []))
    (hf : (Tree.node i ty .module [] body []).Fits) (hn : (Tree.node i ty .module [] body []).ids.Nodup)
    (hnames : ((s.declaredVars i).map StorageVar.name).Nodup) :
    body.filterMap (Tree.getterVar? (s.declaredVars i)) =
      (s.declaredVars i).filter fun v => v.isPublic && !(s.ty? v.decl).any Ty.isSlot := by
  nth_rewrite 2 [declaredVars_eq hT hf]
  rw [List.filter_filterMap]
  refine List.filterMap_congr fun d hd => ?_
  have hty : s.ty? d.id = d.ty := (hT.kid (by simpa using hd)).ty?
  cases hv : d.stateVar? with
  | none =>
    rw [Option.filter_none, Option.eq_none_iff_forall_ne_some, ← catalogOf_eq hT hf hnames]
    intro v hget
    rw [Tree.stateVar?_of_getterVar? (Tree.nodup_body hn) hd hget] at hv
    cases hv
  | some v =>
    obtain ⟨isPublic, hl⟩ := Tree.label_of_stateVar? hv
    rw [Tree.getterVar?, hl]
    simp only [declaredAt?_of_stateVar? hT hf hn hnames hd hv, Tree.decl_of_stateVar? hv, hty, Option.filter]
    cases d.ty.any Ty.isSlot <;> simp

theorem getters_iff (hT : s.Holds none (.node i ty .module [] body []))
    (hf : (Tree.node i ty .module [] body []).Fits) (hn : (Tree.node i ty .module [] body []).ids.Nodup)
    (hnames : ((s.declaredVars i).map StorageVar.name).Nodup) :
    (∀ v ∈ s.declaredVars i, v.isPublic = true → (s.ty? v.decl).any Ty.isSlot = false →
      ∀ id ∈ s.children i, s.functionName? id ≠ some v.name) ↔
      Tree.GettersFree (s.declaredVars i) (Tree.functionNames body) body := by
  have hch : s.children i = body.map Tree.id := by simpa using hT.children hf
  have hfree : ∀ x, (∀ id ∈ s.children i, s.functionName? id ≠ some x) ↔ x ∉ Tree.functionNames body := by
    intro x
    rw [hch, List.forall_mem_map, Tree.functionNames, List.mem_filterMap, not_exists]
    refine forall_congr' fun d => ?_
    rw [not_and]
    refine forall_congr' fun hd => ?_
    rw [(hT.kid (by simpa using hd)).functionName?_eq (hf.kid (by simpa using hd))]
  rw [Tree.GettersFree, Tree.getterNames, getterVars_eq hT hf hn hnames, and_iff_right, List.disjoint_right,
    List.forall_mem_map]
  · simp only [hfree, List.mem_filter, Bool.and_eq_true, Bool.not_eq_true', and_imp]
  · exact hnames.sublist (List.filter_sublist.map _)

end Module

/-! ## References -/

section References

variable {s : Store} {T u : Tree} {K : Ctx} {p : Position} {n top : Node}

theorem Holds.mem_preorder_iff (hT : s.Holds none T) (hf : T.Fits) (hn : T.ids.Nodup) :
    n ∈ s.preorder T.id ↔ ∃ (C : Ctx) (u : Tree), C.plug u = T ∧ n = u.root C.parent := by
  rw [hT.preorder_eq hf hn]
  constructor
  · exact hT.exists_of_mem_nodes
  · rintro ⟨C, u, rfl, rfl⟩
    exact (Ctx.mem_nodes_plug C u _).2 (.inr (by rw [Tree.nodes_eq]; exact List.mem_cons_self))

/-- A part of a tree is held like the tree. -/
theorem Holds.part (hT : s.Holds none T) (hf : T.Fits) (hn : T.ids.Nodup) (hK : K.plug u = T) :
    s.Holds K.parent u ∧ u.Fits ∧ u.ids.Nodup := by
  subst hK
  exact ⟨hT.inside, Ctx.fits_of_plug hf, ((Ctx.nodup_plug K u).1 hn).2.1⟩

/-- The subscripts around a reference are a chain on it. -/
theorem exists_chain (hT : s.Holds none T) (hf : T.Fits) (hn : T.ids.Nodup) (hK : K.plug u = T)
    (hu : u.label ≠ .subscript) (sited : Bool) :
    ∃ top ∈ s.preorder T.id, s.innermost top.id = u.id ∧
      (s.chain top.id).length = (K.position (.plain sited)).subscripts := by
  obtain ⟨D, C, rfl, hD, hlen, -⟩ := Ctx.exists_chained K sited
  rw [Ctx.plug_append] at hK
  obtain ⟨htop, hftop, hntop⟩ := hT.part hf hn hK
  obtain ⟨hbase, hlinks⟩ := hD.plug hftop hu
  refine ⟨_, (hT.mem_preorder_iff hf hn).2 ⟨C, _, hK, rfl⟩, ?_, ?_⟩
  · rw [Tree.root_id, htop.innermost hftop hntop, hbase]
  · rw [Tree.root_id, htop.chain hftop hntop, List.length_reverse, List.length_map, hlinks, hlen]

/-- A chain on a reference has no more subscripts than are around the reference. -/
theorem length_chain_le (hT : s.Holds none T) (hf : T.Fits) (hn : T.ids.Nodup) (hK : K.plug u = T)
    (htop : top ∈ s.preorder T.id) (hu : s.innermost top.id = u.id) :
    (s.chain top.id).length ≤ (K.position p).subscripts := by
  obtain ⟨C, t, hC, rfl⟩ := (hT.mem_preorder_iff hf hn).1 htop
  obtain ⟨ht, hft, hnt⟩ := hT.part hf hn hC
  obtain ⟨D, hD, hplug, hlen⟩ := hft.exists_chained
  rw [Tree.root_id, ht.innermost hft hnt] at hu
  rw [Tree.root_id, ht.chain hft hnt, List.length_reverse, List.length_map, ← hlen]
  obtain ⟨rfl, -⟩ : D ++ C = K ∧ _ := Ctx.plug_inj (by rw [Ctx.plug_append, hplug, hC, hK])
    (by rw [Ctx.plug_append, hplug, hC]; exact hn) hu
  rw [Ctx.position_append, hD.position]
  exact Nat.le_add_left _ _

/-- What is stored to is reached from the target of an assignment. -/
theorem exists_target (hT : s.Holds none T) (hf : T.Fits) (hn : T.ids.Nodup) (hK : K.plug u = T)
    (hu : u.label ≠ .subscript) {sited : Bool} (hstored : (K.position (.plain sited)).stored = true) :
    ∃ n ∈ s.preorder T.id, n.kind.assigns = true ∧ ∃ target ∈ n.kind.target?, s.innermost target = u.id ∧
      (s.chain target).length = (K.position (.plain sited)).subscripts := by
  obtain ⟨D, C, rfl, hD, hlen, hassign⟩ := Ctx.exists_chained K sited
  obtain ⟨f, C, rfl, hf'⟩ := hassign hstored
  rw [Ctx.plug_append] at hK
  obtain ⟨htop, hftop, hntop⟩ := hT.part hf hn hK
  obtain ⟨hbase, hlinks⟩ := hD.plug hftop hu
  obtain ⟨hstmt, hfstmt, -⟩ := hT.part hf hn (K := C) (u := f.plug [D.plug u]) hK
  obtain ⟨hlabel, hheads⟩ := Frame.heads_of_stores hf' (D.plug u)
  have hassigns := hfstmt.assigns_kind.2 (Label.assigns_iff.1 hlabel)
  refine ⟨_, (hT.mem_preorder_iff hf hn).2 ⟨C, _, hK, rfl⟩, hassigns, (D.plug u).id, ?_, ?_, ?_⟩
  · rw [Tree.root_kind, hfstmt.target?_kind, if_pos (Label.binds_of_assigns hlabel), hheads]
    rfl
  · rw [htop.innermost hftop hntop, hbase]
  · rw [htop.chain hftop hntop, List.length_reverse, List.length_map, hlinks, hlen]

/-- The target of an assignment is a chain on what is stored to. -/
theorem exists_stored (hT : s.Holds none T) (hf : T.Fits) (hn : T.ids.Nodup) (hmem : n ∈ s.preorder T.id)
    (hassigns : n.kind.assigns = true) {target : NodeId} (ht : n.kind.target? = some target) :
    ∃ (K : Ctx) (u : Tree), K.plug u = T ∧ s.innermost target = u.id ∧ (K.position p).stored = true ∧
      (s.chain target).length = (K.position p).subscripts := by
  obtain ⟨C, x, hC, rfl⟩ := (hT.mem_preorder_iff hf hn).1 hmem
  obtain ⟨hx, hfx, hnx⟩ := hT.part hf hn hC
  obtain ⟨-, y, ys, hy, rfl⟩ := hfx.exists_target ht
  have hkid : y ∈ x.kids := by simp [Tree.kids, hy]
  have hlabel := Label.assigns_iff.2 (hfx.assigns_kind.1 hassigns)
  obtain ⟨f, rfl, hstores⟩ := Frame.exists_stores hy hlabel
  obtain ⟨D, hD, hplug, hlen⟩ := (hfx.kid hkid).exists_chained
  have hyn := Tree.nodup_kid hnx hkid
  refine ⟨D ++ f :: C, y.base, by rw [Ctx.plug_append, hplug]; exact hC,
    (hx.kid hkid).innermost (hfx.kid hkid) hyn, ?_, ?_⟩
  · rw [Ctx.position_append, hD.position, Ctx.position, Position.inner_of_stores hstores]
  · rw [Ctx.position_append, hD.position, Ctx.position, Position.inner_of_stores hstores,
      (hx.kid hkid).chain (hfx.kid hkid) hyn, List.length_reverse, List.length_map, hlen, Nat.zero_add]

/-- In a tree whose only module is its top, a place has a site unless the nearest statement list is that of the
top. -/
theorem sited_iff (hT : s.Holds none T) (hf : T.Fits) (hn : T.ids.Nodup) (hl : T.label = .module)
    (hm : ∀ k ∈ T.kids, k.All fun u => u.label ≠ .module) (hK : K.plug u = T) (hne : K ≠ []) :
    K.sited = true ↔ (s.enclosingStatement? u.id).map Prod.snd ≠ some T.id := by
  have hown : s.enclosingStatement? u.id = K.enclosing? u.id := by
    subst hK
    exact enclosingWithin_eq hT hf hn (Nat.le_of_lt (length_ctx_le hT hn))
  rw [hown]
  generalize u.id = j
  clear hown
  induction K generalizing u j with
  | nil => exact absurd rfl hne
  | cons f C ih =>
    rw [Ctx.sited, Ctx.enclosing?]
    by_cases hp : f.part = .heads
    · rw [if_pos hp, if_pos hp]
      refine ih (u := f.plug [u]) hK ?_ f.id
      rintro rfl
      have hheads : (f.plug [u]).heads = [] := by
        rw [show f.plug [u] = T from hK, Lowering.eq_module hf hl]
        rfl
      simp [Frame.plug, hp] at hheads
    · rw [if_neg hp, if_neg hp, decide_eq_true_eq, Option.map_some, ne_eq, ne_eq, Option.some.injEq]
      have hK : Ctx.plug C (f.plug [u]) = T := hK
      rcases List.eq_nil_or_concat C with rfl | ⟨C, g, rfl⟩
      · subst hK
        rw [← Frame.id_plug f [u], ← Frame.label_plug f [u]]
        exact iff_of_false (not_not.2 hl) (not_not.2 rfl)
      · rw [List.concat_eq_append] at hK
        refine iff_of_true ?_ fun hid => ?_
        · -- it is inside of what is in the body
          have hkid : Ctx.plug C (f.plug [u]) ∈ T.kids := by
            rw [← hK, Ctx.plug_append]
            simp
          simpa using (Tree.All.of_plug (hm _ hkid)).top
        · have hnil := (Ctx.plug_inj (C := C ++ [g]) (D := []) (t := f.plug [u]) (u := T) hK (hK ▸ hn)
            (by simpa using hid)).1
          simp at hnil

/-- What is stored to is in the position of it. -/
theorem storedTo_iff (hT : s.Holds none T) (hf : T.Fits) (hn : T.ids.Nodup) (hK : K.plug u = T)
    (hu : u.label ≠ .subscript) (sited : Bool) :
    s.StoredTo T.id u.id ↔ (K.position (.plain sited)).stored = true := by
  constructor
  · rintro ⟨n, hmem, hassigns, target, ht, hinner⟩
    obtain ⟨K', u', hK', hinner', hstored, -⟩ := exists_stored (p := .plain sited) hT hf hn hmem hassigns ht
    obtain ⟨rfl, -⟩ := Ctx.plug_inj (hK'.trans hK.symm) (hK' ▸ hn) (hinner'.symm.trans hinner)
    exact hstored
  · intro hstored
    obtain ⟨n, hmem, hassigns, target, ht, hinner, -⟩ := exists_target hT hf hn hK hu hstored
    exact ⟨n, hmem, hassigns, target, ht, hinner⟩

/-- **References can be lowered where they stand exactly if their positions allow it.** -/
theorem referencesFit_iff {c : Catalog} (hT : s.Holds none T) (hf : T.Fits) (hn : T.ids.Nodup)
    (hl : T.label = .module) (hm : ∀ k ∈ T.kids, k.All fun u => u.label ≠ .module) :
    s.ReferencesFit T.id c ↔ T.Allowed c (.plain false) := by
  have hlabel : ∀ {u : Tree} {v : StorageVar}, u.receiver? c = some v → u.label ≠ .subscript ∧
      u.label ≠ .module := by
    intro u v hv
    obtain ⟨attr, hattr⟩ := Tree.label_of_receiver? hv
    simp [hattr]
  have hsited : ∀ {K : Ctx} {u : Tree} {v : StorageVar}, K.plug u = T → u.receiver? c = some v →
      ((K.position (.plain false)).sited = true ↔ (s.enclosingStatement? u.id).map Prod.snd ≠ some T.id) := by
    intro K u v hK hv
    rw [Ctx.sited_position]
    refine sited_iff hT hf hn hl hm hK ?_
    rintro rfl
    exact (hlabel hv).2 ((congrArg Tree.label hK).trans hl)
  have hreceiver : ∀ {K : Ctx} {u : Tree}, K.plug u = T → s.receiver? c u.id = u.receiver? c := fun hK =>
    (hT.part hf hn hK).1.receiver? (hT.part hf hn hK).2.1
  constructor
  · rintro ⟨hsite, hstore, hread⟩ K u v hK hv
    have hmem : u.root K.parent ∈ s.preorder T.id := (hT.mem_preorder_iff hf hn).2 ⟨K, u, hK, rfl⟩
    have hv' : s.receiver? c u.id = some v := (hreceiver hK).trans hv
    refine ⟨(hsited hK hv).2 (hsite _ hmem (by rw [Tree.root_id, hv']; rfl)), ?_⟩
    split
    · next hstored =>
      obtain ⟨n, hn', hassigns, target, ht, hinner, hlen⟩ := exists_target hT hf hn hK (hlabel hv).1 hstored
      exact hlen.symm.trans (hstore n hn' hassigns target ht v (by rw [hinner]; exact hv'))
    · next hstored =>
      obtain ⟨top, htop, hinner, hle⟩ :=
        hread _ hmem v hv' (mt (storedTo_iff hT hf hn hK (hlabel hv).1 false).1 hstored)
      exact hle.trans (length_chain_le hT hf hn hK htop hinner)
  · intro hall
    refine ⟨fun n hn' hv => ?_, fun n hn' hassigns target ht v hv => ?_, fun n hn' v hv hnot => ?_⟩
    · obtain ⟨K, u, hK, rfl⟩ := (hT.mem_preorder_iff hf hn).1 hn'
      obtain ⟨v, hv⟩ := Option.isSome_iff_exists.1 hv
      have hv : u.receiver? c = some v := (hreceiver hK).symm.trans hv
      exact (hsited hK hv).1 (hall K u v hK hv).1
    · obtain ⟨K, u, hK, hinner, hstored, hlen⟩ := exists_stored (p := .plain false) hT hf hn hn' hassigns ht
      have hv : u.receiver? c = some v := (hreceiver hK).symm.trans (hinner ▸ hv)
      have hallows := (hall K u v hK hv).2
      rw [if_pos hstored] at hallows
      exact hlen.trans hallows
    · obtain ⟨K, u, hK, rfl⟩ := (hT.mem_preorder_iff hf hn).1 hn'
      have hv : u.receiver? c = some v := (hreceiver hK).symm.trans hv
      have hallows := (hall K u v hK hv).2
      rw [if_neg (mt (storedTo_iff hT hf hn hK (hlabel hv).1 false).2 hnot)] at hallows
      obtain ⟨top, htop, hinner, hlen⟩ := exists_chain hT hf hn hK (hlabel hv).1 false
      exact ⟨top, htop, hinner, hlen ▸ hallows⟩

end References

/-- **What can be lowered is read off the tree.** -/
theorem lowerable_iff {s : Store} {i : NodeId} {ty : Option Ty} {body : List Tree}
    (hT : s.Holds none (.node i ty .module [] body [])) (hf : (Tree.node i ty .module [] body []).Fits)
    (hn : (Tree.node i ty .module [] body []).ids.Nodup) (hm : ∀ k ∈ body, k.All fun u => u.label ≠ .module)
    (hp : (Tree.node i ty .module [] body []).Proper) (hnames : ((s.declaredVars i).map StorageVar.name).Nodup) :
    s.Lowerable i ↔ (∀ d ∈ body, d.Declarable) ∧ (Lowering.bodyTodo body).able := by
  have hkid : ∀ d ∈ body, d ∈ (Tree.node i ty .module [] body []).kids := fun d hd => by simpa using hd
  have hreferences : s.ReferencesFit i (s.declaredVars i) ↔ Walkable (s.declaredVars i) false body := by
    refine (referencesFit_iff (T := .node i ty .module [] body []) hT hf hn rfl
      fun k hk => hm k (by simpa using hk)).trans ?_
    rw [Tree.allowed_node (by simp) rfl rfl, Walkable.iff_forall]
    simp only [List.not_mem_nil, false_implies, implies_true, true_and, List.append_nil]
    refine forall₂_congr fun d hd => ?_
    exact Tree.allowed_plain_iff (hf.kid (hkid d hd)) (hp.kid (hkid d hd)) (hm d hd)
  rw [Lowering.bodyTodo, Todo.root, catalogOf_eq hT hf hnames, ← declared_iff hT hf, ← getters_iff hT hf hn hnames,
    ← hreferences]
  exact ⟨fun h => ⟨h.declared, h.getters, h.references⟩, fun h => ⟨h.1, h.2.1, h.2.2⟩⟩

end Store

namespace Lowering

variable {w : Workspace Progress} {m : NodeId}

/-- Let `m` be the only module of a tree whose text can be printed and whose state variables have different names.
What the pass lowers can be lowered; and where it fails, the counter is at its end, or it says what cannot be
lowered or which declaration has no name. -/
theorem run_lowerable {cfg : Print.Config} {text : String} (hs : w.store.Sound) (hv : w.store.verify m = .ok ())
    (hmodule : ∀ n ∈ w.store.preorder m, n.kind.isModule = true ↔ n.id = m)
    (hnames : ((w.store.declaredVars m).map StorageVar.name).Nodup)
    (hrender : Print.render w.store cfg m = .ok text) : Ends (run m) w (fun _ _ => w.store.Lowerable m) fun e w' =>
      w'.store.nextId = .last ∨
      ¬ w.store.Lowerable m ∧ ((∃ cause, e = .lowering cause) ∨
        ∃ decl, e = .structural (.inconsistent decl .targetNotName)) := by
  obtain ⟨T, rfl, hf, hn, hT⟩ := (Store.verify_iff hs.nodup m).1 hv
  have hm := hT.no_module hf hn fun n hn => (hmodule n hn).1
  have hl := hT.label_module hf hn hmodule
  obtain ⟨i, ty, body, rfl⟩ : ∃ i ty body, T = .node i ty .module [] body [] := ⟨_, _, _, eq_module hf hl⟩
  obtain ⟨hproper, -⟩ := Print.proper_of_render hT hf hrender
  have hm : ∀ k ∈ body, k.All fun u => u.label ≠ .module := fun k hk => hm k (by simpa using hk)
  have hiff := Store.lowerable_iff hT hf hn hm hproper hnames
  have hspec := run_spec hs hf hn hT hm
  rw [Ends]
  cases hrun : run (Tree.node i ty .module [] body []).id w with
  | ok _ w' =>
    obtain ⟨body', hran⟩ := hspec.of_ok hrun
    exact hiff.2 ⟨hran.declarable, hran.rooted.gettersFree, hran.rooted.walkable
      fun d hd => hf.kid (by simpa using hd)⟩
  | error e w' =>
    rcases hspec.of_error hrun with ⟨hdecl, he⟩ | ⟨-, -, hfault⟩
    · exact .inr ⟨fun h => hdecl (hiff.1 h).1, he⟩
    · cases hfault with
      | ids => exact .inl ((edits_run _).last w w' hrun)
      | lowering h => exact .inr ⟨fun h' => h (hiff.1 h').2, .inl ⟨_, rfl⟩⟩
      | anchor h => exact absurd (fun d hd => (Tree.proper_iff.1 hproper).2.1 d hd) h

/-- **The pass fails exactly when it should.** Let `m` be the only module of a tree whose text can be printed and
whose state variables have different names, and let there be as many identities left as a run may need. The pass
succeeds exactly if the module can be lowered; and where it fails, it says what cannot be lowered or which
declaration has no name. -/
theorem run_verdict {cfg : Print.Config} {text : String} (hs : w.store.Sound) (hv : w.store.verify m = .ok ())
    (hmodule : ∀ n ∈ w.store.preorder m, n.kind.isModule = true ↔ n.id = m)
    (hnames : ((w.store.declaredVars m).map StorageVar.name).Nodup)
    (hrender : Print.render w.store cfg m = .ok text)
    (hids : w.store.nextId.toNat + w.store.idBudget < NodeId.last.toNat) :
    ((∃ w', run m w = .ok () w') ↔ w.store.Lowerable m) ∧
    ∀ e w', run m w = .error e w' →
      (∃ cause, e = .lowering cause) ∨ ∃ decl, e = .structural (.inconsistent decl .targetNotName) := by
  have hspec := run_lowerable hs hv hmodule hnames hrender
  -- the counter does not come to its end
  have hfault : ∀ {e w'}, run m w = .error e w' → ¬ w.store.Lowerable m ∧
      ((∃ cause, e = .lowering cause) ∨ ∃ decl, e = .structural (.inconsistent decl .targetNotName)) := by
    intro e w' hrun
    refine (hspec.of_error hrun).resolve_left fun hlast => ?_
    have hbudget := (run_budget hs hv).of_error hrun
    rw [hlast] at hbudget
    omega
  refine ⟨⟨fun ⟨w', hrun⟩ => hspec.of_ok hrun, fun h => ?_⟩, fun e w' hrun => (hfault hrun).2⟩
  cases hrun : run m w with
  | ok _ w' => exact ⟨w', rfl⟩
  | error e w' => exact absurd h (hfault hrun).1

theorem run_verdict_ledger : ledger.nextId.toNat + ledger.idBudget < NodeId.last.toNat ∧ ledger.Lowerable ⟨0⟩ := by
  have hids : ledger.nextId.toNat + ledger.idBudget < NodeId.last.toNat := by decide
  obtain ⟨text, hrender⟩ : ∃ text, Print.render ledger {} ⟨0⟩ = .ok text := by decide +kernel
  have hmodule : ∀ n ∈ ledger.preorder ⟨0⟩, n.kind.isModule = true ↔ n.id = ⟨0⟩ := by decide
  have hnames : ((ledger.declaredVars ⟨0⟩).map StorageVar.name).Nodup := by decide
  have hs := sound_ledger
  have hverify := verify_ledger
  have hrun := run_ledger
  refine ⟨hids, ?_⟩
  generalize ledger = s at *
  exact (run_verdict (w := ⟨s, {}⟩) hs hverify hmodule hnames hrender hids).1.1 hrun

end Lowering

end ContractTree
