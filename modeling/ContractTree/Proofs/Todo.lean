import ContractTree.Lowering.Basic
import ContractTree.Proofs.Walked
import Mathlib.Algebra.Order.BigOperators.Group.List
import Mathlib.Algebra.Order.Ring.Nat

/-!
What a walk still has to visit. A `Todo` sums up trees: how many nodes they have, what lowering them adds to the
statistics, and three conditions on them, by which the failures of the walk are sorted (`Todo.Refuses`). Those of
several trees are put together (`Todo.and`), so that what a walk does is proved one tree at a time.

The body of the module is a queue (`Todo.root`), which grows at its end by the getters of what is taken from its
front (`Todo.root_cons`). The bound of the walk is large enough for the queue and its getters
(`Lowering.root_size_lt_walkBound`).
-/

namespace ContractTree

open Lowering (Stats walkBound)

/-- What is known of trees that a walk has to visit: the number of their nodes, what they add to the statistics,
whether there is nothing to lower in them, whether they are of the sort that their place is for, and whether they
can be lowered. -/
@[ext] structure Todo where
  size : Nat
  stats : Stats
  clean : Prop
  proper : Prop
  able : Prop

theorem Tree.proper_iff {i : NodeId} {ty : Option Ty} {l : Label} {hs bs os : List Tree} :
    (Tree.node i ty l hs bs os).Proper ↔ (∀ k ∈ hs, k.Proper ∧ k.label.isStatement = false) ∧
      (∀ k ∈ bs, k.Proper ∧ k.label.isStatement = true) ∧ ∀ k ∈ os, k.Proper ∧ k.label.isStatement = true := by
  rw [Proper, all_iff]
  simp only [heads_node, body_node, orelse_node, kids_node, List.forall_mem_append, forall_and, Proper]
  tauto

namespace Todo

variable {c : Catalog} {ν : NodeId} {inList sited : Bool} {a b d : Todo} {e : PassError} {t : Tree}
  {ts : List Tree}

def nothing : Todo := ⟨0, {}, True, True, True⟩

def and (a b : Todo) : Todo :=
  ⟨a.size + b.size, a.stats + b.stats, a.clean ∧ b.clean, a.proper ∧ b.proper, a.able ∧ b.able⟩

/-- Trees of one list. -/
def trees (c : Catalog) (inList sited : Bool) (ts : List Tree) : Todo where
  size := (ts.flatMap Tree.ids).length
  stats := Tree.chargeAll c ts
  clean := ∀ t ∈ ts, t.Clean c
  proper := ∀ t ∈ ts, t.Proper ∧ t.label.isStatement = inList
  able := Walkable c sited ts

/-- The walk may fail with `e`: there is something to lower, and it fails for a reason. -/
def Refuses (a : Todo) (e : PassError) : Prop := ¬ a.clean ∧ e.Fault a.proper a.able

theorem Refuses.mono (h : a.Refuses e) (hc : b.clean → a.clean) (hp : b.proper → a.proper) (ha : b.able → a.able) :
    b.Refuses e := ⟨fun h' => h.1 (hc h'), h.2.mono hp ha⟩

theorem Refuses.left (h : a.Refuses e) : (a.and b).Refuses e := h.mono And.left And.left And.left

theorem Refuses.right (h : b.Refuses e) : (a.and b).Refuses e := h.mono And.right And.right And.right

theorem assoc : (a.and b).and d = a.and (b.and d) := by
  simp [and, Nat.add_assoc, Stats.add_assoc, and_assoc]

@[simp] theorem nothing_and : nothing.and a = a := by simp [nothing, and]

@[simp] theorem and_nothing : a.and nothing = a := by simp [nothing, and]

@[simp] theorem trees_nil : trees c inList sited [] = nothing := by
  simp [trees, nothing, Walkable.nil]

theorem trees_cons : trees c inList sited (t :: ts) = (trees c inList sited [t]).and
    (trees c inList sited ts) := by
  ext
  · simp [trees, and]
  · simp [trees, and]
  · simp [trees, and]
  · simp [trees, and]
  · exact Walkable.cons_iff

/-- What is below a node, in a place with or without a site. -/
def below (c : Catalog) (sited : Bool) (hs bs os : List Tree) : Todo :=
  (trees c false sited hs).and ((trees c true true bs).and (trees c true true os))

/-- A node that is not lowered as a whole is lowered part by part. -/
theorem trees_node {i : NodeId} {ty : Option Ty} {l : Label} {hs bs os : List Tree}
    (hr : (Tree.node i ty l hs bs os).receiver? c = none) (ha : (Tree.node i ty l hs bs os).access? c = none)
    (ht : l = .assign ∨ (∃ op, l = .augAssign op) → ∀ target ∈ hs.head?, target.reach c = none) :
    trees c inList sited [.node i ty l hs bs os] =
      { below c sited hs bs os with
        size := (below c sited hs bs os).size + 1
        proper := l.isStatement = inList ∧ (below c sited hs bs os).proper } := by
  ext
  · simp only [trees, below, and, List.flatMap_cons, List.flatMap_nil, List.append_nil, Tree.ids_eq (.node ..),
      Tree.kids_node, List.flatMap_append, List.length_cons, List.length_append, Nat.add_assoc]
  · simp only [trees, below, and, Tree.chargeAll_cons, Tree.chargeAll_nil, Stats.add_zero]
    rw [Tree.charge_eq, Tree.cost?_eq_none ha ht]
    simp
  · simp only [trees, below, and, List.forall_mem_singleton]
    rw [Tree.Clean, Tree.all_iff]
    simp only [hr, true_and, Tree.kids_node, List.forall_mem_append, and_assoc, Tree.Clean]
  · simp only [trees, below, and, List.forall_mem_singleton, Tree.proper_iff, Tree.label_node]
    tauto
  · refine ⟨fun h => Walkable.parts h ha ht, fun h => .inner hr ht h.1 h.2.1 h.2.2 .nil⟩

end Todo

/-! ## Types do not matter -/

namespace Tree

variable {c : Catalog} {ν : NodeId} {sited : Bool} {t : Tree} {ty : Option Ty} {v : StorageVar}

theorem receiver?_withTy (hf : t.Fits) : (t.withTy ty).receiver? c = t.receiver? c := by
  rcases hf.member_cases with ⟨i, ty', attr, x, rfl⟩ | hl
  · rfl
  · rw [receiver?_of_label hl, receiver?_of_label (by simpa using hl)]

theorem reach_withTy (hf : t.Fits) : (t.withTy ty).reach c = t.reach c := by
  rcases hf.subscript_cases with ⟨i, ty', x, k, rfl⟩ | hl
  · rfl
  · rw [reach, reach, base_of_label hl, base_of_label (by simpa using hl), receiver?_withTy hf]

theorem keys_withTy (hf : t.Fits) : (t.withTy ty).links.map Link.key = t.links.map Link.key := by
  rcases hf.subscript_cases with ⟨i, ty', x, k, rfl⟩ | hl
  · simp [withTy, links]
  · rw [links_of_label hl, links_of_label (by simpa using hl)]

theorem access?_withTy (hf : t.Fits) : (t.withTy ty).access? c = t.access? c := by
  have : ((t.withTy ty).links.map Link.key).length = (t.links.map Link.key).length :=
    congrArg List.length (keys_withTy hf)
  rw [List.length_map, List.length_map] at this
  rw [access?, access?, reach_withTy hf, this]

theorem all_withTy {P : Tree → Prop} (hP : P (t.withTy ty) ↔ P t) : (t.withTy ty).All P ↔ t.All P := by
  rw [all_iff, hP, kids_withTy]
  exact all_iff.symm

theorem charge_withTy (hf : t.Fits) : (t.withTy ty).charge c = t.charge c := by
  have hrefs : (t.withTy ty).refs c = t.refs c := by
    rw [refs, refs, count_eq, count_eq, isRef, isRef, receiver?_withTy hf, kids_withTy]
  rw [charge_eq, charge_eq, cost?, cost?, hrefs, access?_withTy hf, kids_withTy, heads_withTy, label_withTy]

theorem walkable_withTy (hf : t.Fits) : Walkable c sited [t.withTy ty] ↔ Walkable c sited [t] := by
  have hgo : ∀ {t : Tree} {ty : Option Ty}, t.Fits → Walkable c sited [t] → Walkable c sited [t.withTy ty] := by
    intro t ty hf h
    cases h with
    | read ht hk _ => exact .read (by rwa [access?_withTy hf]) (by rwa [keys_withTy hf]) .nil
    | store hl ht hval hk _ => exact .store hl ht hval hk .nil
    | inner hr ht hh hb ho _ => exact .inner (by rw [← hr]; exact receiver?_withTy hf) ht hh hb ho .nil
  refine ⟨fun h => ?_, hgo hf⟩
  have : Walkable c sited [(t.withTy ty).withTy t.ty] := hgo (fits_withTy.2 hf) h
  obtain ⟨i, ty', l, hs, bs, os⟩ := t
  exact this

end Tree

namespace Todo

variable {c : Catalog} {ν : NodeId} {inList sited : Bool} {d x : Tree} {ty : Option Ty} {v : StorageVar}

theorem trees_withTy (hf : x.Fits) : trees c inList sited [x.withTy ty] = trees c inList sited [x] := by
  ext
  · simp [trees]
  · simp [trees, Tree.charge_withTy hf]
  · have hc : (x.withTy ty).Clean c ↔ x.Clean c := Tree.all_withTy (by rw [Tree.receiver?_withTy hf])
    simp [trees, hc]
  · have hp : (x.withTy ty).Proper ↔ x.Proper := Tree.all_withTy (by simp)
    simp [trees, hp]
  · exact Tree.walkable_withTy hf

/-- A declaration is walked alike with the type of its slot. -/
theorem trees_declareSlot (hf : d.Fits) (hl : ∃ a b e, d.label = .variableDecl a b e) :
    trees c inList sited [d.declareSlot v] = trees c inList sited [d] := by
  obtain ⟨a, b, e, hl⟩ := hl
  obtain ⟨i, ty, l, hs, bs, os⟩ := d
  obtain rfl : l = .variableDecl a b e := hl
  obtain ⟨x, hs, rfl⟩ := List.exists_cons_of_length_pos (show 0 < hs.length from ((Tree.fits_iff _).1 hf).1.1)
  have hnode : ∀ (ty : Option Ty) (x : Tree), trees c inList sited
      [.node i ty (.variableDecl a b e) (x :: hs) bs os] = _ :=
    fun ty x => trees_node (Tree.receiver?_of_label (by simp))
      (by rw [Tree.access?, Tree.reach, Tree.base_of_label (by simp), Tree.receiver?_of_label (by simp)]; rfl)
      (by simp)
  have hfx : x.Fits := hf.kid (by simp)
  rw [Tree.declareSlot, hnode, hnode, below, below, trees_cons, trees_withTy hfx, ← trees_cons]

end Todo

/-! ## The body of the module -/

theorem Getter.proper {v : StorageVar} {g : Tree} (h : Getter v g) : g.Proper ∧ g.label.isStatement = true := by
  obtain ⟨i, read, temp, slot, result, reference, hkeys⟩ := h
  have hleaf : ∀ {i : NodeId} {ty : Option Ty} {l : Label}, (Tree.leaf i ty l).Proper := by
    simp [Tree.leaf, Tree.proper_iff]
  have hkeys : ∀ {n : Nat} {tys : List Ty} {as rs : List Tree}, GetterKeys n tys as rs →
      (∀ a ∈ as, a.Proper ∧ a.label.isStatement = false) ∧ ∀ r ∈ rs, r.Proper ∧ r.label.isStatement = false := by
    intro n tys as rs h
    induction h with
    | nil => simp
    | cons i j h ih =>
      exact ⟨List.forall_mem_cons.2 ⟨⟨hleaf, rfl⟩, ih.1⟩, List.forall_mem_cons.2 ⟨⟨hleaf, rfl⟩, ih.2⟩⟩
  obtain ⟨has, hrs⟩ := hkeys ‹_›
  refine ⟨Tree.proper_iff.2 ⟨has, ?_, by simp⟩, rfl⟩
  have hread : ∀ k ∈ tempLeaf temp (some v.value) :: slotLeaf slot v :: _, k.Proper ∧
      k.label.isStatement = false :=
    List.forall_mem_cons.2 ⟨⟨hleaf, rfl⟩, List.forall_mem_cons.2 ⟨⟨hleaf, rfl⟩, hrs⟩⟩
  refine List.forall_mem_cons.2 ⟨⟨Tree.proper_iff.2 ⟨hread, by simp, by simp⟩, rfl⟩, ?_⟩
  refine List.forall_mem_singleton.2 ⟨Tree.proper_iff.2 ⟨?_, by simp, by simp⟩, rfl⟩
  exact List.forall_mem_singleton.2 ⟨hleaf, rfl⟩

namespace Tree

/-- Whether no getter that the declarations are to have takes the name of a function or of another getter. -/
def GettersFree (c : Catalog) (names : List String) (ds : List Tree) : Prop :=
  (getterNames c ds).Nodup ∧ names.Disjoint (getterNames c ds)

variable {c : Catalog} {ν : NodeId} {names : List String} {d g : Tree} {v : StorageVar} {ds gs : List Tree}

theorem getterVar?_getter (h : Getter v g) : g.getterVar? c = none := by
  cases h
  rfl

theorem gettersFree_cons_none (h : d.getterVar? c = none) :
    GettersFree c names (d :: ds) ↔ GettersFree c names ds := by
  rw [GettersFree, getterNames, List.filterMap_cons_none h, ← getterNames, GettersFree]

theorem gettersFree_cons_some (h : d.getterVar? c = some v) : GettersFree c names (d :: ds) ↔
    v.name ∉ names ∧ GettersFree c (names ++ [v.name]) ds := by
  rw [GettersFree, GettersFree, getterNames, List.filterMap_cons_some h, List.map_cons, ← getterNames]
  simp only [List.nodup_cons, List.disjoint_cons_right, List.disjoint_append_left, List.singleton_disjoint]
  tauto

theorem getterNames_append : getterNames c (ds ++ gs) = getterNames c ds ++ getterNames c gs := by
  rw [getterNames, List.filterMap_append, List.map_append]
  rfl

end Tree

namespace Todo

variable {c : Catalog} {ν : NodeId} {names : List String} {d d' : Tree} {ds gs : List Tree}

/-- What a declaration of the module needs, beside functions of these names. -/
def decl (c : Catalog) (names : List String) (d : Tree) : Todo where
  size := d.ids.length
  stats := d.charge c + { getters := (d.getterVar? c).toList.length }
  clean := d.DeclSettled c ∧ d.Clean c
  proper := d.Proper ∧ d.label.isStatement = true
  able := (∀ v ∈ d.getterVar? c, v.name ∉ names) ∧ Walkable c false [d]

/-- What the body of the module needs. The getters are counted with the declarations that ask for them. -/
def root (c : Catalog) (names : List String) (ds : List Tree) : Todo where
  size := (ds.flatMap Tree.ids).length + ((ds.filterMap (Tree.getterVar? c)).map fun v => 2 * v.depth + 6).sum
  stats := Tree.chargeAll c ds + { getters := (Tree.getterNames c ds).length }
  clean := ∀ d ∈ ds, d.DeclSettled c ∧ d.Clean c
  proper := ∀ d ∈ ds, d.Proper ∧ d.label.isStatement = true
  able := Tree.GettersFree c names ds ∧ Walkable c false ds

/-- **The front of the queue.** What is left when a declaration has been walked is the rest, with its getters. -/
theorem root_cons (h : DeclWalked c ν names d gs d') :
    root c names (d :: ds) = (decl c names d).and (root c (names ++ Tree.functionNames gs) (ds ++ gs)) := by
  rcases h.getters with ⟨hnone, rfl⟩ | ⟨v, g, hsome, rfl, hg, hfree⟩
  · ext
    · simp [root, decl, and, List.filterMap_cons_none hnone, Nat.add_assoc]
    · simp [root, decl, and, hnone, Tree.getterNames, List.filterMap_cons_none hnone, Stats.add_assoc]
    · simp [root, decl, and]
    · simp [root, decl, and]
    · simp only [root, decl, and, hnone, Tree.gettersFree_cons_none hnone, Tree.functionNames, List.filterMap_nil,
        List.append_nil]
      rw [Walkable.cons_iff]
      simp
      tauto
  · have hgn := Tree.getterVar?_getter (c := c) hg
    have hnames : Tree.functionNames [g] = [v.name] := by
      cases hg
      rfl
    have hgs : Tree.getterNames c [g] = [] := by simp [Tree.getterNames, hgn]
    ext
    · simp only [root, decl, and, List.flatMap_cons, List.flatMap_append, List.flatMap_nil, List.filterMap_append,
        List.filterMap_cons_some hsome, List.filterMap_cons_none hgn, List.filterMap_nil, List.map_cons,
        List.sum_cons, List.length_append, List.append_nil, hg.length_ids]
      omega
    · have hlen : (Tree.getterNames c (d :: ds)).length = (Tree.getterNames c (ds ++ [g])).length + 1 := by
        rw [Tree.getterNames_append, hgs, List.append_nil]
        simp [Tree.getterNames, List.filterMap_cons_some hsome]
      simp only [root, decl, and, hsome, hlen, Tree.chargeAll_cons, Tree.chargeAll_append, Tree.chargeAll_nil,
        hg.clean.charge]
      simp only [Stats.add_def, Option.toList_some, List.length_singleton, Stats.mk.injEq]
      omega
    · simp only [root, decl, and, List.forall_mem_cons, List.forall_mem_append]
      have : g.DeclSettled c ∧ g.Clean c := ⟨by cases hg; simp [Tree.DeclSettled], hg.clean⟩
      tauto
    · simp only [root, decl, and, List.forall_mem_cons, List.forall_mem_append]
      have := hg.proper
      tauto
    · have hw : Walkable c false [g] := .of_clean hg.clean
      have hfree : Tree.GettersFree c (names ++ [v.name]) (ds ++ [g]) ↔
          Tree.GettersFree c (names ++ [v.name]) ds := by
        rw [Tree.GettersFree, Tree.getterNames_append, hgs, List.append_nil, Tree.GettersFree]
      simp only [root, decl, and, hsome, Tree.gettersFree_cons_some hsome, hnames, hfree, Option.mem_some,
        forall_eq']
      have happ : Walkable c false (ds ++ [g]) ↔ Walkable c false ds := by
        rw [Walkable.iff_forall, List.forall_mem_append, ← Walkable.iff_forall, List.forall_mem_singleton,
          and_iff_left hw]
      rw [Walkable.cons_iff, happ]
      tauto

theorem length_ids_le_root : d.ids.length ≤ (root c names (d :: ds)).size := by
  simp only [root, List.flatMap_cons, List.length_append]
  omega

theorem Refuses.root {e : PassError} (h : (decl c names d).Refuses e) :
    (Todo.root c names (d :: ds)).Refuses e := by
  refine h.mono (fun h => h d List.mem_cons_self) (fun h => h d List.mem_cons_self) fun ⟨hfree, hw⟩ =>
    ⟨fun v hv => ?_, ?_⟩
  · exact ((Tree.gettersFree_cons_some hv).1 hfree).1
  · exact (Walkable.cons_iff.1 hw).1

end Todo

/-- **No getter has the name of a function or of another getter.** -/
theorem Rooted.gettersFree {c : Catalog} {ν : NodeId} {names : List String} {ds ds' : List Tree}
    (h : Rooted c ν names ds ds') : Tree.GettersFree c names ds := by
  induction h with
  | nil => exact ⟨.nil, by simp [Tree.getterNames]⟩
  | @cons names d d' gs ds ds' hd hds ih =>
    rcases hd.getters with ⟨hnone, rfl⟩ | ⟨v, g, hsome, rfl, hg, hfree⟩
    · simpa [Tree.functionNames, Tree.gettersFree_cons_none hnone] using ih
    · rw [Tree.gettersFree_cons_some hsome]
      refine ⟨hfree, ?_⟩
      have hgs : Tree.getterNames c [g] = [] := by simp [Tree.getterNames, Tree.getterVar?_getter hg]
      rw [Tree.GettersFree, Tree.getterNames_append, hgs, List.append_nil] at ih
      cases hg
      exact ih

/-! ## The bound of the walk -/

/-- What a node counts for in the weight of a store. -/
def Node.weight (n : Node) : Nat := 1 + (n.ty.map Ty.breadth).getD 0

/-- What the nodes of a tree count for. -/
def Tree.weight (t : Tree) (p : Option NodeId) : Nat := ((t.nodes p).map Node.weight).sum

namespace Tree

variable {t d : Tree} {p : Option NodeId} {v : StorageVar} {body ds : List Tree}

theorem weight_eq (t : Tree) (p : Option NodeId) :
    t.weight p = (t.root p).weight + (t.kids.map fun k => k.weight (some t.id)).sum := by
  rw [weight, nodes_eq, List.map_cons, List.sum_cons, List.map_flatMap, List.flatMap_def, List.sum_flatten,
    List.map_map]
  rfl

theorem length_ids_le_weight (t : Tree) (p : Option NodeId) :
    t.ids.length + (t.ty.map Ty.breadth).getD 0 ≤ t.weight p := by
  induction t generalizing p with
  | step t ih =>
    have hkids : (t.kids.flatMap ids).length ≤ (t.kids.map fun k => k.weight (some t.id)).sum := by
      rw [List.length_flatMap]
      exact List.sum_le_sum fun k hk => Nat.le_trans (Nat.le_add_right _ _) (ih k hk (some t.id))
    have hroot : (t.root p).weight = 1 + (t.ty.map Ty.breadth).getD 0 := rfl
    rw [weight_eq, ids_eq, List.length_cons, hroot]
    omega

/-- A declaration counts for its nodes and for the keys of what it declares. -/
theorem length_ids_add_depth_le_weight (h : d.stateVar? = some v) (p : Option NodeId) :
    2 ≤ d.ids.length ∧ d.ids.length + v.depth ≤ d.weight p := by
  unfold stateVar? at h
  split at h
  · next i ty isPublic j ty' x hs bs os hs' bs' os' =>
    obtain ⟨declared, hdecl, rfl⟩ := Option.map_eq_some_iff.1 h
    -- the type is that of the declaration or of the name
    have hdepth : declared.keyDepth ≤ (ty.map Ty.breadth).getD 0 + (ty'.map Ty.breadth).getD 0 := by
      refine Nat.le_trans declared.keyDepth_le_breadth ?_
      cases ty <;> cases ty' <;> simp_all
    have hname := length_ids_le_weight (.node j ty' (.name x) hs bs os) (some i)
    have hrest : ((hs' ++ bs' ++ os').flatMap ids).length ≤
        ((hs' ++ bs' ++ os').map fun k => k.weight (some i)).sum := by
      rw [List.length_flatMap]
      exact List.sum_le_sum fun k _ => Nat.le_trans (Nat.le_add_right _ _) (k.length_ids_le_weight (some i))
    have hpos := (Tree.node j ty' (.name x) hs bs os).length_ids_pos
    have hroot : ((Tree.node i ty (.variableDecl isPublic false false)
      (.node j ty' (.name x) hs bs os :: hs') bs' os').root p).weight = 1 + (ty.map Ty.breadth).getD 0 := rfl
    rw [weight_eq, ids_eq, hroot]
    simp only [kids_node, List.cons_append, List.flatMap_cons, List.map_cons, List.sum_cons, List.length_cons,
      List.length_append, ty_node, id_node] at hname hrest ⊢
    change _ ∧ _ + declared.keyDepth ≤ _
    omega
  · cases h

theorem nodup_body {i : NodeId} {ty : Option Ty} (hn : (node i ty .module [] body []).ids.Nodup) :
    (body.flatMap ids).Nodup := by
  rw [ids_eq, List.nodup_cons] at hn
  simpa using hn.2

/-- A catalog gives a declaration the variable that it declares. -/
theorem stateVar?_of_declaredAt? (hn : (body.flatMap ids).Nodup) (hd : d ∈ body)
    (h : (catalogOf body).declaredAt? d.id = some v) : d.stateVar? = some v := by
  obtain ⟨t, ht, hv⟩ := exists_decl_of_mem_catalogOf (List.mem_of_find?_eq_some h)
  have hid : v.decl = d.id := by simpa using List.find?_some h
  obtain rfl : t = d := eq_of_mem_ids hn hd ht (by rw [← decl_of_stateVar? hv, hid]; exact d.id_mem_ids)
  exact hv

theorem stateVar?_of_getterVar? (hn : (body.flatMap ids).Nodup) (hd : d ∈ body)
    (h : d.getterVar? (catalogOf body) = some v) : d.stateVar? = some v := by
  unfold getterVar? at h
  split at h
  · split at h
    · cases h
    · exact stateVar?_of_declaredAt? hn hd (Option.filter_eq_some_iff.1 h).1
  · cases h

/-- The queue is no larger than four times what its trees count for. -/
theorem root_size_le (hn : (body.flatMap ids).Nodup) (hds : ∀ d ∈ ds, d ∈ body) (names : List String)
    (p : Option NodeId) : (Todo.root (catalogOf body) names ds).size ≤ 4 * (ds.map fun d => d.weight p).sum := by
  induction ds with
  | nil => simp [Todo.root]
  | cons d ds ih =>
    have ih := ih fun e he => hds e (List.mem_cons_of_mem _ he)
    have hd := hds d List.mem_cons_self
    simp only [Todo.root, List.flatMap_cons, List.length_append, List.map_cons, List.sum_cons] at ih ⊢
    cases hv : d.getterVar? (catalogOf body) with
    | none =>
      have := d.length_ids_le_weight p
      rw [List.filterMap_cons_none hv]
      omega
    | some v =>
      obtain ⟨h2, h3⟩ := length_ids_add_depth_le_weight (stateVar?_of_getterVar? hn hd hv) p
      rw [List.filterMap_cons_some hv, List.map_cons, List.sum_cons]
      omega

end Tree

/-- A tree counts for no more than the store that holds it. -/
theorem Store.Holds.weight_le {s : Store} {p : Option NodeId} {t : Tree} (h : s.Holds p t) (hn : t.ids.Nodup) :
    t.weight p ≤ s.weight := by
  have hs : s.weight = (s.nodes.map Node.weight).sum := by
    rw [Store.weight, List.sum_eq_foldr, List.foldr_map]
    rfl
  have hnodes : (t.nodes p).Nodup := by
    refine List.Nodup.of_map Node.id ?_
    rwa [Tree.map_id_nodes]
  obtain ⟨l, hperm, hsub⟩ := List.subperm_of_subset hnodes fun n hn => Store.mem_of_find? (h n hn)
  rw [hs, Tree.weight, ← (hperm.map Node.weight).sum_eq]
  exact (hsub.map Node.weight).sum_le_sum fun _ _ => Nat.zero_le _

/-- **The bound of the walk is large enough** for the body of a module and the getters that are put at its end. -/
theorem Lowering.root_size_lt_walkBound {s : Store} {i : NodeId} {ty : Option Ty} {body : List Tree}
    {names : List String} (h : s.Holds none (.node i ty .module [] body []))
    (hn : (Tree.node i ty .module [] body []).ids.Nodup) :
    2 * (Todo.root (Tree.catalogOf body) names body).size + 4 ≤ walkBound s := by
  have h1 := Tree.root_size_le (Tree.nodup_body hn) (fun _ hd => hd) names (some i)
  have h2 := h.weight_le hn
  rw [Tree.weight_eq] at h2
  simp only [Tree.kids_node, List.nil_append, List.append_nil, Tree.id_node] at h2
  calc 2 * (Todo.root (Tree.catalogOf body) names body).size + 4 ≤ 2 * (4 * s.weight) + 4 := by omega
    _ ≤ 8 * (s.weight + 4) * 4 := by omega
    _ ≤ walkBound s := Nat.mul_le_mul_left _ (Nat.le_add_left 4 _)

end ContractTree
