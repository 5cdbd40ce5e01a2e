import ContractTree.Proofs.Husk

/-!
Counting in trees. `Tree.count` counts the subtrees that satisfy a test; the references to storage in a tree
(`Tree.refs`) are its members of `self` that the catalog lists. `Tree.charge` is what lowering a tree adds to the
statistics of the pass, read off the tree as it was before: a reference is a read, or the target of an assignment.
-/

namespace ContractTree

namespace Lowering.Stats

instance : Add Stats where
  add a b := ⟨a.reads + b.reads, a.writes + b.writes, a.augWrites + b.augWrites, a.getters + b.getters⟩

variable (a b d : Stats)

@[simp] theorem reads_add : (a + b).reads = a.reads + b.reads := rfl
@[simp] theorem writes_add : (a + b).writes = a.writes + b.writes := rfl
@[simp] theorem augWrites_add : (a + b).augWrites = a.augWrites + b.augWrites := rfl
@[simp] theorem getters_add : (a + b).getters = a.getters + b.getters := rfl

theorem add_def : a + b = ⟨a.reads + b.reads, a.writes + b.writes, a.augWrites + b.augWrites,
    a.getters + b.getters⟩ := rfl

protected theorem add_assoc : a + b + d = a + (b + d) := by simp [add_def, Nat.add_assoc]

protected theorem add_comm : a + b = b + a := by simp [add_def, Nat.add_comm]

@[simp] protected theorem add_zero : a + {} = a := rfl

@[simp] protected theorem zero_add : ({} : Stats) + a = a := by simp [add_def]

end Lowering.Stats

open Lowering (Stats)

namespace Tree

/-! ## Subtrees that satisfy a test -/

mutual

/-- How many of the tree and the trees below it satisfy `p`. -/
def count (p : Tree → Bool) : Tree → Nat
  | .node i ty l hs bs os => (p (.node i ty l hs bs os)).toNat + (countAll p hs + countAll p bs + countAll p os)

def countAll (p : Tree → Bool) : List Tree → Nat
  | [] => 0
  | t :: ts => count p t + countAll p ts

end

variable {p : Tree → Bool} {c : Catalog} {t u : Tree} {ts us : List Tree} {v : StorageVar}

@[simp] theorem countAll_nil : countAll p [] = 0 := rfl

@[simp] theorem countAll_cons : countAll p (t :: ts) = t.count p + countAll p ts := rfl

@[simp] theorem countAll_append : countAll p (ts ++ us) = countAll p ts + countAll p us := by
  induction ts with
  | nil => simp
  | cons t ts ih => simp [ih, Nat.add_assoc]

theorem count_eq (p : Tree → Bool) (t : Tree) : t.count p = (p t).toNat + countAll p t.kids := by
  obtain ⟨i, ty, l, hs, bs, os⟩ := t
  simp [count, Nat.add_assoc]

theorem countAll_eq_zero (h : ∀ t ∈ ts, t.count p = 0) : countAll p ts = 0 := by
  induction ts with
  | nil => rfl
  | cons t ts ih => rw [countAll_cons, h t List.mem_cons_self, ih fun u hu => h u (List.mem_cons_of_mem _ hu)]

theorem count_eq_zero (h : t.All fun u => p u = false) : t.count p = 0 := by
  induction t with
  | step t ih =>
    rw [count_eq, h.top, countAll_eq_zero fun k hk => ih k hk (h.kid hk)]
    rfl

theorem count_le_of_mem (h : t ∈ ts) : t.count p ≤ countAll p ts := by
  obtain ⟨xs, ys, rfl⟩ := List.append_of_mem h
  simp
  omega

theorem countAll_le_length (h : ∀ t ∈ ts, t.count p ≤ t.ids.length) : countAll p ts ≤ (ts.flatMap ids).length := by
  induction ts with
  | nil => simp
  | cons t ts ih =>
    have h1 := h t List.mem_cons_self
    have h2 := ih fun u hu => h u (List.mem_cons_of_mem _ hu)
    simp only [countAll_cons, List.flatMap_cons, List.length_append]
    omega

theorem count_le_length : t.count p ≤ t.ids.length := by
  induction t with
  | step t ih =>
    have h1 := countAll_le_length ih
    have h2 := (p t).toNat_le
    rw [count_eq, ids_eq, List.length_cons]
    omega

/-- Subscripts are not counted: what counts is in the base and in the keys. -/
theorem count_wrap {b : Tree} (hp : ∀ u : Tree, u.label = .subscript → p u = false) (ls : List Link) :
    (b.wrap ls).count p = b.count p + countAll p (ls.map Link.key) := by
  induction ls using List.reverseRecOn with
  | nil => simp
  | append_singleton ls l ih =>
    rw [wrap_concat, count_eq, hp _ rfl, List.map_append, countAll_append]
    simp [ih, Nat.add_assoc]

/-! ## References to storage -/

/-- Whether the tree is a member of `self` that the catalog lists. -/
def isRef (c : Catalog) (t : Tree) : Bool := (t.receiver? c).isSome

/-- How many references to storage the tree has. -/
def refs (c : Catalog) (t : Tree) : Nat := t.count (isRef c)

/-- How many references to storage the trees have. -/
def refsAll (c : Catalog) (ts : List Tree) : Nat := countAll (isRef c) ts

theorem isRef_of_label (h : ∀ attr, t.label ≠ .member attr) : t.isRef c = false := by
  rw [isRef, receiver?_of_label h]
  rfl

theorem Clean.refs (h : t.Clean c) : t.refs c = 0 := count_eq_zero (h.mono fun u hu => by rw [isRef, hu]; rfl)

/-- A chain that reaches a variable refers to it once, beside what its keys refer to. -/
theorem refs_of_reach (hf : t.Fits) (h : t.reach c = some v) :
    t.refs c = 1 + refsAll c (t.links.map Link.key) := by
  obtain ⟨i, ty, attr, j, ty', hb, hv⟩ := exists_self_of_reach hf h
  have hself : t.base.refs c = 1 := by
    have hrec : t.base.isRef c = true := by rw [isRef, ← reach, h]; rfl
    have hname : (leaf j ty' (.name "self")).count (isRef c) = 0 := Clean.refs Hoisted.clean_name
    rw [refs, count_eq, hrec, hb]
    simp [hname]
  conv_lhs => rw [← plug_links hf]
  rw [refs, count_wrap (fun u hu => isRef_of_label (by simp [hu])), ← refs, hself]
  rfl

/-- What is not a chain on a member of `self` is no member of `self`. -/
theorem receiver?_eq_none_of_reach (h : t.reach c = none) : t.receiver? c = none := by
  by_cases hl : t.label = .subscript
  · exact receiver?_of_label (by simp [hl])
  · rwa [reach, base_of_label hl] at h

/-! ## What lowering a tree adds to the statistics -/

/-- What lowering the tree as a whole adds: an access, or an assignment whose target is a chain on a state
variable. -/
def cost? (c : Catalog) (t : Tree) : Option Stats :=
  if (t.access? c).isSome then some { reads := t.refs c }
  else if (t.heads.head?.bind (reach c)).isSome then
    match t.label with
    | .assign => some { reads := t.refs c - 1, writes := 1 }
    | .augAssign _ => some { reads := t.refs c - 1, augWrites := 1 }
    | _ => none
  else none

mutual

/-- What lowering everything in the tree adds. -/
def charge (c : Catalog) : Tree → Stats
  | .node i ty l hs bs os =>
    (cost? c (.node i ty l hs bs os)).getD (chargeAll c hs + chargeAll c bs + chargeAll c os)

def chargeAll (c : Catalog) : List Tree → Stats
  | [] => {}
  | t :: ts => charge c t + chargeAll c ts

end

@[simp] theorem chargeAll_nil : chargeAll c [] = {} := rfl

@[simp] theorem chargeAll_cons : chargeAll c (t :: ts) = t.charge c + chargeAll c ts := rfl

@[simp] theorem chargeAll_append : chargeAll c (ts ++ us) = chargeAll c ts + chargeAll c us := by
  induction ts with
  | nil => simp
  | cons t ts ih => simp [ih, Stats.add_assoc]

theorem charge_eq (c : Catalog) (t : Tree) : t.charge c = (t.cost? c).getD (chargeAll c t.kids) := by
  obtain ⟨i, ty, l, hs, bs, os⟩ := t
  simp [charge, Stats.add_assoc]

/-- What is neither an access nor an assignment to a state variable is not lowered as a whole. -/
theorem cost?_eq_none {i : NodeId} {ty : Option Ty} {l : Label} {hs bs os : List Tree}
    (ha : (node i ty l hs bs os).access? c = none)
    (ht : l = .assign ∨ (∃ op, l = .augAssign op) → ∀ target ∈ hs.head?, target.reach c = none) :
    (node i ty l hs bs os).cost? c = none := by
  rw [cost?, ha, Option.isSome_none, if_neg (by simp)]
  split
  · next hhead =>
    obtain ⟨v, hv⟩ := Option.isSome_iff_exists.1 hhead
    obtain ⟨target, htarget, hv⟩ := Option.bind_eq_some_iff.1 hv
    have hno : ¬ (l = .assign ∨ ∃ op, l = .augAssign op) := by
      intro hl
      rw [ht hl target htarget] at hv
      cases hv
    cases l <;> simp_all
  · rfl

theorem charge_of_access (h : t.access? c = some v) : t.charge c = { reads := t.refs c } := by
  simp [charge_eq, Tree.cost?, h]

/-- The target of an assignment is one reference; the others are reads. -/
theorem charge_of_target {i : NodeId} {ty : Option Ty} {l : Label} {target value : Tree} (hf : target.Fits)
    (hl : l = .assign ∨ ∃ op, l = .augAssign op) (h : target.reach c = some v) :
    (node i ty l [target, value] [] []).charge c =
    { reads := value.refs c + refsAll c (target.links.map Link.key) } +
      if l = .assign then { writes := 1 } else { augWrites := 1 } := by
  have hrefs : (node i ty l [target, value] [] []).refs c =
      1 + (value.refs c + refsAll c (target.links.map Link.key)) := by
    have h1 := refs_of_reach hf h
    have h2 : (node i ty l [target, value] [] []).isRef c = false :=
      isRef_of_label (by rcases hl with rfl | ⟨op, rfl⟩ <;> simp)
    rw [refs] at h1
    rw [refs, count_eq, h2]
    simp only [kids_node, List.append_nil, countAll_cons, countAll_nil, h1, Bool.toNat_false, refs]
    omega
  have hacc : (node i ty l [target, value] [] []).access? c = none := by
    rw [access?, reach, base_of_label (by rcases hl with rfl | ⟨op, rfl⟩ <;> simp),
      receiver?_of_label (by rcases hl with rfl | ⟨op, rfl⟩ <;> simp)]
    rfl
  rw [charge_eq, Tree.cost?, hacc, hrefs]
  rcases hl with rfl | ⟨op, rfl⟩ <;> simp [h, Stats.add_def]

theorem Clean.cost? (h : t.Clean c) : t.cost? c = none := by
  have hhead : (t.heads.head?.bind (Tree.reach c)).isSome = false := by
    cases ht : t.heads.head? with
    | none => rfl
    | some k => simp [(h.kid (k := k) (by simp [kids, List.mem_of_mem_head? ht])).reach]
  simp [Tree.cost?, h.access?, hhead]

/-- Getters are not made of what is in a tree. -/
@[simp] theorem getters_charge : (t.charge c).getters = 0 := by
  have hcost : ∀ {u : Tree} {a : Stats}, u.cost? c = some a → a.getters = 0 := by
    intro u a h
    unfold cost? at h
    split at h
    · cases h
      rfl
    · split at h
      · split at h <;> cases h <;> rfl
      · cases h
  induction t with
  | step t ih =>
    rw [charge_eq]
    cases h : t.cost? c with
    | some a => exact hcost h
    | none =>
      generalize t.kids = ks at ih
      induction ks with
      | nil => rfl
      | cons k ks ihk =>
        have hks := ihk fun j hj => ih j (List.mem_cons_of_mem _ hj)
        rw [Option.getD_none] at hks ⊢
        rw [chargeAll_cons, Stats.getters_add, ih k List.mem_cons_self, hks]

theorem chargeAll_eq_zero (h : ∀ t ∈ ts, t.charge c = {}) : chargeAll c ts = {} := by
  induction ts with
  | nil => rfl
  | cons t ts ih => simp [h t List.mem_cons_self, ih fun u hu => h u (List.mem_cons_of_mem _ hu)]

theorem Clean.charge (h : t.Clean c) : t.charge c = {} := by
  induction t with
  | step t ih =>
    rw [charge_eq, h.cost?, chargeAll_eq_zero fun k hk => ih k hk (h.kid hk)]
    rfl

end Tree

/-- Taking the first access out of a tree takes out its references, and no other. -/
theorem Finds.refs {c : Catalog} {t u : Tree} {D : Ctx} {i : NodeId} {o : Option Ty} {y : String}
    (h : Finds c t D u) (hf : (D.plug (.leaf i o (.name y))).Fits) (hy : y ≠ "self") :
    (D.plug (.leaf i o (.name y))).refs c + u.refs c = t.refs c := by
  induction h with
  | here h => rw [Ctx.plug_nil, Tree.Clean.refs Hoisted.clean_name, Nat.zero_add]
  | @deeper f k u D ht ha hb hk ih =>
    have hrec := Tree.receiver?_eq_none_of_reach ((Finds.deeper ht ha hb hk).reach_plug hf hy)
    rw [Ctx.plug_append, Ctx.plug_cons, Ctx.plug_nil] at hf hrec ⊢
    have hk := ih (hf.kid (by simp))
    simp only [Tree.refs] at hk ⊢
    rw [Tree.count_eq, Tree.count_eq _ (f.plug [k])]
    simp only [Tree.isRef, ht, hrec, Frame.kids_plug, Tree.countAll_append, Tree.countAll_cons, Tree.countAll_nil,
      Option.isSome_none, Bool.toNat_false]
    omega

end ContractTree
