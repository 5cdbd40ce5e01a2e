import ContractTree.Lowering.Error
import ContractTree.Proofs.Tally

/-!
What can be lowered. `Hoistable c ts` says that every reference to storage in the trees is inside a complete
access, so that all reads in them can be lowered; `Walkable c sited ts` says the same of statements and
declarations, where an assignment to a state variable is lowered as a whole and nothing can be lowered without a
site. `PassError.Fault` sorts the failures of the pass by these conditions.
-/

namespace ContractTree

/-- Why the pass fails: the identities have run out, something cannot be lowered, or a statement is not where
statements belong. -/
inductive PassError.Fault (proper able : Prop) : PassError → Prop
  | ids : Fault proper able (.structural .idsExhausted)
  | lowering {cause : LoweringError} (h : ¬ able) : Fault proper able (.lowering cause)
  | anchor {anchor block : NodeId} (h : ¬ proper) : Fault proper able (.structural (.anchorNotFound anchor block))

theorem PassError.Fault.mono {proper able proper' able' : Prop} {e : PassError} (h : e.Fault proper able)
    (hp : proper' → proper) (ha : able' → able) : e.Fault proper' able' := by
  cases h with
  | ids => exact .ids
  | lowering h => exact .lowering fun h' => h (ha h')
  | anchor h => exact .anchor fun h' => h (hp h')

/-! ## Trees without statement lists -/

/-- Whether no node of the tree holds statements. -/
def Tree.Flat (t : Tree) : Prop := t.All fun u => u.body = [] ∧ u.orelse = []

namespace Tree

variable {c : Catalog} {ν : NodeId} {f : Frame} {D : Ctx} {t u x : Tree}

theorem flat_leaf {i : NodeId} {ty : Option Ty} {l : Label} : (leaf i ty l).Flat := all_leaf.2 ⟨rfl, rfl⟩

theorem Flat.part (h : (f.plug [u]).Flat) : f.part = .heads := by
  have := h.top
  unfold Frame.plug at this
  split at this <;> simp_all

theorem Flat.plug (h : (D.plug u).Flat) (hx : x.Flat) : (D.plug x).Flat := by
  induction D generalizing u x with
  | nil => exact hx
  | cons f D ih =>
    have hf : (f.plug [u]).Flat := All.of_plug h
    refine ih h (all_iff.2 ⟨?_, fun k hk => ?_⟩)
    · have hp := hf.part
      have := hf.top
      simp only [Frame.plug, hp] at this ⊢
      exact this
    · rw [Frame.kids_plug] at hk
      simp only [List.mem_append, List.mem_singleton] at hk
      rcases hk with (hk | rfl) | hk
      · exact hf.kid (by simp [hk])
      · exact hx
      · exact hf.kid (by simp [hk])

/-- Every place in a tree without statement lists is a head of a node. -/
theorem Flat.headed {K : Ctx} (h : (D.plug u).Flat) (hf : f.part = .heads) : (D ++ f :: K).Headed := by
  cases D with
  | nil => exact ⟨f, K, rfl, hf⟩
  | cons g D => exact ⟨g, D ++ f :: K, rfl, Flat.part (All.of_plug h)⟩

end Tree

/-! ## Statements in their places -/

/-- Whether a node of this sort stands in a statement list. -/
def Label.isStatement : Label → Bool
  | .arg _ | .name _ | .member _ | .subscript | .binOp _ | .boolOp _ | .compare _ | .unaryOp _ | .call | .int
      _ | .bool _
  | .str _ => false
  | _ => true

/-- Whether the statement lists of the tree hold statements, and no other place does. -/
def Tree.Proper (t : Tree) : Prop :=
  t.All fun u => (∀ k ∈ u.heads, k.label.isStatement = false) ∧
    ∀ k ∈ u.body ++ u.orelse, k.label.isStatement = true

/-- Whether a place is for statements. -/
def Ctx.inList : Ctx → Bool
  | [] => true
  | f :: _ => f.part ≠ .heads

theorem Ctx.inList_iff {K : Ctx} : K.inList = true ↔ ¬ K.Headed := by
  cases K with
  | nil => simp [inList, Headed]
  | cons f C => simp [inList, Headed]

@[simp] theorem Ctx.inList_emit {K : Ctx} {ts : List Tree} : (K.emit ts).inList = K.inList := by
  rw [Bool.eq_iff_iff, inList_iff, inList_iff, headed_emit]

theorem Tree.Fits.no_lists {t : Tree} (hf : t.Fits) (hl : t.label.isStatement = false) :
    t.body = [] ∧ t.orelse = [] := by
  obtain ⟨i, ty, l, hs, bs, os⟩ := t
  have h := ((fits_iff _).1 hf).1
  rw [← List.length_eq_zero_iff, ← List.length_eq_zero_iff]
  cases l <;> simp_all [Label.isStatement, Label.Fits]

/-- An expression holds no statements. -/
theorem Tree.Proper.flat {t : Tree} (h : t.Proper) (hf : t.Fits) (hl : t.label.isStatement = false) : t.Flat := by
  induction t with
  | step t ih =>
    obtain ⟨hb, ho⟩ := hf.no_lists hl
    refine all_iff.2 ⟨⟨hb, ho⟩, fun k hk => ih k hk (h.kid hk) (hf.kid hk) ?_⟩
    rw [kids, hb, ho, List.append_nil, List.append_nil] at hk
    exact h.top.1 k hk

/-! ## Reads -/

/-- Every reference to storage in the trees is inside a complete access. -/
inductive Hoistable (c : Catalog) : List Tree → Prop
  | nil : Hoistable c []
  | access {t : Tree} {v : StorageVar} {ts : List Tree} (ht : t.access? c = some v)
      (hk : Hoistable c (t.links.map Link.key)) (hts : Hoistable c ts) : Hoistable c (t :: ts)
  | inner {t : Tree} {ts : List Tree} (ht : t.receiver? c = none) (hk : Hoistable c t.kids)
      (hts : Hoistable c ts) : Hoistable c (t :: ts)

theorem Hoisted.hoistable {c : Catalog} {ν : NodeId} {ts es ts' : List Tree} (h : Hoisted c ν ts es ts') :
    Hoistable c ts := by
  induction h with
  | nil => exact .nil
  | access i temp slot read hnew ht _ _ ihk ihts => exact .access ht ihk ihts
  | inner ht _ _ _ ihk ihts => exact .inner ht ihk ihts

namespace Hoistable

variable {c : Catalog} {ν : NodeId} {t : Tree} {ts us : List Tree} {v : StorageVar}

theorem cons_iff : Hoistable c (t :: ts) ↔ Hoistable c [t] ∧ Hoistable c ts := by
  constructor
  · intro h
    cases h with
    | access ht hk hts => exact ⟨.access ht hk .nil, hts⟩
    | inner ht hk hts => exact ⟨.inner ht hk .nil, hts⟩
  · rintro ⟨h, hts⟩
    cases h with
    | access ht hk _ => exact .access ht hk hts
    | inner ht hk _ => exact .inner ht hk hts

theorem iff_forall : Hoistable c ts ↔ ∀ t ∈ ts, Hoistable c [t] := by
  induction ts with
  | nil => exact ⟨fun _ => by simp, fun _ => .nil⟩
  | cons t ts ih => rw [cons_iff, ih, List.forall_mem_cons]

theorem of_clean (h : t.Clean c) : Hoistable c [t] :=
  Hoisted.hoistable (show Hoisted c t.id [t] [] [t] from .of_clean (by simpa using h))

theorem not_short (hf : t.Fits) (h : Hoistable c [t]) : ¬ t.Short c := by
  induction t with
  | step t ih =>
    rintro ⟨v, hv, hlt⟩
    cases h with
    | access ht _ _ =>
      obtain ⟨hr, hd⟩ := Tree.access?_eq_some_iff.1 ht
      obtain rfl := Option.some.inj (hr.symm.trans hv)
      omega
    | inner ht hk _ =>
      rcases hf.subscript_cases with ⟨i, ty, x, k, rfl⟩ | hl
      · rw [Tree.links, List.length_append] at hlt
        exact ih x (by simp) (hf.kid (by simp)) (iff_forall.1 hk x (by simp)) ⟨v, hv, by omega⟩
      · rw [Tree.reach, Tree.base_of_label hl, ht] at hv
        cases hv

/-- An access is lowered as a whole. -/
theorem keys (hf : t.Fits) (h : Hoistable c [t]) (ha : t.access? c = some v) :
    Hoistable c (t.links.map Link.key) := by
  cases h with
  | access _ hk _ => exact hk
  | inner ht hk _ =>
    obtain ⟨hr, hd⟩ := Tree.access?_eq_some_iff.1 ha
    rcases hf.subscript_cases with ⟨i, ty, x, k, rfl⟩ | hl
    · rw [Tree.links, List.length_append, List.length_singleton] at hd
      exact absurd ⟨v, hr, by omega⟩ (not_short (hf.kid (by simp)) (iff_forall.1 hk x (by simp)))
    · rw [Tree.reach, Tree.base_of_label hl, ht] at hr
      cases hr

end Hoistable

/-- The first access of a tree can be lowered if all can, and so can the rest then. -/
theorem Finds.hoistable {c : Catalog} {t u : Tree} {D : Ctx} {i : NodeId} {o : Option Ty} {y : String}
    (h : Finds c t D u) (ht : Hoistable c [t]) :
    Hoistable c [u] ∧ ((D.plug (.leaf i o (.name y))).Fits → y ≠ "self" →
      Hoistable c [D.plug (.leaf i o (.name y))]) := by
  induction h with
  | here h => exact ⟨ht, fun _ _ => .of_clean Hoisted.clean_name⟩
  | @deeper f k u D hrec hacc hb hk ih =>
    cases ht with
    | access ha _ _ =>
      rw [hacc] at ha
      cases ha
    | inner _ hkids _ =>
      rw [Frame.kids_plug, Hoistable.iff_forall] at hkids
      obtain ⟨hu, hplug⟩ := ih (hkids k (by simp))
      refine ⟨hu, fun hf hy => ?_⟩
      have hrec' := Tree.receiver?_eq_none_of_reach ((Finds.deeper hrec hacc hb hk).reach_plug hf hy)
      rw [Ctx.plug_append, Ctx.plug_cons, Ctx.plug_nil] at hf hrec' ⊢
      refine .inner hrec' (Hoistable.iff_forall.2 fun j hj => ?_) .nil
      rw [Frame.kids_plug] at hj
      simp only [List.mem_append, List.mem_singleton] at hj
      rcases hj with (hj | rfl) | hj
      · exact hkids j (by simp [hj])
      · exact hplug (hf.kid (by simp)) hy
      · exact hkids j (by simp [hj])

/-! ## Statements -/

/-- An assignment is not a chain. -/
theorem Tree.reach_of_assigns {c : Catalog} {i : NodeId} {ty : Option Ty} {l : Label} {hs bs os : List Tree}
    (h : l = .assign ∨ ∃ op, l = .augAssign op) : (Tree.node i ty l hs bs os).reach c = none := by
  rw [reach, base_of_label (by rcases h with h | ⟨op, h⟩ <;> simp [h])]
  exact receiver?_of_label (by rcases h with h | ⟨op, h⟩ <;> simp [h])

/-- Every reference to storage in the trees is inside a complete access, or is what an assignment stores to; and
where there is no site there is none. -/
inductive Walkable (c : Catalog) : Bool → List Tree → Prop
  | nil {sited : Bool} : Walkable c sited []
  | read {t : Tree} {v : StorageVar} {ts : List Tree} (ht : t.access? c = some v)
      (hk : Hoistable c (t.links.map Link.key)) (hts : Walkable c true ts) : Walkable c true (t :: ts)
  | store {i : NodeId} {ty : Option Ty} {l : Label} {target value : Tree} {v : StorageVar} {ts : List Tree}
      (hl : l = .assign ∨ ∃ op, l = .augAssign op) (ht : target.access? c = some v) (hval : Hoistable c [value])
      (hk : Hoistable c (target.links.map Link.key)) (hts : Walkable c true ts) :
      Walkable c true (.node i ty l [target, value] [] [] :: ts)
  | inner {sited : Bool} {i : NodeId} {ty : Option Ty} {l : Label} {hs bs os ts : List Tree}
      (hr : (Tree.node i ty l hs bs os).receiver? c = none)
      (ht : l = .assign ∨ (∃ op, l = .augAssign op) → ∀ target ∈ hs.head?, target.reach c = none)
      (hh : Walkable c sited hs) (hb : Walkable c true bs) (ho : Walkable c true os) (hts : Walkable c sited ts) :
      Walkable c sited (.node i ty l hs bs os :: ts)

namespace Walkable

variable {c : Catalog} {ν : NodeId} {sited : Bool} {t : Tree} {ts us : List Tree} {v : StorageVar}

theorem cons_iff : Walkable c sited (t :: ts) ↔ Walkable c sited [t] ∧ Walkable c sited ts := by
  constructor
  · intro h
    cases h with
    | read ht hk hts => exact ⟨.read ht hk .nil, hts⟩
    | store hl ht hval hk hts => exact ⟨.store hl ht hval hk .nil, hts⟩
    | inner hr ht hh hb ho hts => exact ⟨.inner hr ht hh hb ho .nil, hts⟩
  · rintro ⟨h, hts⟩
    cases h with
    | read ht hk _ => exact .read ht hk hts
    | store hl ht hval hk _ => exact .store hl ht hval hk hts
    | inner hr ht hh hb ho _ => exact .inner hr ht hh hb ho hts

theorem iff_forall : Walkable c sited ts ↔ ∀ t ∈ ts, Walkable c sited [t] := by
  induction ts with
  | nil => exact ⟨fun _ => by simp, fun _ => .nil⟩
  | cons t ts ih => rw [cons_iff, ih, List.forall_mem_cons]

theorem of_clean (h : t.Clean c) : Walkable c sited [t] := by
  induction t generalizing sited with
  | step t ih =>
    obtain ⟨i, ty, l, hs, bs, os⟩ := t
    refine .inner h.top (fun _ target ht => ?_) ?_ ?_ ?_ .nil
    · exact (h.kid (by simp [List.mem_of_mem_head? ht])).reach
    all_goals exact iff_forall.2 fun k hk => ih k (by simp [hk]) (h.kid (by simp [hk]))

theorem not_short (hf : t.Fits) (h : Walkable c sited [t]) : ¬ t.Short c := by
  induction t with
  | step t ih =>
    rintro ⟨v, hv, hlt⟩
    cases h with
    | read ht _ _ =>
      obtain ⟨hr, hd⟩ := Tree.access?_eq_some_iff.1 ht
      obtain rfl := Option.some.inj (hr.symm.trans hv)
      omega
    | store hl =>
      rw [Tree.reach_of_assigns hl] at hv
      cases hv
    | @inner _ i ty l hs bs os _ hr _ hh _ _ _ =>
      rcases hf.subscript_cases with ⟨_, _, x, k, he⟩ | hl
      · obtain ⟨rfl, rfl, rfl, rfl, rfl, rfl⟩ := Tree.node.inj he
        rw [Tree.links, List.length_append] at hlt
        exact ih x (by simp) (hf.kid (by simp)) (iff_forall.1 hh x (by simp)) ⟨v, hv, by omega⟩
      · rw [Tree.reach, Tree.base_of_label hl, hr] at hv
        cases hv

/-- What is lowered part by part is no access. -/
theorem access?_eq_none {i : NodeId} {ty : Option Ty} {l : Label} {hs bs os : List Tree}
    (hf : (Tree.node i ty l hs bs os).Fits) (hr : (Tree.node i ty l hs bs os).receiver? c = none)
    (hh : Walkable c sited hs) : (Tree.node i ty l hs bs os).access? c = none := by
  by_contra hne
  obtain ⟨v, hv⟩ := Option.ne_none_iff_exists'.1 hne
  obtain ⟨hreach, hd⟩ := Tree.access?_eq_some_iff.1 hv
  rcases hf.subscript_cases with ⟨_, _, x, k, he⟩ | hl
  · obtain ⟨rfl, rfl, rfl, rfl, rfl, rfl⟩ := Tree.node.inj he
    rw [Tree.links, List.length_append, List.length_singleton] at hd
    exact not_short (hf.kid (by simp)) (iff_forall.1 hh x (by simp)) ⟨v, hreach, by omega⟩
  · rw [Tree.reach, Tree.base_of_label hl, hr] at hreach
    cases hreach

/-- An access is lowered as a whole, at a site. -/
theorem of_access (hf : t.Fits) (h : Walkable c sited [t]) (ha : t.access? c = some v) :
    sited = true ∧ Hoistable c (t.links.map Link.key) := by
  cases h with
  | read _ hk _ => exact ⟨rfl, hk⟩
  | store hl =>
    rw [Tree.access?, Tree.reach_of_assigns hl] at ha
    cases ha
  | inner hrec _ hh _ _ _ =>
    rw [access?_eq_none hf hrec hh] at ha
    cases ha

/-- An assignment to a state variable is lowered as a whole, at a site. -/
theorem of_target {i : NodeId} {ty : Option Ty} {l : Label} {target value : Tree}
    (h : Walkable c sited [.node i ty l [target, value] [] []]) (hl : l = .assign ∨ ∃ op, l = .augAssign op)
    (hr : target.reach c ≠ none) :
    sited = true ∧ target.access? c ≠ none ∧ Hoistable c [value] ∧ Hoistable c (target.links.map Link.key) := by
  cases h with
  | read ha =>
    rw [Tree.access?, Tree.reach_of_assigns hl] at ha
    cases ha
  | store _ ht hval hk _ => exact ⟨rfl, by simp [ht], hval, hk⟩
  | inner _ ht => exact absurd (ht hl target (by simp)) hr

/-- What is not lowered as a whole is lowered part by part. -/
theorem parts {i : NodeId} {ty : Option Ty} {l : Label} {hs bs os : List Tree}
    (h : Walkable c sited [.node i ty l hs bs os]) (ha : (Tree.node i ty l hs bs os).access? c = none)
    (ht : l = .assign ∨ (∃ op, l = .augAssign op) → ∀ target ∈ hs.head?, target.reach c = none) :
    Walkable c sited hs ∧ Walkable c true bs ∧ Walkable c true os := by
  cases h with
  | read ha' =>
    rw [ha] at ha'
    cases ha'
  | @store _ _ _ target _ v _ hl hacc =>
    rw [Tree.access?, ht hl target (by simp)] at hacc
    cases hacc
  | inner _ _ hh hb ho _ => exact ⟨hh, hb, ho⟩

end Walkable

end ContractTree
