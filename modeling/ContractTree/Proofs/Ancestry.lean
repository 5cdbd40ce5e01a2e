import ContractTree.Proofs.Calls
import Mathlib.Logic.Relation

/-!
Links to parents and the loops that follow them. A loop that goes up ends, and gives what its bounded form gives,
if no node on its way is above itself (`Climbs.loops`). A store is acyclic when that is so of all nodes.

New nodes, copies, removals and types keep a store acyclic. A change of place does so exactly if what it moves is
not at or above the place that it is moved to (`Primitive.Apart`), which is not asked of it: a module may be
appended to itself (`Edit.append_into_itself`). Where it is given for every change of place, the store stays
acyclic (`Edit.acyclic_of_grown`).
-/

namespace ContractTree

open Relation (TransGen ReflTransGen)

namespace Store

/-- The node `i` names `p` as its parent. -/
def Up (s : Store) (i p : NodeId) : Prop := s.parent? i = some p

/-- No node is above itself. -/
def Acyclic (s : Store) : Prop := ∀ i, ¬ TransGen s.Up i i

variable {s s' : Store} {i p q : NodeId} {n : Node}

theorem Up.exists_node (h : s.Up i p) : ∃ n, s.find? i = some n ∧ n.parent = some p := Option.bind_eq_some_iff.1 h

theorem Up.mem_ids (h : s.Up i p) : i ∈ s.ids := by
  obtain ⟨n, hn, -⟩ := h.exists_node
  exact mem_ids_of_find? hn

theorem Up.unique (h : s.Up i p) (h' : s.Up i q) : p = q := Option.some.inj (h.symm.trans h')

/-! ## Loops that go up -/

/-- Whether the node is attached, one link at a time. -/
def attachedTurn (s : Store) (i : NodeId) : Bool ⊕ NodeId :=
  match s.find? i with
  | none => .inl false
  | some n =>
    match n.parent with
    | none => .inl n.kind.isModule
    | some p => if s.lists p i then .inr p else .inl false

/-- The statement around a node, one link at a time. -/
def enclosingTurn (s : Store) (i : NodeId) : Option (NodeId × NodeId) ⊕ NodeId :=
  match s.parent? i with
  | none => .inl none
  | some p =>
    match s.find? p with
    | none => .inl none
    | some n => if n.kind.holdsStatement i then .inl (some (i, p)) else .inr p

/-- The nearest node above that is looked for, one link at a time. -/
def ancestorTurn (s : Store) (tag : Tag) (test : Node → Bool) (i : NodeId) : Option NodeId ⊕ NodeId :=
  match s.parent? i with
  | none => .inl none
  | some p =>
    match s.find? p with
    | none => .inl none
    | some n => if n.tag = tag && test n then .inl (some p) else .inr p

open Classical in
/-- How many registered nodes there are at and above a node. -/
noncomputable def rank (s : Store) (i : NodeId) : Nat := (s.ids.filter fun j => ReflTransGen s.Up i j).length

theorem rank_le_size : s.rank i ≤ s.size := by
  have := List.length_filter_le (fun j => @decide (ReflTransGen s.Up i j) (Classical.propDecidable _)) s.ids
  simpa [rank, ids, size] using this

theorem rank_pos (hi : i ∈ s.ids) : 0 < s.rank i :=
  List.length_pos_of_mem (List.mem_filter.2 ⟨hi, by simpa using ReflTransGen.refl⟩)

theorem find?_of_rank (h : s.rank i = 0) : s.find? i = none := by
  rw [find?_eq_none_iff]
  intro hi
  have := rank_pos hi
  omega

/-- No node at or above `i` is above itself. -/
def Climbs (s : Store) (i : NodeId) : Prop := ∀ j, ReflTransGen s.Up i j → ¬ TransGen s.Up j j

theorem Acyclic.climbs (h : s.Acyclic) (i : NodeId) : s.Climbs i := fun j _ => h j

theorem Climbs.of_top (h : s.parent? i = none) : s.Climbs i := by
  have hno : ∀ p, ¬ s.Up i p := fun p hup => by
    rw [Up, h] at hup
    cases hup
  intro j hij hj
  rcases hij.cases_head with rfl | ⟨p, hup, -⟩
  · obtain ⟨p, hup, -⟩ := TransGen.head'_iff.1 hj
    exact hno p hup
  · exact hno p hup

theorem Climbs.up (h : s.Climbs i) (hup : s.Up i p) : s.Climbs p := fun j hj => h j (hj.head hup)

/-- A node has one way up, so that a circle through it is one through its parent. -/
theorem Climbs.of_up (hup : s.Up i p) (h : s.Climbs p) : s.Climbs i := by
  intro j hij hj
  rcases hij.cases_head with rfl | ⟨q, hq, hqj⟩
  · obtain ⟨q, hq, hqi⟩ := TransGen.head'_iff.1 hj
    obtain rfl := hq.unique hup
    exact h q .refl (TransGen.tail' hqi hup)
  · obtain rfl := hq.unique hup
    exact h j hqj hj

/-- Where the way up ends, there are fewer nodes above a parent. -/
theorem Climbs.rank_lt (h : s.Climbs i) (hup : s.Up i p) : s.rank p < s.rank i := by
  classical
  have hsub : s.ids.filter (fun j => ReflTransGen s.Up p j) =
      (s.ids.filter fun j => ReflTransGen s.Up i j).filter fun j => ReflTransGen s.Up p j := by
    rw [List.filter_filter]
    refine List.filter_congr fun j _ => ?_
    by_cases hj : ReflTransGen s.Up p j
    · simp [hj, hj.head hup]
    · simp [hj]
  have hrank : ∀ j, s.rank j = (s.ids.filter fun k => ReflTransGen s.Up j k).length := fun j => by
    unfold rank
    congr
  rw [hrank, hrank, hsub]
  refine List.length_filter_lt_length_iff_exists.2 ⟨i,
    List.mem_filter.2 ⟨hup.mem_ids, by simpa using ReflTransGen.refl⟩, ?_⟩
  simpa using fun hpi : ReflTransGen s.Up p i => h i .refl (TransGen.head' hup hpi)

theorem Climbs.loopEnds_attached (h : s.Climbs i) {fuel : Nat} (hfuel : s.rank i ≤ fuel) :
    LoopEnds s.attachedTurn (fuel + 1) i (s.attachedWithin fuel i) := by
  induction fuel generalizing i with
  | zero => exact .stop (by rw [attachedTurn, find?_of_rank (Nat.le_zero.1 hfuel)]; rfl)
  | succ fuel ih =>
    rw [attachedWithin]
    cases hn : s.find? i with
    | none => exact .stop (by rw [attachedTurn, hn])
    | some n =>
      cases hp : n.parent with
      | none => exact .stop (by simp only [attachedTurn, hn, hp])
      | some p =>
        have hup : s.Up i p := by rw [Up, parent?, hn, Option.bind_some, hp]
        cases hl : s.lists p i with
        | false => exact .stop (by simp [attachedTurn, hn, hp, hl])
        | true =>
          have hlt := h.rank_lt hup
          simp only [hp, hl, Bool.true_and]
          exact .next (by simp [attachedTurn, hn, hp, hl]) (ih (h.up hup) (by omega))

theorem Climbs.loopEnds_enclosing (h : s.Climbs i) {fuel : Nat} (hfuel : s.rank i ≤ fuel) :
    LoopEnds s.enclosingTurn (fuel + 1) i (s.enclosingWithin fuel i) := by
  induction fuel generalizing i with
  | zero =>
    have hp : s.parent? i = none := by rw [parent?, find?_of_rank (Nat.le_zero.1 hfuel)]; rfl
    exact .stop (by rw [enclosingTurn, hp]; rfl)
  | succ fuel ih =>
    rw [enclosingWithin]
    cases hp : s.parent? i with
    | none => exact .stop (by rw [enclosingTurn, hp]; rfl)
    | some p =>
      cases hn : s.find? p with
      | none => exact .stop (by simp [enclosingTurn, hp, hn])
      | some n =>
        cases hs : n.kind.holdsStatement i with
        | true => exact .stop (by simp [enclosingTurn, hp, hn, hs])
        | false =>
          have hlt := h.rank_lt hp
          simp only [Option.bind_eq_bind, Option.bind_some, hn, hs, Bool.false_eq_true, if_false]
          exact .next (by simp [enclosingTurn, hp, hn, hs]) (ih (h.up hp) (by omega))

theorem Climbs.loopEnds_ancestor (h : s.Climbs i) (tag : Tag) (test : Node → Bool) {fuel : Nat}
    (hfuel : s.rank i ≤ fuel) : LoopEnds (s.ancestorTurn tag test) (fuel + 1) i
      (((s.upFrom fuel (s.parent? i)).find? fun n => n.tag = tag && test n).map Node.id) := by
  induction fuel generalizing i with
  | zero =>
    have hp : s.parent? i = none := by rw [parent?, find?_of_rank (Nat.le_zero.1 hfuel)]; rfl
    exact .stop (by rw [ancestorTurn, hp]; rfl)
  | succ fuel ih =>
    cases hp : s.parent? i with
    | none => exact .stop (by rw [ancestorTurn, hp]; rfl)
    | some p =>
      rw [upFrom]
      cases hn : s.find? p with
      | none => exact .stop (by simp [ancestorTurn, hp, hn])
      | some n =>
        have hlt := h.rank_lt hp
        have hpar : n.parent = s.parent? p := by rw [parent?, hn]; rfl
        cases ht : (n.tag = tag && test n : Bool) with
        | true => exact .stop (by simp only [ancestorTurn, hp, hn, ht, if_true, List.find?_cons, Option.map_some,
            id_of_find? hn])
        | false =>
          simp only [List.find?_cons, ht, hpar]
          exact .next (by simp only [ancestorTurn, hp, hn, ht, Bool.false_eq_true, if_false])
            (ih (h.up hp) (by omega))

/-- Where the way up ends, every loop that goes up ends, with the result of its bounded form. -/
theorem Climbs.loops (h : s.Climbs i) :
    LoopEnds s.attachedTurn (s.size + 1) i (s.isAttached i) ∧
      LoopEnds s.enclosingTurn (s.size + 1) i (s.enclosingStatement? i) ∧
      ∀ tag test, LoopEnds (s.ancestorTurn tag test) (s.size + 1) i (s.ancestor? i tag test) :=
  ⟨h.loopEnds_attached rank_le_size, h.loopEnds_enclosing rank_le_size,
    fun tag test => h.loopEnds_ancestor tag test rank_le_size⟩

/-! ## What keeps a store acyclic -/

/-- New links that lead to a node without a parent close no circle. -/
theorem Acyclic.of_roots (h : s.Acyclic) (hup : ∀ i p, s'.Up i p → s.Up i p ∨ s'.parent? p = none) :
    s'.Acyclic := by
  have hpath {i j : NodeId} (hij : TransGen s'.Up i j) (hj : s'.parent? j ≠ none) : TransGen s.Up i j := by
    induction hij with
    | single hup' => exact .single ((hup _ _ hup').resolve_right hj)
    | tail _ hup' ih => exact (ih (by rw [hup']; simp)).tail ((hup _ _ hup').resolve_right hj)
  intro i hi
  obtain ⟨p, hp, -⟩ := TransGen.head'_iff.1 hi
  exact h i (hpath hi (by rw [hp]; simp))

/-- One new link, from `a` to `b`, closes a circle only if `a` is at or above `b`. -/
theorem Acyclic.of_link {a b : NodeId} (h : s.Acyclic) (hup : ∀ i p, s'.Up i p → s.Up i p ∨ i = a ∧ p = b)
    (hab : ¬ ReflTransGen s.Up b a) : s'.Acyclic := by
  have hpath {i j : NodeId} (hij : TransGen s'.Up i j) :
      TransGen s.Up i j ∨ ReflTransGen s.Up i a ∧ ReflTransGen s.Up b j := by
    induction hij with
    | single hup' =>
      rcases hup _ _ hup' with hup | ⟨rfl, rfl⟩
      · exact .inl (.single hup)
      · exact .inr ⟨.refl, .refl⟩
    | tail _ hup' ih =>
      rcases hup _ _ hup' with hup | ⟨rfl, rfl⟩
      · exact ih.imp (·.tail hup) fun ⟨hi, hj⟩ => ⟨hi, hj.tail hup⟩
      · exact .inr ⟨ih.elim TransGen.to_reflTransGen And.left, .refl⟩
  intro i hi
  rcases hpath hi with hi | ⟨hia, hbi⟩
  · exact h i hi
  · exact hab (hbi.trans hia)

/-- It does close one if the links above `b` are still there. -/
theorem Acyclic.not_above {a b : NodeId} (h : s'.Acyclic) (hlink : s'.Up a b)
    (hkeep : ∀ i p, ReflTransGen s.Up b i → i ≠ a → s.Up i p → s'.Up i p) : ¬ ReflTransGen s.Up b a := by
  intro hba
  have hpath : ReflTransGen s'.Up b a := by
    -- from the far end: above `b` the old links lead to `a`, where the path may stop
    suffices ∀ i, ReflTransGen s.Up i a → ReflTransGen s.Up b i → ReflTransGen s'.Up i a from this b hba .refl
    intro i hia
    induction hia using ReflTransGen.head_induction_on with
    | refl => exact fun _ => .refl
    | @head i p hup _ ih =>
      intro hbi
      by_cases hi : i = a
      · exact hi ▸ .refl
      · exact .head (hkeep i p hbi hi hup) (ih (hbi.tail hup))
  exact h a (.head' hlink hpath)

theorem parent?_placed {b : NodeId} {k : Kind} {a : NodeId} (ha : a ∈ s.ids) :
    (s.placed b k a).parent? i = if i = a then some b else s.parent? i := by
  rw [parent?, find?_placed, parent?]
  cases hn : s.find? i with
  | none =>
    have : i ≠ a := fun hia => find?_eq_none_iff.1 hn (hia ▸ ha)
    simp [this]
  | some n => by_cases hia : i = a <;> simp [hia]

theorem parent?_swapped {b : NodeId} {k : Kind} {old new : NodeId} (hnew : new ∈ s.ids) :
    (s.swapped b k old new).parent? i = if i = old then none else if i = new then some b else s.parent? i := by
  rw [parent?, find?_swapped, parent?]
  cases hn : s.find? i with
  | none =>
    have : i ≠ new := fun hi => find?_eq_none_iff.1 hn (hi ▸ hnew)
    simp [this]
  | some n => by_cases hi : i = old <;> by_cases hi' : i = new <;> simp [hi, hi']

/-- A node gets a place below another one. -/
theorem Acyclic.placed_iff {b : NodeId} {k : Kind} {a : NodeId} (h : s.Acyclic) (ha : a ∈ s.ids) :
    (s.placed b k a).Acyclic ↔ ¬ ReflTransGen s.Up b a := by
  refine ⟨fun h' => h'.not_above (a := a) (b := b) ?_ fun i p _ hi hup => ?_, h.of_link fun i p hup => ?_⟩
  · rw [Up, parent?_placed ha, if_pos rfl]
  · rwa [Up, parent?_placed ha, if_neg hi]
  · rw [Up, parent?_placed ha] at hup
    split at hup
    · next hi => exact .inr ⟨hi, (Option.some.inj hup).symm⟩
    · exact .inl hup

/-- A node takes the place of another one. -/
theorem Acyclic.swapped_iff {b : NodeId} {k : Kind} {old new : NodeId} (h : s.Acyclic) (hold : s.Up old b)
    (hnew : new ∈ s.ids) : (s.swapped b k old new).Acyclic ↔ ¬ ReflTransGen s.Up b new := by
  have hfree : ¬ ReflTransGen s.Up b old := fun hb => h old (.head' hold hb)
  constructor
  · intro h'
    by_cases hne : new = old
    · exact hne ▸ hfree
    · refine h'.not_above (a := new) (b := b) ?_ fun i p hi hi' hup => ?_
      · rw [Up, parent?_swapped hnew, if_neg hne, if_pos rfl]
      · have : i ≠ old := fun he => hfree (he ▸ hi)
        rwa [Up, parent?_swapped hnew, if_neg this, if_neg hi']
  · refine h.of_link fun i p hup => ?_
    rw [Up, parent?_swapped hnew] at hup
    split_ifs at hup with hi hi'
    · exact .inr ⟨hi', (Option.some.inj hup).symm⟩
    · exact .inl hup

/-- A new node without a parent, above nodes that were there. -/
theorem Acyclic.adopted {l : List NodeId} (h : s.Acyclic) (hs : s.Sound) (hn : n.id = s.nextId)
    (hp : n.parent = none) (hl : ∀ i ∈ l, i ∈ s.ids) : ((s.added n).adopt s.nextId l).Acyclic := by
  have hparent (i : NodeId) : ((s.added n).adopt s.nextId l).parent? i =
      if i ∈ l then some s.nextId else s.parent? i := by
    rw [parent?, find?_adopt, find?_added hs hn, parent?]
    by_cases hi : i = s.nextId
    · have hmem : i ∉ l := fun hmem => hs.fresh (hi ▸ hl i hmem)
      have hnone : s.find? s.nextId = none := find?_eq_none_iff.2 hs.fresh
      simp [hi, hi ▸ hmem, hp, hnone]
    · cases hn : s.find? i with
      | none =>
        have hmem : i ∉ l := fun hmem => find?_eq_none_iff.1 hn (hl i hmem)
        simp [hi, hmem]
      | some m => by_cases hmem : i ∈ l <;> simp [hi, hmem]
  refine h.of_roots fun i p hup => ?_
  rw [Up, hparent] at hup
  split at hup
  · right
    rw [← Option.some.inj hup, hparent, if_neg fun hmem => hs.fresh (hl _ hmem), parent?,
      find?_eq_none_iff.2 hs.fresh]
    rfl
  · exact .inl hup

theorem Acyclic.added (h : s.Acyclic) (hs : s.Sound) (hn : n.id = s.nextId) (hp : n.parent = none) :
    (s.added n).Acyclic := by
  simpa using h.adopted (l := []) hs hn hp (by simp)

theorem up_of_discardAll {stack : List NodeId} (hup : (s.discardAll stack).Up i p) : s.Up i p := by
  fun_induction Store.discardAll s stack with
  | case1 s => exact hup
  | case2 s j stack _ ih => exact ih hup
  | case3 s j stack n _ rest ih =>
    have hup := ih hup
    rw [Up, parent?, find?_erase] at hup
    split at hup
    · cases hup
    · exact hup

theorem parent?_setTy {t : Option Ty} {j : NodeId} : (s.setTy j t).parent? i = s.parent? i := by
  rw [parent?, find?_setTy, parent?]
  cases s.find? i with
  | none => rfl
  | some n => by_cases hi : i = j <;> simp [hi]

end Store

/-! ## Histories -/

namespace Edit

variable {s s' : Store} {i : Option NodeId} {p : Primitive}

namespace Primitive

/-- What the call puts where: a node, and the node that it is then below. -/
def move? (s : Store) : Primitive → Option (NodeId × NodeId)
  | .replace old new => (s.parent? old).map fun b => (new, b)
  | .insertBefore stmt _ block => some (stmt, block)
  | .appendDeclaration module decl => some (decl, module)
  | _ => none

/-- What the call moves is not at or above the place that it is moved to. -/
def Apart (s : Store) (p : Primitive) : Prop := ∀ a b, p.move? s = some (a, b) → ¬ ReflTransGen s.Up b a

theorem apart_of_none (h : p.move? s = none) : p.Apart s := fun a b hab => by rw [h] at hab; cases hab

theorem apart_iff {a b : NodeId} (h : p.move? s = some (a, b)) : p.Apart s ↔ ¬ ReflTransGen s.Up b a :=
  ⟨fun hp => hp a b h, fun hba _ _ h' => by cases h.symm.trans h'; exact hba⟩

/-- An edit that succeeds keeps a store acyclic exactly if what it moves is apart from where it is moved to. -/
theorem Effect.acyclic_iff (h : p.Effect s i s') (hp : p.edits = true) (hs : s.Sound) (hacyclic : s.Acyclic) :
    s'.Acyclic ↔ p.Apart s := by
  cases h with
  | reserve => cases hp
  | register => cases hp
  | alloc _ hfree => exact iff_of_true (hacyclic.adopted hs rfl rfl fun i hi => (hfree i hi).1) (apart_of_none rfl)
  | leaf => exact iff_of_true (hacyclic.added hs rfl rfl) (apart_of_none rfl)
  | temp => exact iff_of_true (hacyclic.added hs rfl rfl) (apart_of_none rfl)
  | @replace old new b n m k hn hb hnew _ _ =>
    have hold : s.parent? old = some b := by rw [Store.parent?, hn, Option.bind_some, hb]
    rw [hacyclic.swapped_iff hold hnew.1, apart_iff (by rw [move?, hold]; rfl)]
  | insertBefore hstmt => rw [hacyclic.placed_iff hstmt.1, apart_iff rfl]
  | appendDeclaration hdecl => rw [hacyclic.placed_iff hdecl.1, apart_iff rfl]
  | discard =>
    exact iff_of_true (hacyclic.of_roots fun i p hup => .inl (Store.up_of_discardAll hup)) (apart_of_none rfl)
  | setTy =>
    refine iff_of_true (hacyclic.of_roots fun i p hup => .inl ?_) (apart_of_none rfl)
    rwa [Store.Up, Store.parent?_setTy] at hup

/-- New nodes keep a store acyclic. -/
theorem acyclic_after_alloc {k : Kind} {ty : Option Ty} (hs : s.Sound) (h : s.Acyclic) :
    ((alloc k ty).after s).Acyclic := by
  rcases (alloc k ty).step s with heff | ⟨-, hsame⟩
  · exact (heff.acyclic_iff rfl hs h).2 (apart_of_none rfl)
  · rwa [hsame]

end Primitive

theorem acyclic_afterAll_allocs {calls : List Primitive} (halloc : ∀ p ∈ calls, ∃ k ty, p = .alloc k ty)
    (hs : s.Sound) (h : s.Acyclic) : (afterAll calls s).Acyclic := by
  induction calls generalizing s with
  | nil => exact h
  | cons p calls ih =>
    rw [List.forall_mem_cons] at halloc
    obtain ⟨⟨k, ty, rfl⟩, hcalls⟩ := halloc
    exact ih hcalls (Primitive.sound_after _ hs) (Primitive.acyclic_after_alloc hs h)

/-- A copy keeps a store sound and acyclic. -/
theorem acyclic_of_deepCopy {id copy : NodeId} (hs : s.Sound) (h : s.Acyclic)
    (hrun : deepCopy id s = .ok copy s') : s'.Sound ∧ s'.Acyclic := by
  obtain ⟨calls, halloc, hcalls⟩ :=
    (calls_deepCopy (P := fun p => ∃ k ty, p = .alloc k ty) (fun k ty => ⟨k, ty, rfl⟩) id).calls s hs
  rw [final, hrun] at hcalls
  rw [show s' = _ from hcalls]
  exact ⟨sound_afterAll hs, acyclic_afterAll_allocs halloc hs h⟩

/-- What comes from an empty store by edits that succeed and move nothing to a place at or below itself. -/
inductive Grown : Store → Prop where
  | new : Grown {}
  | edit {s s' : Store} {p : Primitive} {i : Option NodeId} (h : Grown s) (hp : p.edits = true)
      (hapart : p.Apart s)
    (hrun : p.run s = .ok i s') : Grown s'
  | deepCopy {s s' : Store} {id copy : NodeId} (h : Grown s) (hrun : deepCopy id s = .ok copy s') : Grown s'

theorem Grown.sound_acyclic (h : Grown s) : s.Sound ∧ s.Acyclic := by
  induction h with
  | new =>
    refine ⟨⟨List.nodup_nil, by simp [Store.ids], by simp⟩, fun i hi => ?_⟩
    obtain ⟨p, hp, -⟩ := TransGen.head'_iff.1 hi
    cases hp
  | edit _ hp hapart hrun ih =>
    have heff := (Primitive.ends_run _).of_ok hrun
    exact ⟨heff.sound ih.1, (heff.acyclic_iff hp ih.1 ih.2).2 hapart⟩
  | deepCopy _ hrun ih => exact acyclic_of_deepCopy ih.1 ih.2 hrun

/-- **Links to parents form no circle** in a store that was edited without moving anything to a place at or below
itself, and every loop that goes up ends. A further edit that succeeds keeps it so exactly if it moves nothing like
that, and a copy always does. -/
theorem acyclic_of_grown (h : Grown s) :
    (∀ i, ¬ TransGen s.Up i i) ∧
    (∀ i, LoopEnds s.attachedTurn (s.size + 1) i (s.isAttached i) ∧
      LoopEnds s.enclosingTurn (s.size + 1) i (s.enclosingStatement? i) ∧
      ∀ tag test, LoopEnds (s.ancestorTurn tag test) (s.size + 1) i (s.ancestor? i tag test)) ∧
    (∀ (p : Primitive) i s', p.edits = true → p.run s = .ok i s' → ((∀ j, ¬ TransGen s'.Up j j) ↔ p.Apart s)) ∧
    ∀ i copy s', deepCopy i s = .ok copy s' → ∀ j, ¬ TransGen s'.Up j j := by
  obtain ⟨hs, hacyclic⟩ := h.sound_acyclic
  refine ⟨hacyclic, fun i => (hacyclic.climbs i).loops, fun p i s' hp hrun => ?_,
    fun i copy s' hrun => (acyclic_of_deepCopy hs hacyclic hrun).2⟩
  exact (p.ends_run.of_ok hrun).acyclic_iff hp hs hacyclic

/-- A module with a branch in it, and a statement that has no place yet. -/
def branching : Store where
  nextId := ⟨5⟩
  nodes := [
    { id := ⟨0⟩, kind := .module [⟨3⟩] },
    { id := ⟨1⟩, parent := some ⟨3⟩, kind := .name "c" },
    { id := ⟨2⟩, parent := some ⟨3⟩, kind := .pass },
    { id := ⟨3⟩, parent := some ⟨0⟩, kind := .ifElse ⟨1⟩ [⟨2⟩] [] },
    { id := ⟨4⟩, kind := .pass }]

theorem grown_branching : Grown branching := by
  have hmodule : Grown _ := .edit (p := .alloc (.module []) none) .new rfl (Primitive.apart_of_none rfl) rfl
  have hname : Grown _ := .edit (p := .leaf (.name "c") none) hmodule rfl (Primitive.apart_of_none rfl) rfl
  have hpass : Grown _ := .edit (p := .leaf .pass none) hname rfl (Primitive.apart_of_none rfl) rfl
  have hbranch : Grown _ := .edit (p := .alloc (.ifElse ⟨1⟩ [⟨2⟩] []) none) hpass rfl
    (Primitive.apart_of_none rfl) rfl
  have hstmt : Grown _ := .edit (p := .leaf .pass none) hbranch rfl (Primitive.apart_of_none rfl) rfl
  refine .edit (p := .appendDeclaration ⟨0⟩ ⟨3⟩) hstmt rfl ((Primitive.apart_iff rfl).2 fun h => ?_) rfl
  rcases h.cases_head with h | ⟨b, hb, -⟩ <;> contradiction

/-- The statement may get a place in the branch, which is not below it. -/
theorem acyclic_of_grown_branching : ∃ s, (Primitive.insertBefore ⟨4⟩ ⟨2⟩ ⟨3⟩).run branching = .ok none s ∧
    ∀ i, ¬ TransGen s.Up i i := by
  refine ⟨_, rfl, ((acyclic_of_grown grown_branching).2.2.1 (.insertBefore ⟨4⟩ ⟨2⟩ ⟨3⟩) none _ rfl rfl).2 ?_⟩
  refine (Primitive.apart_iff rfl).2 fun h => ?_
  rcases h.cases_head with h | ⟨b, hb, h⟩
  · contradiction
  · cases hb
    rcases h.cases_head with h | ⟨b, hb, -⟩ <;> contradiction

/-- A module may be appended to itself. It is above itself then, and the loop that asks whether it is attached does
not end. -/
theorem append_into_itself : ∃ s s', (Primitive.alloc (.module []) none).run {} = .ok (some ⟨0⟩) s ∧
    (Primitive.appendDeclaration ⟨0⟩ ⟨0⟩).run s = .ok none s' ∧ TransGen s'.Up ⟨0⟩ ⟨0⟩ ∧
    ∀ turns attached, ¬ LoopEnds s'.attachedTurn turns ⟨0⟩ attached :=
  ⟨_, _, rfl, rfl, .single rfl, fun _ _ h => h.ne_self rfl⟩

end Edit

end ContractTree
