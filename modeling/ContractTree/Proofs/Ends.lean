import ContractTree.Proofs.Holds
import ContractTree.Store.Edit

/-!
How edits end. `Ends x s Q E` says where `x` may leave a state that it was started in: with `Q` when it succeeds,
with `E` when it fails. Each primitive edit is described once: what it did when it succeeded, and why it was
refused, which leaves the store as it was (`Refusal`). The stores that they leave are given by `Store.added`,
`Store.enrolled`, `Store.adopt`, `Store.swapped` and `Store.placed`, and seen through `find?` and `ids`. `LoopEnds`
says of a loop that it ends after some number of turns.
-/

namespace ContractTree

/-- `x`, started in `s`, succeeds with `Q` or fails with `E`. -/
def Ends {ε σ α : Type} (x : EStateM ε σ α) (s : σ) (Q : α → σ → Prop) (E : ε → σ → Prop) : Prop :=
  match x s with
  | .ok a s' => Q a s'
  | .error e s' => E e s'

/-- The state is still `s`, and the error is one of `X`. -/
def Refusal {ε σ : Type} (s : σ) (X : ε → Prop) (e : ε) (s' : σ) : Prop := s' = s ∧ X e

section Ends

variable {ε σ α β : Type} {x : EStateM ε σ α} {s s' : σ} {Q Q' : α → σ → Prop} {R : β → σ → Prop}
  {E E' : ε → σ → Prop} {X X' : ε → Prop}

theorem bind_of_ok {f : α → EStateM ε σ β} {a : α} (h : x s = .ok a s') : (x >>= f) s = f a s' := by
  simp only [bind, EStateM.bind, h]

theorem bind_of_error {f : α → EStateM ε σ β} {e : ε} (h : x s = .error e s') : (x >>= f) s = .error e s' := by
  simp only [bind, EStateM.bind, h]

theorem Ends.mono (h : Ends x s Q E) (hQ : ∀ a s', Q a s' → Q' a s') (hE : ∀ e s', E e s' → E' e s') :
    Ends x s Q' E' := by
  unfold Ends at h ⊢
  split <;> simp_all

theorem Ends.of_ok {a : α} (h : Ends x s Q E) (hx : x s = .ok a s') : Q a s' := by
  unfold Ends at h
  rwa [hx] at h

theorem Ends.of_error {e : ε} (h : Ends x s Q E) (hx : x s = .error e s') : E e s' := by
  unfold Ends at h
  rwa [hx] at h

theorem Ends.and {Q' : α → σ → Prop} {E' : ε → σ → Prop} (h : Ends x s Q E) (h' : Ends x s Q' E') :
    Ends x s (fun a s' => Q a s' ∧ Q' a s') fun e s' => E e s' ∧ E' e s' := by
  unfold Ends at h h' ⊢
  cases hx : x s <;> rw [hx] at h h' <;> exact ⟨h, h'⟩

/-- What cannot fail succeeds. -/
theorem Ends.exists_ok (h : Ends x s Q E) (hE : ∀ e s', ¬ E e s') : ∃ a s', x s = .ok a s' ∧ Q a s' := by
  cases hx : x s with
  | ok a s' => exact ⟨a, s', rfl, h.of_ok hx⟩
  | error e s' => exact absurd (h.of_error hx) (hE e s')

theorem ends_bind {f : α → EStateM ε σ β} : Ends (x >>= f) s R E ↔ Ends x s (fun a s' => Ends (f a) s' R E) E := by
  unfold Ends
  simp only [bind, EStateM.bind]
  cases x s <;> rfl

theorem ends_pure {a : α} : Ends (pure a : EStateM ε σ α) s Q E ↔ Q a s := Iff.rfl

theorem ends_throw {e : ε} : Ends (throw e : EStateM ε σ α) s Q E ↔ E e s := Iff.rfl

theorem ends_get {Q : σ → σ → Prop} : Ends (get : EStateM ε σ σ) s Q E ↔ Q s s := Iff.rfl

theorem ends_set {s' : σ} {Q : PUnit → σ → Prop} : Ends (set s' : EStateM ε σ PUnit) s Q E ↔ Q ⟨⟩ s' := Iff.rfl

theorem ends_modify {f : σ → σ} {Q : PUnit → σ → Prop} :
    Ends (modify f : EStateM ε σ PUnit) s Q E ↔ Q ⟨⟩ (f s) := Iff.rfl

/-- A step that may be refused without effect, and what follows it. -/
theorem Ends.then {f : α → EStateM ε σ β} (h : Ends x s Q (Refusal s X)) (hE : ∀ e, X e → E e s)
    (hf : ∀ a s', Q a s' → Ends (f a) s' R E) : Ends (x >>= f) s R E :=
  ends_bind.2 (h.mono hf fun e _ he => he.1 ▸ hE e he.2)

/-- A question to the state, which may be refused, and what follows it. -/
theorem Ends.asked {f : α → EStateM ε σ β} {P : α → Prop} (h : Ends x s (fun a s' => s' = s ∧ P a) (Refusal s X))
    (hE : ∀ e, X e → E e s) (hf : ∀ a, P a → Ends (f a) s R E) : Ends (x >>= f) s R E :=
  h.then hE fun a _ ha => ha.1 ▸ hf a ha.2

end Ends

/-! Whether a run on a given state succeeds, and with what, is found out by running it. -/

section Decidable

variable {ε σ α : Type}

instance decidableOk {x : EStateM.Result ε σ Unit} : Decidable (∃ s, x = .ok () s) :=
  match x with
  | .ok _ s => isTrue ⟨s, rfl⟩
  | .error _ _ => isFalse (by simp)

instance decidableOkAnd {x : EStateM.Result ε σ Unit} {p : σ → Prop} [DecidablePred p] :
    Decidable (∃ s, x = .ok () s ∧ p s) :=
  match x with
  | .ok _ s => decidable_of_iff (p s) (by simp)
  | .error _ _ => isFalse (by simp)

instance decidableError [DecidableEq ε] {x : EStateM.Result ε σ α} {e : ε} : Decidable (∃ s, x = .error e s) :=
  match x with
  | .ok _ _ => isFalse (by simp)
  | .error e' _ => decidable_of_iff (e' = e) (by simp)

instance decidableExceptOk {x : Except ε α} : Decidable (∃ a, x = .ok a) :=
  match x with
  | .ok a => isTrue ⟨a, rfl⟩
  | .error _ => isFalse (by simp)

end Decidable

/-- A loop that is started at `a` ends with `b` within `n` turns. A turn gives the result, or where to go on. -/
inductive LoopEnds {σ β : Type} (turn : σ → β ⊕ σ) : Nat → σ → β → Prop where
  | stop {n : Nat} {a : σ} {b : β} (h : turn a = .inl b) : LoopEnds turn (n + 1) a b
  | next {n : Nat} {a a' : σ} {b : β} (h : turn a = .inr a') (hrest : LoopEnds turn n a' b) :
      LoopEnds turn (n + 1) a b

/-- A loop that ends does not stay where it is. -/
theorem LoopEnds.ne_self {σ β : Type} {turn : σ → β ⊕ σ} {n : Nat} {a : σ} {b : β} (h : LoopEnds turn n a b) :
    turn a ≠ .inr a := by
  induction h with
  | stop h => simp [h]
  | @next n a a' b h _ ih =>
    intro ha
    obtain rfl : a' = a := Sum.inr.inj (h.symm.trans ha)
    exact ih ha

namespace NodeId

theorem lt_iff {a b : NodeId} : a < b ↔ a.toNat < b.toNat := Iff.rfl

theorem toNat_inj {a b : NodeId} (h : a.toNat = b.toNat) : a = b := by
  cases a
  cases b
  simp only [toNat, UInt32.toNat_inj] at h
  rw [h]

theorem next?_eq_some {a b : NodeId} (h : a.next? = some b) : b = ⟨a.val + 1⟩ ∧ b.toNat = a.toNat + 1 := by
  unfold next? at h
  split at h
  · cases h
  · next hne =>
    obtain rfl := Option.some.inj h
    refine ⟨rfl, ?_⟩
    have hlt : a.val.toNat ≠ 4294967295 := by
      intro he
      exact hne (toNat_inj he)
    have := a.val.toNat_lt
    simp only [toNat, UInt32.toNat_add, UInt32.toNat_one]
    omega

theorem le_last (a : NodeId) : a ≤ last := by
  have := a.val.toNat_lt
  show a.val.toNat ≤ 4294967295
  omega

theorem next?_eq_none {a : NodeId} : a.next? = none ↔ a = last := by simp [next?]

end NodeId

namespace Store

variable {s : Store} {i : NodeId} {n : Node}

/-- The store after the next identity was given to a node. -/
def added (s : Store) (n : Node) : Store := { s with nextId := ⟨s.nextId.val + 1⟩, nodes := s.nodes ++ [n] }

/-- The store after a node was registered, with the counter above its identity. -/
def enrolled (s : Store) (n : Node) : Store :=
  { s with nextId := if s.nextId ≤ n.id then ⟨n.id.val + 1⟩ else s.nextId, nodes := s.nodes ++ [n] }

/-- The store after `new` took the place of `old` below `p`, whose kind is then `k`. -/
def swapped (s : Store) (p : NodeId) (k : Kind) (old new : NodeId) : Store :=
  (((s.setKind p k).setParent new (some p)).setParent old none).recordReplacement old new

/-- The store after `new` got a place below `p`, whose kind is then `k`. -/
def placed (s : Store) (p : NodeId) (k : Kind) (new : NodeId) : Store := (s.setKind p k).setParent new (some p)

/-- Whether the node is registered and no attached node lists it. -/
def Free (s : Store) (i : NodeId) : Prop := i ∈ s.ids ∧ s.owner? i = none

/-- Whether the node is registered and may take a new place: it names `leaving` as its parent, or no attached node
lists it. -/
def Movable (s : Store) (leaving : Option NodeId) (i : NodeId) : Prop :=
  i ∈ s.ids ∧ ((leaving.isSome ∧ s.parent? i = leaving) ∨ s.owner? i = none)

theorem mem_ids_of_find? (h : s.find? i = some n) : i ∈ s.ids := contains_iff.1 (by rw [contains, h]; rfl)

theorem Sound.fresh (hs : s.Sound) : s.nextId ∉ s.ids := by
  intro h
  have := NodeId.lt_iff.1 (hs.below _ h)
  omega

theorem find?_added (hs : s.Sound) (hn : n.id = s.nextId) :
    (s.added n).find? i = if i = s.nextId then some n else s.find? i := by
  have h : (s.added n).find? i = (s.push n).find? i := rfl
  rw [h, find?_push]
  by_cases hi : i = s.nextId
  · subst hi
    rw [find?_eq_none_iff.2 hs.fresh]
    simp [hn]
  · simp [hi, hn, Ne.symm hi]

@[simp] theorem ids_added : (s.added n).ids = s.ids ++ [n.id] := ids_push

@[simp] theorem ids_enrolled : (s.enrolled n).ids = s.ids ++ [n.id] := ids_push

@[simp] theorem ids_setKind (k : Kind) : (s.setKind i k).ids = s.ids := ids_update (by intro; rfl) i

@[simp] theorem ids_setParent (p : Option NodeId) : (s.setParent i p).ids = s.ids := ids_update (by intro; rfl) i

@[simp] theorem ids_setTy (t : Option Ty) : (s.setTy i t).ids = s.ids := ids_update (by intro; rfl) i

@[simp] theorem ids_adopt (owner : NodeId) (l : List NodeId) : (s.adopt owner l).ids = s.ids := by
  simp only [ids, adopt, List.map_map]
  apply List.map_congr_left
  intro m _
  by_cases h : m.id ∈ l <;> simp [h]

@[simp] theorem adopt_nil (owner : NodeId) : s.adopt owner [] = s := by simp [adopt]

@[simp] theorem ids_swapped (p : NodeId) (k : Kind) (old new : NodeId) : (s.swapped p k old new).ids = s.ids := by
  show (((s.setKind p k).setParent new (some p)).setParent old none).ids = _
  simp

@[simp] theorem ids_placed (p : NodeId) (k : Kind) (new : NodeId) :
    (s.placed p k new).ids = s.ids := by simp [placed]

theorem find?_swapped (p : NodeId) (k : Kind) (old new : NodeId) :
    (s.swapped p k old new).find? i = (s.find? i).map fun m =>
      { m with
        kind := if i = p then k else m.kind
        parent := if i = old then none else if i = new then some p else m.parent } := by
  show ((((s.setKind p k).setParent new (some p)).setParent old none)).find? i = _
  rw [find?_setParent, find?_setParent, find?_setKind]
  simp only [Option.map_map]
  apply Option.map_congr
  intro m _
  simp only [Function.comp_apply]
  split_ifs <;> rfl

theorem find?_placed (p : NodeId) (k : Kind) (new : NodeId) :
    (s.placed p k new).find? i = (s.find? i).map fun m =>
      { m with kind := if i = p then k else m.kind, parent := if i = new then some p else m.parent } := by
  rw [placed, find?_setParent, find?_setKind]
  simp only [Option.map_map]
  apply Option.map_congr
  intro m _
  simp only [Function.comp_apply]
  split_ifs <;> rfl

/-! ## Soundness is kept -/

/-- The counter grows with a new node. -/
theorem nextId_lt_added (hlt : s.nextId.next?.isSome) : s.nextId < (s.added n).nextId := by
  obtain ⟨next, hnext⟩ := Option.isSome_iff_exists.1 hlt
  obtain ⟨hval, hnat⟩ := NodeId.next?_eq_some hnext
  show s.nextId < ⟨s.nextId.val + 1⟩
  rw [← hval, NodeId.lt_iff]
  omega

theorem lt_nextId_added {a : NodeId} (hlt : s.nextId.next?.isSome) (ha : a < s.nextId) :
    a < (s.added n).nextId := by
  have := NodeId.lt_iff.1 (nextId_lt_added (n := n) hlt)
  rw [NodeId.lt_iff] at ha ⊢
  omega

theorem Sound.added (hs : s.Sound) (hn : n.id = s.nextId) (hlt : s.nextId.next?.isSome) : (s.added n).Sound := by
  refine ⟨?_, ?_, fun r hr => lt_nextId_added hlt (hs.replaced r hr)⟩
  · rw [ids_added, hn]
    exact List.nodup_append.2 ⟨hs.nodup, by simp, by
      intro a ha b hb he
      rw [List.mem_singleton] at hb
      exact hs.fresh (hb ▸ he ▸ ha)⟩
  · intro a ha
    rw [ids_added, List.mem_append, List.mem_singleton, hn] at ha
    rcases ha with ha | rfl
    · exact lt_nextId_added hlt (hs.below a ha)
    · exact nextId_lt_added hlt

theorem toNat_nextId_enrolled (h : n.id ≠ .last) :
    (s.enrolled n).nextId.toNat = max s.nextId.toNat (n.id.toNat + 1) := by
  obtain ⟨next, hnext⟩ := Option.ne_none_iff_exists'.1 (mt NodeId.next?_eq_none.1 h)
  obtain ⟨hval, hnat⟩ := NodeId.next?_eq_some hnext
  by_cases hle : s.nextId ≤ n.id
  · rw [enrolled, if_pos hle, ← hval, hnat]
    exact (Nat.max_eq_right (Nat.le_succ_of_le hle)).symm
  · rw [enrolled, if_neg hle]
    exact (Nat.max_eq_left (Nat.lt_of_not_le hle)).symm

theorem Sound.enrolled (hs : s.Sound) (hn : n.id ∉ s.ids) (h : n.id ≠ .last) : (s.enrolled n).Sound := by
  have hnat := toNat_nextId_enrolled (s := s) h
  have hle : s.nextId ≤ (s.enrolled n).nextId := by
    show s.nextId.toNat ≤ (s.enrolled n).nextId.toNat
    rw [hnat]
    exact Nat.le_max_left _ _
  refine ⟨?_, fun i hi => ?_, fun r hr => Nat.lt_of_lt_of_le (hs.replaced r hr) hle⟩
  · rw [ids_enrolled]
    exact List.nodup_append'.2 ⟨hs.nodup, List.nodup_singleton _, List.disjoint_singleton.2 hn⟩
  · rw [ids_enrolled, List.mem_append, List.mem_singleton] at hi
    rcases hi with hi | rfl
    · exact Nat.lt_of_lt_of_le (hs.below i hi) hle
    · show n.id.toNat < (s.enrolled n).nextId.toNat
      rw [hnat]
      exact Nat.lt_of_lt_of_le (Nat.lt_succ_self _) (Nat.le_max_right _ _)

theorem Sound.counted (hs : s.Sound) (hlt : s.nextId.next?.isSome) :
    ({ s with nextId := ⟨s.nextId.val + 1⟩ } : Store).Sound := by
  have hle : s.nextId < ⟨s.nextId.val + 1⟩ := nextId_lt_added (n := default) hlt
  exact ⟨hs.nodup, fun i hi => Nat.lt_trans (hs.below i hi) hle, fun r hr => Nat.lt_trans (hs.replaced r hr) hle⟩

theorem Sound.erase (hs : s.Sound) (i : NodeId) : (s.erase i).Sound := by
  refine ⟨?_, fun j hj => hs.below j ?_, hs.replaced⟩
  · rw [ids_erase]
    exact hs.nodup.filter _
  · rw [ids_erase] at hj
    exact (List.mem_filter.1 hj).1

theorem Sound.discardAll (hs : s.Sound) (stack : List NodeId) : (s.discardAll stack).Sound := by
  fun_induction Store.discardAll s stack with
  | case1 s => exact hs
  | case2 s i stack _ ih => exact ih hs
  | case3 s i stack n _ rest ih => exact ih (hs.erase i)

theorem ids_discardAll_sublist (stack : List NodeId) : (s.discardAll stack).ids.Sublist s.ids := by
  fun_induction Store.discardAll s stack with
  | case1 s => exact List.Sublist.refl _
  | case2 s i stack _ ih => exact ih
  | case3 s i stack n _ rest ih =>
    refine ih.trans ?_
    rw [ids_erase]
    exact List.filter_sublist

theorem nextId_discardAll (stack : List NodeId) : (s.discardAll stack).nextId = s.nextId := by
  fun_induction Store.discardAll s stack with
  | case1 s => rfl
  | case2 s i stack _ ih => exact ih
  | case3 s i stack n _ rest ih => exact ih

/-- A change that keeps the identities and the counter keeps a store sound. -/
theorem Sound.of_ids {s' : Store} (hs : s.Sound) (hids : s'.ids = s.ids) (hnext : s'.nextId = s.nextId)
    (hr : s'.replacements = s.replacements) : s'.Sound :=
  ⟨hids ▸ hs.nodup, by rw [hids, hnext]; exact hs.below, by rw [hr, hnext]; exact hs.replaced⟩

theorem Sound.swapped {p old new : NodeId} {k : Kind} (hs : s.Sound) (hold : old ∈ s.ids) :
    (s.swapped p k old new).Sound := by
  refine ⟨by simpa using hs.nodup, by rw [ids_swapped]; exact hs.below, ?_⟩
  intro r hr
  have hr : r = (old, new) ∨ r ∈ s.replacements := by
    simp only [Store.swapped, recordReplacement, List.mem_cons, List.mem_filter] at hr
    exact hr.imp_right (·.1)
  rcases hr with rfl | hr
  · exact hs.below _ hold
  · exact hs.replaced r hr

end Store

/-! ## The primitive edits -/

namespace Edit

variable {s : Store} {id old new : NodeId}

theorem node_apply : node id s = match s.find? id with
    | some n => .ok n s
    | none => .error (.unknownNode id) s := by
  unfold node ask Store.node
  beta_reduce
  cases s.find? id <;> rfl

theorem ends_node : Ends (node id) s (fun n s' => s' = s ∧ s.find? id = some n) (Refusal s
    fun _ => id ∉ s.ids) := by
  unfold Ends
  rw [node_apply]
  cases h : s.find? id with
  | none => exact ⟨rfl, Store.find?_eq_none_iff.1 h⟩
  | some n => exact ⟨rfl, rfl⟩

theorem ends_reserve :
    Ends reserve s (fun id s' => id = s.nextId ∧ s.nextId.next?.isSome ∧
      s' = { s with nextId := ⟨s.nextId.val + 1⟩ }) (Refusal s (· = .idsExhausted)) := by
  unfold reserve
  simp only [ends_bind, ends_get]
  cases h : s.nextId.next? with
  | none => exact ⟨rfl, rfl⟩
  | some next =>
    simp only [ends_bind, ends_modify, ends_pure, (NodeId.next?_eq_some h).1]
    exact ⟨trivial, rfl, trivial⟩

/-- A node is refused under an identity that is registered, or else under the last one. -/
theorem ends_register (n : Node) :
    Ends (register n) s (fun id s' => id = n.id ∧ n.id ∉ s.ids ∧ n.id ≠ .last ∧ s' = s.enrolled n)
      (Refusal s fun e => n.id ∈ s.ids ∧ e = .duplicateId n.id ∨ n.id ∉ s.ids ∧ n.id = .last ∧
        e = .idsExhausted) := by
  unfold register
  rw [ends_bind, ends_get]
  cases hc : s.contains n.id with
  | true => exact ⟨rfl, .inl ⟨Store.contains_iff.1 hc, rfl⟩⟩
  | false =>
    have hn : n.id ∉ s.ids := fun h => by simp [Store.contains_iff.2 h] at hc
    simp only [Bool.false_eq_true, if_false]
    rw [ends_bind, ends_get]
    by_cases hle : s.nextId ≤ n.id
    · cases hnext : n.id.next? with
      | none =>
        simp only [hle, if_true]
        exact ⟨rfl, .inr ⟨hn, NodeId.next?_eq_none.1 hnext, rfl⟩⟩
      | some next =>
        have hlast : n.id ≠ .last := fun h => by simp [NodeId.next?_eq_none.2 h] at hnext
        simp only [hle, if_true]
        refine ⟨rfl, hn, hlast, ?_⟩
        rw [Store.enrolled, if_pos hle, (NodeId.next?_eq_some hnext).1]
        rfl
    · have hlast : n.id ≠ .last := fun h => hle (h ▸ s.nextId.le_last)
      simp only [hle, if_false]
      refine ⟨rfl, hn, hlast, ?_⟩
      rw [Store.enrolled, if_neg hle]
      rfl

theorem ends_insertNew (k : NodeId → Kind) (ty : Option Ty) :
    Ends (insertNew k ty) s (fun id s' => id = s.nextId ∧ s.nextId.next?.isSome ∧
      s' = s.added { id := s.nextId, ty, kind := k s.nextId }) (Refusal s (· = .idsExhausted)) := by
  unfold insertNew reserve
  simp only [bind_assoc, ends_bind, ends_get]
  cases h : s.nextId.next? with
  | none => exact ⟨rfl, rfl⟩
  | some next =>
    simp only [ends_bind, ends_modify, ends_pure, Store.push, (NodeId.next?_eq_some h).1]
    simp [Store.added]

theorem ends_requireFree : Ends (requireFree id) s (fun _ s' => s' = s ∧ s.Free id) (Refusal s
    fun _ => ¬ s.Free id) := by
  unfold requireFree
  refine ends_node.asked (fun _ h => ⟨rfl, fun hfree => h hfree.1⟩) fun n hn => ?_
  rw [ends_bind, ends_get]
  cases h : s.owner? id with
  | some owner => exact ⟨rfl, fun hfree => by simp [hfree.2] at h⟩
  | none => exact ⟨rfl, Store.mem_ids_of_find? hn, h⟩

theorem ends_forM_requireFree (l : List NodeId) :
    Ends (l.forM requireFree) s (fun _ s' => s' = s ∧ ∀ i ∈ l, s.Free i) (Refusal s
      fun _ => ∃ i ∈ l, ¬ s.Free i) := by
  induction l with
  | nil => exact ⟨rfl, by simp⟩
  | cons i l ih =>
    show Ends (requireFree i >>= fun _ => l.forM requireFree) s _ _
    refine ends_requireFree.asked (fun _ h => ⟨rfl, i, List.mem_cons_self, h⟩) fun _ hi => ?_
    exact ih.mono (fun _ _ h => ⟨h.1, List.forall_mem_cons.2 ⟨hi, h.2⟩⟩)
      fun _ _ ⟨hs, j, hj, h⟩ => ⟨hs, j, List.mem_cons_of_mem i hj, h⟩

/-- A node that is made has a new identity, adopts its children, and takes none that an attached node lists. -/
theorem ends_alloc (k : Kind) (ty : Option Ty) :
    Ends (alloc k ty) s (fun id s' => id = s.nextId ∧ s.nextId.next?.isSome ∧ (∀ i ∈ k.children, s.Free i) ∧
      s' = (s.added { id := s.nextId, ty, kind := k }).adopt s.nextId k.children)
      (Refusal s fun e => e = .idsExhausted ∨ ∃ i ∈ k.children, ¬ s.Free i) := by
  unfold alloc
  refine (ends_forM_requireFree k.children).asked (fun _ h => ⟨rfl, .inr h⟩) fun _ hfree => ?_
  refine (ends_insertNew (fun _ => k) ty).then (fun _ h => ⟨rfl, .inl h⟩) ?_
  rintro _ _ ⟨rfl, hlt, rfl⟩
  exact ⟨rfl, hlt, hfree, rfl⟩

/-- A node without children is copied as it is. -/
theorem deepCopy_eq_alloc {n : Node} (hn : s.find? id = some n) (hchildren : n.kind.children = []) :
    deepCopy id s = alloc n.kind n.ty s := by
  show (node id >>= fun n => (n.children.foldlM _ n.kind >>= fun kind => alloc kind n.ty)) s = _
  show EStateM.bind (node id) _ s = _
  rw [EStateM.bind, node_apply, hn]
  show (n.kind.children.foldlM _ n.kind >>= fun kind => alloc kind n.ty) s = _
  rw [hchildren]
  rfl

theorem ends_requireMovable (leaving : Option NodeId) :
    Ends (requireMovable id leaving) s (fun _ s' => s' = s ∧ s.Movable leaving id) (Refusal s
      fun _ => ¬ s.Free id) := by
  unfold requireMovable
  refine ends_node.asked (fun _ h => ⟨rfl, fun hfree => h hfree.1⟩) fun n hn => ?_
  split
  · next h =>
    rw [Bool.and_eq_true, decide_eq_true_eq] at h
    exact ⟨rfl, Store.mem_ids_of_find? hn, .inl ⟨h.1, by rw [Store.parent?, hn]; exact h.2⟩⟩
  · exact ends_requireFree.mono (fun _ _ h => ⟨h.1, h.2.1, .inr h.2.2⟩) fun _ _ h => h

theorem ends_updateNode {f : Node → Node} {Q : Unit → Store → Prop} {E : StructuralError → Store → Prop}
    (hid : id ∈ s.ids) (h : Q () (s.update id f)) : Ends (updateNode id f) s Q E := by
  unfold updateNode
  rw [ends_bind]
  obtain ⟨n, hn⟩ := Option.isSome_iff_exists.1 (Store.contains_iff.2 hid)
  unfold Ends
  rw [node_apply, hn]
  exact h

theorem ends_setTy (ty : Option Ty) :
    Ends (setTy id ty) s (fun _ s' => id ∈ s.ids ∧ s' = s.setTy id ty) (Refusal s fun _ => id ∉ s.ids) := by
  unfold setTy updateNode
  refine ends_node.asked (fun _ h => ⟨rfl, h⟩) fun n hn => ?_
  exact ends_modify.2 ⟨Store.mem_ids_of_find? hn, rfl⟩

theorem ends_replace :
    Ends (replace old new) s (fun _ s' => ∃ n p m k, s.find? old = some n ∧ n.parent = some p ∧
      s.Movable (some old) new ∧
      s.find? p = some m ∧ m.kind.replaceChild? old new = some k ∧ s' = s.swapped p k old new)
      (Refusal s fun _ => ¬ ∃ n p m k, s.find? old = some n ∧ n.parent = some p ∧ s.Free new ∧
        s.find? p = some m ∧ m.kind.replaceChild? old new = some k) := by
  unfold replace
  refine ends_node.asked (fun _ h => ⟨rfl, ?_⟩) fun n hn => ?_
  · rintro ⟨_, _, _, _, hn, _⟩
    exact h (Store.mem_ids_of_find? hn)
  cases hp : n.parent with
  | none =>
    refine ⟨rfl, ?_⟩
    rintro ⟨_, _, _, _, hn', hp', _⟩
    simp [Option.some.inj (hn.symm.trans hn') ▸ hp] at hp'
  | some p =>
    refine (ends_requireMovable (some old)).asked (fun _ h => ⟨rfl, ?_⟩) fun _ hnew => ?_
    · rintro ⟨_, _, _, _, _, _, hfree, _⟩
      exact h hfree
    refine ends_node.asked (fun _ h => ⟨rfl, ?_⟩) fun m hm => ?_
    · rintro ⟨_, _, _, _, hn', hp', _, hm, _⟩
      obtain rfl := Option.some.inj (hn.symm.trans hn')
      obtain rfl := Option.some.inj (hp.symm.trans hp')
      exact h (Store.mem_ids_of_find? hm)
    cases hk : m.kind.replaceChild? old new with
    | none =>
      refine ⟨rfl, ?_⟩
      rintro ⟨_, _, _, _, hn', hp', _, hm', hk'⟩
      obtain rfl := Option.some.inj (hn.symm.trans hn')
      obtain rfl := Option.some.inj (hp.symm.trans hp')
      obtain rfl := Option.some.inj (hm.symm.trans hm')
      simp [hk] at hk'
    | some k =>
      simp only [ends_bind]
      apply ends_updateNode (Store.mem_ids_of_find? hm)
      apply ends_updateNode ((Store.ids_setKind k).symm ▸ hnew.1)
      apply ends_updateNode ((Store.ids_setParent (some p)).symm ▸
        (Store.ids_setKind k).symm ▸ Store.mem_ids_of_find? hn)
      exact ⟨n, p, m, k, hn, hp, hnew, hm, hk, rfl⟩

/-- A statement is refused that is not free, in a block that has no statement list, or before a node that is not in
its lists. -/
theorem ends_insertBefore (stmt anchor block : NodeId) :
    Ends (insertBefore stmt anchor block) s (fun _ s' => ∃ b k, s.Movable none stmt ∧ s.find? block = some b ∧
      b.kind.insertStatement? stmt anchor = some k ∧ s' = s.placed block k stmt)
      (Refusal s fun e => ¬ s.Free stmt ∨ block ∉ s.ids ∨ ∃ b, s.find? block = some b ∧
        (b.kind.statementLists = [] ∨
          e = .anchorNotFound anchor block ∧ b.kind.insertStatement? stmt anchor = none)) := by
  unfold insertBefore
  refine (ends_requireMovable none).asked (fun _ h => ⟨rfl, .inl h⟩) fun _ hstmt => ?_
  refine ends_node.asked (fun _ h => ⟨rfl, .inr (.inl h)⟩) fun b hb => ?_
  by_cases hb' : b.kind.statementLists.isEmpty
  · rw [if_pos hb']
    exact ⟨rfl, .inr (.inr ⟨b, hb, .inl (List.isEmpty_iff.1 hb')⟩)⟩
  · rw [if_neg hb']
    cases hk : b.kind.insertStatement? stmt anchor with
    | none => exact ⟨rfl, .inr (.inr ⟨b, hb, .inr ⟨rfl, hk⟩⟩)⟩
    | some k =>
      simp only [ends_bind]
      apply ends_updateNode (Store.mem_ids_of_find? hb)
      apply ends_updateNode ((Store.ids_setKind k).symm ▸ hstmt.1)
      exact ⟨b, k, hstmt, hb, hk, rfl⟩

theorem ends_appendDeclaration (module decl : NodeId) :
    Ends (appendDeclaration module decl) s (fun _ s' => ∃ b body, s.Movable none decl ∧ s.find? module = some b ∧
      b.kind = .module body ∧ s' = s.placed module (.module (body ++ [decl])) decl)
      (Refusal s fun _ => ¬ s.Free decl ∨ ∀ b, s.find? module = some b → b.kind.isModule = false) := by
  unfold appendDeclaration
  refine (ends_requireMovable none).asked (fun _ h => ⟨rfl, .inl h⟩) fun _ hdecl => ?_
  refine ends_node.asked (fun _ h => ⟨rfl, .inr fun b hb => absurd (Store.mem_ids_of_find? hb) h⟩) fun b hb => ?_
  cases hk : b.kind with
  | module body =>
    simp only [ends_bind]
    apply ends_updateNode (Store.mem_ids_of_find? hb)
    apply ends_updateNode ((Store.ids_setKind _).symm ▸ hdecl.1)
    exact ⟨b, body, hdecl, hb, hk, rfl⟩
  | _ =>
    refine ⟨rfl, .inr fun b' hb' => ?_⟩
    rw [← Option.some.inj (hb.symm.trans hb'), hk]
    rfl

theorem ends_discard :
    Ends (discard id) s (fun _ s' => s.Free id ∧ s' = s.discardAll [id])
      (Refusal s fun _ => ∀ n, s.find? id = some n → n.parent ≠ none) := by
  unfold discard
  refine ends_node.asked (fun _ h => ⟨rfl, fun n hn => absurd (Store.mem_ids_of_find? hn) h⟩) fun n hn => ?_
  have hsome {p : NodeId} (hp : n.parent = some p) : ∀ n', s.find? id = some n' → n'.parent ≠ none := by
    intro n' hn'
    simp [← Option.some.inj (hn.symm.trans hn'), hp]
  cases hp : n.parent with
  | none =>
    have howner : s.owner? id = none := by rw [Store.owner?, Store.parent?, hn, Option.bind_some, hp]; rfl
    exact ⟨⟨Store.mem_ids_of_find? hn, howner⟩, rfl⟩
  | some p =>
    refine ends_node.asked (fun _ _ => ⟨rfl, hsome hp⟩) fun m hm => ?_
    refine ends_requireFree.asked (fun _ _ => ⟨rfl, hsome hp⟩) fun _ hfree => ?_
    exact ⟨hfree, rfl⟩

end Edit

end ContractTree
