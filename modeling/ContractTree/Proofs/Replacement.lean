import ContractTree.Proofs.Calls
import ContractTree.Walk
import Mathlib.Dynamics.PeriodicPts.Defs

/-!
Where a node went. A store remembers for each node that was replaced what replaced it last, and never forgets it
(`Edit.Reached.replacedBy?_isSome`): also not when the node gets a place again. `Store.replacementOf?` follows
these records from one node to the next, so that its answer hangs on all edits that were made.

A replacement puts the new node where the old one was, and the answer for the old node is the new one if that was
never replaced itself (`Edit.replacementOf?_replace`). A node that was replaced and has a place again is passed
over.
-/

namespace ContractTree

section Links

variable {old new : NodeId} {xs ys : List NodeId}

theorem exists_split_of_replaceFirst? (h : replaceFirst? old new xs = some ys) :
    ∃ before after, xs = before ++ old :: after ∧ ys = before ++ new :: after ∧ old ∉ before := by
  induction xs generalizing ys with
  | nil => cases h
  | cons x xs ih =>
    rw [replaceFirst?] at h
    split at h
    · next hx =>
      obtain rfl := Option.some.inj h
      exact ⟨[], xs, by rw [hx]; rfl, rfl, by simp⟩
    · next hx =>
      obtain ⟨zs, hzs, rfl⟩ := Option.map_eq_some_iff.1 h
      obtain ⟨before, after, rfl, rfl, hold⟩ := ih hzs
      exact ⟨x :: before, after, rfl, rfl, by simp [hold, Ne.symm hx]⟩

theorem notMem_of_replaceFirst? (h : replaceFirst? old new xs = none) : old ∉ xs := by
  induction xs with
  | nil => simp
  | cons x xs ih =>
    rw [replaceFirst?] at h
    split at h
    · cases h
    · next hx => simpa [Ne.symm hx] using ih (Option.map_eq_none_iff.1 h)

end Links

/-- The new child is where the first link to the old one was, and nothing else changes. -/
theorem Kind.exists_split_of_replaceChild? {k k' : Kind} {old new : NodeId}
    (h : k.replaceChild? old new = some k') :
    k'.label = k.label ∧ ∃ before after, k.children = before ++ old :: after ∧
      k'.children = before ++ new :: after ∧ old ∉ before := by
  have hfit := k.fits
  rw [replaceChild?_eq] at h
  simp only [children_eq]
  cases hh : replaceFirst? old new k.heads with
  | some hs =>
    obtain ⟨a, b, ha, rfl, hold⟩ := exists_split_of_replaceFirst? hh
    simp only [hh, Option.map_some, Option.some_or, Option.some.injEq] at h
    have hfit' : k.label.Fits (a ++ new :: b).length k.body.length k.orelse.length := by simpa [ha] using hfit
    obtain ⟨hl, h1, h2, h3⟩ := Label.parts_kind hfit'
    rw [← h]
    refine ⟨hl, a, b ++ k.body ++ k.orelse, by simp [ha], by simp [h1, h2, h3], hold⟩
  | none =>
    have hnh := notMem_of_replaceFirst? hh
    cases hb : replaceFirst? old new k.body with
    | some bs =>
      obtain ⟨a, b, ha, rfl, hold⟩ := exists_split_of_replaceFirst? hb
      simp only [hh, hb, Option.map_some, Option.map_none, Option.none_or, Option.some_or, Option.some.injEq] at h
      have hfit' : k.label.Fits k.heads.length (a ++ new :: b).length k.orelse.length := by simpa [ha] using hfit
      obtain ⟨hl, h1, h2, h3⟩ := Label.parts_kind hfit'
      rw [← h]
      exact ⟨hl, k.heads ++ a, b ++ k.orelse, by simp [ha], by simp [h1, h2, h3], by simp [hnh, hold]⟩
    | none =>
      have hnb := notMem_of_replaceFirst? hb
      simp only [hh, hb, Option.map_none, Option.none_or, Option.map_eq_some_iff] at h
      obtain ⟨os, ho, h⟩ := h
      obtain ⟨a, b, ha, rfl, hold⟩ := exists_split_of_replaceFirst? ho
      have hfit' : k.label.Fits k.heads.length k.body.length (a ++ new :: b).length := by simpa [ha] using hfit
      obtain ⟨hl, h1, h2, h3⟩ := Label.parts_kind hfit'
      rw [← h]
      exact ⟨hl, k.heads ++ k.body ++ a, b, by simp [ha], by simp [h1, h2, h3], by simp [hnh, hnb, hold]⟩

namespace Store

variable {s s' : Store} {i j : NodeId}

/-- `new` is where `old` was: the parent of `old` lists `new` in its place, and all other children as before. -/
def Supplants (s s' : Store) (old new : NodeId) : Prop :=
  ∃ p k k' before after, s.parent? old = some p ∧ s.kind? p = some k ∧ s'.kind? p = some k' ∧ k'.label = k.label ∧
    k.children = before ++ old :: after ∧ k'.children = before ++ new :: after ∧ old ∉ before ∧
    (new ≠ old → s'.parent? new = some p)

/-- What replaced a node last, or the node itself. -/
def successor (s : Store) (i : NodeId) : NodeId := (s.replacedBy? i).getD i

/-- A chain of replacements is followed by going to the successor again and again; it stays where it ends. -/
theorem followReplacements_eq_iterate (n : Nat) (i : NodeId) : s.followReplacements n i = s.successor^[n] i := by
  induction n generalizing i with
  | zero => rfl
  | succ n ih =>
    rw [followReplacements, Function.iterate_succ_apply]
    cases h : s.replacedBy? i with
    | none =>
      have hi : s.successor i = i := by rw [successor, h, Option.getD_none]
      simp only [hi]
      exact (Function.iterate_fixed hi n).symm
    | some j =>
      have hi : s.successor i = j := by rw [successor, h, Option.getD_some]
      simp only [hi]
      exact ih j

theorem replacementOf?_eq (h : s.replacedBy? i = some j) :
    s.replacementOf? i = some (s.successor^[s.replacements.length + 1] j) := by
  rw [replacementOf?, h, Option.map_some, followReplacements_eq_iterate]

/-- The answer is the node that the chain goes to first if the chain comes back to it just then. -/
theorem replacementOf?_eq_some_iff (h : s.replacedBy? i = some j) :
    s.replacementOf? i = some j ↔ Function.minimalPeriod s.successor j ∣ s.replacements.length + 1 := by
  rw [replacementOf?_eq h, Option.some.injEq, ← Function.isPeriodicPt_iff_minimalPeriod_dvd]
  rfl

end Store

/-- The walk goes on with what replaced the node that it called the visitor on. -/
theorem Visitor.settle_of_replaced {ε σ : Type} (v : Visitor ε σ) {m old new : NodeId} {fuel : Nat}
    {w w' : Workspace σ} (hdispatch : v.dispatch old m w = .ok () w') (hold : w'.store.isAttached old = false)
    (hrep : w'.store.replacementOf? old = some new) (hnew : w'.store.isAttached new = true) :
    v.settle m (fuel + 1) old w = v.settle m fuel new w' := by
  rw [settle, bind_of_ok hdispatch, bind_of_ok (show Work.store w' = .ok w'.store w' from rfl)]
  simp only [hold, hrep, hnew, Bool.false_eq_true, if_false, if_true]

namespace Edit

variable {s s' : Store} {calls : List Primitive} {p : Primitive} {i j old new : NodeId}

/-- What the call puts in the place of the node. -/
def Primitive.supplanter? : Primitive → NodeId → Option NodeId
  | .replace old new, i => if i = old then some new else none
  | _, _ => none

theorem Primitive.supplanter?_eq_some_iff : p.supplanter? i = some j ↔ p = .replace i j := by
  cases p with
  | replace old new =>
    rw [supplanter?]
    split <;> simp_all [eq_comm]
  | _ => simp [supplanter?]

theorem replacements_discardAll (stack : List NodeId) : (s.discardAll stack).replacements = s.replacements := by
  fun_induction Store.discardAll s stack with
  | case1 s => rfl
  | case2 s i stack _ ih => exact ih
  | case3 s i stack n _ rest ih => exact ih

/-- A call that succeeds records what it replaces, and leaves all other records as they are. -/
theorem Primitive.Effect.replacedBy? {o : Option NodeId} (h : p.Effect s o s') (i : NodeId) :
    s'.replacedBy? i = (p.supplanter? i).or (s.replacedBy? i) := by
  cases h with
  | replace =>
    rw [supplanter?]
    refine (Store.replacedBy?_recordReplacement ..).trans ?_
    split <;> rfl
  | discard => rw [Store.replacedBy?, replacements_discardAll]; rfl
  | _ => rfl

/-- Whether the call makes, moves or removes nodes. -/
def Primitive.shapes : Primitive → Bool
  | .alloc _ _ | .leaf _ _ | .replace _ _ | .insertBefore _ _ _ | .appendDeclaration _ _ | .discard _ => true
  | _ => false

/-- The store that an empty one becomes by calls that all succeed. -/
inductive Reached : List Primitive → Store → Prop where
  | new : Reached [] {}
  | call {calls : List Primitive} {s s' : Store} {p : Primitive} {i : Option NodeId} (h : Reached calls s)
    (hp : p.shapes = true) (hrun : p.run s = .ok i s') : Reached (calls ++ [p]) s'

namespace Reached

/-- A record was made by one of the calls. -/
theorem mem_of_replacedBy? (h : Reached calls s) (hi : s.replacedBy? i = some j) : .replace i j ∈ calls := by
  induction h with
  | new => cases hi
  | @call calls s s' p o h hp hrun ih =>
    rw [(p.ends_run.of_ok hrun).replacedBy?] at hi
    cases hs : p.supplanter? i with
    | none =>
      rw [hs, Option.none_or] at hi
      exact List.mem_append_left _ (ih hi)
    | some x =>
      rw [hs, Option.some_or] at hi
      rw [Option.some.inj hi] at hs
      exact List.mem_append_right _ (List.mem_singleton.2 (Primitive.supplanter?_eq_some_iff.1 hs).symm)

/-- **A record is never dropped**: a node has one just if one of the calls replaced it. -/
theorem replacedBy?_isSome (h : Reached calls s) : (s.replacedBy? i).isSome ↔ ∃ x, .replace i x ∈ calls := by
  refine ⟨fun hi => ?_, ?_⟩
  · obtain ⟨j, hj⟩ := Option.isSome_iff_exists.1 hi
    exact ⟨j, h.mem_of_replacedBy? hj⟩
  · rintro ⟨x, hx⟩
    induction h with
    | new => cases hx
    | @call calls s s' p o h hp hrun ih =>
      rw [(p.ends_run.of_ok hrun).replacedBy?, Option.isSome_or, Bool.or_eq_true]
      rcases List.mem_append.1 hx with hx | hx
      · exact .inr (ih hx)
      · rw [Primitive.supplanter?_eq_some_iff.2 (List.mem_singleton.1 hx).symm]
        exact .inl rfl

end Reached

theorem supplants_of_replace (hrun : Edit.replace old new s = .ok () s') : s.Supplants s' old new := by
  obtain ⟨n, p, m, k, hn, hp, hnew, hm, hk, rfl⟩ := ends_replace.of_ok hrun
  obtain ⟨hl, before, after, hc, hc', hold⟩ := Kind.exists_split_of_replaceChild? hk
  obtain ⟨n', hn'⟩ := Option.isSome_iff_exists.1 (Store.contains_iff.2 hnew.1)
  refine ⟨p, m.kind, k, before, after, ?_, ?_, ?_, hl, hc, hc', hold, fun hne => ?_⟩
  · rw [Store.parent?, hn, Option.bind_some, hp]
  · rw [Store.kind?, hm, Option.map_some]
  · rw [Store.kind?, Store.find?_swapped, hm]
    simp
  · rw [Store.parent?, Store.find?_swapped, hn']
    simp [hne]

/-- **Where a replaced node went.** After a replacement the new node is where the old one was. It is also the
answer for the old node if it was never replaced itself, and else only if the records lead in a circle from the new
node back to it, in a number of steps that divides the number of steps that are made. A walk that is at the old
node goes on with the answer. -/
theorem replacementOf?_replace (h : Reached calls s) (hrun : Edit.replace old new s = .ok () s') :
    s.Supplants s' old new ∧
    ((∀ x, .replace new x ∉ calls) → s'.replacementOf? old = some new) ∧
    (s'.replacementOf? old = some new ↔ Function.minimalPeriod s'.successor new ∣ s'.replacements.length + 1) ∧
    ∀ {ε σ : Type} (v : Visitor ε σ) (m : NodeId) (fuel : Nat) (w w' : Workspace σ), v.dispatch old m w = .ok
      () w' →
      w'.store = s' → s'.isAttached old = false → s'.isAttached new = true → s'.replacementOf? old = some new →
      v.settle m (fuel + 1) old w = v.settle m fuel new w' := by
  have heff : (Primitive.replace old new).Effect s none s' := by
    refine (Primitive.ends_run (.replace old new)).of_ok ?_
    rw [Primitive.run, bind_of_ok hrun]
    rfl
  have hrec : s'.replacedBy? old = some new := by
    rw [heff.replacedBy?, Primitive.supplanter?, if_pos rfl, Option.some_or]
  have hiff := Store.replacementOf?_eq_some_iff hrec
  refine ⟨supplants_of_replace hrun, fun hnever => hiff.2 ?_, hiff, ?_⟩
  rotate_left
  · rintro ε σ v m fuel w w' hdispatch rfl hold hnew hrep
    exact v.settle_of_replaced hdispatch hold hrep hnew
  -- a node without a record is its own successor, and so is one that replaced itself
  have hfixed : s'.successor new = new := by
    by_cases hne : new = old
    · rw [Store.successor, hne, hrec, hne]
      rfl
    · have hnone : s.replacedBy? new = none := by
        rw [← Option.not_isSome_iff_eq_none, h.replacedBy?_isSome]
        rintro ⟨x, hx⟩
        exact hnever x hx
      rw [Store.successor, heff.replacedBy?, Primitive.supplanter?, if_neg hne, hnone]
      rfl
  rw [Function.minimalPeriod_eq_one_iff_isFixedPt.2 hfixed]
  exact one_dvd _

/-- Two statements that are names, and a name that was replaced and has no place. -/
def renamed : Store where
  nextId := ⟨5⟩
  nodes := [
    { id := ⟨0⟩, kind := .name "a" },
    { id := ⟨1⟩, parent := some ⟨3⟩, kind := .name "b" },
    { id := ⟨2⟩, parent := some ⟨4⟩, kind := .name "c" },
    { id := ⟨3⟩, kind := .exprStmt ⟨1⟩ },
    { id := ⟨4⟩, kind := .exprStmt ⟨2⟩ }]
  replacements := [(⟨0⟩, ⟨1⟩)]

theorem reached_renamed : Reached [.leaf (.name "a") none, .leaf (.name "b") none, .leaf (.name "c") none,
    .alloc (.exprStmt ⟨0⟩) none, .alloc (.exprStmt ⟨2⟩) none, .replace ⟨0⟩ ⟨1⟩] renamed := by
  have ha : Reached _ _ := .call (p := .leaf (.name "a") none) .new rfl rfl
  have hb : Reached _ _ := .call (p := .leaf (.name "b") none) ha rfl rfl
  have hc : Reached _ _ := .call (p := .leaf (.name "c") none) hb rfl rfl
  have hfirst : Reached _ _ := .call (p := .alloc (.exprStmt ⟨0⟩) none) hc rfl rfl
  have hsecond : Reached _ _ := .call (p := .alloc (.exprStmt ⟨2⟩) none) hfirst rfl rfl
  exact .call (p := .replace ⟨0⟩ ⟨1⟩) hsecond rfl rfl

/-- The second name is replaced by the third, which was never replaced. -/
theorem replacementOf?_replace_renamed : ∃ s', Edit.replace ⟨1⟩ ⟨2⟩ renamed = .ok () s' ∧
    renamed.Supplants s' ⟨1⟩ ⟨2⟩ ∧ s'.replacementOf? ⟨1⟩ = some ⟨2⟩ := by
  obtain ⟨hplace, hnever, -⟩ :=
    replacementOf?_replace reached_renamed (show Edit.replace ⟨1⟩ ⟨2⟩ renamed = .ok () _ from rfl)
  exact ⟨_, rfl, hplace, hnever (by simp)⟩

/-- The first name gets a place again, that of the third, and is passed over: the answer for the third name is the
one that replaced the first before. -/
theorem replacementOf?_passes_over : ∃ calls s s', Reached calls s ∧ Edit.replace ⟨2⟩ ⟨0⟩ s = .ok () s' ∧
    s.Supplants s' ⟨2⟩ ⟨0⟩ ∧ s'.replacementOf? ⟨2⟩ = some ⟨1⟩ :=
  ⟨_, renamed, _, reached_renamed, rfl, supplants_of_replace rfl, rfl⟩

end Edit

end ContractTree
