import ContractTree.Proofs.Program
import Mathlib.Data.List.Nodup
import Mathlib.Data.Option.Basic

/-!
Lifting the loads of expressions out of them, on programs. `Lift es ss es'` says that the expressions `es` become
`es'` with the statements `ss` in front: each load becomes a temporary, which a read in `ss` binds.

Loads move in front of the calls that stay, so lifting is sound where no call that stays comes before a load
(`Expr.ordered`): the expressions have the values of what is left after the reads (`Lift.evalAll_eq`). Where
nothing is called all expressions are ordered (`Expr.orderedAll_of_not_calls`).
-/

namespace ContractTree

namespace Expr

/-- Whether a call stays where the loads are lifted out: one that is not in the keys of a load. -/
def bare : Expr → Bool
  | .int _ | .name _ | .load _ _ => false
  | .binOp _ left right => left.bare || right.bare
  | .call _ _ => true

mutual

/-- Whether no call that stays is evaluated before a load that is lifted. -/
def ordered : Expr → Bool
  | .int _ | .name _ => true
  | .load _ keys => orderedAll keys
  | .binOp _ left right => left.ordered && right.ordered && !(left.bare && reads [right])
  | .call _ args => orderedAll args

def orderedAll : List Expr → Bool
  | [] => true
  | e :: es => e.ordered && orderedAll es && !(e.bare && reads es)

end

variable {e : Expr} {es : List Expr}

theorem withArgs_args (e : Expr) : e.withArgs e.args = e := by cases e <;> rfl

theorem ordered_eq (e : Expr) : e.ordered = orderedAll e.args := by
  cases e <;> simp [ordered, orderedAll, args, reads, subsAll]

theorem bare_eq (h : e.isLoad = false) : e.bare = (e.isCall || e.args.any bare) := by
  cases e with
  | load => cases h
  | int | name | binOp | call => simp [bare, isCall, args]

theorem orderedAll_cons (h : orderedAll (e :: es) = true) :
    orderedAll e.args = true ∧ orderedAll es = true ∧ (e.bare = false ∨ reads es = false) := by
  simpa [orderedAll, ordered_eq, and_assoc] using h

theorem bare_of_calls (h : calls es = false) : es.any bare = false := by
  induction es using args_induction with
  | nil => rfl
  | cons e es iha ihes =>
    simp only [calls_cons, Bool.or_eq_false_iff] at h
    rw [List.any_cons, ihes h.2, Bool.or_false]
    cases hl : e.isLoad with
    | false => rw [bare_eq hl, h.1.1, iha h.1.2, Bool.or_false]
    | true =>
      cases e with
      | load => rfl
      | int | name | binOp | call => cases hl

/-- **Where nothing is called, nothing is out of order.** -/
theorem orderedAll_of_not_calls (h : calls es = false) : orderedAll es = true := by
  induction es using args_induction with
  | nil => rfl
  | cons e es iha ihes =>
    have hb := bare_of_calls h
    simp only [List.any_cons, Bool.or_eq_false_iff] at hb
    simp only [calls_cons, Bool.or_eq_false_iff] at h
    rw [orderedAll, ordered_eq, iha h.1.2, ihes h.2, hb.1]
    rfl

end Expr

namespace Stmt

/-- The local that a statement of straight-line code binds. -/
def bound? : Stmt → Option String
  | .read x _ _ => some x
  | .assign (.var x) _ => some x
  | _ => none

/-- The locals that statements bind. -/
def binds (ps : List Stmt) : List String := ps.filterMap bound?

@[simp] theorem binds_append (ps qs : List Stmt) : binds (ps ++ qs) = binds ps ++ binds qs := List.filterMap_append

@[simp] theorem binds_read (x slot : String) (keys : List Expr) (ps : List Stmt) :
    binds (.read x slot keys :: ps) = x :: binds ps := rfl

@[simp] theorem binds_assign (x : String) (e : Expr) (ps : List Stmt) :
    binds (.assign (.var x) e :: ps) = x :: binds ps := rfl

@[simp] theorem binds_nil : binds [] = [] := rfl

end Stmt

open Stmt (binds)

/-- The expressions become others, with reads in front that bind their loads. -/
inductive Lift : List Expr → List Stmt → List Expr → Prop where
  | nil : Lift [] [] []
  | load {x temp : String} {keys keys' es es' : List Expr} {ss ss' : List Stmt} (hk : Lift keys ss keys')
      (hes : Lift es ss' es') :
      Lift (.load x keys :: es) (ss ++ .read temp (x ++ "_STORAGE") keys' :: ss') (.name temp :: es')
  | inner {e : Expr} {args' es es' : List Expr} {ss ss' : List Stmt} (he : e.isLoad = false)
      (ha : Lift e.args ss args') (hes : Lift es ss' es') : Lift (e :: es) (ss ++ ss') (e.withArgs args' :: es')

namespace Lift

variable {es es' : List Expr} {ss : List Stmt}

theorem length_eq (h : Lift es ss es') : es'.length = es.length := by
  induction h with
  | nil => rfl
  | load hk hes _ ih => simp [ih]
  | inner he ha hes _ ih => simp [ih]

theorem cons {e e' : Expr} {ss' : List Stmt} (h : Lift [e] ss [e']) (hs : Lift es ss' es') :
    Lift (e :: es) (ss ++ ss') (e' :: es') := by
  cases h with
  | load hk hes =>
    cases hes
    rw [List.append_assoc]
    exact load hk hs
  | inner he ha hes =>
    cases hes
    rw [List.append_nil]
    exact inner he ha hs

theorem name_cons {x : String} (h : Lift (.name x :: es) ss es') :
    ∃ es'', es' = .name x :: es'' ∧ Lift es ss es'' := by
  cases h with
  | inner he ha hes =>
    cases ha
    exact ⟨_, rfl, hes⟩

/-- Nothing is left to be loaded. -/
theorem reads_eq_false (h : Lift es ss es') : Expr.reads es' = false := by
  induction h with
  | nil => rfl
  | load hk hes _ ih =>
    rw [Expr.reads_cons, ih]
    rfl
  | @inner e args' es es' ss ss' he ha hes iha ihes =>
    have hl : (e.withArgs args').isLoad = e.isLoad := by
      unfold Expr.withArgs
      split <;> rfl
    rw [Expr.reads_cons, Expr.args_withArgs ha.length_eq, hl, he, iha, ihes]
    rfl

theorem calls_eq (h : Lift es ss es') : Expr.calls es' = es.any Expr.bare := by
  induction h with
  | nil => rfl
  | load hk hes _ ih =>
    rw [Expr.calls_cons, ih, List.any_cons]
    rfl
  | @inner e args' es es' ss ss' he ha hes iha ihes =>
    have hc : (e.withArgs args').isCall = e.isCall := by
      unfold Expr.withArgs
      split <;> rfl
    rw [Expr.calls_cons, Expr.args_withArgs ha.length_eq, hc, iha, ihes, List.any_cons, Expr.bare_eq he]

theorem mem_locals (h : Lift es ss es') {x : String} (hx : x ∈ Expr.locals es') :
    x ∈ Expr.locals es ∨ x ∈ binds ss := by
  induction h with
  | nil => exact .inl hx
  | @load y temp keys keys' es es' ss ss' hk hes ihk ihes =>
    simp only [Expr.mem_locals_cons, Stmt.binds_append, Stmt.binds_read, List.mem_append, List.mem_cons] at hx ⊢
    rcases hx with hx | hx | hx
    · exact .inr (.inr (.inl (Expr.name.inj hx).symm))
    · cases hx
    · exact (ihes hx).elim (fun h => .inl (.inr (.inr h))) fun h => .inr (.inr (.inr h))
  | @inner e args' es es' ss ss' he ha hes iha ihes =>
    simp only [Expr.mem_locals_cons, Expr.args_withArgs ha.length_eq, Stmt.binds_append, List.mem_append] at hx ⊢
    rcases hx with hx | hx | hx
    · refine .inl (.inl ?_)
      unfold Expr.withArgs at hx
      split at hx <;> first | exact hx | cases hx
    · exact (iha hx).elim (fun h => .inl (.inr (.inl h))) fun h => .inr (.inl h)
    · exact (ihes hx).elim (fun h => .inl (.inr (.inr h))) fun h => .inr (.inr h)

theorem eq_of_not_reads (h : Lift es ss es') (hr : Expr.reads es = false) : ss = [] ∧ es' = es := by
  induction h with
  | nil => exact ⟨rfl, rfl⟩
  | load => simp [Expr.reads_cons, Expr.isLoad] at hr
  | inner he ha hes iha ihes =>
    simp only [Expr.reads_cons, Bool.or_eq_false_iff] at hr
    obtain ⟨rfl, rfl⟩ := iha hr.1.2
    obtain ⟨rfl, rfl⟩ := ihes hr.2
    exact ⟨rfl, by rw [Expr.withArgs_args]⟩

theorem isSome_bound? (h : Lift es ss es') : ∀ p ∈ ss, p.bound?.isSome = true := by
  induction h with
  | nil => simp
  | load hk hes ihk ihes =>
    intro p hp
    simp only [List.mem_append, List.mem_cons] at hp
    rcases hp with hp | rfl | hp
    · exact ihk p hp
    · rfl
    · exact ihes p hp
  | inner he ha hes iha ihes => exact fun p hp => (List.mem_append.1 hp).elim (iha p) (ihes p)

end Lift

namespace Machine

variable {α : Type} [DecidableEq α] {M : Machine α} {σ τ : State α}

theorem exec_bound {p : Stmt} {x : String} (hp : p.bound? = some x) (h : M.exec p σ = some τ) {y : String}
    (hy : y ≠ x) : τ.locals y = σ.locals y := by
  unfold Stmt.bound? at hp
  split at hp
  · cases hp
    rw [exec] at h
    obtain ⟨r, -, hr⟩ := Option.bind_eq_some_iff.1 h
    cases hr
    exact if_neg hy
  · cases hp
    rw [exec] at h
    obtain ⟨r, -, hr⟩ := Option.bind_eq_some_iff.1 h
    cases hr
    exact if_neg hy
  · cases hp

/-- Straight-line code changes only the locals that it binds. -/
theorem execAll_bound {ss : List Stmt} (hs : ∀ p ∈ ss, p.bound?.isSome = true) (h : M.execAll ss σ = some τ)
    {y : String} (hy : y ∉ binds ss) : τ.locals y = σ.locals y := by
  induction ss generalizing σ with
  | nil =>
    cases h
    rfl
  | cons p ss ih =>
    obtain ⟨x, hx⟩ := Option.isSome_iff_exists.1 (hs p List.mem_cons_self)
    have hb : binds (p :: ss) = x :: binds ss := List.filterMap_cons_some hx
    rw [hb, List.mem_cons, not_or] at hy
    rw [execAll] at h
    obtain ⟨υ, hυ, h⟩ := Option.bind_eq_some_iff.1 h
    rw [ih (fun q hq => hs q (List.mem_cons_of_mem _ hq)) h hy.2, exec_bound hx hυ hy.1]

end Machine

/-- The names are distinct, and the expressions do not use them. -/
structure Fresh (xs : List String) (es : List Expr) : Prop where
  nodup : xs.Nodup
  unused : ∀ x ∈ Expr.locals es, x ∉ xs

theorem Fresh.mono {xs ys : List String} {es es' : List Expr} (h : Fresh xs es) (hs : ys.Sublist xs)
    (he : Expr.locals es' ⊆ Expr.locals es) : Fresh ys es' :=
  ⟨h.nodup.sublist hs, fun x hx hy => h.unused x (he hx) (hs.subset hy)⟩

namespace Machine

variable {α : Type} [DecidableEq α] {M : Machine α} {e e' : Expr} {es es' : List Expr} {ss ss' : List Stmt}

/-- Expressions are dealt with one by one: what is left of the first is evaluated after the statements for the
others, and this makes no difference if it is quiet or if there are none. -/
theorem evalAll_cons_eq (ss : List Stmt) (h : ∀ p ∈ ss, p.bound?.isSome = true)
    (hs : ∀ p ∈ ss', p.bound?.isSome = true) (hl : ∀ x ∈ Expr.locals [e'], x ∈ Expr.locals [e] ∨ x ∈ binds ss)
    (ho : (Expr.reads [e'] = false ∧ Expr.calls [e'] = false) ∨ (ss' = [] ∧ es' = es))
    (hf : Fresh (binds (ss ++ ss')) (e :: es))
    (he : ∀ σ : State α, M.eval σ.locals e σ.storage = (M.execAll ss σ).bind fun τ => M.eval τ.locals e' τ.storage)
    (hes : ∀ σ : State α,
      M.evalAll σ.locals es σ.storage = (M.execAll ss' σ).bind fun τ => M.evalAll τ.locals es' τ.storage)
    (σ : State α) : M.evalAll σ.locals (e :: es) σ.storage =
      (M.execAll (ss ++ ss') σ).bind fun τ => M.evalAll τ.locals (e' :: es') τ.storage := by
  obtain ⟨hb, hn⟩ := hf
  simp only [Stmt.binds_append, List.mem_append, not_or, List.nodup_append'] at hb hn
  rw [evalAll_cons, he, execAll_append]
  cases hτ : M.execAll ss σ with
  | none => rfl
  | some τ =>
    have hcongr : ∀ s, M.evalAll σ.locals es s = M.evalAll τ.locals es s := fun s => evalAll_congr fun x hx =>
      (execAll_bound h hτ (hn x (Expr.locals_tail hx)).1).symm
    simp only [Option.bind_some, hcongr, evalAll_cons]
    rcases ho with ⟨hr, hc⟩ | ⟨rfl, rfl⟩
    · obtain ⟨o, ho⟩ := eval_quiet (M := M) (ℓ := τ.locals) hr hc
      have hlater : ∀ υ, M.execAll ss' τ = some υ → M.eval υ.locals e' υ.storage = o.map (·, υ.storage) := by
        intro υ hυ
        rw [← ho]
        refine eval_congr fun x hx => execAll_bound hs hυ fun hx' => ?_
        rcases hl x hx with hx | hx
        · exact (hn x (Expr.locals_head hx)).2 hx'
        · exact hb.2.2 hx hx'
      rw [ho]
      cases hυ : M.execAll ss' τ with
      | none => cases o with
        | none => rfl
        | some v => simp [hes τ, hυ]
      | some υ => cases o with
        | none => simp [hlater υ hυ]
        | some v => simp [hes τ, hυ, hlater υ hυ]
    · rfl

end Machine

namespace Lift

variable {α : Type} [DecidableEq α] {M : Machine α} {es es' : List Expr} {ss : List Stmt}

/-- **The expressions have the values of what is left of them after the reads**, if they are ordered and the
temporaries are new. -/
theorem evalAll_eq (h : Lift es ss es') (ho : Expr.orderedAll es = true) (hf : Fresh (binds ss) es) (σ : State α) :
    M.evalAll σ.locals es σ.storage = (M.execAll ss σ).bind fun τ => M.evalAll τ.locals es' τ.storage := by
  induction h generalizing σ with
  | nil => rfl
  | @load x temp keys keys' es es' ss ss' hk hes ihk ihes =>
    obtain ⟨hok, hoes, -⟩ := Expr.orderedAll_cons ho
    rw [List.append_cons] at hf ⊢
    have hload : Lift [.load x keys] (ss ++ [.read temp (x ++ "_STORAGE") keys']) [.name temp] := hk.load .nil
    refine Machine.evalAll_cons_eq _ hload.isSome_bound? hes.isSome_bound? (fun x => hload.mem_locals)
      (.inl ⟨hload.reads_eq_false, hload.calls_eq⟩) hf (fun σ => ?_)
      (ihes hoes (hf.mono (by simp) Expr.locals_tail)) σ
    rw [Machine.eval, ihk hok (hf.mono (by simp) (Expr.locals_args (e := .load x keys))) σ, Machine.execAll_append]
    cases M.execAll ss σ with
    | none => rfl
    | some τ =>
      simp only [Option.bind_some, Machine.execAll_singleton, Machine.exec, slotVar_append]
      cases M.evalAll τ.locals keys' τ.storage with
      | none => rfl
      | some r => simp [Machine.eval, Locals.set]
  | @inner e args' es es' ss ss' he ha hes iha ihes =>
    obtain ⟨hoa, hoes, hor⟩ := Expr.orderedAll_cons ho
    have htop : Lift [e] ss [e.withArgs args'] := by simpa using inner he ha .nil
    have hor : (Expr.reads [e.withArgs args'] = false ∧ Expr.calls [e.withArgs args'] = false) ∨
        (ss' = [] ∧ es' = es) :=
      hor.imp (fun hbare => ⟨htop.reads_eq_false, by simpa [hbare] using htop.calls_eq⟩) hes.eq_of_not_reads
    refine Machine.evalAll_cons_eq _ htop.isSome_bound? hes.isSome_bound? (fun x => htop.mem_locals) hor hf
      (fun σ => ?_) (ihes hoes (hf.mono (by simp) Expr.locals_tail)) σ
    rw [Machine.eval_eq_finish, iha hoa (hf.mono (by simp) Expr.locals_args) σ]
    cases hτ : M.execAll ss σ with
    | none => rfl
    | some τ =>
      have hname : ∀ x, e = .name x → σ.locals x = τ.locals x := fun x hx =>
        (Machine.execAll_bound ha.isSome_bound? hτ fun hx' =>
          hf.unused x (Expr.mem_locals_cons.2 (.inl hx)) (by simp [hx'])).symm
      simp only [Option.bind_some]
      rw [Machine.eval_eq_finish, Expr.args_withArgs ha.length_eq, Machine.finish_withArgs,
        Machine.finish_congr hname]

theorem eval_eq {e e' : Expr} (h : Lift [e] ss [e']) (ho : e.ordered = true) (hf : Fresh (binds ss) [e])
    (σ : State α) : M.eval σ.locals e σ.storage = (M.execAll ss σ).bind fun τ => M.eval τ.locals e' τ.storage := by
  rw [Machine.eval_eq_head, h.evalAll_eq (by simp [Expr.orderedAll, ho, Expr.reads, Expr.subsAll]) hf]
  cases M.execAll ss σ with
  | none => rfl
  | some τ => exact Machine.eval_eq_head.symm

end Lift

end ContractTree
