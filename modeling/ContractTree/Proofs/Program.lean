import ContractTree.Node.Basic

/-!
The programs that function bodies stand for, and a machine that runs them. Expressions read locals and state
variables and may call functions, which may change the storage; statements assign to locals and to state variables,
branch and loop. The target language has besides them reads and writes of named slots, where the slot `x_STORAGE`
holds the variable `x`.

A `Machine` fixes what the operators, the calls and the loops mean, and what slots hold that were never written.
Running a program fails where a local is used that is not bound, or a literal does not fit.
-/

namespace ContractTree

/-- What is called: a function, or a member of the contract. -/
inductive Callee where
  | name (x : String)
  | member (f : String)
  deriving DecidableEq, Repr

def Callee.text : Callee → String
  | .name x => x
  | .member f => "self." ++ f

inductive Expr where
  | int (value : Int)
  | name (x : String)
  /-- The state variable `x` under the keys. -/
  | load (x : String) (keys : List Expr)
  | binOp (op : BinOp) (left right : Expr)
  | call (f : Callee) (args : List Expr)

/-- What is assigned to. -/
inductive Place where
  | var (x : String)
  | slot (x : String) (keys : List Expr)

inductive Stmt where
  | assign (target : Place) (value : Expr)
  | augAssign (target : Place) (op : BinOp) (value : Expr)
  | ifElse (test : Expr) (body orelse : List Stmt)
  | forIn (x : String) (iter : Expr) (body : List Stmt)
  | pass
  | read (x slot : String) (keys : List Expr)
  | write (slot : String) (keys : List Expr) (value : Expr)

namespace Expr

/-- What an expression is made of. -/
def args : Expr → List Expr
  | .int _ => []
  | .name _ => []
  | .load _ keys => keys
  | .binOp _ left right => [left, right]
  | .call _ args => args

/-- The expression with other parts. -/
def withArgs : Expr → List Expr → Expr
  | .load x _, keys => .load x keys
  | .binOp op _ _, [left, right] => .binOp op left right
  | .call f _, args => .call f args
  | e, _ => e

/-- Induction on lists of expressions, with the parts of the first one taken together. -/
theorem args_induction {P : List Expr → Prop} (nil : P []) (cons : ∀ e es, P e.args → P es → P (e :: es))
    (es : List Expr) : P es := by
  refine @Expr.rec_1 (fun e => ∀ es, P es → P (e :: es)) P ?_ ?_ ?_ ?_ ?_ nil (fun _ _ h => h _) es
  · exact fun value es => cons (.int value) es nil
  · exact fun x es => cons (.name x) es nil
  · exact fun x keys hk es => cons (.load x keys) es hk
  · exact fun op left right hl hr es => cons (.binOp op left right) es (hl _ (hr _ nil))
  · exact fun f args ha es => cons (.call f args) es ha

theorem args_withArgs {e : Expr} {es : List Expr} (h : es.length = e.args.length) : (e.withArgs es).args = es := by
  cases e with
  | int => exact (List.length_eq_zero_iff.1 h).symm
  | name => exact (List.length_eq_zero_iff.1 h).symm
  | load => rfl
  | binOp op left right =>
    match es, h with
    | [_, _], _ => rfl
  | call => rfl

mutual

/-- An expression and all expressions in it. -/
def subs : Expr → List Expr
  | .int value => [.int value]
  | .name x => [.name x]
  | .load x keys => .load x keys :: subsAll keys
  | .binOp op left right => .binOp op left right :: (subs left ++ subs right)
  | .call f args => .call f args :: subsAll args

def subsAll : List Expr → List Expr
  | [] => []
  | e :: es => subs e ++ subsAll es

end

theorem subsAll_cons (e : Expr) (es : List Expr) : subsAll (e :: es) = e :: (subsAll e.args ++ subsAll es) := by
  cases e <;> simp [subsAll, subs, args]

def name? : Expr → Option String
  | .name x => some x
  | _ => none

def isLoad : Expr → Bool
  | .load _ _ => true
  | _ => false

def isCall : Expr → Bool
  | .call _ _ => true
  | _ => false

/-- The locals that are used. -/
def locals (es : List Expr) : List String := (subsAll es).filterMap name?

def reads (es : List Expr) : Bool := (subsAll es).any isLoad

def calls (es : List Expr) : Bool := (subsAll es).any isCall

section Cons

variable {e : Expr} {es : List Expr} {x : String}

theorem mem_locals_cons : x ∈ locals (e :: es) ↔ e = .name x ∨ x ∈ locals e.args ∨ x ∈ locals es := by
  have hx : e.name? = some x ↔ e = .name x := by cases e <;> simp [name?]
  simp [locals, subsAll_cons, List.mem_filterMap, or_and_right, exists_or, hx]

theorem locals_cons : locals (e :: es) = locals [e] ++ locals es := by simp [locals, subsAll]

theorem locals_head : locals [e] ⊆ locals (e :: es) := by
  rw [@locals_cons e es]
  exact List.subset_append_left _ _

theorem locals_tail : locals es ⊆ locals (e :: es) := by
  rw [locals_cons]
  exact List.subset_append_right _ _

theorem locals_args : locals e.args ⊆ locals (e :: es) := fun _ hx => mem_locals_cons.2 (.inr (.inl hx))

theorem reads_cons : reads (e :: es) = (e.isLoad || reads e.args || reads es) := by
  simp [reads, subsAll_cons, Bool.or_assoc]

theorem calls_cons : calls (e :: es) = (e.isCall || calls e.args || calls es) := by
  simp [calls, subsAll_cons, Bool.or_assoc]

end Cons

end Expr

/-- The variable that a slot holds. -/
def slotVar (slot : String) : String :=
  if "_STORAGE".toList <:+ slot.toList then String.ofList (slot.toList.take (slot.toList.length - 8)) else slot

@[simp] theorem slotVar_append (x : String) : slotVar (x ++ "_STORAGE") = x := by
  have h : (x ++ "_STORAGE").toList = x.toList ++ "_STORAGE".toList := String.toList_append
  have hlen : (x.toList ++ "_STORAGE".toList).length - 8 = x.toList.length := by
    rw [List.length_append]
    rfl
  rw [slotVar, h, if_pos (List.suffix_append _ _), hlen, List.take_left, String.ofList_toList]

/-! ## Running programs -/

/-- What was written to the state variables. -/
abbrev Storage (α : Type) := String → List α → Option α

abbrev Locals (α : Type) := String → Option α

structure State (α : Type) where
  storage : Storage α
  locals : Locals α

def Storage.set {α : Type} [DecidableEq α] (s : Storage α) (x : String) (keys : List α) (v : α) : Storage α :=
  fun y ks => if y = x ∧ ks = keys then some v else s y ks

def Locals.set {α : Type} (ℓ : Locals α) (x : String) (v : α) : Locals α := fun y => if y = x then some v else ℓ y

/-- What the parts of a program mean, where values are of type `α`. -/
structure Machine (α : Type) where
  literal? : Int → Option α
  apply : BinOp → α → α → α
  /-- What a slot holds that was not written. -/
  unwritten : String → List α → α
  /-- Whether a branch is taken on this value. -/
  holds : α → Bool
  /-- The values that a loop over this value goes through. -/
  items : α → List α
  /-- What the callee of this text returns, and the storage it leaves. -/
  call : String → List α → Storage α → α × Storage α

namespace Machine

variable {α : Type} (M : Machine α)

def load (s : Storage α) (x : String) (keys : List α) : α := (s x keys).getD (M.unwritten x keys)

mutual

/-- The value of an expression and the storage after its calls; operands are evaluated from left to right. -/
def eval (ℓ : Locals α) : Expr → Storage α → Option (α × Storage α)
  | .int value, s => (M.literal? value).map (·, s)
  | .name x, s => (ℓ x).map (·, s)
  | .load x keys, s => (evalAll ℓ keys s).map fun r => (M.load r.2 x r.1, r.2)
  | .binOp op left right, s =>
    (eval ℓ left s).bind fun a => (eval ℓ right a.2).map fun b => (M.apply op a.1 b.1, b.2)
  | .call f args, s => (evalAll ℓ args s).map fun r => M.call f.text r.1 r.2

def evalAll (ℓ : Locals α) : List Expr → Storage α → Option (List α × Storage α)
  | [], s => some ([], s)
  | e :: es, s => (eval ℓ e s).bind fun a => (evalAll ℓ es a.2).map fun r => (a.1 :: r.1, r.2)

end

variable {M} {ℓ ℓ' : Locals α} {e : Expr} {es : List Expr} {s : Storage α}

/-- The value of an expression from those of its parts. -/
def finish (M : Machine α) (ℓ : Locals α) : Expr → List α × Storage α → Option (α × Storage α)
  | .int value, r => (M.literal? value).map (·, r.2)
  | .name x, r => (ℓ x).map (·, r.2)
  | .load x _, r => some (M.load r.2 x r.1, r.2)
  | .binOp op _ _, r => match r.1 with
    | [a, b] => some (M.apply op a b, r.2)
    | _ => none
  | .call f _, r => some (M.call f.text r.1 r.2)

theorem eval_eq_finish : M.eval ℓ e s = (M.evalAll ℓ e.args s).bind (M.finish ℓ e) := by
  cases e with
  | int | name => rfl
  | load | call =>
    rw [eval, Expr.args]
    exact Option.map_eq_bind
  | binOp op left right =>
    simp only [eval, Expr.args, evalAll, Option.map_some]
    cases M.eval ℓ left s with
    | none => rfl
    | some a =>
      simp only [Option.bind_some]
      cases M.eval ℓ right a.2 <;> rfl

theorem evalAll_cons : M.evalAll ℓ (e :: es) s =
    (M.eval ℓ e s).bind fun a => (M.evalAll ℓ es a.2).map fun r => (a.1 :: r.1, r.2) := by
  rw [evalAll]

theorem eval_eq_head : M.eval ℓ e s = (M.evalAll ℓ [e] s).bind fun r => r.1.head?.map (·, r.2) := by
  rw [evalAll_cons]
  cases M.eval ℓ e s <;> rfl

theorem finish_withArgs (e : Expr) (es : List Expr) : M.finish ℓ (e.withArgs es) = M.finish ℓ e := by
  unfold Expr.withArgs
  split <;> rfl

theorem finish_congr (h : ∀ x, e = .name x → ℓ x = ℓ' x) : M.finish ℓ e = M.finish ℓ' e := by
  cases e with
  | name x =>
    funext r
    rw [finish, finish, h x rfl]
  | int | load | binOp | call => rfl

/-- Evaluation depends on the locals that are used. -/
theorem evalAll_congr (h : ∀ x ∈ Expr.locals es, ℓ x = ℓ' x) : M.evalAll ℓ es s = M.evalAll ℓ' es s := by
  induction es using Expr.args_induction generalizing s with
  | nil => rfl
  | cons e es iha ihes =>
    rw [evalAll_cons, evalAll_cons, eval_eq_finish, eval_eq_finish,
      finish_congr fun x hx => h x (Expr.mem_locals_cons.2 (.inl hx)),
      iha fun x hx => h x (Expr.mem_locals_cons.2 (.inr (.inl hx)))]
    congr 1
    funext a
    rw [ihes fun x hx => h x (Expr.mem_locals_cons.2 (.inr (.inr hx)))]

theorem eval_congr (h : ∀ x ∈ Expr.locals [e], ℓ x = ℓ' x) : M.eval ℓ e s = M.eval ℓ' e s := by
  rw [eval_eq_head, eval_eq_head, evalAll_congr h]

/-- What neither loads nor calls leaves the storage alone and does not depend on it. -/
theorem evalAll_quiet (hr : Expr.reads es = false) (hc : Expr.calls es = false) :
    ∃ o : Option (List α), ∀ s, M.evalAll ℓ es s = o.map (·, s) := by
  induction es using Expr.args_induction with
  | nil => exact ⟨some [], fun _ => rfl⟩
  | cons e es iha ihes =>
    simp only [Expr.reads_cons, Expr.calls_cons, Bool.or_eq_false_iff] at hr hc
    obtain ⟨oa, ha⟩ := iha hr.1.2 hc.1.2
    obtain ⟨o, ho⟩ := ihes hr.2 hc.2
    have hf : ∃ f : List α → Option α, ∀ vs s, M.finish ℓ e (vs, s) = (f vs).map (·, s) := by
      cases e with
      | int value => exact ⟨fun _ => M.literal? value, fun _ _ => rfl⟩
      | name x => exact ⟨fun _ => ℓ x, fun _ _ => rfl⟩
      | load => simp [Expr.isLoad] at hr
      | call => simp [Expr.isCall] at hc
      | binOp op left right =>
        refine ⟨fun vs => match vs with | [a, b] => some (M.apply op a b) | _ => none, fun vs s => ?_⟩
        match vs with
        | [] | [_] | [_, _] | _ :: _ :: _ :: _ => rfl
    obtain ⟨f, hf⟩ := hf
    refine ⟨(oa.bind f).bind fun v => o.map (v :: ·), fun s => ?_⟩
    rw [evalAll_cons, eval_eq_finish, ha]
    cases oa with
    | none => rfl
    | some vs =>
      simp only [Option.map_some, Option.bind_some, hf]
      cases f vs with
      | none => rfl
      | some v =>
        simp only [Option.map_some, Option.bind_some, ho]
        cases o <;> rfl

/-- Only calls change the storage. -/
theorem evalAll_storage (hc : Expr.calls es = false) {r : List α × Storage α} (h : M.evalAll ℓ es s = some r) :
    r.2 = s := by
  induction es using Expr.args_induction generalizing s r with
  | nil =>
    cases h
    rfl
  | cons e es iha ihes =>
    simp only [Expr.calls_cons, Bool.or_eq_false_iff] at hc
    rw [evalAll_cons, eval_eq_finish] at h
    obtain ⟨a, ha, h⟩ := Option.bind_eq_some_iff.1 h
    obtain ⟨q, hq, ha⟩ := Option.bind_eq_some_iff.1 ha
    obtain ⟨q', hq', rfl⟩ := Option.map_eq_some_iff.1 h
    have hfin : a.2 = q.2 := by
      unfold finish at ha
      split at ha
      · obtain ⟨v, -, rfl⟩ := Option.map_eq_some_iff.1 ha
        rfl
      · obtain ⟨v, -, rfl⟩ := Option.map_eq_some_iff.1 ha
        rfl
      · cases ha
        rfl
      · split at ha <;> cases ha
        rfl
      · simp [Expr.isCall] at hc
    rw [ihes hc.2 hq', hfin, iha hc.1.2 hq]

theorem eval_quiet (hr : Expr.reads [e] = false) (hc : Expr.calls [e] = false) :
    ∃ o : Option α, ∀ s, M.eval ℓ e s = o.map (·, s) := by
  obtain ⟨o, ho⟩ := evalAll_quiet (M := M) (ℓ := ℓ) hr hc
  refine ⟨o.bind List.head?, fun s => ?_⟩
  rw [eval_eq_head, ho]
  cases o <;> rfl

variable [DecidableEq α]

mutual

/-- The state after a statement. An assignment evaluates its value, then the keys of its target; an augmented
assignment evaluates the keys, reads the target, and then evaluates its value. -/
def exec : Stmt → State α → Option (State α)
  | .assign (.var x) value, σ => do
    let a ← M.eval σ.locals value σ.storage
    return ⟨a.2, σ.locals.set x a.1⟩
  | .assign (.slot x keys) value, σ => do
    let a ← M.eval σ.locals value σ.storage
    let r ← M.evalAll σ.locals keys a.2
    return ⟨r.2.set x r.1 a.1, σ.locals⟩
  | .augAssign (.var x) op value, σ => do
    let current ← σ.locals x
    let a ← M.eval σ.locals value σ.storage
    return ⟨a.2, σ.locals.set x (M.apply op current a.1)⟩
  | .augAssign (.slot x keys) op value, σ => do
    let r ← M.evalAll σ.locals keys σ.storage
    let a ← M.eval σ.locals value r.2
    return ⟨a.2.set x r.1 (M.apply op (M.load r.2 x r.1) a.1), σ.locals⟩
  | .ifElse test body orelse, σ => do
    let a ← M.eval σ.locals test σ.storage
    if M.holds a.1 then execAll body ⟨a.2, σ.locals⟩ else execAll orelse ⟨a.2, σ.locals⟩
  | .forIn x iter body, σ => do
    let a ← M.eval σ.locals iter σ.storage
    (M.items a.1).foldlM (fun σ v => execAll body ⟨σ.storage, σ.locals.set x v⟩) ⟨a.2, σ.locals⟩
  | .pass, σ => some σ
  | .read x slot keys, σ => do
    let r ← M.evalAll σ.locals keys σ.storage
    return ⟨r.2, σ.locals.set x (M.load r.2 (slotVar slot) r.1)⟩
  | .write slot keys value, σ => do
    let r ← M.evalAll σ.locals keys σ.storage
    let a ← M.eval σ.locals value r.2
    return ⟨a.2.set (slotVar slot) r.1 a.1, σ.locals⟩

def execAll : List Stmt → State α → Option (State α)
  | [], σ => some σ
  | p :: ps, σ => (exec p σ).bind (execAll ps)

end

variable {σ : State α}

theorem execAll_append (ps qs : List Stmt) : M.execAll (ps ++ qs) σ = (M.execAll ps σ).bind (M.execAll qs) := by
  induction ps generalizing σ with
  | nil => rfl
  | cons p ps ih =>
    rw [List.cons_append, execAll, execAll]
    cases M.exec p σ with
    | none => rfl
    | some τ => exact ih

theorem execAll_singleton (p : Stmt) : M.execAll [p] σ = M.exec p σ := by
  rw [execAll]
  cases M.exec p σ <;> rfl

end Machine

end ContractTree
