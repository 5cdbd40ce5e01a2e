import ContractTree.Proofs.Lift

/-!
Lowering programs. `Lowered ps ps'` says what becomes of the statements `ps`: their loads are lifted out, an
assignment to a state variable binds a temporary and writes it, and an augmented one reads the slot besides. Where
the program is ordered and does not use the names of temporaries, both programs fail, or both end in states that
agree on the storage and on all locals but the temporaries (`Lowered.agree`).
-/

namespace ContractTree

open Stmt (binds)

/-- Whether the name is one of a temporary. -/
def IsTemp (x : String) : Prop := "__tmp_".toList <+: x.toList

instance (x : String) : Decidable (IsTemp x) := inferInstanceAs (Decidable (_ <+: _))

/-- Distinct names of temporaries. -/
structure Temps (xs : List String) : Prop where
  nodup : xs.Nodup
  isTemp : ∀ x ∈ xs, IsTemp x

theorem Temps.fresh {xs ys : List String} {es : List Expr} (h : Temps xs) (hs : ys.Sublist xs)
    (he : ∀ x ∈ Expr.locals es, ¬ IsTemp x) : Fresh ys es :=
  ⟨h.nodup.sublist hs, fun x hx hy => he x hx (h.isTemp x (hs.subset hy))⟩

theorem Temps.mono {xs ys : List String} (h : Temps xs) (hs : ys.Sublist xs) : Temps ys :=
  ⟨h.nodup.sublist hs, fun x hx => h.isTemp x (hs.subset hx)⟩

/-- Keys become others that may be evaluated twice: one is copied, or it is bound to a temporary. -/
inductive Share : List Expr → List Stmt → List Expr → Prop where
  | nil : Share [] [] []
  | copied {e : Expr} {ks rs : List Expr} {bs : List Stmt} (hr : Expr.reads [e] = false)
      (hc : Expr.calls [e] = false) (hs : Share ks bs rs) : Share (e :: ks) bs (e :: rs)
  | bound {temp : String} {e : Expr} {ks rs : List Expr} {bs : List Stmt} (hs : Share ks bs rs) :
      Share (e :: ks) (.assign (.var temp) e :: bs) (.name temp :: rs)

/-- The statements become others, with their loads lifted out and their stores made writes. -/
inductive Lowered : List Stmt → List Stmt → Prop where
  | nil : Lowered [] []
  | assignVar {x : String} {e e' : Expr} {ss ps ps' : List Stmt} (h : Lift [e] ss [e']) (ht : Temps (binds ss))
      (hs : Lowered ps ps') : Lowered (.assign (.var x) e :: ps) (ss ++ [.assign (.var x) e'] ++ ps')
  | assignSlot {x temp : String} {e e' : Expr} {ks ks' : List Expr} {ss ps ps' : List Stmt}
      (h : Lift (e :: ks) ss (e' :: ks')) (ht : Temps (binds ss ++ [temp])) (hs : Lowered ps ps') :
      Lowered (.assign (.slot x ks) e :: ps)
        (ss ++ [.assign (.var temp) e', .write (x ++ "_STORAGE") ks' (.name temp)] ++ ps')
  | augVar {x : String} {op : BinOp} {e e' : Expr} {ss ps ps' : List Stmt} (h : Lift [e] ss [e'])
      (ht : Temps (binds ss)) (hs : Lowered ps ps') :
      Lowered (.augAssign (.var x) op e :: ps) (ss ++ [.augAssign (.var x) op e'] ++ ps')
  | augSlot {x current combined : String} {op : BinOp} {e e' : Expr} {ks ks' rs : List Expr}
      {ss ss' bs ps ps' : List Stmt} (h : Lift [e] ss [e']) (hk : Lift ks ss' ks') (hb : Share ks' bs rs)
      (ht : Temps (binds ss ++ binds ss' ++ binds bs ++ [current, combined])) (hs : Lowered ps ps') :
      Lowered (.augAssign (.slot x ks) op e :: ps)
        (ss ++ ss' ++ bs ++
          [.read current (x ++ "_STORAGE") rs, .assign (.var combined) (.binOp op (.name current) e'),
            .write (x ++ "_STORAGE") rs (.name combined)] ++ ps')
  | ifElse {test test' : Expr} {ss body body' orelse orelse' ps ps' : List Stmt} (h : Lift [test] ss [test'])
      (ht : Temps (binds ss)) (hb : Lowered body body') (ho : Lowered orelse orelse') (hs : Lowered ps ps') :
      Lowered (.ifElse test body orelse :: ps) (ss ++ [.ifElse test' body' orelse'] ++ ps')
  | forIn {x : String} {iter iter' : Expr} {ss body body' ps ps' : List Stmt} (h : Lift [iter] ss [iter'])
      (ht : Temps (binds ss)) (hb : Lowered body body') (hs : Lowered ps ps') :
      Lowered (.forIn x iter body :: ps) (ss ++ [.forIn x iter' body'] ++ ps')
  | pass {ps ps' : List Stmt} (hs : Lowered ps ps') : Lowered (.pass :: ps) ([.pass] ++ ps')

theorem Lowered.cons {p : Stmt} {qs ps ps' : List Stmt} (h : Lowered [p] qs) (hs : Lowered ps ps') :
    Lowered (p :: ps) (qs ++ ps') := by
  cases h with
  | assignVar h ht hnil =>
    cases hnil
    rw [List.append_nil]
    exact assignVar h ht hs
  | assignSlot h ht hnil =>
    cases hnil
    rw [List.append_nil]
    exact assignSlot h ht hs
  | augVar h ht hnil =>
    cases hnil
    rw [List.append_nil]
    exact augVar h ht hs
  | augSlot h hk hb ht hnil =>
    cases hnil
    rw [List.append_nil]
    exact augSlot h hk hb ht hs
  | ifElse h ht hb ho hnil =>
    cases hnil
    rw [List.append_nil]
    exact ifElse h ht hb ho hs
  | forIn h ht hb hnil =>
    cases hnil
    rw [List.append_nil]
    exact forIn h ht hb hs
  | pass hnil =>
    cases hnil
    exact pass hs

/-! ## Conditions on programs -/

def Place.locals : Place → List String
  | .var x => [x]
  | .slot _ keys => Expr.locals keys

def Place.keys : Place → List Expr
  | .var _ => []
  | .slot _ keys => keys

namespace Stmt

mutual

/-- The locals that a statement uses or binds. -/
def locals : Stmt → List String
  | .assign target value => target.locals ++ Expr.locals [value]
  | .augAssign target _ value => target.locals ++ Expr.locals [value]
  | .ifElse test body orelse => Expr.locals [test] ++ localsAll body ++ localsAll orelse
  | .forIn x iter body => x :: (Expr.locals [iter] ++ localsAll body)
  | .pass => []
  | .read x _ keys => x :: Expr.locals keys
  | .write _ keys value => Expr.locals (keys ++ [value])

def localsAll : List Stmt → List String
  | [] => []
  | p :: ps => locals p ++ localsAll ps

end

end Stmt

/-- Whether there is a call in the keys of a load. -/
def Expr.keyCalls (es : List Expr) : Bool := (subsAll es).any fun e => e.isLoad && calls e.args

namespace Stmt

mutual

/-- Whether no call that stays is evaluated before a load that moves in front of it. The loads in the value of an
augmented assignment move in front of the keys of the target, and of the read of the target. -/
def ordered : Stmt → Bool
  | .assign (.var _) value => value.ordered
  | .assign (.slot _ keys) value => Expr.orderedAll (value :: keys)
  | .augAssign (.var _) _ value => value.ordered
  | .augAssign (.slot _ keys) _ value =>
    Expr.orderedAll keys && value.ordered &&
      (!Expr.reads [value] || (!Expr.calls keys && !Expr.keyCalls [value]))
  | .ifElse test body orelse => test.ordered && orderedAll body && orderedAll orelse
  | .forIn _ iter body => iter.ordered && orderedAll body
  | .pass | .read _ _ _ | .write _ _ _ => true

def orderedAll : List Stmt → Bool
  | [] => true
  | p :: ps => ordered p && orderedAll ps

end

mutual

/-- Whether something is called. -/
def calls : Stmt → Bool
  | .assign target value => Expr.calls (value :: target.keys)
  | .augAssign target _ value => Expr.calls (value :: target.keys)
  | .ifElse test body orelse => Expr.calls [test] || callsAll body || callsAll orelse
  | .forIn _ iter body => Expr.calls [iter] || callsAll body
  | .pass => false
  | .read _ _ keys => Expr.calls keys
  | .write _ keys value => Expr.calls (value :: keys)

def callsAll : List Stmt → Bool
  | [] => false
  | p :: ps => calls p || callsAll ps

end

end Stmt

theorem Expr.keyCalls_of_not_calls {es : List Expr} (h : calls es = false) : keyCalls es = false := by
  induction es using args_induction with
  | nil => rfl
  | cons e es iha ihes =>
    simp only [calls_cons, Bool.or_eq_false_iff] at h
    have ha := iha h.1.2
    have hes := ihes h.2
    rw [keyCalls] at ha hes ⊢
    rw [subsAll_cons, List.any_cons, List.any_append, ha, hes, h.1.2, Bool.and_false]
    rfl

/-- **Where nothing is called, nothing is out of order.** -/
theorem Stmt.orderedAll_of_not_calls {ps : List Stmt} (h : callsAll ps = false) : orderedAll ps = true := by
  have value : ∀ {e : Expr} {ks : List Expr}, Expr.calls (e :: ks) = false → e.ordered = true ∧
      Expr.calls [e] = false ∧ Expr.calls ks = false := by
    intro e ks h
    simp only [Expr.calls_cons, Bool.or_eq_false_iff] at h
    have he : Expr.calls [e] = false := by
      rw [Expr.calls_cons, h.1.1, h.1.2]
      rfl
    rw [Expr.ordered_eq]
    exact ⟨Expr.orderedAll_of_not_calls h.1.2, he, h.2⟩
  refine Stmt.rec_1 (motive_1 := fun p => p.calls = false → p.ordered = true)
    (motive_2 := fun ps => callsAll ps = false → orderedAll ps = true) ?_ ?_ ?_ ?_ ?_ ?_ ?_ ?_ ?_ ps h
  · intro target e h
    cases target with
    | var x => exact (value h).1
    | slot x ks => exact Expr.orderedAll_of_not_calls h
  · intro target op e h
    cases target with
    | var x => exact (value h).1
    | slot x ks =>
      obtain ⟨ho, he, hks⟩ : _ ∧ _ ∧ Expr.calls ks = false := value h
      rw [ordered, Expr.orderedAll_of_not_calls hks, ho, hks, Expr.keyCalls_of_not_calls he]
      simp
  · intro test body orelse hb ho h
    simp only [calls, Bool.or_eq_false_iff] at h
    rw [ordered, (value h.1.1).1, hb h.1.2, ho h.2]
    rfl
  · intro x iter body hb h
    simp only [calls, Bool.or_eq_false_iff] at h
    rw [ordered, (value h.1).1, hb h.2]
    rfl
  · exact fun _ => rfl
  · exact fun _ _ _ _ => rfl
  · exact fun _ _ _ _ => rfl
  · exact fun _ => rfl
  · intro p ps hp hps h
    simp only [callsAll, Bool.or_eq_false_iff] at h
    rw [orderedAll, hp h.1, hps h.2]
    rfl

/-! ## Keys that are used twice -/

namespace Share

variable {ks rs : List Expr} {bs : List Stmt}

theorem isSome_bound? (h : Share ks bs rs) : ∀ p ∈ bs, p.bound?.isSome = true := by
  induction h with
  | nil => simp
  | copied hr hc hs ih => exact ih
  | bound hs ih => exact List.forall_mem_cons.2 ⟨rfl, ih⟩

theorem quiet (h : Share ks bs rs) : Expr.reads rs = false ∧ Expr.calls rs = false := by
  induction h with
  | nil => exact ⟨rfl, rfl⟩
  | copied hr hc hs ih =>
    simp only [Expr.reads_cons, Expr.calls_cons, Bool.or_eq_false_iff] at hr hc ⊢
    exact ⟨⟨hr.1, ih.1⟩, ⟨hc.1, ih.2⟩⟩
  | bound hs ih =>
    simp only [Expr.reads_cons, Expr.calls_cons, Bool.or_eq_false_iff]
    exact ⟨⟨⟨rfl, rfl⟩, ih.1⟩, ⟨rfl, rfl⟩, ih.2⟩

theorem mem_locals (h : Share ks bs rs) {x : String} (hx : x ∈ Expr.locals rs) :
    x ∈ Expr.locals ks ∨ x ∈ binds bs := by
  induction h with
  | nil => exact .inl hx
  | copied hr hc hs ih =>
    rw [Expr.locals_cons, List.mem_append] at hx ⊢
    exact hx.elim (fun hx => .inl (.inl hx)) fun hx => (ih hx).imp_left .inr
  | bound hs ih =>
    rw [Expr.locals_cons, List.mem_append] at hx ⊢
    rcases hx with hx | hx
    · obtain rfl : x = _ := by simpa [Expr.locals, Expr.subsAll, Expr.subs, Expr.name?] using hx
      exact .inr List.mem_cons_self
    · exact (ih hx).imp .inr (List.mem_cons_of_mem _)

/-- The keys have the values of those that may be evaluated twice. -/
theorem evalAll_eq {α : Type} [DecidableEq α] {M : Machine α} (h : Share ks bs rs) (hf : Fresh (binds bs) ks)
    (σ : State α) :
    M.evalAll σ.locals ks σ.storage = (M.execAll bs σ).bind fun τ => M.evalAll τ.locals rs τ.storage := by
  induction h generalizing σ with
  | nil => rfl
  | @copied e ks rs bs hr hc hs ih =>
    exact Machine.evalAll_cons_eq [] (by simp) hs.isSome_bound? (fun x => .inl) (.inl ⟨hr, hc⟩) hf (fun _ => rfl)
      (ih (hf.mono (.refl _) Expr.locals_tail)) σ
  | @bound temp e ks rs bs hs ih =>
    refine Machine.evalAll_cons_eq [.assign (.var temp) e] (by simp [Stmt.bound?])
      hs.isSome_bound? (fun x hx => .inr ?_) (.inl ⟨rfl, rfl⟩) hf (fun σ => ?_)
      (ih (hf.mono (List.sublist_cons_self _ _) Expr.locals_tail)) σ
    · simpa [Expr.locals, Expr.subsAll, Expr.subs, Expr.name?] using hx
    · rw [Machine.execAll_singleton, Machine.exec]
      cases M.eval σ.locals e σ.storage with
      | none => rfl
      | some a => simp [Machine.eval, Locals.set]

end Share

/-! ## Statements -/

/-- The states differ in the temporaries only. -/
structure State.Agree {α : Type} (σ τ : State α) : Prop where
  storage : τ.storage = σ.storage
  locals : ∀ x, ¬ IsTemp x → τ.locals x = σ.locals x

theorem State.Agree.refl {α : Type} (σ : State α) : σ.Agree σ := ⟨rfl, fun _ _ => rfl⟩

section Rel

variable {α β γ δ : Type} {R : α → β → Prop} {S : γ → δ → Prop}

theorem rel_bind {o : Option α} {o' : Option β} {f : α → Option γ} {g : β → Option δ} (h : Option.Rel R o o')
    (hf : ∀ a b, R a b → Option.Rel S (f a) (g b)) : Option.Rel S (o.bind f) (o'.bind g) := by
  cases h with
  | none => exact .none
  | some h => exact hf _ _ h

theorem rel_foldlM {f : α → γ → Option α} {g : β → γ → Option β}
    (hf : ∀ a b v, R a b → Option.Rel R (f a v) (g b v)) (vs : List γ) {a : α} {b : β} (h : R a b) :
    Option.Rel R (vs.foldlM f a) (vs.foldlM g b) := by
  induction vs generalizing a b with
  | nil => exact .some h
  | cons v vs ih => exact rel_bind (hf a b v h) fun _ _ => ih

end Rel

section Steps

variable {α : Type} [DecidableEq α] {M : Machine α} {σ σ' τ : State α} {e e' : Expr} {es es' : List Expr}
  {ss : List Stmt}

omit [DecidableEq α] in
theorem State.Agree.set {x : String} {v : α} {s : Storage α} {ℓ ℓ' : Locals α} (h : ∀ x, ¬ IsTemp x → ℓ' x = ℓ x) :
    State.Agree ⟨s, ℓ.set x v⟩ ⟨s, ℓ'.set x v⟩ := by
  refine ⟨rfl, fun y hy => ?_⟩
  simp only [Locals.set, h y hy]

/-- Statements that bind temporaries leave the other locals alone. -/
theorem State.Agree.execAll (h : σ.Agree σ') (hs : ∀ p ∈ ss, p.bound?.isSome = true)
    (ht : ∀ x ∈ binds ss, IsTemp x) (hτ : M.execAll ss σ' = some τ) {x : String} (hx : ¬ IsTemp x) :
    τ.locals x = σ.locals x :=
  (Machine.execAll_bound hs hτ fun hx' => hx (ht x hx')).trans (h.locals x hx)

omit [DecidableEq α] in
theorem State.Agree.eval (h : σ.Agree σ') (hn : ∀ x ∈ Expr.locals [e], ¬ IsTemp x) :
    M.eval σ.locals e σ.storage = M.eval σ'.locals e σ'.storage := by
  rw [h.storage]
  exact Machine.eval_congr fun x hx => (h.locals x (hn x hx)).symm

omit [DecidableEq α] in
theorem State.Agree.evalAll (h : σ.Agree σ') (hn : ∀ x ∈ Expr.locals es, ¬ IsTemp x) :
    M.evalAll σ.locals es σ.storage = M.evalAll σ'.locals es σ'.storage := by
  rw [h.storage]
  exact Machine.evalAll_congr fun x hx => (h.locals x (hn x hx)).symm

/-- A statement that evaluates one expression and then goes on in the same way as with what is left of it. -/
theorem Lift.step {p q : Stmt} {f g : Locals α → α × Storage α → Option (State α)} (h : Lift [e] ss [e'])
    (ho : e.ordered = true) (ht : Temps (binds ss)) (hn : ∀ x ∈ Expr.locals [e], ¬ IsTemp x) (hσ : σ.Agree σ')
    (hp : ∀ σ : State α, M.exec p σ = (M.eval σ.locals e σ.storage).bind (f σ.locals))
    (hq : ∀ σ : State α, M.exec q σ = (M.eval σ.locals e' σ.storage).bind (g σ.locals))
    (hf : ∀ a ℓ ℓ', (∀ x, ¬ IsTemp x → ℓ' x = ℓ x) → Option.Rel State.Agree (f ℓ a) (g ℓ' a)) :
    Option.Rel State.Agree (M.exec p σ) (M.execAll (ss ++ [q]) σ') := by
  rw [hp, hσ.eval hn, h.eval_eq ho (ht.fresh (.refl _) hn), Machine.execAll_append]
  cases hτ : M.execAll ss σ' with
  | none => exact .none
  | some τ =>
    simp only [Option.bind_some, Machine.execAll_singleton, hq]
    cases M.eval τ.locals e' τ.storage with
    | none => exact .none
    | some a => exact hf a _ _ fun x hx => hσ.execAll h.isSome_bound? ht.isTemp hτ hx

theorem exec_assign_slot {x : String} {ks : List Expr} : M.exec (.assign (.slot x ks) e) σ =
    (M.evalAll σ.locals (e :: ks) σ.storage).bind fun r => r.1.head?.map
    fun v => ⟨r.2.set x r.1.tail v, σ.locals⟩ := by
  rw [Machine.exec, Machine.evalAll_cons]
  cases M.eval σ.locals e σ.storage with
  | none => rfl
  | some a =>
    simp only [Option.bind_eq_bind, Option.bind_some]
    cases M.evalAll σ.locals ks a.2 <;> rfl

theorem keyCalls_cons :
    Expr.keyCalls (e :: es) = (e.isLoad && Expr.calls e.args || Expr.keyCalls e.args || Expr.keyCalls es) := by
  simp [Expr.keyCalls, Expr.subsAll_cons, Bool.or_assoc]

/-- Where no key calls, the reads leave the storage alone. -/
theorem Lift.storage_eq (h : Lift es ss es') (hk : Expr.keyCalls es = false) (hτ : M.execAll ss σ = some τ) :
    τ.storage = σ.storage := by
  induction h generalizing σ τ with
  | nil =>
    cases hτ
    rfl
  | @load x temp keys keys' es es' ss ss' hkeys hes ihk ihes =>
    simp only [keyCalls_cons, Expr.isLoad, Expr.args, Bool.true_and, Bool.or_eq_false_iff] at hk
    rw [Machine.execAll_append] at hτ
    obtain ⟨υ, hυ, hτ⟩ := Option.bind_eq_some_iff.1 hτ
    rw [Machine.execAll, Machine.exec] at hτ
    obtain ⟨ω, hω, hτ⟩ := Option.bind_eq_some_iff.1 hτ
    obtain ⟨r, hr, hω⟩ := Option.bind_eq_some_iff.1 hω
    cases hω
    have hc : Expr.calls keys' = false := hkeys.calls_eq.trans (Expr.bare_of_calls hk.1.1)
    rw [ihes hk.2 hτ, Machine.evalAll_storage hc hr, ihk hk.1.2 hυ]
  | inner he ha hes iha ihes =>
    simp only [keyCalls_cons, Bool.or_eq_false_iff] at hk
    rw [Machine.execAll_append] at hτ
    obtain ⟨υ, hυ, hτ⟩ := Option.bind_eq_some_iff.1 hτ
    rw [ihes hk.2 hτ, iha hk.1.2 hυ]

/-- What is left does not use a temporary that is bound later. -/
theorem Lift.not_mem_locals (h : Lift es ss es') (hn : ∀ x ∈ Expr.locals es, ¬ IsTemp x) {xs : List String}
    (ht : Temps (binds ss ++ xs)) {x : String} (hx : x ∈ xs) : x ∉ Expr.locals es' := by
  intro hx'
  rcases h.mem_locals hx' with hx' | hx'
  · exact hn x hx' (ht.isTemp x (List.mem_append_right _ hx))
  · exact (List.nodup_append'.1 ht.nodup).2.2 hx' hx

theorem Lift.step_store {x temp : String} {ks ks' : List Expr} (h : Lift (e :: ks) ss (e' :: ks'))
    (ho : Expr.orderedAll (e :: ks) = true) (ht : Temps (binds ss ++ [temp]))
    (hn : ∀ x ∈ Expr.locals (e :: ks), ¬ IsTemp x) (hσ : σ.Agree σ') :
    Option.Rel State.Agree (M.exec (.assign (.slot x ks) e) σ)
      (M.execAll (ss ++ [.assign (.var temp) e', .write (x ++ "_STORAGE") ks' (.name temp)]) σ') := by
  rw [exec_assign_slot, hσ.evalAll hn, h.evalAll_eq ho (ht.fresh (by simp) hn), Machine.execAll_append]
  have htemp : temp ∉ Expr.locals ks' := fun hx =>
    h.not_mem_locals hn ht List.mem_cons_self (Expr.locals_tail hx)
  cases hτ : M.execAll ss σ' with
  | none => exact .none
  | some τ =>
    simp only [Option.bind_some, Machine.execAll, Machine.exec, Machine.evalAll_cons, slotVar_append]
    cases M.eval τ.locals e' τ.storage with
    | none => exact .none
    | some a =>
      have hcongr : M.evalAll (τ.locals.set temp a.1) ks' a.2 = M.evalAll τ.locals ks' a.2 :=
        Machine.evalAll_congr fun y hy => if_neg fun (he : y = temp) => htemp (he ▸ hy)
      simp only [Option.bind_some, Option.pure_def, Option.bind_eq_bind, hcongr]
      cases M.evalAll τ.locals ks' a.2 with
      | none => exact .none
      | some r =>
        have hv : M.eval (τ.locals.set temp a.1) (.name temp) r.2 = some (a.1, r.2) := by
          simp [Machine.eval, Locals.set]
        simp only [Option.bind_some, Option.map_some, hv]
        refine .some ⟨rfl, fun y hy => ?_⟩
        rw [← hσ.execAll h.isSome_bound? (fun z hz => ht.isTemp z (List.mem_append_left _ hz)) hτ hy]
        exact if_neg fun (he : y = temp) => hy (he ▸ ht.isTemp temp (by simp))

/-- Keys and then a value may be evaluated the other way round as far as reads go, if nothing is called in between.
-/
theorem Lift.evalAll_then {β : Type} {ks rs : List Expr} {bs : List Stmt} (h : Lift [e] ss [e'])
    (he : e.ordered = true) (ho : Expr.reads [e] = false ∨ (Expr.calls ks = false ∧ Expr.keyCalls [e] = false))
    (hf : Fresh (binds ss) (e :: ks)) (hb : ∀ p ∈ bs, p.bound?.isSome = true)
    (hbe : ∀ x ∈ Expr.locals [e'], x ∉ binds bs) (hks : ∀ σ : State α,
      M.evalAll σ.locals ks σ.storage = (M.execAll bs σ).bind fun τ => M.evalAll τ.locals rs τ.storage)
    (k : List α × Storage α → α × Storage α → Option β) (σ : State α) :
    ((M.evalAll σ.locals ks σ.storage).bind fun r => (M.eval σ.locals e r.2).bind (k r)) =
      (M.execAll (ss ++ bs) σ).bind fun τ =>
        (M.evalAll τ.locals rs τ.storage).bind fun r => (M.eval τ.locals e' r.2).bind (k r) := by
  have hlater : ∀ {σ τ : State α}, M.execAll bs σ = some τ → ∀ s, M.eval τ.locals e' s = M.eval σ.locals e' s :=
    fun hτ s => Machine.eval_congr fun x hx => Machine.execAll_bound hb hτ (hbe x hx)
  rw [Machine.execAll_append]
  rcases ho with hr | ⟨hc, hk⟩
  · obtain ⟨rfl, heq⟩ := h.eq_of_not_reads hr
    obtain rfl := (List.cons.inj heq).1
    rw [hks σ]
    simp only [Machine.execAll, Option.bind_some]
    cases hτ : M.execAll bs σ with
    | none => rfl
    | some τ => simp only [Option.bind_some, hlater hτ]
  · have hval : ∀ r, M.evalAll σ.locals ks σ.storage = some r →
        M.eval σ.locals e r.2 = (M.execAll ss σ).bind fun τ => M.eval τ.locals e' τ.storage := by
      intro r hr
      rw [Machine.evalAll_storage hc hr]
      exact h.eval_eq he (hf.mono (.refl _) Expr.locals_head) σ
    cases hτ : M.execAll ss σ with
    | none =>
      cases hr : M.evalAll σ.locals ks σ.storage with
      | none => rfl
      | some r => simp [hval r hr, hτ]
    | some τ =>
      have hst : τ.storage = σ.storage := h.storage_eq hk hτ
      have hkeys : M.evalAll σ.locals ks σ.storage = M.evalAll τ.locals ks τ.storage := by
        rw [hst]
        exact Machine.evalAll_congr fun x hx => (Machine.execAll_bound h.isSome_bound? hτ
          (hf.unused x (Expr.locals_tail hx))).symm
      have hres : ∀ r, M.evalAll τ.locals ks τ.storage = some r →
          M.eval σ.locals e r.2 = M.eval τ.locals e' r.2 := by
        intro r hr
        rw [hval r (hkeys.trans hr), hτ, Option.bind_some, Machine.evalAll_storage hc hr]
      rw [hkeys, Option.bind_congr fun r hr => by rw [hres r hr], hks τ]
      cases hυ : M.execAll bs τ with
      | none => simp [hυ]
      | some υ => simp only [Option.bind_some, hυ, hlater hυ]

/-- The last three statements for an augmented assignment. -/
theorem execAll_combine {x current combined : String} {op : BinOp} {rs : List Expr} (hr : Expr.reads rs = false)
    (hc : Expr.calls rs = false) (hcur : current ∉ Expr.locals rs ∧ current ∉ Expr.locals [e])
    (hcom : combined ∉ Expr.locals rs) :
    M.execAll [.read current (x ++ "_STORAGE") rs, .assign (.var combined) (.binOp op (.name current) e),
      .write (x ++ "_STORAGE") rs (.name combined)] τ =
    (M.evalAll τ.locals rs τ.storage).bind fun r => (M.eval τ.locals e r.2).bind fun a =>
      let cur := M.load r.2 x r.1
      some ⟨a.2.set x r.1 (M.apply op cur a.1), (τ.locals.set current cur).set combined (M.apply op cur a.1)⟩ := by
  obtain ⟨o, ho⟩ := Machine.evalAll_quiet (M := M) (ℓ := τ.locals) hr hc
  simp only [Machine.execAll, Machine.exec, slotVar_append, ho]
  cases o with
  | none => rfl
  | some vs =>
    have he : ∀ v, M.eval (τ.locals.set current v) e τ.storage = M.eval τ.locals e τ.storage := fun v =>
      Machine.eval_congr fun y hy => if_neg fun (heq : y = current) => hcur.2 (heq ▸ hy)
    have hrs : ∀ u v s, M.evalAll ((τ.locals.set current u).set combined v) rs s = some (vs, s) := by
      intro u v s
      refine (Machine.evalAll_congr fun y hy => ?_).trans (ho s)
      rw [Locals.set, if_neg fun (heq : y = combined) => hcom (heq ▸ hy)]
      exact if_neg fun (heq : y = current) => hcur.1 (heq ▸ hy)
    have hget : ∀ (ℓ : Locals α) y v, ℓ.set y v y = some v := fun ℓ y v => if_pos rfl
    simp only [Option.pure_def, Option.bind_eq_bind, Option.bind_some, Option.map_some, Machine.eval, he, hget]
    cases M.eval τ.locals e τ.storage with
    | none => rfl
    | some a => simp only [Option.map_some, Option.bind_some, hrs, hget]

theorem Lift.step_combine {x current combined : String} {op : BinOp} {ks ks' rs : List Expr} {ss' bs : List Stmt}
    (h : Lift [e] ss [e']) (hk : Lift ks ss' ks') (hb : Share ks' bs rs)
    (ho : (Stmt.augAssign (.slot x ks) op e).ordered = true)
    (ht : Temps (binds ss ++ binds ss' ++ binds bs ++ [current, combined]))
    (hn : ∀ y ∈ Expr.locals (e :: ks), ¬ IsTemp y) (hσ : σ.Agree σ') :
    Option.Rel State.Agree (M.exec (.augAssign (.slot x ks) op e) σ)
      (M.execAll (ss ++ ss' ++ bs ++
        [.read current (x ++ "_STORAGE") rs, .assign (.var combined) (.binOp op (.name current) e'),
          .write (x ++ "_STORAGE") rs (.name combined)]) σ') := by
  simp only [Stmt.ordered, Bool.and_eq_true, Bool.or_eq_true, Bool.not_eq_true'] at ho
  obtain ⟨⟨hok, hoe⟩, hor⟩ := ho
  have hne : ∀ y ∈ Expr.locals [e], ¬ IsTemp y := fun y hy => hn y (Expr.locals_head hy)
  have hnk : ∀ y ∈ Expr.locals ks, ¬ IsTemp y := fun y hy => hn y (Expr.locals_tail hy)
  -- the keys, up to those that are used twice
  have hks : ∀ σ : State α,
      M.evalAll σ.locals ks σ.storage = (M.execAll (ss' ++ bs) σ).bind
      fun τ => M.evalAll τ.locals rs τ.storage := by
    intro σ
    rw [hk.evalAll_eq hok (ht.fresh (by simp) hnk), Machine.execAll_append]
    cases M.execAll ss' σ with
    | none => rfl
    | some τ =>
      have hnew : Temps (binds ss' ++ binds bs) := ht.mono (by simp)
      exact hb.evalAll_eq ⟨(List.nodup_append'.1 hnew.nodup).2.1,
        fun x hx hx' => hk.not_mem_locals hnk hnew hx' hx⟩ τ
  have hstraight : ∀ p ∈ ss' ++ bs, p.bound?.isSome = true := fun p hp =>
    (List.mem_append.1 hp).elim (hk.isSome_bound? p) (hb.isSome_bound? p)
  have hbe : ∀ y ∈ Expr.locals [e'], y ∉ binds (ss' ++ bs) := by
    intro y hy hy'
    refine h.not_mem_locals hne (ht.mono ?_) hy' hy
    simp
  -- the two last temporaries
  have hlast : ∀ y ∈ [current, combined], y ∉ Expr.locals rs ∧ y ∉ Expr.locals [e'] := by
    intro y hy
    refine ⟨fun hy' => ?_, h.not_mem_locals hne (ht.mono (by simp)) hy⟩
    rcases hb.mem_locals hy' with hy' | hy'
    · exact hk.not_mem_locals hnk (ht.mono (by simp)) hy hy'
    · exact (List.nodup_append'.1 ht.nodup).2.2 (by simp [hy']) hy
  have hσe : ∀ s, M.eval σ.locals e s = M.eval σ'.locals e s :=
    fun s => Machine.eval_congr fun x hx => (hσ.locals x (hne x hx)).symm
  rw [List.append_assoc ss, Machine.execAll_append, Machine.exec, hσ.evalAll hnk]
  simp only [hσe, Option.bind_eq_bind]
  rw [h.evalAll_then hoe hor (ht.fresh (by simp) hn) hstraight hbe hks]
  cases hτ : M.execAll (ss ++ (ss' ++ bs)) σ' with
  | none => exact .none
  | some τ =>
    rw [Option.bind_some, Option.bind_some, execAll_combine hb.quiet.1 hb.quiet.2 (hlast current (by simp))
      (hlast combined (by simp)).1]
    cases M.evalAll τ.locals rs τ.storage with
    | none => exact .none
    | some r =>
      simp only [Option.bind_some]
      cases M.eval τ.locals e' r.2 with
      | none => exact .none
      | some a =>
        refine .some ⟨rfl, fun y hy => ?_⟩
        have hold : τ.locals y = σ.locals y := hσ.execAll
          (fun p hp => (List.mem_append.1 hp).elim (h.isSome_bound? p) (hstraight p))
          (fun z hz => ht.isTemp z (List.mem_append_left _ (by simpa using hz))) hτ hy
        have hne : ∀ z ∈ [current, combined], y ≠ z := fun z hz heq =>
          hy (heq ▸ ht.isTemp z (List.mem_append_right _ hz))
        rw [← hold]
        dsimp only [Locals.set]
        rw [if_neg (hne combined (by simp)), if_neg (hne current (by simp))]

end Steps

namespace Lowered

variable {α : Type} [DecidableEq α] {M : Machine α} {ps ps' : List Stmt} {σ σ' : State α}

theorem execAll_cons {p : Stmt} {qs : List Stmt} (h : Option.Rel State.Agree (M.exec p σ) (M.execAll qs σ'))
    (hs : ∀ {τ τ' : State α}, τ.Agree τ' → Option.Rel State.Agree (M.execAll ps τ) (M.execAll ps' τ')) :
    Option.Rel State.Agree (M.execAll (p :: ps) σ) (M.execAll (qs ++ ps') σ') := by
  rw [Machine.execAll_append]
  exact rel_bind h fun _ _ => hs

/-- **Lowering keeps what programs do.** -/
theorem agree (h : Lowered ps ps') (ho : Stmt.orderedAll ps = true) (hn : ∀ x ∈ Stmt.localsAll ps, ¬ IsTemp x)
    (hσ : σ.Agree σ') : Option.Rel State.Agree (M.execAll ps σ) (M.execAll ps' σ') := by
  have hslot : ∀ {x : String} {ks : List Expr} {e : Expr},
      (∀ y ∈ (Place.slot x ks).locals ++ Expr.locals [e], ¬ IsTemp y) →
      ∀ y ∈ Expr.locals (e :: ks), ¬ IsTemp y := by
    intro x ks e hn y hy
    rw [Expr.locals_cons, List.mem_append] at hy
    exact hn y (List.mem_append.2 hy.symm)
  induction h generalizing σ σ' with
  | nil => exact .some hσ
  | @assignVar x e e' ss ps ps' h ht hs ih =>
    simp only [Stmt.orderedAll, Bool.and_eq_true, Stmt.localsAll, List.forall_mem_append] at ho hn
    refine execAll_cons (h.step (f := fun ℓ a => some ⟨a.2, ℓ.set x a.1⟩)
      (g := fun ℓ a => some ⟨a.2, ℓ.set x a.1⟩) ho.1 ht
      (fun y hy => hn.1 y (List.mem_append_right _ hy)) hσ ?_ ?_ ?_) (ih ho.2 hn.2)
    · exact fun σ => Machine.exec.eq_1 ..
    · exact fun σ => Machine.exec.eq_1 ..
    · exact fun a ℓ ℓ' hℓ => .some (State.Agree.set hℓ)
  | assignSlot h ht hs ih =>
    simp only [Stmt.orderedAll, Bool.and_eq_true, Stmt.localsAll, List.forall_mem_append] at ho hn
    exact execAll_cons (h.step_store ho.1 ht (hslot hn.1) hσ) (ih ho.2 hn.2)
  | @augVar x op e e' ss ps ps' h ht hs ih =>
    simp only [Stmt.orderedAll, Bool.and_eq_true, Stmt.localsAll, List.forall_mem_append] at ho hn
    let f (ℓ : Locals α) (a : α × Storage α) : Option (State α) :=
      (ℓ x).map fun current => ⟨a.2, ℓ.set x (M.apply op current a.1)⟩
    have hexec : ∀ (e : Expr) (σ : State α),
        M.exec (.augAssign (.var x) op e) σ = (M.eval σ.locals e σ.storage).bind (f σ.locals) := by
      intro e σ
      rw [Machine.exec]
      cases hx : σ.locals x <;> cases M.eval σ.locals e σ.storage <;> simp [f, hx]
    refine execAll_cons (h.step ho.1 ht (fun y hy => hn.1 y (List.mem_append_right _ hy)) hσ (hexec e)
      (hexec e') ?_) (ih ho.2 hn.2)
    intro a ℓ ℓ' hℓ
    have hx : ℓ' x = ℓ x := hℓ x (hn.1 x (List.mem_append_left _ List.mem_cons_self))
    dsimp only [f]
    rw [hx]
    cases ℓ x with
    | none => exact .none
    | some current => exact .some (State.Agree.set hℓ)
  | augSlot h hk hb ht hs ih =>
    simp only [Stmt.orderedAll, Bool.and_eq_true, Stmt.localsAll, List.forall_mem_append] at ho hn
    exact execAll_cons (h.step_combine hk hb ho.1 ht (hslot hn.1) hσ) (ih ho.2 hn.2)
  | @ifElse test test' ss body body' orelse orelse' ps ps' h ht hb ho' hs ihb iho ih =>
    simp only [Stmt.orderedAll, Stmt.ordered, Bool.and_eq_true, Stmt.localsAll, Stmt.locals,
      List.forall_mem_append] at ho hn
    obtain ⟨⟨⟨hot, hob⟩, hoo⟩, hops⟩ := ho
    obtain ⟨⟨⟨hnt, hnb⟩, hno⟩, hnps⟩ := hn
    refine execAll_cons (h.step
      (f := fun ℓ a => if M.holds a.1 then M.execAll body ⟨a.2, ℓ⟩ else M.execAll orelse ⟨a.2, ℓ⟩)
      (g := fun ℓ a => if M.holds a.1 then M.execAll body' ⟨a.2, ℓ⟩ else M.execAll orelse' ⟨a.2, ℓ⟩)
      hot ht hnt hσ ?_ ?_ ?_) (ih hops hnps)
    · exact fun σ => by rw [Machine.exec]; rfl
    · exact fun σ => by rw [Machine.exec]; rfl
    · intro a ℓ ℓ' hℓ
      split
      · exact ihb hob hnb ⟨rfl, hℓ⟩
      · exact iho hoo hno ⟨rfl, hℓ⟩
  | @forIn x iter iter' ss body body' ps ps' h ht hb hs ihb ih =>
    simp only [Stmt.orderedAll, Stmt.ordered, Bool.and_eq_true, Stmt.localsAll, Stmt.locals,
      List.forall_mem_append] at ho hn
    obtain ⟨⟨hoi, hob⟩, hops⟩ := ho
    obtain ⟨hnx, hnps⟩ := hn
    have hnb : ∀ y ∈ Stmt.localsAll body, ¬ IsTemp y := fun y hy => hnx y (by simp [hy])
    let loop (body : List Stmt) (ℓ : Locals α) (a : α × Storage α) : Option (State α) :=
      (M.items a.1).foldlM (fun σ v => M.execAll body ⟨σ.storage, σ.locals.set x v⟩) ⟨a.2, ℓ⟩
    refine execAll_cons (h.step (f := loop body) (g := loop body') hoi ht (fun y hy => hnx y (by simp [hy]))
      hσ ?_ ?_ ?_) (ih hops hnps)
    · exact fun σ => by rw [Machine.exec]; rfl
    · exact fun σ => by rw [Machine.exec]; rfl
    · intro a ℓ ℓ' hℓ
      refine rel_foldlM (fun σ τ v hστ => ihb hob hnb ?_) (M.items a.1) ⟨rfl, hℓ⟩
      rw [hστ.storage]
      exact State.Agree.set hστ.locals
  | pass hs ih =>
    simp only [Stmt.orderedAll, Bool.and_eq_true, Stmt.localsAll, List.forall_mem_append] at ho hn
    refine execAll_cons ?_ (ih ho.2 hn.2)
    rw [Machine.execAll_singleton, Machine.exec]
    exact .some hσ

end Lowered

end ContractTree
