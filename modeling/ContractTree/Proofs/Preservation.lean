import ContractTree.Proofs.Completeness
import ContractTree.Proofs.Faithful

/-!
Lowering keeps what functions do. The pass turns the program of each function of the module into a lowered one
(`Lowering.run_lowered`). From every state, a function in which nothing is called does the same before and after
the pass (`Lowering.run_preserves`), and so does one that calls others, if no call that stays comes before a load
that moves (`Lowering.run_preserves_ordered`).
-/

namespace ContractTree

open Lowering (Progress)

namespace Store

/-- The program that the function at a node stands for. -/
def program? (s : Store) (f : NodeId) : Option (List Stmt) := (s.tree? f).bind Tree.program?

end Store

theorem Tree.label_of_program? {t : Tree} {ps : List Stmt} (h : t.program? = some ps) (a b e : Bool) :
    t.label ≠ .variableDecl a b e := by
  unfold program? at h
  split at h
  · simp
  · cases h

/-- A function keeps its place in the module. -/
theorem Rooted.exists_walked {c : Catalog} {ν : NodeId} {names : List String} {ds ds' : List Tree}
    (h : Rooted c ν names ds ds') {d : Tree} (hd : d ∈ ds) (hl : ∀ a b e, d.label ≠ .variableDecl a b e) :
    ∃ d' ∈ ds', Walked c ν false [d] [] [d'] := by
  induction h with
  | nil => cases hd
  | cons hw hds ih =>
    rcases List.mem_cons.1 hd with rfl | hd
    · refine ⟨_, List.mem_cons_self, ?_⟩
      cases hw with
      | kept hset hw => exact hw
      | declared hlabel =>
        obtain ⟨a, b, e, hlabel⟩ := hlabel
        exact absurd hlabel (hl a b e)
    · obtain ⟨d', hd', hw'⟩ := ih (List.mem_append_left _ hd)
      exact ⟨d', List.mem_cons_of_mem _ hd', hw'⟩

/-- A function is not rewritten; its statements are walked. -/
theorem Walked.function_inv {c : Catalog} {ν i : NodeId} {ty : Option Ty} {name : String} {visibility : Visibility}
    {mutability : Mutability} {args body es : List Tree} {d : Tree}
    (h : Walked c ν false [.node i ty (.functionDef name visibility mutability) args body []] es [d]) :
    ∃ args' body', d = .node i ty (.functionDef name visibility mutability) args' body' [] ∧
      Walked c ν true body [] body' := by
  cases h with
  | rewrite ht hts =>
    cases ht with
    | read i temp ty hacc h => cases hacc
    | store h => cases h
    | combine h => cases h
  | inner hr ht hh hb ho hts =>
    obtain ⟨-, rfl⟩ := ho.eq_of_clean (by simp)
    exact ⟨_, _, rfl, hb⟩

/-- What a function is walked to stands for a lowered program. -/
theorem Walked.program? {c : Catalog} {ν : NodeId} {d d' : Tree} {ps : List Stmt}
    (h : Walked c ν false [d] [] [d']) (hn : d'.ids.Nodup) (hp : d.program? = some ps)
    (hc : Stmt.completeAll c ps = true) : d'.id = d.id ∧ ∃ ps', d'.program? = some ps' ∧ Lowered ps ps' := by
  unfold Tree.program? at hp
  split at hp
  · obtain ⟨args', body', rfl, hb⟩ := h.function_inv
    rw [Tree.ids_eq, Tree.kids_node, List.nodup_cons] at hn
    have hbody : (([] ++ body').flatMap Tree.ids).Nodup := hn.2.sublist (by simp)
    obtain ⟨ps', hps', hl⟩ := (hb.lowered hbody).1 rfl ps hp hc
    exact ⟨rfl, ps', hps', hl⟩
  · cases hp

namespace Lowering

variable {w w' : Workspace Progress} {m f : NodeId} {ps : List Stmt}

/-- The pass turns the program of each function into a lowered one. -/
theorem run_lowered (hs : w.store.Sound) (hv : w.store.verify m = .ok ())
    (honly : ∀ n ∈ w.store.preorder m, n.kind.isModule = true → n.id = m) (hf : f ∈ w.store.children m)
    (hp : w.store.program? f = some ps) (hc : Stmt.completeAll (w.store.stateVars m) ps = true)
    (hrun : run m w = .ok () w') : ∃ ps', w'.store.program? f = some ps' ∧ Lowered ps ps' := by
  obtain ⟨T, rfl, hfit, hn, hT⟩ := (Store.verify_iff hs.nodup m).1 hv
  obtain ⟨ty, body, body', hbody, hran⟩ := exists_ran hs hfit hn hT (hT.no_module hfit hn honly) hrun
  have hroot := hran.rooted
  have h' := hran.has
  have hT' := h'.holds
  have hfit' := h'.fits
  have hn' := h'.nodup
  -- the function is a tree in the body
  rw [hT.children hfit, hbody] at hf
  obtain ⟨d, hd, rfl⟩ := List.mem_map.1 hf
  have hd : d ∈ body := by simpa using hd
  have hdT : d ∈ T.kids := by rw [hbody]; simpa using hd
  rw [Store.program?, (hT.kid hdT).tree?_eq (hfit.kid hdT) (Tree.nodup_kid hn hdT)] at hp
  rw [Store.stateVars, hT.tree?_eq hfit hn, hbody] at hc
  obtain ⟨d', hd', hw⟩ := hroot.exists_walked hd (Tree.label_of_program? hp)
  have hdT' : d' ∈ (Tree.node T.id ty .module [] body' []).kids := by simpa using hd'
  have hnd' := Tree.nodup_kid hn' hdT'
  obtain ⟨hid, ps', hps', hl⟩ := hw.program? hnd' hp hc
  refine ⟨ps', ?_, hl⟩
  rw [Store.program?, ← hid, (hT'.kid hdT').tree?_eq (hfit'.kid hdT') hnd']
  exact hps'

/-- **Lowering preserves what functions do.** Let nothing be called in a function, all its accesses be complete,
and no local be named like a temporary. From every state, its program and the program it is lowered to both fail,
or both end, with the same storage and the same locals but for the temporaries. -/
theorem run_preserves {α : Type} [DecidableEq α] (M : Machine α) (hs : w.store.Sound)
    (hv : w.store.verify m = .ok ()) (honly : ∀ n ∈ w.store.preorder m, n.kind.isModule = true → n.id = m)
    (hf : f ∈ w.store.children m) (hp : w.store.program? f = some ps)
    (hc : Stmt.completeAll (w.store.stateVars m) ps = true) (hcalls : Stmt.callsAll ps = false)
    (htemp : ∀ x ∈ Stmt.localsAll ps, ¬ IsTemp x) (hrun : run m w = .ok () w') :
    ∃ ps', w'.store.program? f = some ps' ∧ ∀ σ, Option.Rel State.Agree (M.execAll ps σ) (M.execAll ps' σ) := by
  obtain ⟨ps', hps', hl⟩ := run_lowered hs hv honly hf hp hc hrun
  exact ⟨ps', hps', fun σ => hl.agree (Stmt.orderedAll_of_not_calls hcalls) htemp (.refl σ)⟩

/-- Arithmetic on natural numbers, where every call returns zero and sets the variable `x` to one. -/
def natMachine : Machine Nat where
  literal? value := some value.toNat
  apply _ a b := a + b
  unwritten _ _ := 0
  holds a := a ≠ 0
  items a := List.range a
  call _ _ s := (0, s.set "x" [] 1)

theorem run_preserves_ledger : ∃ w' ps ps', run ⟨0⟩ ⟨ledger, {}⟩ = .ok () w' ∧ ledger.program? ⟨5⟩ = some ps ∧
    w'.store.program? ⟨5⟩ = some ps' ∧
    ∀ σ, Option.Rel State.Agree (natMachine.execAll ps σ) (natMachine.execAll ps' σ) := by
  have hp : ledger.program? ⟨5⟩ =
      some [.augAssign (.slot "m" [.load "x" []]) .add (.load "m" [.name "i"])] := rfl
  obtain ⟨w', hw'⟩ := run_ledger
  obtain ⟨ps', hps', h⟩ := run_preserves natMachine sound_ledger verify_ledger only_module_ledger (by decide) hp
    rfl rfl (by decide) hw'
  exact ⟨w', _, ps', hw', hp, hps', h⟩

/-- **Lowering preserves what functions do that call others,** where no call that stays comes before a load that
moves. -/
theorem run_preserves_ordered {α : Type} [DecidableEq α] (M : Machine α) (hs : w.store.Sound)
    (hv : w.store.verify m = .ok ()) (honly : ∀ n ∈ w.store.preorder m, n.kind.isModule = true → n.id = m)
    (hf : f ∈ w.store.children m) (hp : w.store.program? f = some ps)
    (hc : Stmt.completeAll (w.store.stateVars m) ps = true) (ho : Stmt.orderedAll ps = true)
    (htemp : ∀ x ∈ Stmt.localsAll ps, ¬ IsTemp x) (hrun : run m w = .ok () w') :
    ∃ ps', w'.store.program? f = some ps' ∧ ∀ σ, Option.Rel State.Agree (M.execAll ps σ) (M.execAll ps' σ) := by
  obtain ⟨ps', hps', hl⟩ := run_lowered hs hv honly hf hp hc hrun
  exact ⟨ps', hps', fun σ => hl.agree ho htemp (.refl σ)⟩

/-- A contract with one statement, `y = left + right`. -/
def adding (left right : Tree) : Store :=
  .ofTree
    (.node ⟨0⟩ none .module [] [
      .node ⟨1⟩ (some (.uint 256)) (.variableDecl false false false) [.leaf ⟨2⟩ none (.name "x")] [] [],
      .node ⟨3⟩ none (.functionDef "f" .external .nonPayable) [] [
        .node ⟨4⟩ none .assign [.leaf ⟨5⟩ none (.name "y"), .node ⟨6⟩ none (.binOp .add) [left, right] [] []] []
          []] []] [])
    ⟨11⟩

/-- `g()` -/
def callG : Tree := .node ⟨7⟩ none .call [.leaf ⟨8⟩ none (.name "g")] [] []

/-- `self.x` -/
def loadX : Tree := .node ⟨9⟩ none (.member "x") [.leaf ⟨10⟩ none (.name "self")] [] []

theorem run_preserves_load_before_call : ∃ w' ps ps', run ⟨0⟩ ⟨adding loadX callG, {}⟩ = .ok () w' ∧
    (adding loadX callG).program? ⟨3⟩ = some ps ∧ w'.store.program? ⟨3⟩ = some ps' ∧
    ∀ σ, Option.Rel State.Agree (natMachine.execAll ps σ) (natMachine.execAll ps' σ) := by
  have hrun : ∃ w', run ⟨0⟩ ⟨adding loadX callG, {}⟩ = .ok () w' := by decide +kernel
  have hp : (adding loadX callG).program? ⟨3⟩ =
      some [.assign (.var "y") (.binOp .add (.load "x" []) (.call (.name "g") []))] := rfl
  obtain ⟨w', hw'⟩ := hrun
  obtain ⟨ps', hps', h⟩ := run_preserves_ordered natMachine ⟨by decide, by decide, by decide⟩ (by decide +kernel)
    (by decide) (by decide) hp rfl rfl (by decide) hw'
  exact ⟨w', _, ps', hw', hp, hps', h⟩

/-- **A call in front of a load is overtaken by it.** The call sets the variable, and is to be seen by the load. -/
theorem run_overtakes_call : ∃ w' ps ps', run ⟨0⟩ ⟨adding callG loadX, {}⟩ = .ok () w' ∧
    (adding callG loadX).program? ⟨3⟩ = some ps ∧ Stmt.completeAll ((adding callG loadX).stateVars ⟨0⟩) ps = true ∧
    (∀ x ∈ Stmt.localsAll ps, ¬ IsTemp x) ∧ w'.store.program? ⟨3⟩ = some ps' ∧
    ∀ σ : State Nat, σ.storage "x" [] = none →
      (natMachine.execAll ps σ).bind (·.locals "y") = some 1 ∧
      (natMachine.execAll ps' σ).bind (·.locals "y") = some 0 := by
  have hrun : ∃ w', run ⟨0⟩ ⟨adding callG loadX, {}⟩ = .ok () w' := by decide +kernel
  have hp : (adding callG loadX).program? ⟨3⟩ =
      some [.assign (.var "y") (.binOp .add (.call (.name "g") []) (.load "x" []))] := rfl
  obtain ⟨w', hw'⟩ := hrun
  obtain ⟨ps', hps', hl⟩ := run_lowered ⟨by decide, by decide, by decide⟩ (by decide +kernel) (by decide)
    (by decide) hp rfl hw'
  refine ⟨w', _, ps', hw', hp, rfl, by decide, hps', fun σ hσ => ⟨rfl, ?_⟩⟩
  have hslot : slotVar "x_STORAGE" = "x" := slotVar_append "x"
  -- the read of `x` stands in front of the statement, and the call is still in it
  cases hl with
  | assignVar hlift _ hnil =>
    cases hnil
    cases hlift with
    | inner _ hargs hnil =>
      cases hnil
      cases hargs with
      | inner _ hcall hload =>
        cases hcall
        cases hload with
        | inner hload => cases hload
        | load hkeys hnil =>
          cases hkeys
          cases hnil
          simp [Expr.withArgs, Machine.execAll, Machine.exec, Machine.evalAll, Machine.eval, Machine.load,
            natMachine, Locals.set, hslot, hσ]

end Lowering

end ContractTree
