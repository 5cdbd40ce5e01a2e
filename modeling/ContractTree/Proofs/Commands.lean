import ContractTree.Cli.Run
import ContractTree.Proofs.Printable
import ContractTree.Proofs.Reload

/-!
What the command line promises. The passes leave one tree, whatever is printed on the way and wherever the result
goes (`Cli.lower_eq`), and that tree is consistent. So the ways to ask for it agree: the file that is written is
what would be printed, and showing the file is the same as asking for the source text at once. A run that fails
writes nothing.
-/

namespace ContractTree

open Store (Good)

/-! ## Passes in a row -/

namespace Pipeline

variable {s s' : Store} {m : NodeId} {p : Pipeline}

/-- What passes in a row leave of a store. -/
def leave (m : NodeId) : List Pass → Store → Except PassError Store
  | [], s => .ok s
  | pass :: passes, s =>
    match pass.run m s with
    | .error e _ => .error e
    | .ok _ s' => leave m passes s'

theorem mem_all_of_lookupAll {keys : List String} {passes : List Pass} (h : lookupAll keys = .ok passes) :
    ∀ pass ∈ passes, pass ∈ Pass.all := by
  induction keys generalizing passes with
  | nil =>
    cases h
    simp
  | cons key keys ih =>
    rw [lookupAll] at h
    split at h
    · cases h
    · next pass hpass =>
      obtain ⟨rest, hrest, hcons⟩ := Print.bind_eq_ok.1 h
      cases hcons
      exact List.forall_mem_cons.2 ⟨List.mem_of_find?_eq_some hpass, ih hrest⟩

/-- Every pass leaves a consistent tree behind. -/
theorem good_of_run {pass : Pass} (hp : pass ∈ Pass.all) (hs : s.Good m) (h : pass.run m s = .ok () s') :
    s'.Good m := by
  rw [Pass.all, List.mem_singleton] at hp
  subst hp
  have hrun := Lowering.run_whole (w := ⟨s, {}⟩) hs
  simp only [Lowering.pass, Lowering.runOnce] at h
  split at h
  · next w hw =>
    cases h
    exact hrun.of_ok hw
  · cases h

theorem good_of_leave {passes : List Pass} (hp : ∀ pass ∈ passes, pass ∈ Pass.all) (hs : s.Good m)
    (h : leave m passes s = .ok s') : s'.Good m := by
  induction passes generalizing s with
  | nil =>
    cases h
    exact hs
  | cons pass passes ih =>
    rw [List.forall_mem_cons] at hp
    rw [leave] at h
    split at h
    · cases h
    · next hrun => exact ih hp.2 (good_of_run hp.1 hs hrun) h

/-- Whether an observer that is shown consistent trees ends no run and finds no fault. -/
def Quiet (m : NodeId) (observe : Observer Cli.Dumps) : Prop :=
  ∀ pass s d, s.Good m → d.failure = none → ∃ d', observe pass s m d = .ok () d' ∧ d'.failure = none

/-- A pass with a quiet observer ends as the pass does by itself. -/
theorem ends_runPass {observe : Observer Cli.Dumps} (hq : Quiet m observe) {pass : Pass} (hp : pass ∈ Pass.all)
    {st : State Cli.Dumps} (hs : st.store.Good m) (hd : st.seen.failure = none) :
    Ends (p.runPass observe m pass) st
      (fun _ st' => pass.run m st.store = .ok () st'.store ∧ st'.store.Good m ∧ st'.seen.failure = none)
      fun e _ => ∃ s', pass.run m st.store = .error e s' := by
  unfold runPass
  rw [ends_bind, ends_get]
  cases h : pass.run m st.store with
  | error e s' => exact ⟨s', rfl⟩
  | ok _ s' =>
    have hg := good_of_run hp hs h
    have hv : s'.verify m = .ok () := (Store.verify_iff hg.1.nodup m).2 hg.2
    obtain ⟨d', hobserve, hd'⟩ := hq pass s' st.seen hg hd
    cases p.verifyAfterEach <;> cases p.collectStats <;>
      simpa [ends_set, hv, hobserve] using ⟨hg, hd'⟩

/-- A run with a quiet observer leaves what the passes leave. -/
theorem ends_run {observe : Observer Cli.Dumps} (hq : Quiet m observe) (hp : ∀ pass ∈ p.passes, pass ∈ Pass.all)
    (st : State Cli.Dumps) (hs : st.store.Good m) (hd : st.seen.failure = none) :
    Ends (p.run observe m) st
      (fun _ st' => leave m p.passes st.store = .ok st'.store ∧ st'.seen.failure = none)
      fun e _ => leave m p.passes st.store = .error e := by
  unfold run
  generalize p.passes = passes at hp ⊢
  induction passes generalizing st with
  | nil => exact ⟨rfl, hd⟩
  | cons pass passes ih =>
    rw [List.forall_mem_cons] at hp
    show Ends (p.runPass observe m pass >>= fun _ => passes.forM (p.runPass observe m)) st _ _
    rw [ends_bind]
    refine (ends_runPass hq hp.1 hs hd).mono (fun _ st' h => ?_) fun e _ h => ?_
    · obtain ⟨hrun, hs', hd'⟩ := h
      rw [leave, hrun]
      exact ih st' hs' hd' hp.2
    · obtain ⟨s', hrun⟩ := h
      rw [leave, hrun]

end Pipeline

/-! ## The commands -/

namespace Cli

variable {files : Files} {input : String} {output : Option String} {passes : Option (List String)}
  {config : Option String} {printTree : Bool} {format : Format} {colors : Bool} {s : Store} {root : NodeId}

theorem quiet_dumpObserver (m : NodeId) : Pipeline.Quiet m dumpObserver := by
  rintro pass s d ⟨hs, T, rfl, hf, hn, hT⟩ hd
  have hlen := hT.length_le hn
  obtain ⟨j, hj, -⟩ := Dump.exists_dumps hT hf hn (by omega : T.ids.length ≤ s.size + 1)
  obtain ⟨text, htext⟩ : ∃ text, Dump.text s T.id = .ok text := ⟨_, Print.bind_eq_ok.2 ⟨j, hj, rfl⟩⟩
  refine ⟨{ d with text := d.text ++ "After " ++ pass.name ++ "\n" ++ text ++ "\n" }, ?_, hd⟩
  simp only [dumpObserver, htext]
  rfl

theorem quiet_silentObserver (m : NodeId) : Pipeline.Quiet m silentObserver := fun _ _ d _ hd => ⟨d, rfl, hd⟩

/-- The tree that a run of `lower` is about to deliver, or why there is none. -/
def lowered (files : Files) (input : String) (passes : Option (List String)) (config : Option String) :
    Except Failure (Store × NodeId) :=
  match loadConfig files config with
  | .error f => .error f
  | .ok base =>
    match loadTree files input with
    | .error f => .error f
    | .ok (s, root) =>
      match Pipeline.lookupAll (passes.getD base.passes) with
      | .error e => .error (.pipeline e)
      | .ok passes =>
        match Pipeline.leave root passes s with
        | .error e => .error (.lowering input e)
        | .ok s' => .ok (s', root)

theorem loadTree_of_load {path text : String} (hpath : files path = .ok text)
    (hload : Document.load text = .ok (s, root)) : loadTree files path = .ok (s, root) := by
  simp only [loadTree, hpath, hload]

/-- What is loaded is consistent. -/
theorem good_of_loadTree {path : String} (h : loadTree files path = .ok (s, root)) : s.Good root := by
  unfold loadTree at h
  split at h
  · cases h
  · split at h
    · cases h
    · next hload =>
      cases h
      obtain ⟨hs, hv, -⟩ := Document.exists_of_load hload
      exact ⟨hs, (Store.verify_iff hs.nodup root).1 hv⟩

theorem good_of_lowered (h : lowered files input passes config = .ok (s, root)) : s.Good root := by
  unfold lowered at h
  split at h
  · cases h
  · split at h
    · cases h
    · next hload =>
      split at h
      · cases h
      · next hkeys =>
        split at h
        · cases h
        · next hleave =>
          cases h
          exact Pipeline.good_of_leave (Pipeline.mem_all_of_lookupAll hkeys) (good_of_loadTree hload) hleave

/-- **There is one lowered tree**, whatever is printed on the way and wherever it goes. -/
theorem lower_eq (files : Files) (colors : Bool) (input : String) (output : Option String)
    (passes : Option (List String)) (config : Option String) (printTree : Bool) (format : Format) : ∃ told,
    lower files colors input output passes config printTree format false =
      match lowered files input passes config with
      | .error f => .fail told f
      | .ok (s, root) =>
        match deliver colors s root format output with
        | .error f => .fail told f
        | .ok o => { o with stderr := told, farewell := "" } := by
  unfold lowered lower
  cases hconfig : loadConfig files config with
  | error f => exact ⟨_, rfl⟩
  | ok base =>
    cases hload : loadTree files input with
    | error f => exact ⟨_, rfl⟩
    | ok loaded =>
      obtain ⟨s, root⟩ := loaded
      cases hkeys : Pipeline.lookupAll (passes.getD base.passes) with
      | error e =>
        simp only [Pipeline.ofConfig, hkeys]
        exact ⟨_, rfl⟩
      | ok found =>
        simp only [Pipeline.ofConfig, hkeys, Print.ok_bind, pure, Except.pure]
        generalize hobserve : (if (base.printTree || printTree) = true then dumpObserver
          else silentObserver) = observe
        have hq : Pipeline.Quiet root observe := by
          subst hobserve
          split
          · exact quiet_dumpObserver root
          · exact quiet_silentObserver root
        have hends := Pipeline.ends_run (p := ⟨found, base.verifyAfterEach, base.collectStats || false⟩) hq
          (Pipeline.mem_all_of_lookupAll hkeys) { store := s, seen := {} } (good_of_loadTree hload) rfl
        cases hrun : Pipeline.run ⟨found, base.verifyAfterEach, base.collectStats || false⟩ observe root
            { store := s, seen := {} } with
        | error e st =>
          rw [show Pipeline.leave root found s = .error e from hends.of_error hrun]
          exact ⟨_, rfl⟩
        | ok _ st =>
          obtain ⟨hleave, hd⟩ := hends.of_ok hrun
          rw [show Pipeline.leave root found s = .ok st.store from hleave]
          simp only [hd]
          exact ⟨_, rfl⟩

/-- The files after a run, if nothing keeps it from writing. -/
def Outcome.leave (o : Outcome) (files : Files) : Files :=
  match o.save with
  | none => files
  | some (path, text) => Function.update files path (.ok text)

/-- A consistent tree can be saved. What is saved is loaded again only as the tree that it was, and so has the same
source text, or none for the same reason. -/
theorem save_spec (hs : s.Good root) : ∃ text, Document.save s root = .ok text ∧
    ∀ files' path s' root', files' path = .ok text → loadTree files' path = .ok (s', root') →
      root' = root ∧ ∀ c, Print.render s' c root = Print.render s c root := by
  obtain ⟨hsound, T, rfl, hf, hn, hT⟩ := hs
  refine ⟨_, Document.save_eq hT hf hn, fun files' path s' root' hpath hload => ?_⟩
  have htext := Document.load_text hf hn fun i hi => hsound.below i (hT.mem_ids hi)
  rw [loadTree, hpath] at hload
  simp only [htext] at hload
  split at hload
  · cases hload
  · next r hr =>
    cases hload
    split at hr
    · cases hr
      exact ⟨rfl, fun c => Print.render_congr (Store.holds_ofTree hn) hT hf hn⟩
    · cases hr

theorem exitCode_fail {told : String} {f : Failure} : (Outcome.fail told f).exitCode ≠ 0 := by
  simp only [Outcome.fail, Outcome.exitCode]
  split <;> decide

theorem failure_of_deliver {o : Outcome} (h : deliver colors s root format output = .ok o) : o.failure = none := by
  unfold deliver at h
  split at h <;> split at h <;> cases h <;> rfl

/-- A run that fails has nothing to be written. -/
theorem save_of_exitCode (h : (lower files colors input output passes config printTree format false).exitCode ≠ 0)
    : (lower files colors input output passes config printTree format false).save = none := by
  obtain ⟨told, ho⟩ := lower_eq files colors input output passes config printTree format
  rw [ho] at h ⊢
  split
  · rfl
  · next hlowered =>
    rw [hlowered] at h
    split
    · rfl
    · next hd =>
      simp [hd, Outcome.exitCode, failure_of_deliver hd] at h

/-- A run that succeeds has a lowered tree. -/
theorem exists_lowered (h : (lower files colors input output passes config printTree format false).exitCode = 0) :
    ∃ s root, lowered files input passes config = .ok (s, root) := by
  obtain ⟨told, ho⟩ := lower_eq files colors input output passes config printTree format
  cases hlowered : lowered files input passes config with
  | error f =>
    rw [hlowered] at ho
    rw [ho] at h
    exact absurd h exitCode_fail
  | ok tree => exact ⟨tree.1, tree.2, rfl⟩

section Lowered

variable {text : String} (h : lowered files input passes config = .ok (s, root))

include h

theorem lower_saves (colors printTree : Bool) (out : String) (hsave : Document.save s root = .ok text) :
    (lower files colors input (some out) passes config printTree .json false).exitCode = 0 ∧
      (lower files colors input (some out) passes config printTree .json false).leave files =
        Function.update files out (.ok text) := by
  obtain ⟨told, ho⟩ := lower_eq files colors input (some out) passes config printTree .json
  rw [ho, h]
  simp [deliver, hsave, Outcome.exitCode, Outcome.leave]

theorem lower_prints (colors printTree : Bool) (hsave : Document.save s root = .ok text) :
    (lower files colors input none passes config printTree .json false).exitCode = 0 ∧
      (lower files colors input none passes config printTree .json false).stdout = text ++ "\n" := by
  obtain ⟨told, ho⟩ := lower_eq files colors input none passes config printTree .json
  rw [ho, h]
  simp [deliver, hsave, Outcome.exitCode]

/-- Asking for the source text gives the text or says why there is none. -/
theorem lower_emits (colors printTree : Bool) :
    (lower files colors input none passes config printTree .text false).failure = none ∧
      Print.render s { useColors := colors } root =
        .ok (lower files colors input none passes config printTree .text false).stdout ∨
    ∃ e, Print.render s { useColors := colors } root = .error e ∧
      (lower files colors input none passes config printTree .text false).failure = some (.render e) := by
  obtain ⟨told, ho⟩ := lower_eq files colors input none passes config printTree .text
  rw [ho, h]
  simp only [deliver]
  cases Print.render s { useColors := colors } root with
  | ok text => exact .inl ⟨rfl, rfl⟩
  | error e => exact .inr ⟨e, rfl, rfl⟩

theorem lower_emits_of_isOk (colors printTree : Bool)
    (hr : (Print.render s { useColors := colors } root).isOk = true) :
    (lower files colors input none passes config printTree .text false).failure = none := by
  rcases lower_emits h colors printTree with ⟨hnone, -⟩ | ⟨e, he, -⟩
  · exact hnone
  · rw [he] at hr
    cases hr

end Lowered

/-- What is lowered depends on the files that are read and on no other. -/
theorem lowered_congr {files' : Files} (passes : Option (List String))
    (h : ∀ path ∈ config.toList ++ [input], files' path = files path) :
    lowered files' input passes config = lowered files input passes config := by
  rw [List.forall_mem_append, List.forall_mem_singleton] at h
  have hconfig : loadConfig files' config = loadConfig files config := by
    cases config with
    | none => rfl
    | some path => rw [loadConfig, loadConfig, h.1 path (by simp)]
  rw [lowered, lowered, hconfig, loadTree, loadTree, h.2]

/-- **The command line agrees with itself and leaves no partial result.** When `lower` fails there is nothing to be
written. When it succeeds with the document going to a file, no other file is written. Then the file holds what is
printed without a file, up to the last line break, by a run before or after, as long as the files that are read are
the same. And showing the file, if it can be loaded, is the same as asking for the source text at once: they print
the same, or both fail because the tree has no source text. -/
theorem run_lower_agrees (files : Files) (input : String) (passes : Option (List String)) (config : Option String)
    (printTree : Bool) :
    let lower (files : Files) (output : Option String) (printTree : Bool) (format : Format) : Outcome :=
      (Command.lower input output passes config printTree format false).run files false
    (∀ output format, (lower files output printTree format).exitCode ≠ 0 →
      (lower files output printTree format).save = none) ∧
    ∀ out, (lower files (some out) printTree .json).exitCode = 0 →
      let after := (lower files (some out) printTree .json).leave files
      (∀ path, path ≠ out → after path = files path) ∧
      ∃ text, after out = .ok text ∧
        ∀ files' printTree', (∀ path ∈ config.toList ++ [input], files' path = files path) →
          (lower files' none printTree' .json).exitCode = 0 ∧
          (lower files' none printTree' .json).stdout = text ++ "\n" ∧ ∀ loaded, loadTree after out = .ok loaded →
            let shown := (Command.show out false false).run after false
            let asked := lower files' none printTree' .text
            shown.failure = none ∧ asked.failure = none ∧ shown.stdout = asked.stdout ∨
              ∃ e, shown.failure = some (.render e) ∧ asked.failure = some (.render e) := by
  refine ⟨fun output format h => save_of_exitCode h, fun out h => ?_⟩
  simp only [Command.run] at h ⊢
  obtain ⟨s, root, hlowered⟩ := exists_lowered h
  obtain ⟨text, hsave, hagain⟩ := save_spec (good_of_lowered hlowered)
  have hout : Function.update files out (.ok text) out = .ok text := Function.update_self _ _ _
  rw [(lower_saves hlowered false printTree out hsave).2]
  refine ⟨fun path hpath => Function.update_of_ne hpath _ _, text, hout, fun files' printTree' hfiles => ?_⟩
  have hlowered' := (lowered_congr passes hfiles).trans hlowered
  obtain ⟨hexit, hstdout⟩ := lower_prints hlowered' false printTree' hsave
  refine ⟨hexit, hstdout, fun loaded hload => ?_⟩
  obtain ⟨s', root'⟩ := loaded
  obtain ⟨rfl, hrender⟩ := hagain _ _ _ _ hout hload
  simp only [showTree, hload, hrender]
  rcases lower_emits hlowered' false printTree' with ⟨hnone, htext⟩ | ⟨e, htext, hfailure⟩
  · rw [htext]
    exact .inl ⟨rfl, hnone, rfl⟩
  · rw [htext]
    exact .inr ⟨e, rfl, hfailure⟩

/-- A directory with one document in it, a contract that declares an array. -/
def desk : Files := fun path =>
  if path = "in.json" then .ok (Document.ofTree (Lowering.declaring false (.dynArray .bool 4) none) ⟨3⟩).text
  else .error "no such file"

/-- The contract once the array is a slot. -/
def deskTree : Tree := Lowering.declaring false (Ty.dynArray .bool 4).slot (some (Ty.dynArray .bool 4).slot)

theorem lowered_of_run {own : Lowering.Progress} {s' : Store} (hload : loadTree files input = .ok (s, root))
    (hrun : Lowering.run root ⟨s, {}⟩ = .ok () ⟨s', own⟩) : lowered files input none none = .ok (s', root) := by
  have hkeys : Pipeline.lookupAll ["Sv"] = .ok [Lowering.pass] := rfl
  simp only [lowered, loadConfig, hload, Option.getD_none, hkeys, Pipeline.leave, Lowering.pass,
    Lowering.runOnce, hrun]

theorem lowered_desk : lowered desk "in.json" none none = .ok (.ofTree deskTree ⟨3⟩, ⟨0⟩) := by
  obtain ⟨own, hrun⟩ := Lowering.run_declaring_array .bool 4
  have hload := Lowering.load_declaring false (.dynArray .bool 4) none
  rw [if_pos ⟨by decide, by simp⟩] at hload
  exact lowered_of_run (loadTree_of_load (if_pos rfl) hload) hrun

theorem save_desk : Document.save (.ofTree deskTree ⟨3⟩) ⟨0⟩ = .ok (Document.ofTree deskTree ⟨3⟩).text :=
  Document.save_eq (t := deskTree) (Store.holds_ofTree (by decide)) (Lowering.fits_declaring _ _ _) (by decide)

theorem load_desk : Document.load (Document.ofTree deskTree ⟨3⟩).text = .ok (.ofTree deskTree ⟨3⟩, ⟨0⟩) := by
  have hdepth : (Ty.dynArray .bool 4).slot.toJson.depth ≤ 124 := by decide
  unfold deskTree
  rw [Lowering.load_declaring, if_pos ⟨hdepth, fun u hu => Option.mem_some_iff.1 hu ▸ hdepth⟩]

theorem isOk_render_desk : (Print.render (.ofTree deskTree ⟨3⟩) { useColors := false } ⟨0⟩).isOk = true := by
  decide +kernel

/-- The document is written with the slot in the place of the array, and shown as it is printed when asked for;
asking for a document that is not there writes nothing. -/
theorem run_lower_agrees_desk :
    let missing := (Command.lower "missing.json" (some "out.json") none none false .json false).run desk false
    let done := (Command.lower "in.json" (some "out.json") none none false .json false).run desk false
    let asked := (Command.lower "in.json" none none none false .text false).run (done.leave desk) false
    missing.exitCode = 1 ∧ missing.save = none ∧ done.exitCode = 0 ∧ done.leave desk "in.json" = desk "in.json" ∧
      asked.failure = none ∧ ((Command.show "out.json" false false).run (done.leave desk) false).stdout =
      asked.stdout := by
  intro missing done asked
  have hmissing : missing.exitCode = 1 := by
    simp [missing, Command.run, lower, loadConfig, loadTree, desk, Outcome.exitCode, Outcome.fail,
      Failure.isExhausted]
  have hfails := (run_lower_agrees desk "missing.json" none none false).1 (some "out.json") .json
    (hmissing.trans_ne Nat.one_ne_zero)
  obtain ⟨hexit, hleave⟩ : done.exitCode = 0 ∧ done.leave desk = _ :=
    lower_saves lowered_desk false false "out.json" save_desk
  obtain ⟨hothers, text, -, hagrees⟩ := (run_lower_agrees desk "in.json" none none false).2 "out.json" hexit
  have hin : done.leave desk "in.json" = desk "in.json" := hothers "in.json" (by decide)
  have hload : loadTree (done.leave desk) "out.json" = .ok (.ofTree deskTree ⟨3⟩, ⟨0⟩) := by
    rw [hleave]
    exact loadTree_of_load (Function.update_self _ _ _) load_desk
  have hread : ∀ path ∈ (none : Option String).toList ++ ["in.json"], done.leave desk path = desk path := by
    simpa using hin
  have hlowered : lowered (done.leave desk) "in.json" none none = .ok (.ofTree deskTree ⟨3⟩, ⟨0⟩) :=
    (lowered_congr none hread).trans lowered_desk
  have hasked : asked.failure = none := by
    have heq : asked = lower (done.leave desk) false "in.json" none none none false .text false := rfl
    rw [heq]
    exact lower_emits_of_isOk hlowered false false isOk_render_desk
  refine ⟨hmissing, hfails, hexit, hin, hasked, ?_⟩
  rcases (hagrees (done.leave desk) false hread).2.2 _ hload with ⟨-, -, h⟩ | ⟨e, -, h⟩
  · exact h
  · exact absurd (hasked.symm.trans h) (by simp)

end Cli

end ContractTree
