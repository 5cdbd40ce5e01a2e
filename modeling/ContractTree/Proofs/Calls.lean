import ContractTree.Proofs.Ends

/-!
Calls of the primitive edits. `Primitive.Effect` says once what each call does when it succeeds; a call that is
refused leaves the store as it was (`Primitive.refused_unchanged`).

Larger work is made of such calls: `Performs` says that what it does to the store is what primitive calls of one
sort do, one after the other, whether the work succeeds or fails. Copies are made of new nodes alone
(`Edit.performs_deepCopy`).
-/

namespace ContractTree

/-- The state in which `x` ends, whether it succeeds or fails. -/
def final {ε σ α : Type} (x : EStateM ε σ α) (s : σ) : σ :=
  match x s with
  | .ok _ s' => s'
  | .error _ s' => s'

section Final

variable {ε σ α β : Type} {x : EStateM ε σ α} {f : α → EStateM ε σ β} {s s' : σ}

theorem final_bind_of_ok {a : α} (h : x s = .ok a s') : final (x >>= f) s = final (f a) s' := by
  rw [final, bind_of_ok h, final]

theorem final_bind_of_error {e : ε} (h : x s = .error e s') : final (x >>= f) s = final x s := by
  rw [final, bind_of_error h, final, h]

theorem final_bind_pure (g : α → β) : final (x >>= fun a => pure (g a)) s = final x s := by
  cases h : x s with
  | ok a s' =>
    rw [final_bind_of_ok h, final, final, h]
    rfl
  | error e s' => exact final_bind_of_error h

end Final

/-- `x` only fails with `out` when the counter of the store that `view` shows is at its end. -/
def RunsOut {ε σ α : Type} (view : σ → Store) (out : ε) (x : EStateM ε σ α) : Prop :=
  ∀ w w', x w = .error out w' → (view w').nextId = .last

section RunsOut

variable {ε σ α β : Type} {view : σ → Store} {out : ε} {x : EStateM ε σ α} {f : α → EStateM ε σ β}

theorem runsOut_of_ne (h : ∀ w w', x w ≠ .error out w') : RunsOut view out x := fun w w' hx => absurd hx (h w w')

theorem runsOut_throw {e : ε} (he : e ≠ out) : RunsOut view out (throw e : EStateM ε σ α) :=
  runsOut_of_ne fun _ _ h => he (EStateM.Result.error.inj h).1

theorem RunsOut.bind (hx : RunsOut view out x) (hf : ∀ a, RunsOut view out (f a)) :
    RunsOut view out (x >>= f) := by
  intro w w' hw
  cases h : x w with
  | ok a w₁ => exact hf a w₁ w' (by rwa [bind_of_ok h] at hw)
  | error e w₁ =>
    obtain ⟨rfl, rfl⟩ := EStateM.Result.error.inj ((bind_of_error h).symm.trans hw)
    exact hx w _ h

end RunsOut

namespace Edit

/-! ## Running out of identities -/

section Last

variable {α : Type} {id : NodeId}

/-- The edit only runs out of identities when the counter is at its end. -/
abbrev Last (x : Edit α) : Prop := RunsOut (fun s => s) StructuralError.idsExhausted x

theorem last_node : Last (node id) := by
  refine runsOut_of_ne fun s s' => ?_
  rw [node_apply]
  cases s.find? id <;> simp

theorem last_updateNode {f : Node → Node} : Last (updateNode id f) := last_node.bind fun _ => runsOut_of_ne nofun

theorem last_requireFree : Last (requireFree id) := by
  unfold requireFree
  refine last_node.bind fun _ => RunsOut.bind (runsOut_of_ne nofun) fun s => ?_
  split
  · exact runsOut_throw (by simp)
  · exact runsOut_of_ne nofun

theorem last_requireMovable {leaving : Option NodeId} : Last (requireMovable id leaving) := by
  unfold requireMovable
  refine last_node.bind fun n => ?_
  split
  · exact runsOut_of_ne nofun
  · exact last_requireFree

theorem last_reserve : Last reserve := by
  intro s s' h
  unfold reserve at h
  rw [bind_of_ok (show (get : Edit Store) s = .ok s s from rfl)] at h
  cases hnext : s.nextId.next? with
  | none =>
    simp only [hnext] at h
    obtain ⟨-, rfl⟩ := EStateM.Result.error.inj h
    exact NodeId.next?_eq_none.1 hnext
  | some next =>
    simp only [hnext] at h
    cases h

theorem last_insertNew {k : NodeId → Kind} {ty : Option Ty} : Last (insertNew k ty) :=
  last_reserve.bind fun _ => runsOut_of_ne nofun

theorem last_alloc {k : Kind} {ty : Option Ty} : Last (alloc k ty) := by
  have hforM (l : List NodeId) : Last (l.forM requireFree) := by
    induction l with
    | nil => exact runsOut_of_ne nofun
    | cons i l ih => exact last_requireFree.bind fun _ => ih
  exact (hforM _).bind fun _ => last_insertNew.bind fun _ => runsOut_of_ne nofun

theorem last_replace {old new : NodeId} : Last (replace old new) := by
  unfold replace
  refine last_node.bind fun n => ?_
  split
  · exact runsOut_throw (by simp)
  · refine last_requireMovable.bind fun _ => last_node.bind fun m => ?_
    split
    · exact runsOut_throw (by simp)
    · refine last_updateNode.bind fun _ => last_updateNode.bind fun _ => last_updateNode.bind fun _ => ?_
      exact runsOut_of_ne nofun

theorem last_insertBefore {stmt anchor block : NodeId} : Last (insertBefore stmt anchor block) := by
  unfold insertBefore
  refine last_requireMovable.bind fun _ => last_node.bind fun b => ?_
  by_cases hb : b.kind.statementLists.isEmpty
  · rw [if_pos hb]
    exact runsOut_throw (by simp)
  · rw [if_neg hb]
    cases b.kind.insertStatement? stmt anchor with
    | none => exact runsOut_throw (by simp)
    | some k => exact last_updateNode.bind fun _ => last_updateNode

theorem last_appendDeclaration {module decl : NodeId} : Last (appendDeclaration module decl) := by
  unfold appendDeclaration
  refine last_requireMovable.bind fun _ => last_node.bind fun b => ?_
  split
  · exact last_updateNode.bind fun _ => last_updateNode
  · exact runsOut_throw (by simp)

theorem last_discard : Last (discard id) := by
  unfold discard
  refine last_node.bind fun n => ?_
  cases n.parent with
  | none => exact runsOut_of_ne nofun
  | some p => exact last_node.bind fun _ => last_requireFree.bind fun _ => runsOut_of_ne nofun

end Last

/-- A call of a primitive edit. -/
inductive Primitive where
  | reserve
  | register (node : Node)
  | alloc (kind : Kind) (ty : Option Ty)
  | leaf (kind : Kind) (ty : Option Ty)
  | temp (ty : Option Ty)
  | replace (old new : NodeId)
  | insertBefore (stmt anchor block : NodeId)
  | appendDeclaration (module decl : NodeId)
  | discard (id : NodeId)
  | setTy (id : NodeId) (ty : Option Ty)

namespace Primitive

/-- Makes the call, and gives the identity that it hands out or registers. -/
def run : Primitive → Edit (Option NodeId)
  | .reserve => do return some (← Edit.reserve)
  | .register n => do return some (← Edit.register n)
  | .alloc kind ty => do return some (← Edit.alloc kind ty)
  | .leaf kind ty => do return some (← Edit.leaf kind ty)
  | .temp ty => do return some (← Edit.temp ty)
  | .replace old new => do
    Edit.replace old new
    return none
  | .insertBefore stmt anchor block => do
    Edit.insertBefore stmt anchor block
    return none
  | .appendDeclaration module decl => do
    Edit.appendDeclaration module decl
    return none
  | .discard id => do
    Edit.discard id
    return none
  | .setTy id ty => do
    Edit.setTy id ty
    return none

/-- What a call that succeeds gives, and the store that it leaves. -/
inductive Effect (s : Store) : Primitive → Option NodeId → Store → Prop where
  | reserve (hlt : s.nextId.next?.isSome) :
      Effect s .reserve (some s.nextId) { s with nextId := ⟨s.nextId.val + 1⟩ }
  | register {n : Node} (hn : n.id ∉ s.ids) (hlast : n.id ≠ .last) :
      Effect s (.register n) (some n.id) (s.enrolled n)
  | alloc {k : Kind} {ty : Option Ty} (hlt : s.nextId.next?.isSome) (hfree : ∀ i ∈ k.children, s.Free i) :
    Effect s (.alloc k ty) (some s.nextId) ((s.added { id := s.nextId, ty, kind := k }).adopt s.nextId k.children)
  | leaf {k : Kind} {ty : Option Ty} (hlt : s.nextId.next?.isSome) :
    Effect s (.leaf k ty) (some s.nextId) (s.added { id := s.nextId, ty, kind := k })
  | temp {ty : Option Ty} (hlt : s.nextId.next?.isSome) :
    Effect s (.temp ty) (some s.nextId) (s.added { id := s.nextId, ty, kind := .name (tempName s.nextId) })
  | replace {old new p : NodeId} {n m : Node} {k : Kind} (hn : s.find? old = some n) (hp : n.parent = some p)
    (hnew : s.Movable (some old) new) (hm : s.find? p = some m) (hk : m.kind.replaceChild? old new = some k) :
    Effect s (.replace old new) none (s.swapped p k old new)
  | insertBefore {stmt anchor block : NodeId} {b : Node} {k : Kind} (hstmt : s.Movable none stmt)
    (hb : s.find? block = some b) (hk : b.kind.insertStatement? stmt anchor = some k) :
    Effect s (.insertBefore stmt anchor block) none (s.placed block k stmt)
  | appendDeclaration {module decl : NodeId} {b : Node} {body : List NodeId} (hdecl : s.Movable none decl)
    (hb : s.find? module = some b) (hk : b.kind = .module body) :
    Effect s (.appendDeclaration module decl) none (s.placed module (.module (body ++ [decl])) decl)
  | discard {id : NodeId} (hfree : s.Free id) : Effect s (.discard id) none (s.discardAll [id])
  | setTy {id : NodeId} {ty : Option Ty} (hid : id ∈ s.ids) : Effect s (.setTy id ty) none (s.setTy id ty)

variable {s s' : Store} {i : Option NodeId}

theorem ends_run (p : Primitive) : Ends p.run s (Effect s p) (Refusal s fun _ => True) := by
  cases p with
  | reserve =>
    refine ends_reserve.then (fun _ _ => ⟨rfl, trivial⟩) ?_
    rintro _ _ ⟨rfl, hlt, rfl⟩
    exact .reserve hlt
  | register n =>
    refine (ends_register n).then (fun _ _ => ⟨rfl, trivial⟩) ?_
    rintro _ _ ⟨rfl, hn, hlast, rfl⟩
    exact .register hn hlast
  | alloc kind ty =>
    refine (ends_alloc kind ty).then (fun _ _ => ⟨rfl, trivial⟩) ?_
    rintro _ _ ⟨rfl, hlt, hfree, rfl⟩
    exact .alloc hlt hfree
  | leaf kind ty =>
    refine (ends_insertNew (fun _ => kind) ty).then (fun _ _ => ⟨rfl, trivial⟩) ?_
    rintro _ _ ⟨rfl, hlt, rfl⟩
    exact .leaf hlt
  | temp ty =>
    refine (ends_insertNew (fun id => .name (tempName id)) ty).then (fun _ _ => ⟨rfl, trivial⟩) ?_
    rintro _ _ ⟨rfl, hlt, rfl⟩
    exact .temp hlt
  | replace old new =>
    refine ends_replace.then (fun _ _ => ⟨rfl, trivial⟩) ?_
    rintro _ _ ⟨n, p, m, k, hn, hp, hnew, hm, hk, rfl⟩
    exact .replace hn hp hnew hm hk
  | insertBefore stmt anchor block =>
    refine (ends_insertBefore stmt anchor block).then (fun _ _ => ⟨rfl, trivial⟩) ?_
    rintro _ _ ⟨b, k, hstmt, hb, hk, rfl⟩
    exact .insertBefore hstmt hb hk
  | appendDeclaration module decl =>
    refine (ends_appendDeclaration module decl).then (fun _ _ => ⟨rfl, trivial⟩) ?_
    rintro _ _ ⟨b, body, hdecl, hb, hk, rfl⟩
    exact .appendDeclaration hdecl hb hk
  | discard id =>
    refine ends_discard.then (fun _ _ => ⟨rfl, trivial⟩) ?_
    rintro _ _ ⟨hfree, rfl⟩
    exact .discard hfree
  | setTy id ty =>
    refine (ends_setTy ty).then (fun _ _ => ⟨rfl, trivial⟩) ?_
    rintro _ _ ⟨hid, rfl⟩
    exact .setTy hid

/-- A call that is refused leaves the store as it was: the nodes and their order, the counter and the replacements.
-/
theorem refused_unchanged (p : Primitive) {e : StructuralError} (h : p.run s = .error e s') : s' = s :=
  (p.ends_run.of_error h).1

/-- A module that lists a node twice, a node whose parent is not there, a branch inside itself, and a node that its
parent does not list. -/
def tangled : Store where
  nextId := ⟨4⟩
  nodes := [
    { id := ⟨0⟩, kind := .module [⟨1⟩, ⟨1⟩] },
    { id := ⟨1⟩, parent := some ⟨9⟩, kind := .pass },
    { id := ⟨2⟩, parent := some ⟨2⟩, kind := .ifElse ⟨1⟩ [⟨2⟩] [] },
    { id := ⟨3⟩, parent := some ⟨0⟩, kind := .pass }]

theorem refused_unchanged_tangled :
    ∃ s', (replace ⟨3⟩ ⟨1⟩).run tangled = .error (.notAChild ⟨3⟩ ⟨0⟩) s' ∧ s' = tangled :=
  ⟨_, rfl, refused_unchanged (s := tangled) (replace ⟨3⟩ ⟨1⟩) (e := .notAChild ⟨3⟩ ⟨0⟩) rfl⟩

/-! ## One call after the other -/

/-- The store after a call, whether it succeeds or is refused. -/
def after (p : Primitive) (s : Store) : Store := final p.run s

/-- The identity that a call hands out or registers. -/
def issued? (p : Primitive) (s : Store) : Option NodeId :=
  match p.run s with
  | .ok i _ => i
  | .error _ _ => none

/-- A call has its effect, or it is refused and has none. -/
theorem step (p : Primitive) (s : Store) : p.Effect s (p.issued? s) (p.after s) ∨ p.issued? s = none ∧
    p.after s = s := by
  unfold issued? after final
  cases h : p.run s with
  | ok i s' => exact .inl (p.ends_run.of_ok h)
  | error e s' => exact .inr ⟨rfl, p.refused_unchanged h⟩

/-- Whether the call hands out a new identity. -/
def creates : Primitive → Bool
  | .reserve | .alloc _ _ | .leaf _ _ | .temp _ => true
  | _ => false

/-- Whether the call changes what is there, or adds a node of its own to it. -/
def edits : Primitive → Bool
  | .reserve | .register _ => false
  | _ => true

/-- An edit is only refused for want of identities when the counter is at its end. -/
theorem last_run (p : Primitive) (hp : p.edits = true) : Last p.run := by
  cases p with
  | reserve => cases hp
  | register => cases hp
  | alloc => exact last_alloc.bind fun _ => runsOut_of_ne nofun
  | leaf => exact last_insertNew.bind fun _ => runsOut_of_ne nofun
  | temp => exact last_insertNew.bind fun _ => runsOut_of_ne nofun
  | replace => exact last_replace.bind fun _ => runsOut_of_ne nofun
  | insertBefore => exact last_insertBefore.bind fun _ => runsOut_of_ne nofun
  | appendDeclaration => exact last_appendDeclaration.bind fun _ => runsOut_of_ne nofun
  | discard => exact last_discard.bind fun _ => runsOut_of_ne nofun
  | setTy => exact last_updateNode.bind fun _ => runsOut_of_ne nofun

/-- A call that succeeds hands out the identity that the counter is at, or registers one and moves the counter
beyond it, or leaves the counter alone. -/
theorem Effect.counter {p : Primitive} (h : p.Effect s i s') :
    (p.creates ∧ i = some s.nextId ∧ s'.nextId.toNat = s.nextId.toNat + 1) ∨
    (∃ n, p = .register n ∧ i = some n.id ∧ s'.nextId.toNat = max s.nextId.toNat (n.id.toNat + 1)) ∨
    (p.creates = false ∧ (∀ n, p ≠ .register n) ∧ i = none ∧ s'.nextId = s.nextId) := by
  have hnext (hlt : s.nextId.next?.isSome) : (⟨s.nextId.val + 1⟩ : NodeId).toNat = s.nextId.toNat + 1 := by
    obtain ⟨next, hnext⟩ := Option.isSome_iff_exists.1 hlt
    obtain ⟨rfl, hnat⟩ := NodeId.next?_eq_some hnext
    exact hnat
  cases h with
  | reserve hlt | alloc hlt _ | leaf hlt | temp hlt => exact .inl ⟨rfl, rfl, hnext hlt⟩
  | register hn hlast => exact .inr (.inl ⟨_, rfl, rfl, Store.toNat_nextId_enrolled hlast⟩)
  | replace | insertBefore | appendDeclaration | setTy => exact .inr (.inr ⟨rfl, by simp, rfl, rfl⟩)
  | discard => exact .inr (.inr ⟨rfl, by simp, rfl, Store.nextId_discardAll _⟩)

theorem Effect.ids_subset {p : Primitive} (h : p.Effect s i s') :
    s'.ids ⊆ s.ids ++ i.toList := by
  cases h with
  | reserve => exact List.subset_append_left _ _
  | register | leaf | temp => simp
  | alloc => simp
  | replace | insertBefore | appendDeclaration | setTy => simp
  | discard => simpa using (Store.ids_discardAll_sublist _).subset

theorem Effect.sound {p : Primitive} (h : p.Effect s i s') (hs : s.Sound) : s'.Sound := by
  cases h with
  | reserve hlt => exact hs.counted hlt
  | register hn hlast => exact hs.enrolled hn hlast
  | @alloc k ty hlt _ =>
    have hadded : (s.added { id := s.nextId, ty, kind := k }).Sound := hs.added rfl hlt
    exact hadded.of_ids (by simp) rfl rfl
  | leaf hlt | temp hlt => exact hs.added rfl hlt
  | replace hn => exact hs.swapped (Store.mem_ids_of_find? hn)
  | insertBefore | appendDeclaration => exact hs.of_ids (by simp) rfl rfl
  | discard => exact hs.discardAll _
  | setTy => exact hs.of_ids (by simp) rfl rfl

theorem sound_after (p : Primitive) (hs : s.Sound) : (p.after s).Sound := by
  rcases p.step s with h | ⟨-, h⟩
  · exact h.sound hs
  · rwa [h]

end Primitive

/-- The store after calls that are made one after the other, whether each of them succeeds or is refused. -/
def afterAll (calls : List Primitive) (s : Store) : Store := calls.foldl (fun s p => p.after s) s

section AfterAll

variable {s : Store} {p : Primitive} {calls more : List Primitive}

@[simp] theorem afterAll_nil : afterAll [] s = s := rfl
@[simp] theorem afterAll_cons : afterAll (p :: calls) s = afterAll calls (p.after s) := rfl
@[simp] theorem afterAll_append : afterAll (calls ++ more) s = afterAll more (afterAll calls s) :=
  List.foldl_append

theorem sound_afterAll (hs : s.Sound) : (afterAll calls s).Sound := by
  induction calls generalizing s with
  | nil => exact hs
  | cons p calls ih => exact ih (p.sound_after hs)

end AfterAll

end Edit

/-! ## Work that is made of calls -/

open Edit (Primitive afterAll)

/-- What `x` does to the store that `view` shows is what calls of `P` do, whether `x` succeeds or fails; and `x`
only fails with `out` when the counter is at its end. -/
structure Performs {ε σ α : Type} (P : Primitive → Prop) (view : σ → Store) (out : ε)
    (x : EStateM ε σ α) : Prop where
  calls : ∀ w, (view w).Sound → ∃ calls : List Primitive, (∀ p ∈ calls, P p) ∧
    view (final x w) = afterAll calls (view w)
  last : RunsOut view out x

section Performs

variable {ε σ α β : Type} {P : Primitive → Prop} {view : σ → Store} {out : ε} {x : EStateM ε σ α}
  {f : α → EStateM ε σ β}

/-- Work that leaves the store alone. -/
theorem performs_of_same (h : ∀ w, view (final x w) = view w) (hout : ∀ w w', x w ≠ .error out w') :
    Performs P view out x :=
  ⟨fun w _ => ⟨[], by simp, h w⟩, runsOut_of_ne hout⟩

theorem performs_pure {a : α} : Performs P view out (pure a : EStateM ε σ α) :=
  performs_of_same (fun _ => rfl) nofun

theorem performs_throw {e : ε} (he : e ≠ out) : Performs P view out (throw e : EStateM ε σ α) :=
  performs_of_same (fun _ => rfl) fun _ _ h => he (EStateM.Result.error.inj h).1

theorem performs_get : Performs P view out (get : EStateM ε σ σ) := performs_of_same (fun _ => rfl) nofun

theorem Performs.bind (hx : Performs P view out x) (hf : ∀ a, Performs P view out (f a)) :
    Performs P view out (x >>= f) := by
  refine ⟨fun w hw => ?_, hx.last.bind fun a => (hf a).last⟩
  obtain ⟨calls, hP, hcalls⟩ := hx.calls w hw
  cases h : x w with
  | ok a w' =>
    have hw' : view w' = afterAll calls (view w) := by rwa [final, h] at hcalls
    obtain ⟨more, hP', hmore⟩ := (hf a).calls w' (hw' ▸ Edit.sound_afterAll hw)
    refine ⟨calls ++ more, List.forall_mem_append.2 ⟨hP, hP'⟩, ?_⟩
    rw [final_bind_of_ok h, hmore, Edit.afterAll_append, hw']
  | error e w' => exact ⟨calls, hP, by rw [final_bind_of_error h, hcalls]⟩

theorem performs_forM {γ : Type} {g : γ → EStateM ε σ PUnit} (hg : ∀ c, Performs P view out (g c)) (l : List γ) :
    Performs P view out (l.forM g) := by
  induction l with
  | nil => exact performs_pure
  | cons c l ih => exact (hg c).bind fun _ => ih

theorem performs_mapM {γ : Type} {g : γ → EStateM ε σ α} (hg : ∀ c, Performs P view out (g c)) (l : List γ) :
    Performs P view out (l.mapM g) := by
  induction l with
  | nil => exact performs_pure
  | cons c l ih =>
    rw [List.mapM_cons]
    exact (hg c).bind fun _ => ih.bind fun _ => performs_pure

theorem performs_foldlM {γ : Type} {g : β → γ → EStateM ε σ β} (hg : ∀ b c, Performs P view out (g b c))
    (l : List γ) (b : β) : Performs P view out (l.foldlM g b) := by
  induction l generalizing b with
  | nil => exact performs_pure
  | cons c l ih =>
    rw [List.foldlM_cons]
    exact (hg b c).bind fun b => ih b

end Performs

namespace Edit

variable {P : Primitive → Prop} {α : Type}

/-- The work on a store that is made of calls of `P`. -/
abbrev Calls (P : Primitive → Prop) (e : Edit α) : Prop := Performs P (fun s => s) .idsExhausted e

/-- A primitive edit. -/
theorem calls_edit {e : Edit α} (p : Primitive) (hp : P p) (hedits : p.edits = true) (g : α → Option NodeId)
    (h : p.run = e >>= fun a => pure (g a)) : Calls P e := by
  refine ⟨fun s _ => ⟨[p], by simpa using hp, ?_⟩, fun s s' he => ?_⟩
  · rw [afterAll_cons, Primitive.after, h, final_bind_pure]
    rfl
  · exact p.last_run hedits s s' (by rw [h, bind_of_error he])

theorem calls_node (id : NodeId) : Calls P (node id) := by
  refine performs_of_same (fun s => ?_) fun s s' => ?_
  · rw [final, node_apply]
    cases s.find? id <;> rfl
  · rw [node_apply]
    cases s.find? id <;> simp

theorem calls_alloc {k : Kind} {ty : Option Ty} (hp : P (.alloc k ty)) : Calls P (alloc k ty) :=
  calls_edit _ hp rfl some rfl

theorem calls_copyWithin (hP : ∀ k ty, P (.alloc k ty)) (fuel : Nat) (id : NodeId) :
    Calls P (copyWithin fuel id) := by
  induction fuel generalizing id with
  | zero => exact performs_throw (by simp)
  | succ fuel ih =>
    unfold copyWithin
    refine (calls_node id).bind fun n => ?_
    refine (performs_foldlM (fun _ child => (ih child).bind fun _ => performs_pure) _ _).bind fun kind => ?_
    exact calls_alloc (hP _ _)

/-- A copy is made of new nodes alone. -/
theorem calls_deepCopy (hP : ∀ k ty, P (.alloc k ty)) (id : NodeId) : Calls P (deepCopy id) :=
  performs_get.bind fun _ => calls_copyWithin hP _ _

end Edit

end ContractTree
