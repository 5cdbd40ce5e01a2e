import ContractTree.Lowering.Read
import ContractTree.Proofs.Guard
import ContractTree.Proofs.Walkable

/-!
The course of the pass. Its work is made of primitive edits, one call after the other, and what is said of a run
may be said of every store on the way: of the one at the start, of the one after each call, and so of the one at
the end, whether the work succeeds or fails. `Course I x w Q X` says that of `I`, along with what the work leaves.
The stores on the way of the pass all keep a guarded forest with the tree of the module in it (`Store.Tends`).
-/

namespace ContractTree

open Edit (Primitive afterAll)
open Lowering (Progress Stats)

/-- The pass has this catalog and these statistics, and its store keeps the forest. -/
structure Has (w : Workspace Progress) (c : Catalog) (st : Stats) (F : Forest) (H : List Node) (G : Outside) :
    Prop where
  own : w.own = ⟨c, st⟩
  keeps : w.store.Keeps F H G

/-- The store of the pass holds a tree whose top is `m`. -/
def Whole (m : NodeId) (w : Workspace Progress) : Prop := w.store.Good m

/-- The pass failed with an error of `X`, and its store holds a tree whose top is `m`. -/
def Stopped (m : NodeId) (X : PassError → Prop) (e : PassError) (w : Workspace Progress) : Prop := Whole m w ∧ X e

section Has

variable {w : Workspace Progress} {c : Catalog} {st : Stats} {F : Forest} {H : List Node} {G : Outside} {T : Tree}
  {m : NodeId}

theorem Has.catalog (h : Has w c st F H G) : w.own.catalog = c := by rw [h.own]

theorem Has.holds (h : Has w c st ((none, T) :: F) H G) : w.store.Holds none T :=
  h.keeps.holds _ List.mem_cons_self

theorem Has.fits (h : Has w c st ((none, T) :: F) H G) : T.Fits := h.keeps.fits _ List.mem_cons_self

theorem Has.nodup (h : Has w c st ((none, T) :: F) H G) :
    T.ids.Nodup := h.keeps.tree_nodup (p := none) List.mem_cons_self

theorem Has.whole (h : Has w c st F H G) (hT : (none, T) ∈ F) (hm : T.id = m) : Whole m w := hm ▸ h.keeps.good hT

end Has

/-- The only cause for which a new node is refused is a fault. -/
theorem PassError.Fault.of_exhausted {proper able : Prop} :
    ∀ cause, cause = StructuralError.idsExhausted → Fault proper able (.structural cause) := by
  rintro _ rfl
  exact .ids

/-! ## Stores on the way -/

namespace Store

variable {s : Store} {c : Catalog} {g : Guard c} {m : NodeId} {F : Forest} {H : List Node} {G : Outside} {T : Tree}

/-- The store keeps a guarded forest, and in it a tree without a parent whose top is `m`. -/
def Tends (g : Guard c) (m : NodeId) (G : Outside) (s : Store) : Prop :=
  ∃ T F H, s.Bears g ((none, T) :: F) H G ∧ T.id = m

theorem Bears.tends (h : s.Bears g F H G) (hT : (none, T) ∈ F) (hm : T.id = m) : s.Tends g m G := by
  obtain ⟨L, R, rfl⟩ := List.append_of_mem hT
  exact ⟨T, L ++ R, H, h.perm List.perm_middle (List.Perm.refl _), hm⟩

/-- The guard that watches over nothing is there from the start. -/
theorem Keeps.tends_idle (h : s.Keeps [(none, T)] [] G) : s.Tends (Guard.idle c) T.id G :=
  ⟨T, [], [], ⟨h, by simp, trivial⟩, rfl⟩

/-- What is kept under a guard is kept. -/
theorem Tends.idle (h : s.Tends g m G) : s.Tends (Guard.idle []) m G := by
  obtain ⟨T, F, H, hb, hid⟩ := h
  exact ⟨T, F, H, ⟨hb.toKeeps, hb.sunk, trivial⟩, hid⟩

theorem Tends.good (h : s.Tends g m G) : s.Good m := by
  obtain ⟨T, F, H, hb, rfl⟩ := h
  exact hb.good List.mem_cons_self

/-- A store that keeps one tree keeps it under the guard. -/
theorem Tends.bears (h : s.Tends g m G) (hk : s.Keeps [(none, T)] [] G) (hm : T.id = m) :
    s.Bears g [(none, T)] [] G := by
  obtain ⟨U, F, H, hb, hid⟩ := h
  have hone : ∀ i ∈ s.ids, i ∈ T.ids ∨ i ∈ G.ids := fun i hi => by simpa using hk.rest i hi
  obtain rfl : U = T := (hb.holds _ List.mem_cons_self).unique (hb.fits _ List.mem_cons_self)
    (hb.tree_nodup (p := none) List.mem_cons_self) (hk.holds _ List.mem_cons_self) (hk.fits _ List.mem_cons_self)
    (hk.tree_nodup (p := none) List.mem_cons_self) (hid.trans hm.symm)
  -- what else the forest has is neither in the tree nor set apart
  have hnone : ∀ i, i ∉ Forest.ids F ++ H.map Node.id := by
    intro i hi
    have hnd := hb.nodup
    rw [Forest.ids_cons, List.append_assoc, List.nodup_append'] at hnd
    have hin : i ∈ Forest.ids ((none, U) :: F) ++ H.map Node.id := by
      rw [Forest.ids_cons, List.append_assoc]
      exact List.mem_append_right _ hi
    rcases hone i (hb.mem_ids hin) with hU | hG
    · exact hnd.2.2 hU hi
    · exact (hb.apart i hG).2 hin
  obtain rfl : F = [] := by
    refine List.eq_nil_iff_forall_not_mem.2 fun x hx => ?_
    exact hnone x.2.id (List.mem_append_left _ (Forest.mem_ids_of_mem hx x.2.id_mem_ids))
  obtain rfl : H = [] := by
    refine List.eq_nil_iff_forall_not_mem.2 fun n hn => ?_
    exact hnone n.id (List.mem_append_right _ (List.mem_map_of_mem hn))
  exact hb

end Store

/-! ## Ways -/

/-- Calls of primitive edits lead from `s` to `s'`, and `I` is true of every store on the way. -/
def Way (I : Store → Prop) (s s' : Store) : Prop :=
  ∃ calls : List Primitive, (∀ p ∈ calls, p.edits = true) ∧ s' = afterAll calls s ∧
    ∀ before, before <+: calls → I (afterAll before s)

namespace Way

variable {I J : Store → Prop} {s s' s'' : Store}

theorem refl (h : I s) : Way I s s := by
  refine ⟨[], by simp, rfl, fun before hb => ?_⟩
  obtain rfl := List.prefix_nil.1 hb
  exact h

theorem one {p : Primitive} (hp : p.edits = true) (h : I s) (h' : I (p.after s)) : Way I s (p.after s) := by
  refine ⟨[p], by simpa using hp, rfl, fun before hb => ?_⟩
  cases before with
  | nil => exact h
  | cons q before =>
    obtain ⟨rfl, hrest⟩ := List.cons_prefix_cons.1 hb
    obtain rfl := List.prefix_nil.1 hrest
    exact h'

theorem start (h : Way I s s') : I s := by
  obtain ⟨calls, -, -, hI⟩ := h
  exact hI [] List.nil_prefix

theorem finish (h : Way I s s') : I s' := by
  obtain ⟨calls, -, rfl, hI⟩ := h
  exact hI calls (List.prefix_refl _)

theorem mono (h : Way I s s') (hI : ∀ s, I s → J s) : Way J s s' := by
  obtain ⟨calls, hcalls, hend, hall⟩ := h
  exact ⟨calls, hcalls, hend, fun before hb => hI _ (hall before hb)⟩

theorem trans (h : Way I s s') (h' : Way I s' s'') : Way I s s'' := by
  obtain ⟨calls, hcalls, rfl, hI⟩ := h
  obtain ⟨more, hmore, rfl, hI'⟩ := h'
  refine ⟨calls ++ more, List.forall_mem_append.2 ⟨hcalls, hmore⟩, by rw [Edit.afterAll_append],
    fun before hb => ?_⟩
  -- the cut is before the end of the first way, or in the second
  rcases List.prefix_or_prefix_of_prefix hb (List.prefix_append calls more) with hb' | ⟨rest, rfl⟩
  · exact hI before hb'
  · rw [Edit.afterAll_append]
    exact hI' rest ((List.prefix_append_right_inj calls).1 hb)

end Way

/-! ## Courses -/

section Course

variable {α β : Type} {I J : Store → Prop} {x y : Lower α} {f : α → Lower β} {w w' : Workspace Progress}
  {Q Q' : α → Workspace Progress → Prop} {R : β → Workspace Progress → Prop} {X X' : PassError → Prop}

/-- The work leaves `Q` or fails with an error of `X`, and `I` is true of every store on the way. -/
structure Course (I : Store → Prop) (x : Lower α) (w : Workspace Progress) (Q : α → Workspace Progress → Prop)
    (X : PassError → Prop) : Prop where
  ends : Ends x w Q fun e _ => X e
  way : Way I w.store (final x w).store

namespace Course

theorem mono (h : Course I x w Q X) (hQ : ∀ a w', Q a w' → Q' a w') (hX : ∀ e, X e → X' e) : Course I x w Q' X' :=
  ⟨h.ends.mono hQ fun e _ => hX e, h.way⟩

/-- The way of the work ends with the store that it leaves, whether it succeeds or fails. -/
theorem ends_way (h : Course I x w Q X) : Ends x w (fun a w' => Q a w' ∧ Way I w.store w'.store)
    fun e w' => X e ∧ Way I w.store w'.store := by
  obtain ⟨hends, hway⟩ := h
  unfold Ends at hends ⊢
  rw [final] at hway
  cases hx : x w with
  | ok a w' =>
    rw [hx] at hends hway
    exact ⟨hends, hway⟩
  | error e w' =>
    rw [hx] at hends hway
    exact ⟨hends, hway⟩

theorem congr (hxy : x w = y w) : Course I x w Q X ↔ Course I y w Q X := by
  have hfinal : final x w = final y w := by rw [final, final, hxy]
  constructor
  · rintro ⟨hends, hway⟩
    exact ⟨by rwa [Ends, ← hxy], hfinal ▸ hway⟩
  · rintro ⟨hends, hway⟩
    exact ⟨by rwa [Ends, hxy], hfinal ▸ hway⟩

/-- Work that leaves the store alone. -/
theorem of_same (hI : I w.store) (hsame : (final x w).store = w.store) (h : Ends x w Q fun e _ => X e) :
    Course I x w Q X :=
  ⟨h, by rw [hsame]; exact .refl hI⟩

theorem of_ends (hI : I w.store) (h : Ends x w (fun a w' => w'.store = w.store ∧ Q a w')
    fun e w' => w'.store = w.store ∧ X e) :
    Course I x w Q X := by
  refine of_same hI ?_ (h.mono (fun _ _ h => h.2) fun _ _ h => h.2)
  unfold final
  cases hx : x w with
  | ok a w' => exact (h.of_ok hx).1
  | error e w' => exact (h.of_error hx).1

theorem pure {a : α} (hI : I w.store) (hQ : Q a w) : Course I (pure a) w Q X := of_same hI rfl hQ

theorem throw {e : PassError} (hI : I w.store) (hX : X e) : Course I (throw e) w Q X := of_same hI rfl hX

/-- One course after another. -/
theorem bind (h : Course I x w Q X) (hf : ∀ a w', Q a w' → I w'.store → Course I (f a) w' R X) :
    Course I (x >>= f) w R X := by
  have hends := h.ends_way
  cases hx : x w with
  | error e w' =>
    obtain ⟨hX, hway⟩ := hends.of_error hx
    refine ⟨?_, ?_⟩
    · rw [Ends, bind_of_error hx]
      exact hX
    · rw [final, bind_of_error hx]
      exact hway
  | ok a w' =>
    obtain ⟨hQ, hway⟩ := hends.of_ok hx
    have hrest := hf a w' hQ hway.finish
    refine ⟨?_, ?_⟩
    · rw [Ends, bind_of_ok hx]
      exact hrest.ends
    · rw [final_bind_of_ok hx]
      exact hway.trans hrest.way

/-- Where the work fails, `I` is true of what it leaves. -/
theorem stopped {m : NodeId} (h : Course I x w Q X) (hI : ∀ s, I s → s.Good m) : Ends x w Q (Stopped m X) :=
  h.ends_way.mono (fun _ _ hq => hq.1) fun _ _ he => ⟨hI _ he.2.finish, he.1⟩

end Course

end Course

namespace Lower

variable {α β : Type} {I : Store → Prop} {w : Workspace Progress} {R : β → Workspace Progress → Prop}
  {X : PassError → Prop}

theorem edit_apply (e : Edit α) : edit e w = match e w.store with
    | .ok a s => .ok a { w with store := s }
    | .error err s => .error (.structural err) { w with store := s } := rfl

/-- An edit, which may be refused without effect, and what follows it. -/
theorem edit_then {e : Edit α} {f : α → Lower β} {Q : α → Store → Prop} {R : β → Workspace Progress → Prop}
    {E : PassError → Workspace Progress → Prop} {X : StructuralError → Prop}
    (h : Ends e w.store Q (Refusal w.store X)) (hE : ∀ cause, X cause → E (.structural cause) w)
    (hf : ∀ a w', w'.own = w.own → Q a w'.store → Ends (f a) w' R E) : Ends (edit e >>= f) w R E := by
  rw [ends_bind]
  unfold Ends at h
  rw [Ends, edit_apply]
  cases he : e w.store with
  | ok a s' =>
    rw [he] at h
    exact hf a { w with store := s' } rfl h
  | error err s' =>
    rw [he] at h
    obtain ⟨rfl, hX⟩ : s' = w.store ∧ X err := h
    exact hE err hX

theorem store_then {f : Store → Lower β} {R : β → Workspace Progress → Prop}
    {E : PassError → Workspace Progress → Prop} : Ends (Work.store >>= f) w R E ↔ Ends (f w.store) w R E := by
  rw [ends_bind]
  rfl

theorem node_then {i : NodeId} {n : Node} {f : Node → Lower β} {R : β → Workspace Progress → Prop}
    {E : PassError → Workspace Progress → Prop} (hn : w.store.find? i = some n) :
    Ends (edit (Edit.node i) >>= f) w R E ↔ Ends (f n) w R E := by
  rw [ends_bind, Ends, edit_apply, Edit.node_apply, hn]

/-- The same of a primitive edit and of all stores on the way. -/
theorem course_edit {e : Edit α} {f : α → Lower β} {Q : α → Store → Prop} {cause : StructuralError → Prop}
    (hI : I w.store) (h : Edit.Does e w.store Q cause) (hX : ∀ err, cause err → X (.structural err))
    (hf : ∀ a w', w'.own = w.own → Q a w'.store → Course I (f a) w' R X) : Course I (edit e >>= f) w R X := by
  obtain ⟨p, hp, hafter⟩ := h.call
  have hends := h.ends
  unfold Ends at hends
  cases he : e w.store with
  | error err s' =>
    rw [he] at hends
    obtain ⟨rfl, herr⟩ : s' = w.store ∧ cause err := hends
    have hedit : edit e w = .error (.structural err) w := by rw [edit_apply, he]
    refine (Course.congr (y := throw (.structural err)) ?_).2 (.throw hI (hX err herr))
    rw [bind_of_error hedit]
    rfl
  | ok a s' =>
    rw [he] at hends
    have hedit : edit e w = .ok a { w with store := s' } := by rw [edit_apply, he]
    obtain rfl : s' = p.after w.store := by rw [← hafter, final, he]
    have hrest := hf a { w with store := p.after w.store } rfl hends
    refine ⟨?_, ?_⟩
    · rw [Ends, bind_of_ok hedit]
      exact hrest.ends
    · rw [final_bind_of_ok hedit]
      exact (Way.one hp hI hrest.way.start).trans hrest.way

/-- Where a node is made, there may be no identity left for it. -/
theorem course_make {e : Edit α} {f : α → Lower β} {Q : α → Store → Prop} {proper able : Prop} (hI : I w.store)
    (h : Edit.Does e w.store Q (· = .idsExhausted))
    (hf : ∀ a w', w'.own = w.own → Q a w'.store → Course I (f a) w' R (PassError.Fault proper able)) :
    Course I (edit e >>= f) w R (PassError.Fault proper able) :=
  course_edit hI h PassError.Fault.of_exhausted hf

theorem course_store {f : Store → Lower β} : Course I (Work.store >>= f) w R X ↔ Course I (f w.store) w R X :=
  Course.congr rfl

theorem course_catalog {f : Catalog → Lower β} :
    Course I (catalog >>= f) w R X ↔ Course I (f w.own.catalog) w R X :=
  Course.congr rfl

theorem course_node {i : NodeId} {n : Node} {f : Node → Lower β} (hn : w.store.find? i = some n) :
    Course I (edit (Edit.node i) >>= f) w R X ↔ Course I (f n) w R X := by
  refine Course.congr ?_
  have hnode : edit (Edit.node i) w = .ok n w := by rw [edit_apply, Edit.node_apply, hn]
  rw [bind_of_ok hnode]

theorem course_count {f : Stats → Stats} {Q : Unit → Workspace Progress → Prop} (hI : I w.store)
    (h : Q () { w with own := { w.own with stats := f w.own.stats } }) : Course I (count f) w Q X :=
  .of_same hI rfl h

end Lower

end ContractTree
