import ContractTree.Lowering.Basic
import ContractTree.Proofs.Admission
import ContractTree.Proofs.Calls
import ContractTree.Proofs.Declare

/-!
Identities are handed out once. A run of the pass is made of primitive edits, on any store and whether it succeeds
or fails (`Lowering.edits_run`), and so is every history of a store. Along the primitive calls of a history the
counter never goes back and stays above all that was ever reserved or registered, so what is handed out is new
(`Edit.identities_new`).
-/

namespace ContractTree

open Edit (Primitive afterAll)
open Lowering (Progress)

/-! ## The pass is made of primitive edits -/

theorem Work.performs_edit {ε σ α : Type} {P : Primitive → Prop} {wrap : StructuralError → ε}
    (hwrap : wrap.Injective) {e : Edit α} (h : Edit.Calls P e) :
    Performs P Workspace.store (wrap .idsExhausted) (Work.edit wrap e : Work ε σ α) := by
  refine ⟨fun w hw => ?_, fun w w' hw => ?_⟩
  · obtain ⟨calls, hP, hcalls⟩ := h.calls w.store hw
    refine ⟨calls, hP, ?_⟩
    rw [← hcalls]
    unfold final Work.edit
    cases e w.store <;> rfl
  · unfold Work.edit at hw
    cases he : e w.store with
    | ok a s => simp [he] at hw
    | error cause s =>
      simp only [he, EStateM.Result.error.injEq] at hw
      obtain ⟨hcause, rfl⟩ := hw
      exact h.last w.store s (hwrap hcause ▸ he)

namespace Lower

/-- The work changes the store by primitive edits. -/
abbrev Edits {α : Type} (x : Lower α) : Prop :=
  Performs (fun p => p.edits = true) Workspace.store (.structural .idsExhausted) x

theorem structural_injective : PassError.structural.Injective := fun _ _ => PassError.structural.inj

section Basic

variable {α : Type}

theorem edits_call {e : Edit α} (p : Primitive) (g : α → Option NodeId) (hp : p.edits = true)
    (h : p.run = e >>= fun a => pure (g a)) : Edits (edit e) :=
  Work.performs_edit structural_injective (Edit.calls_edit p hp hp g h)

theorem edits_node (i : NodeId) : Edits (edit (Edit.node i)) :=
  Work.performs_edit structural_injective (Edit.calls_node i)

theorem edits_leaf (k : Kind) (ty : Option Ty) : Edits (edit (Edit.leaf k ty)) :=
  edits_call (.leaf k ty) some rfl rfl

theorem edits_temp (ty : Option Ty) : Edits (edit (Edit.temp ty)) := edits_call (.temp ty) some rfl rfl

theorem edits_alloc (k : Kind) (ty : Option Ty) : Edits (edit (Edit.alloc k ty)) :=
  edits_call (.alloc k ty) some rfl rfl

theorem edits_replace (old new : NodeId) : Edits (edit (Edit.replace old new)) :=
  edits_call (.replace old new) (fun _ => none) rfl rfl

theorem edits_insertBefore (stmt anchor block : NodeId) : Edits (edit (Edit.insertBefore stmt anchor block)) :=
  edits_call (.insertBefore stmt anchor block) (fun _ => none) rfl rfl

theorem edits_appendDeclaration (module decl : NodeId) : Edits (edit (Edit.appendDeclaration module decl)) :=
  edits_call (.appendDeclaration module decl) (fun _ => none) rfl rfl

theorem edits_discard (i : NodeId) : Edits (edit (Edit.discard i)) :=
  edits_call (.discard i) (fun _ => none) rfl rfl

theorem edits_setTy (i : NodeId) (ty : Option Ty) : Edits (edit (Edit.setTy i ty)) :=
  edits_call (.setTy i ty) (fun _ => none) rfl rfl

/-- What a slot is read into or what is stored gives the statement its type. -/
theorem edits_typed (ty : Store → Option Ty) (k : Kind) : Edits (edit (get >>= fun s => Edit.alloc k (ty s))) :=
  Work.performs_edit structural_injective (performs_get.bind fun _ => Edit.calls_alloc rfl)

theorem edits_store : Edits Work.store := performs_of_same (fun _ => rfl) nofun

theorem edits_catalog : Edits catalog := performs_of_same (fun _ => rfl) nofun

theorem edits_count (f : Lowering.Stats → Lowering.Stats) : Edits (count f) :=
  performs_of_same (fun _ => rfl) nofun

theorem edits_modifyCatalog (f : Catalog → Catalog) : Edits (modifyCatalog f) :=
  performs_of_same (fun _ => rfl) nofun

theorem edits_ask (f : Store → Catalog → Except LoweringError α) : Edits (ask f) := by
  unfold ask
  refine performs_get.bind fun w => ?_
  split
  · exact performs_pure
  · exact performs_throw (by simp)

end Basic

theorem edits_hoist {lowerKey : NodeId → Lower Unit} (hkey : ∀ i, Edits (lowerKey i)) (a : Access) (site : Site) :
    Edits (hoist lowerKey a site) := by
  unfold hoist
  refine (performs_forM hkey _).bind fun _ => edits_store.bind fun _ => ?_
  refine (edits_temp _).bind fun _ => (edits_leaf _ _).bind fun _ => ?_
  refine (edits_replace _ _).bind fun _ => edits_store.bind fun _ => ?_
  refine (edits_leaf _ _).bind fun _ => (edits_typed _ _).bind fun _ => ?_
  exact (edits_insertBefore _ _ _).bind fun _ => (edits_discard _).bind fun _ => edits_count _

theorem edits_readsBelow (site : Site) (fuel : Nat) (pick : Kind → Option NodeId) (parent : NodeId) :
    Edits (readsBelow site fuel pick parent) := by
  induction fuel generalizing pick parent with
  | zero => exact performs_throw (by simp)
  | succ fuel ih =>
    unfold readsBelow
    refine (edits_node _).bind fun n => ?_
    split
    · exact performs_pure
    · refine (edits_ask _).bind fun r => ?_
      split
      · exact performs_pure
      · exact (edits_hoist (fun i => ih Kind.slice? i) _ _).bind fun _ => ih pick parent

theorem edits_lowerReadsBelow (site : Site) (pick : Kind → Option NodeId) (parent : NodeId) :
    Edits (lowerReadsBelow site pick parent) := edits_store.bind fun _ => edits_readsBelow _ _ _ _

theorem edits_lowerReadAt (i : NodeId) : Edits (lowerReadAt i) := by
  unfold lowerReadAt
  refine (edits_ask _).bind fun r => ?_
  split
  · exact performs_pure
  · exact (edits_ask _).bind fun site => edits_hoist (edits_lowerReadsBelow site _) _ _

theorem edits_vacate (stmt : NodeId) : Edits (vacate stmt) :=
  (edits_leaf _ _).bind fun _ => (edits_replace _ _).bind fun _ => performs_pure

theorem edits_lowerOperands (node : NodeId) (a : Access) (site : Site) : Edits (lowerOperands node a site) :=
  (edits_lowerReadsBelow _ _ _).bind fun _ => performs_forM (edits_lowerReadsBelow _ _) _

theorem edits_storeValue (node : NodeId) (a : Access) (block value : NodeId) :
    Edits (storeValue node a block value) := by
  unfold storeValue
  refine edits_store.bind fun _ => (edits_vacate _).bind fun _ => ?_
  refine (edits_temp _).bind fun _ => (edits_leaf _ _).bind fun _ => ?_
  refine (edits_alloc _ _).bind fun _ => (edits_leaf _ _).bind fun _ => (edits_typed _ _).bind fun _ => ?_
  refine (edits_replace _ _).bind fun _ => (edits_insertBefore _ _ _).bind fun _ => ?_
  exact (edits_discard _).bind fun _ => (edits_discard _).bind fun _ => edits_count _

theorem edits_shareKey (hole block key : NodeId) : Edits (shareKey hole block key) := by
  unfold shareKey
  refine edits_store.bind fun s => ?_
  split
  · exact (Work.performs_edit structural_injective (Edit.calls_deepCopy (fun _ _ => rfl) key)).bind
      fun _ => performs_pure
  · refine (edits_temp _).bind fun _ => (edits_alloc _ _).bind fun _ => ?_
    refine (edits_leaf _ _).bind fun _ => (edits_leaf _ _).bind fun _ => ?_
    exact (edits_insertBefore _ _ _).bind fun _ => performs_pure

theorem edits_combineValue (node : NodeId) (a : Access) (op : BinOp) (block value : NodeId) :
    Edits (combineValue node a op block value) := by
  unfold combineValue
  refine edits_store.bind fun _ => (edits_vacate _).bind fun _ => ?_
  refine (performs_mapM (edits_shareKey _ _) _).bind fun _ => ?_
  refine (edits_temp _).bind fun _ => (edits_temp _).bind fun _ => ?_
  refine (edits_leaf _ _).bind fun _ => (edits_leaf _ _).bind fun _ => (edits_typed _ _).bind fun _ => ?_
  refine (edits_leaf _ _).bind fun _ => (edits_alloc _ _).bind fun _ => (edits_alloc _ _).bind fun _ => ?_
  refine (edits_leaf _ _).bind fun _ => (edits_typed _ _).bind fun _ => ?_
  refine (edits_insertBefore _ _ _).bind fun _ => (edits_insertBefore _ _ _).bind fun _ => ?_
  refine (edits_replace _ _).bind fun _ => ?_
  exact (edits_discard _).bind fun _ => (edits_discard _).bind fun _ => edits_count _

theorem edits_lowerTarget {node target : NodeId} {finish : Access → NodeId → NodeId → Lower Unit}
    (hfinish : ∀ a block value, Edits (finish a block value)) : Edits (lowerTarget node target finish) := by
  refine (edits_ask _).bind fun r => ?_
  split
  · exact performs_pure
  · refine (edits_ask _).bind fun site => (edits_lowerOperands _ _ _).bind fun _ => (edits_node _).bind fun n => ?_
    split
    · exact performs_pure
    · exact hfinish _ _ _

theorem edits_lowerAssign (node : NodeId) : Edits (lowerAssign node) := by
  rw [lowerAssign_eq]
  refine (edits_node _).bind fun n => ?_
  split
  · exact edits_lowerTarget fun _ _ _ => edits_storeValue _ _ _ _
  · exact performs_pure

theorem edits_lowerAugAssign (node : NodeId) : Edits (lowerAugAssign node) := by
  rw [lowerAugAssign_eq]
  refine (edits_node _).bind fun n => ?_
  split
  · exact edits_lowerTarget fun _ _ _ => edits_combineValue _ _ _ _ _
  · exact performs_pure

theorem edits_getterKeys (i : Nat) (tys : List Ty) : Edits (getterKeys i tys) := by
  induction tys generalizing i with
  | nil => exact performs_pure
  | cons ty tys ih =>
    unfold getterKeys
    exact (edits_leaf _ _).bind fun _ => (edits_leaf _ _).bind fun _ => (ih _).bind fun _ => performs_pure

theorem edits_setReturns (func : NodeId) (returns : Ty) : Edits (edit (Build.setReturns func returns)) := by
  refine Work.performs_edit structural_injective ⟨fun s hs => ?_, Edit.last_updateNode⟩
  refine ⟨[.setTy func ((s.ty? func).map (Build.withReturns returns))], by simp [Primitive.edits], ?_⟩
  rw [Edit.afterAll_cons, Edit.afterAll_nil]
  exact Edit.final_updateTy hs

theorem edits_makeGetter (v : StorageVar) (module : NodeId) : Edits (makeGetter v module) := by
  unfold makeGetter
  refine (edits_temp _).bind fun _ => (edits_leaf _ _).bind fun _ => (edits_getterKeys _ _).bind fun _ => ?_
  refine (edits_typed _ _).bind fun _ => (edits_leaf _ _).bind fun _ => (edits_alloc _ _).bind fun _ => ?_
  refine (edits_typed _ _).bind fun _ => (edits_setReturns _ _).bind fun _ => ?_
  exact (edits_appendDeclaration _ _).bind fun _ => edits_count _

theorem edits_addGetter (v : StorageVar) (module : NodeId) : Edits (addGetter v module) := by
  unfold addGetter
  refine (edits_node _).bind fun n => ?_
  split
  · refine edits_store.bind fun s => ?_
    split
    · exact performs_throw (by simp)
    · exact edits_makeGetter v module
  · exact edits_makeGetter v module

theorem edits_lowerDeclaration (node module : NodeId) : Edits (lowerDeclaration node module) := by
  unfold lowerDeclaration
  refine edits_catalog.bind fun c => ?_
  split
  · exact performs_pure
  · refine edits_store.bind fun s => ?_
    split
    · exact performs_pure
    · refine (edits_setTy _ _).bind fun _ => (edits_node _).bind fun n => ?_
      split
      · split
        · exact (edits_setTy _ _).bind fun _ => edits_addGetter _ module
        · exact edits_addGetter _ module
      · split
        · exact (edits_setTy _ _).bind fun _ => performs_pure
        · exact performs_pure

theorem edits_collectDecl (decl : NodeId) : Edits (collectDecl decl) := by
  unfold collectDecl
  refine (edits_node _).bind fun n => ?_
  split
  · split
    · exact performs_pure
    · refine (edits_node _).bind fun k => ?_
      split
      · exact performs_throw (by simp)
      · refine edits_store.bind fun s => ?_
        split
        · exact performs_throw (by simp)
        · exact edits_modifyCatalog _
  · exact performs_pure

theorem edits_collectCatalog (module : NodeId) : Edits (collectCatalog module) := by
  unfold collectCatalog
  refine (edits_modifyCatalog _).bind fun _ => (edits_node _).bind fun n => ?_
  split
  · exact performs_forM edits_collectDecl _
  · exact performs_throw (by simp)

end Lower

namespace Visitor

variable {ε σ : Type} {v : Visitor ε σ} {P : Primitive → Prop}

theorem performs_dispatch (hwrap : v.wrap.Injective)
    (hv : ∀ tag i m, Performs P Workspace.store (v.wrap .idsExhausted) (v.visit tag i m)) (i m : NodeId) :
    Performs P Workspace.store (v.wrap .idsExhausted) (v.dispatch i m) := by
  unfold dispatch
  exact (Work.performs_edit hwrap (Edit.calls_node i)).bind fun n => hv _ _ _

theorem performs_settle (hwrap : v.wrap.Injective)
    (hv : ∀ tag i m, Performs P Workspace.store (v.wrap .idsExhausted) (v.visit tag i m)) (m : NodeId) (fuel : Nat)
    (i : NodeId) : Performs P Workspace.store (v.wrap .idsExhausted) (v.settle m fuel i) := by
  induction fuel generalizing i with
  | zero => exact performs_throw (hwrap.ne (by simp))
  | succ fuel ih =>
    unfold settle
    refine (performs_dispatch hwrap hv i m).bind fun _ => Performs.bind (performs_of_same (fun _ => rfl) nofun)
      fun s => ?_
    split
    · exact performs_pure
    · split
      · exact performs_pure
      · split
        · exact ih _
        · exact performs_pure

/-- A walk does what its visits do. -/
theorem performs_walkNode (hwrap : v.wrap.Injective)
    (hv : ∀ tag i m, Performs P Workspace.store (v.wrap .idsExhausted) (v.visit tag i m)) (m : NodeId)
    (fuel : Nat) : (∀ i, Performs P Workspace.store (v.wrap .idsExhausted) (v.walkNode m fuel i)) ∧
      ∀ i index, Performs P Workspace.store (v.wrap .idsExhausted) (v.walkChildren m fuel i index) := by
  induction fuel with
  | zero => exact ⟨fun _ => performs_throw (hwrap.ne (by simp)), fun _ _ => performs_throw (hwrap.ne (by simp))⟩
  | succ fuel ih =>
    refine ⟨fun i => ?_, fun i index => ?_⟩
    · unfold walkNode
      refine (performs_settle hwrap hv m fuel i).bind fun r => ?_
      split
      · exact performs_pure
      · exact ih.2 _ _
    · unfold walkChildren
      refine Performs.bind (performs_of_same (fun _ => rfl) nofun) fun s => ?_
      dsimp only
      split
      · exact performs_pure
      · refine (ih.1 _).bind fun visited => Performs.bind (performs_of_same (fun _ => rfl) nofun) fun s' => ?_
        split
        · exact ih.2 _ _
        · exact performs_pure

end Visitor

namespace Lowering

open Lower

theorem edits_visit (tag : Tag) (i m : NodeId) : Edits (visitor.visit tag i m) := by
  simp only [visitor]
  split
  · exact edits_collectCatalog i
  · exact edits_lowerDeclaration i m
  · exact edits_lowerAssign i
  · exact edits_lowerAugAssign i
  · exact edits_lowerReadAt i
  · exact edits_lowerReadAt i
  · exact performs_pure

/-- A run of the pass is made of primitive edits. -/
theorem edits_run (m : NodeId) : Edits (run m) := by
  unfold run Visitor.walk
  refine (edits_count _).bind fun _ => edits_store.bind fun s => (edits_node m).bind fun n => ?_
  split
  · exact ((Visitor.performs_walkNode (v := visitor) structural_injective edits_visit m _).1 m).bind
      fun _ => performs_pure
  · exact performs_throw (by simp [visitor])

end Lowering

/-! ## Histories -/

namespace Edit

/-- A request to a store: a primitive call, a copy of a subtree, or a run of the pass, with what the pass keeps
beside the store. -/
inductive Request where
  | call (p : Primitive)
  | deepCopy (id : NodeId)
  | lower (module : NodeId) (own : Progress)

/-- The store after a request, whether it succeeds or fails. -/
def Request.after : Request → Store → Store
  | .call p, s => p.after s
  | .deepCopy id, s => final (Edit.deepCopy id) s
  | .lower module own, s => (final (Lowering.run module) ⟨s, own⟩).store

/-- The request is made of these calls: it is one itself, or they are edits that leave the store that it leaves. -/
def Request.MadeOf (s : Store) : Request → List Primitive → Prop
  | .call p, calls => calls = [p]
  | r, calls => (∀ p ∈ calls, p.edits = true) ∧ afterAll calls s = r.after s

/-- The identities that a request creates: the one that a call hands out, the one that a copy gives, and those that
a copy or a run registers. -/
inductive Request.Creates (s : Store) : Request → NodeId → Prop where
  | call {p : Primitive} {i : NodeId} (hp : p.creates = true) (hi : p.issued? s = some i) : Creates s (.call p) i
  | copy {id i : NodeId} {s' : Store} (h : Edit.deepCopy id s = .ok i s') : Creates s (.deepCopy id) i
  | added {r : Request} {i : NodeId} (hr : ∀ p, r ≠ .call p) (hi : i ∈ (r.after s).ids) (hnew : i ∉ s.ids) :
      Creates s r i

/-- The requests, made one after the other, are made of these calls. -/
inductive Enacted : Store → List Request → List Primitive → Prop where
  | nil (s : Store) : Enacted s [] []
  | cons {s : Store} {r : Request} {requests : List Request} {calls more : List Primitive} (h : r.MadeOf s calls)
    (hmore : Enacted (r.after s) requests more) : Enacted s (r :: requests) (calls ++ more)

/-- What the calls hand out or register, in this order. -/
def issuedAll : List Primitive → Store → List NodeId
  | [], _ => []
  | p :: calls, s => (p.issued? s).toList ++ issuedAll calls (p.after s)

/-- Where a store comes from. -/
inductive Origin where
  | new
  | withNextId (next : NodeId)
  | document (d : Document)

def Origin.store : Origin → Except StructuralError Store
  | .new => .ok {}
  | .withNextId next => .ok { nextId := next }
  | .document d => d.toStore

variable {s : Store} {r : Request} {requests : List Request} {calls : List Primitive}

theorem Request.exists_calls (hs : s.Sound) (r : Request) : ∃ calls, r.MadeOf s calls := by
  cases r with
  | call p => exact ⟨[p], rfl⟩
  | deepCopy id =>
    obtain ⟨calls, hedits, hcalls⟩ :=
      (calls_deepCopy (P := fun p => p.edits = true) (fun _ _ => rfl) id).calls s hs
    exact ⟨calls, hedits, hcalls.symm⟩
  | lower module own =>
    obtain ⟨calls, hedits, hcalls⟩ := (Lowering.edits_run module).calls ⟨s, own⟩ hs
    exact ⟨calls, hedits, hcalls.symm⟩

theorem Request.MadeOf.afterAll_eq (h : r.MadeOf s calls) : afterAll calls s = r.after s := by
  cases r with
  | call p =>
    obtain rfl : calls = [p] := h
    rfl
  | deepCopy id => exact h.2
  | lower module own => exact h.2

theorem exists_enacted (hs : s.Sound) (requests : List Request) : ∃ calls, Enacted s requests calls := by
  induction requests generalizing s with
  | nil => exact ⟨[], .nil s⟩
  | cons r requests ih =>
    obtain ⟨calls, hcalls⟩ := r.exists_calls hs
    obtain ⟨more, hmore⟩ := ih (hcalls.afterAll_eq ▸ sound_afterAll hs)
    exact ⟨calls ++ more, .cons hcalls hmore⟩

theorem Enacted.afterAll_eq (h : Enacted s requests calls) :
    afterAll calls s = requests.foldl (fun s r => r.after s) s := by
  induction h with
  | nil => rfl
  | cons h _ ih => rw [afterAll_append, h.afterAll_eq, ih, List.foldl_cons]

/-! ## What is created -/

/-- Edits do not move the counter back, and what they add is not below it. -/
theorem nextId_le_afterAll (hedits : ∀ p ∈ calls, p.edits = true) :
    s.nextId ≤ (afterAll calls s).nextId ∧ ∀ i ∈ (afterAll calls s).ids, i ∈ s.ids ∨ s.nextId ≤ i := by
  induction calls generalizing s with
  | nil => exact ⟨Nat.le_refl _, fun i hi => .inl hi⟩
  | cons p calls ih =>
    obtain ⟨hp, hedits⟩ := List.forall_mem_cons.1 hedits
    obtain ⟨hle, hnew⟩ := ih (s := p.after s) hedits
    have hone : s.nextId ≤ (p.after s).nextId ∧ ∀ i ∈ (p.after s).ids, i ∈ s.ids ∨ s.nextId ≤ i := by
      rcases p.step s with heff | ⟨-, hsame⟩
      · have hids := heff.ids_subset
        rcases heff.counter with ⟨-, hi, hn⟩ | ⟨n, rfl, -, -⟩ | ⟨-, -, hi, hn⟩
        · refine ⟨Nat.le_trans (Nat.le_succ _) (Nat.le_of_eq hn.symm), fun i hmem => ?_⟩
          rcases List.mem_append.1 (hids hmem) with hmem | hmem
          · exact .inl hmem
          · rw [hi, Option.toList_some, List.mem_singleton] at hmem
            exact .inr (hmem ▸ Nat.le_refl _)
        · cases hp
        · refine ⟨Nat.le_of_eq (by rw [hn]), fun i hmem => .inl ?_⟩
          simpa [hi] using hids hmem
      · rw [hsame]
        exact ⟨Nat.le_refl _, fun i hi => .inl hi⟩
    refine ⟨Nat.le_trans hone.1 hle, fun i hi => ?_⟩
    rcases hnew i hi with hi | hi
    · exact hone.2 i hi
    · exact .inr (Nat.le_trans hone.1 hi)

/-- What a copy gives is handed out last. -/
theorem nextId_le_deepCopy {id i : NodeId} {s' : Store} (hs : s.Sound) (h : deepCopy id s = .ok i s') :
    s.nextId ≤ i := by
  have hcopy : ∀ fuel, Ends (copyWithin (fuel + 1) id) s (fun i _ => s.nextId ≤ i) fun _ _ => True := by
    intro fuel
    rw [copyWithin, ends_bind]
    refine ends_node.mono ?_ fun _ _ _ => trivial
    rintro n s₁ ⟨hs₁, -⟩
    rw [hs₁, ends_bind]
    have hcalls : Calls (·.edits = true) (n.children.foldlM (fun kind child => do
        let copy ← copyWithin fuel child
        return (kind.replaceChild? child copy).getD kind) n.kind) :=
      performs_foldlM (fun _ child => (calls_copyWithin (fun _ _ => rfl) _ child).bind fun _ => performs_pure) _ _
    obtain ⟨calls, hedits, hfinal⟩ := hcalls.calls s hs
    have hle : s.nextId ≤ (final _ s).nextId := hfinal ▸ (nextId_le_afterAll hedits).1
    unfold final at hle
    unfold Ends
    split
    · next kind s₂ hkind =>
      rw [hkind] at hle
      refine (ends_alloc kind n.ty).mono ?_ fun _ _ _ => trivial
      rintro i _ ⟨rfl, -⟩
      exact hle
    · trivial
  exact (hcopy s.size).of_ok h

theorem nextId_le_of_creates {i : NodeId} (hs : s.Sound) (h : r.Creates s i) : s.nextId ≤ i := by
  cases h with
  | @call p _ hp hi =>
    rcases p.step s with heff | ⟨hnone, -⟩
    · rcases heff.counter with ⟨-, hnext, -⟩ | ⟨n, rfl, -, -⟩ | ⟨hp', -⟩
      · obtain rfl := Option.some.inj (hi.symm.trans hnext)
        exact Nat.le_refl _
      · cases hp
      · rw [hp] at hp'
        cases hp'
    · rw [hnone] at hi
      cases hi
  | copy h => exact nextId_le_deepCopy hs h
  | added hr hi hnew =>
    obtain ⟨calls, hcalls⟩ := r.exists_calls hs
    have hedits : (∀ p ∈ calls, p.edits = true) ∧ afterAll calls s = r.after s := by
      cases r with
      | call p => exact absurd rfl (hr p)
      | deepCopy id | lower module own => exact hcalls
    rw [← hedits.2] at hi
    exact ((nextId_le_afterAll hedits.1).2 i hi).resolve_left hnew

/-! ## What was ever issued -/

/-- `E` holds all that was ever reserved or registered: the counter is above it, and the nodes of the store are
among it. -/
structure Covers (E : List NodeId) (s : Store) : Prop where
  sound : s.Sound
  below : ∀ i ∈ E, i < s.nextId
  known : s.ids ⊆ E

variable {E : List NodeId} {p : Primitive} {i : NodeId}

/-- One call: the counter does not go back, and what it hands out or registers is below it afterwards. -/
theorem Covers.step (h : Covers E s) (p : Primitive) :
    Covers (E ++ (p.issued? s).toList) (p.after s) ∧ s.nextId ≤ (p.after s).nextId := by
  rcases p.step s with heff | ⟨hi, hs⟩
  · have hle : s.nextId ≤ (p.after s).nextId ∧ ∀ i ∈ p.issued? s, i < (p.after s).nextId := by
      show s.nextId.toNat ≤ _ ∧ ∀ i ∈ p.issued? s, i.toNat < _
      rcases heff.counter with ⟨-, hi, hn⟩ | ⟨n, -, hi, hn⟩ | ⟨-, -, hi, hn⟩ <;> rw [hi, hn]
      · simp
      · simp only [Option.mem_some_iff, forall_eq']
        omega
      · simp
    refine ⟨⟨heff.sound h.sound, ?_, ?_⟩, hle.1⟩
    · refine List.forall_mem_append.2 ⟨fun i hi => Nat.lt_of_lt_of_le (h.below i hi) hle.1, fun i hi => ?_⟩
      exact hle.2 i (by simpa using hi)
    · refine List.Subset.trans heff.ids_subset (List.append_subset.2 ⟨?_, List.subset_append_right _ _⟩)
      exact List.Subset.trans h.known (List.subset_append_left _ _)
  · rw [hi, hs]
    exact ⟨by simpa using h, Nat.le_refl _⟩

theorem Covers.run (h : Covers E s) (calls : List Primitive) :
    Covers (E ++ issuedAll calls s) (afterAll calls s) := by
  induction calls generalizing E s with
  | nil => simpa [issuedAll] using h
  | cons p calls ih =>
    rw [issuedAll, ← List.append_assoc]
    exact ih (h.step p).1

/-- What a request creates was never issued before. -/
theorem Covers.fresh (h : Covers E s) (hi : r.Creates s i) : i ∉ E := fun hE =>
  Nat.not_lt.2 (nextId_le_of_creates h.sound hi) (h.below i hE)

theorem Origin.covers {start : Origin} (h : start.store = .ok s) : Covers s.ids s := by
  have hsound : s.Sound := by
    cases start with
    | new =>
      cases h
      exact Document.sound_fresh _
    | withNextId next =>
      cases h
      exact Document.sound_fresh next
    | document d =>
      obtain ⟨hreg, rfl, -⟩ := Document.spec_of_toStore h
      exact Document.sound_foldl_enrolled (Document.sound_fresh _) hreg
  exact ⟨hsound, hsound.below, List.Subset.refl _⟩

/-- **Identities are handed out once.** A history of a store is made of primitive calls. After each of them every
registered identity was there at first or was issued since, and is below the counter; no call moves the counter
back; and what a call hands out is neither an identity of the first nodes nor one that was issued before, whether
its node is still there or not. After the history, what the next request creates is not below the counter, and so
was not there at first or issued before either: the identity that a call hands out or that a copy gives, and every
identity that a copy or a run of the pass registers. -/
theorem identities_new {start : Origin} (hstart : start.store = .ok s) (requests : List Request) :
    (∃ calls, Enacted s requests calls) ∧ ∀ calls, Enacted s requests calls →
      afterAll calls s = requests.foldl (fun s r => r.after s) s ∧
      (∀ before later, calls = before ++ later → ∀ i ∈ (afterAll before s).ids,
        i ∈ s.ids ++ issuedAll before s ∧ i < (afterAll before s).nextId) ∧
      (∀ before p later, calls = before ++ p :: later →
        (afterAll before s).nextId ≤ (afterAll (before ++ [p]) s).nextId ∧
        (p.creates = true → ∀ i, p.issued? (afterAll before s) = some i → i ∉ s.ids ++ issuedAll before s)) ∧
      ∀ r i, Request.Creates (requests.foldl (fun s r => r.after s) s) r i →
        (requests.foldl (fun s r => r.after s) s).nextId ≤ i ∧ i ∉ s.ids ++ issuedAll calls s := by
  have hcovers := Origin.covers hstart
  refine ⟨exists_enacted hcovers.sound requests, fun calls hcalls => ⟨hcalls.afterAll_eq, ?_, ?_, ?_⟩⟩
  · rintro before later - i hi
    have hbefore := hcovers.run before
    exact ⟨hbefore.known hi, hbefore.sound.below i hi⟩
  · rintro before p later -
    have hbefore := hcovers.run before
    rw [afterAll_append]
    exact ⟨(hbefore.step p).2, fun hp i hi => hbefore.fresh (.call hp hi)⟩
  · intro r i hi
    have hafter := hcovers.run calls
    rw [hcalls.afterAll_eq] at hafter
    exact ⟨nextId_le_of_creates hafter.sound hi, hafter.fresh hi⟩

/-- A foreign node comes and goes, around a run that makes a getter, and then the module is copied. -/
theorem identities_new_unnumbered : ∃ s, (Origin.document .unnumbered).store = .ok s ∧
    ∃ calls, Enacted s [.call (.register { id := ⟨40⟩, kind := .pass }), .lower ⟨7⟩ {}, .call (.discard ⟨40⟩),
      .call .reserve] calls ∧
      (∀ before p later i, calls = before ++ p :: later → p.creates = true →
        p.issued? (afterAll before s) = some i → i ∉ s.ids ++ issuedAll before s) ∧
      ∀ c s', Edit.deepCopy ⟨7⟩ (afterAll calls s) = .ok c s' → c ∉ s.ids ++ issuedAll calls s := by
  have hs : (Origin.document .unnumbered).store = .ok { nextId := ⟨8⟩, nodes := Document.unnumbered.nodes } :=
    Document.toStore_unnumbered
  obtain ⟨⟨calls, hcalls⟩, hnew⟩ := identities_new hs
    [.call (.register { id := ⟨40⟩, kind := .pass }), .lower ⟨7⟩ {}, .call (.discard ⟨40⟩), .call .reserve]
  obtain ⟨hafter, -, hissued, hcreated⟩ := hnew calls hcalls
  refine ⟨_, hs, calls, hcalls, fun before p later i hsplit hp hi => (hissued before p later hsplit).2 hp i hi, ?_⟩
  intro c s' hcopy
  exact (hcreated (.deepCopy ⟨7⟩) c (.copy (hafter ▸ hcopy))).2

end Edit

end ContractTree
