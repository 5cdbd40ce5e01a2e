import ContractTree.Lowering.Basic
import ContractTree.Proofs.Course
import ContractTree.Proofs.Linked
import Mathlib.Logic.Relation

/-!
The pass without bounds. The loops of the pass have bounds, so that a loop that does not end fails. Here the same
loops are one loop with a stack of jobs and no bound (`Unbounded.turn`): in each turn the job on top is done, which
takes no loop but those that look at the store, and what it leaves to do goes on the stack.

`Unbounded.Passes` says that the loop ends, and that at each turn the store keeps the tree of the module and the
job is about a node that can be looked up in it (`Unbounded.Tended`). A `Track` is a course of work together with
the jobs that do the work.
-/

namespace ContractTree

open Lowering (Progress visitor)
open Lower (ask edit)

/-! ## The steps of the pass -/

namespace Lower

/-- What is left to do for an access once its keys are lowered. -/
def takeOut (a : Access) (site : Site) : Lower Unit := do
  let ty := ((← Work.store).ty? a.top).getD a.var.value
  let temp ← edit (Edit.temp (some ty))
  let reference ← edit (Build.name (tempName temp) (some ty))
  edit (Edit.replace a.top reference)
  let keys := a.keys (← Work.store)
  let slot ← slotName a.var
  let read ← edit (Build.storageRead temp slot keys)
  edit (Edit.insertBefore read site.stmt site.block)
  edit (Edit.discard a.top)
  count fun st => { st with reads := st.reads + 1 }

theorem hoist_eq (lowerKey : NodeId → Lower Unit) (a : Access) (site : Site) :
    hoist lowerKey a site = a.subscripts.forM lowerKey >>= fun _ => takeOut a site := rfl

/-- What an assignment of either sort does with its target: if that reaches a slot, the operands are lowered, and
`finish` is given the access, the block and the value. -/
def lowerTarget (node target : NodeId) (finish : Access → NodeId → NodeId → Lower Unit) : Lower Unit := do
  match ← ask (fun s c => s.targetAccess c target) with
  | none => return ()
  | some a =>
    let site ← ask (fun s _ => a.site s)
    lowerOperands node a site
    match (← edit (Edit.node node)).kind.assigned? with
    | none => return ()
    | some value => finish a site.block value

theorem lowerAssign_eq (node : NodeId) : lowerAssign node = (do
    match (← edit (Edit.node node)).kind with
    | .assign target _ => lowerTarget node target (storeValue node)
    | _ => return ()) := rfl

theorem lowerAugAssign_eq (node : NodeId) : lowerAugAssign node = (do
    match (← edit (Edit.node node)).kind with
    | .augAssign target op _ => lowerTarget node target (combineValue node · op)
    | _ => return ()) := rfl

theorem ask_apply {α : Type} (q : Store → Catalog → Except LoweringError α) (w : Workspace Progress) :
    ask q w = match q w.store w.own.catalog with
      | .ok a => .ok a w
      | .error e => .error (.lowering e) w := by
  have hget : (get : Lower (Workspace Progress)) w = .ok w w := rfl
  rw [ask, bind_of_ok hget]
  cases q w.store w.own.catalog <;> rfl

end Lower

/-! ## The loop -/

namespace Unbounded

/-- What is to be done. -/
inductive Job where
  /-- Make sure that the module is one, and walk it. -/
  | enter
  /-- Visit a node. -/
  | visit (id : NodeId)
  /-- Go on below a node that has been visited, or with what has replaced it. -/
  | settle (id : NodeId)
  /-- Walk the children of a node from an index on. -/
  | children (id : NodeId) (index : Nat)
  /-- Go on with the children, after the one that had `sibling` behind it. -/
  | advance (id : NodeId) (sibling : Option NodeId)
  /-- Say what is in the place of the node that was walked. -/
  | give (found : Option NodeId)
  /-- Lower the accesses below the child of `parent` that `pick` selects. -/
  | reads (site : Site) (pick : Kind → Option NodeId) (parent : NodeId)
  /-- Lower an access whose keys are lowered. -/
  | takeOut (a : Access) (site : Site)
  /-- Rewrite an assignment whose operands are lowered. -/
  | finish (node : NodeId) (rewrite : NodeId → Lower Unit)

/-- The accesses in the keys of an access go first. -/
def hoist (a : Access) (site : Site) : List Job := a.subscripts.map (.reads site Kind.slice?) ++ [.takeOut a site]

def lowerReadAt (id : NodeId) : Lower (List Job) := do
  match ← ask (fun s c => s.accessAt c id) with
  | none => return []
  | some a =>
    let site ← ask (fun s _ => a.site s)
    return hoist a site

def lowerTarget (node target : NodeId) (rewrite : Access → NodeId → NodeId → Lower Unit) : Lower (List Job) := do
  match ← ask (fun s c => s.targetAccess c target) with
  | none => return []
  | some a =>
    let site ← ask (fun s _ => a.site s)
    return [.reads site Kind.assigned? node] ++ a.subscripts.map (.reads site Kind.slice?) ++
      [.finish node (rewrite a site.block)]

def visit (tag : Tag) (id module : NodeId) : Lower (List Job) :=
  match tag with
  | .module => do
    Lower.collectCatalog id
    return []
  | .variableDecl => do
    Lower.lowerDeclaration id module
    return []
  | .assign => do
    match (← edit (Edit.node id)).kind with
    | .assign target _ => lowerTarget id target (Lower.storeValue id)
    | _ => return []
  | .augAssign => do
    match (← edit (Edit.node id)).kind with
    | .augAssign target op _ => lowerTarget id target (Lower.combineValue id · op)
    | _ => return []
  | .member | .subscript => lowerReadAt id
  | _ => return []

/-- Does a job, and gives what is to be done then. The last walk has given `found`. -/
def work (module : NodeId) (found : Option NodeId) : Job → Lower (List Job)
  | .enter => do
    Lower.count fun _ => {}
    let n ← edit (Edit.node module)
    if n.kind.isModule then return [.visit module] else throw (.structural (.notAModule module))
  | .visit id => do
    let n ← edit (Edit.node id)
    return (← visit n.tag id module) ++ [.settle id]
  | .settle id => do
    let s ← Work.store
    if s.isAttached id then return [.children id 0]
    match s.replacementOf? id with
    | none => return [.give none]
    | some next => if s.isAttached next then return [.visit next] else return [.give none]
  | .children id index => do
    let before := (← Work.store).children id
    match before[index]? with
    | none => return [.give (some id)]
    | some child => return [.visit child] ++ [.advance id before[index + 1]?]
  | .advance id sibling => do
    let s ← Work.store
    if s.isAttached id then return [.children id (Visitor.nextIndex (s.children id) found sibling)]
    else return [.give (s.replacementOf? id)]
  | .give _ => return []
  | .reads site pick parent => do
    match pick (← edit (Edit.node parent)).kind with
    | none => return []
    | some root =>
      match ← ask (fun s c => s.firstAccess c root) with
      | none => return []
      | some a => return hoist a site ++ [.reads site pick parent]
  | .takeOut a site => do
    Lower.takeOut a site
    return []
  | .finish node rewrite => do
    match (← edit (Edit.node node)).kind.assigned? with
    | none => return []
    | some value =>
      rewrite value
      return []

/-- What is in the place of the node that was walked last, once a job is done. -/
def Job.found : Job → Option NodeId → Option NodeId
  | .give r, _ => r
  | _, found => found

structure State where
  /-- The jobs that are left, the next one first. -/
  todo : List Job
  found : Option NodeId
  workspace : Workspace Progress

abbrev Outcome := Except PassError Unit × Workspace Progress

/-- One turn of the loop: the next job is done. -/
def turn (module : NodeId) (s : State) : Outcome ⊕ State :=
  match s.todo with
  | [] => .inl (.ok (), s.workspace)
  | job :: rest =>
    match work module s.found job s.workspace with
    | .ok more w => .inr ⟨more ++ rest, job.found s.found, w⟩
    | .error e w => .inl (.error e, w)

/-! ## Turns -/

/-- What work with bounds ends with. -/
def outcome : EStateM.Result PassError (Workspace Progress) Unit → Outcome
  | .ok _ w => (.ok (), w)
  | .error e w => (.error e, w)

/-- The error of a loop that has met its bound. -/
def Endless (e : PassError) : Prop := ∃ i, e = .structural (.endless i)

/-- The loop ends after some number of turns. -/
def Halts (m : NodeId) (s : State) (out : Outcome) : Prop := ∃ n, LoopEnds (turn m) n s out

/-- Turns of the loop lead from one state to the other. -/
def Reached (m : NodeId) : State → State → Prop := Relation.ReflTransGen fun s s' => turn m s = .inr s'

/-- What a job looks up can be looked up. The node that it is about is below the module. Where it asks whether that
is still so, the node is free, and either it is below the module or what replaces it is. -/
def Job.Posed (s : Store) (m : NodeId) (free : NodeId → Prop) : Job → Prop
  | .enter | .give _ => True
  | .visit i | .children i _ | .reads _ _ i | .finish i _ => ∃ path, s.Reaches m path i
  | .takeOut a _ => ∃ path, s.Reaches m path a.top
  | .settle i => free i ∧ ∃ path j, s.Reaches m path j ∧ (j = i ∨ s.replacementOf? i = some j)
  | .advance i _ => free i

/-- The store keeps the tree of the module, and what the next job looks up can be looked up. -/
structure Tended (m : NodeId) (G : Outside) (s : State) : Prop where
  store : s.workspace.store.Tends (Guard.idle []) m G
  next : ∀ job ∈ s.todo.head?, job.Posed s.workspace.store m (· ∉ G.ids)

/-- The loop ends with `out`, and is tended until then. -/
inductive Passes (m : NodeId) (G : Outside) : State → Outcome → Prop where
  | stop {s : State} {out : Outcome} (hs : Tended m G s) (h : turn m s = .inl out) : Passes m G s out
  | next {s s' : State} {out : Outcome} (hs : Tended m G s) (h : turn m s = .inr s') (hrest : Passes m G s' out) :
      Passes m G s out

namespace Passes

variable {m : NodeId} {G : Outside} {s s' : State} {out : Outcome}

theorem halts (h : Passes m G s out) : Halts m s out := by
  induction h with
  | stop _ h => exact ⟨1, .stop h⟩
  | next _ h _ ih =>
    obtain ⟨n, hn⟩ := ih
    exact ⟨n + 1, .next h hn⟩

/-- Every state that the loop comes to is tended. -/
theorem tended (h : Passes m G s out) (hr : Reached m s s') : Tended m G s' := by
  induction h with
  | stop hs h =>
    rcases hr.cases_head with rfl | ⟨s₁, hturn, -⟩
    · exact hs
    · rw [h] at hturn
      cases hturn
  | next hs h _ ih =>
    rcases hr.cases_head with rfl | ⟨s₁, hturn, hr⟩
    · exact hs
    · rw [h] at hturn
      obtain rfl := Sum.inr.inj hturn
      exact ih hr

end Passes

/-- When work ends so, the loop goes on with what `next` says and passes, or has ended with an error. -/
def Goes {α : Type} (m : NodeId) (G : Outside) (next : α → List Job × Option NodeId) (out : Outcome) :
    EStateM.Result PassError (Workspace Progress) α → Prop
  | .ok a w => Passes m G ⟨(next a).1, (next a).2, w⟩ out
  | .error e w => out = (.error e, w)

/-- A job is done, and what it leaves to do comes next. -/
theorem Goes.turn {m : NodeId} {G : Outside} {job : Job} {rest : List Job} {found : Option NodeId}
    {w : Workspace Progress} {out : Outcome} (hI : w.store.Tends (Guard.idle []) m G)
    (hposed : job.Posed w.store m (· ∉ G.ids))
    (h : Goes m G (fun js => (js ++ rest, job.found found)) out (work m found job w)) :
    Passes m G ⟨job :: rest, found, w⟩ out := by
  have htended : Tended m G ⟨job :: rest, found, w⟩ := ⟨hI, by simpa using hposed⟩
  cases hy : work m found job w with
  | ok js w' =>
    rw [hy] at h
    exact .next htended (by simp only [Unbounded.turn, hy]) h
  | error e w' =>
    rw [hy] at h
    exact .stop htended (by simp only [Unbounded.turn, hy]; rw [h])

/-- The jobs that `y` leaves do the work `x`, and the last walk among them gives what `give` says. -/
def Pushes {α : Type} (m : NodeId) (G : Outside) (y : Lower (List Job)) (found : Option NodeId) (x : Lower α)
    (give : α → Option NodeId) (w : Workspace Progress) : Prop :=
  ∀ rest out, Goes m G (fun a => (rest, give a)) out (x w) → Goes m G (fun js => (js ++ rest, found)) out (y w)

/-- The jobs that `y` leaves to do, and then others. -/
theorem Pushes.append {α β : Type} {m : NodeId} {G : Outside} {y : Lower (List Job)} {ks : List Job}
    {found : Option NodeId} {x : Lower α} {f : α → Lower β} {give : α → Option NodeId} {give' : β → Option NodeId}
    {w : Workspace Progress} (h : Pushes m G y found x give w)
    (hf : ∀ a w', x w = .ok a w' → Pushes m G (pure ks) (give a) (f a) give' w') :
    Pushes m G (y >>= fun js => pure (js ++ ks)) found (x >>= f) give' w := by
  intro rest out hgo
  have hlater : Goes m G (fun js => (js ++ (ks ++ rest), found)) out (y w) := by
    refine h (ks ++ rest) out ?_
    cases hx : x w with
    | error e w' =>
      rw [bind_of_error hx] at hgo
      exact hgo
    | ok a w' =>
      rw [bind_of_ok hx] at hgo
      exact hf a w' hx rest out hgo
  cases hy : y w with
  | ok js w' =>
    rw [hy] at hlater
    rw [bind_of_ok hy]
    show Passes m G ⟨js ++ ks ++ rest, found, w'⟩ out
    rwa [List.append_assoc]
  | error e w' =>
    rw [hy] at hlater
    rwa [bind_of_error hy]

end Unbounded

/-! ## Tracks -/

open Unbounded (Job Goes Pushes)

/-- The nodes of the tree of the module are below it. -/
theorem Has.reaches {w : Workspace Progress} {c : Catalog} {st : Lowering.Stats} {G : Outside} {m i : NodeId}
    {C : Ctx} {t : Tree} (h : Has w c st [(none, C.plug t)] [] G) (hm : (C.plug t).id = m) (hi : i ∈ t.ids) :
    ∃ path, w.store.Reaches m path i :=
  hm ▸ (h.holds.mem_ids_iff h.fits).1 ((Ctx.mem_ids_plug _ _ _).2 (.inr hi))

/-- A course of the work `x`, and the jobs that `y` gives do the work. -/
structure Track {c : Catalog} (g : Guard c) (m : NodeId) (G : Outside) (y : Lower (List Job)) (x : Lower Unit)
    (w : Workspace Progress) (Q : Unit → Workspace Progress → Prop) (X : PassError → Prop) : Prop
    extends Course (Store.Tends g m G) x w Q X where
  turns : ∀ found, Pushes m G y found x (fun _ => found) w

namespace Track

variable {α : Type} {c : Catalog} {g : Guard c} {m i : NodeId} {G : Outside} {y y' : Lower (List Job)}
  {x x' : Lower Unit} {w : Workspace Progress} {Q Q' : Unit → Workspace Progress → Prop} {X X' : PassError → Prop}

theorem mono (h : Track g m G y x w Q X) (hQ : ∀ a w', Q a w' → Q' a w') (hX : ∀ e, X e → X' e) :
    Track g m G y x w Q' X' :=
  ⟨h.toCourse.mono hQ hX, h.turns⟩

theorem congr (h : Track g m G y' x' w Q X) (hy : y w = y' w) (hx : x w = x' w) : Track g m G y x w Q X := by
  refine ⟨(Course.congr hx).2 h.toCourse, ?_⟩
  unfold Pushes
  rw [hy, hx]
  exact h.turns

theorem pure (hI : w.store.Tends g m G) (hQ : Q () w) : Track g m G (pure []) (pure ()) w Q X :=
  ⟨.pure hI hQ, fun _ _ _ h => h⟩

/-- Work that leaves no jobs. -/
theorem of_course (h : Course (Store.Tends g m G) x w Q X) :
    Track g m G (x >>= fun _ => Pure.pure []) x w Q X := by
  refine ⟨h, fun found rest out hgo => ?_⟩
  cases hx : x w with
  | ok a w' =>
    rw [hx] at hgo
    rw [bind_of_ok hx]
    exact hgo
  | error e w' =>
    rw [hx] at hgo
    rw [bind_of_error hx]
    exact hgo

/-- One list of jobs after the other. -/
theorem bind {js ks : List Job} {f : Unit → Lower Unit} {R : Unit → Workspace Progress → Prop}
    (h : Track g m G (Pure.pure js) x w Q X)
    (hf : ∀ a w', Q a w' → w'.store.Tends g m G → Track g m G (Pure.pure ks) (f a) w' R X) :
    Track g m G (Pure.pure (js ++ ks)) (x >>= f) w R X := by
  refine ⟨h.toCourse.bind fun a w' hQ hI => (hf a w' hQ hI).toCourse, fun found => (h.turns found).append
    fun a w' hx => ?_⟩
  obtain ⟨hQ, hway⟩ := h.toCourse.ends_way.of_ok hx
  exact (hf a w' hQ hway.finish).turns found

/-- A job does what it does at once, and what it leaves to do. -/
theorem job {job : Job} (hfound : ∀ found, job.found found = found) (hposed : job.Posed w.store m (· ∉ G.ids))
    (h : ∀ found, Track g m G (Unbounded.work m found job) x w Q X) : Track g m G (Pure.pure [job]) x w Q X := by
  refine ⟨(h none).toCourse, fun found rest out hgo => ?_⟩
  refine Goes.turn (h none).way.start.idle hposed ?_
  rw [hfound]
  exact (h found).turns found rest out hgo

/-- A node is looked up by the work and by the job. -/
theorem node {n : Node} {y : Node → Lower (List Job)} {f : Node → Lower Unit} (hn : w.store.find? i = some n)
    (h : Track g m G (y n) (f n) w Q X) :
    Track g m G (edit (Edit.node i) >>= y) (edit (Edit.node i) >>= f) w Q X := by
  have hnode : edit (Edit.node i) w = .ok n w := by rw [Lower.edit_apply, Edit.node_apply, hn]
  exact h.congr (bind_of_ok hnode) (bind_of_ok hnode)

/-- A question is answered. -/
theorem ask {q : Store → Catalog → Except LoweringError α} {a : α} {y : α → Lower (List Job)} {f : α → Lower Unit}
    (hq : q w.store w.own.catalog = .ok a) (h : Track g m G (y a) (f a) w Q X) :
    Track g m G (Lower.ask q >>= y) (Lower.ask q >>= f) w Q X := by
  have hask : Lower.ask q w = .ok a w := by rw [Lower.ask_apply, hq]
  exact h.congr (bind_of_ok hask) (bind_of_ok hask)

/-- A question is refused. -/
theorem refused {q : Store → Catalog → Except LoweringError α} {e : LoweringError} {y : α → Lower (List Job)}
    {f : α → Lower Unit} (hq : q w.store w.own.catalog = .error e) (hI : w.store.Tends g m G)
    (hX : X (.lowering e)) : Track g m G (Lower.ask q >>= y) (Lower.ask q >>= f) w Q X := by
  have hask : Lower.ask q w = .error (.lowering e) w := by rw [Lower.ask_apply, hq]
  have hfails : Track g m G (throw (.lowering e)) (throw (.lowering e)) w Q X := ⟨.throw hI hX, fun _ _ _ h => h⟩
  exact hfails.congr (bind_of_error hask) (bind_of_error hask)

end Track

end ContractTree
