import ContractTree.Store.Edit

/-!
Walking a tree that changes under the walk. A visitor is called on each node in pre-order, over the children as
they are when the walk comes to them, and may change the store:

- when the visitor replaces the node it is called on, the walk goes on with the replacement;
- what it puts in front of the place where the walk stands is not visited;
- what it puts behind that place is visited when the walk gets there.

The first error ends the walk. A visitor may keep the walk busy for ever, so every walk has a bound.
-/

namespace ContractTree

/-- A store and what its user keeps beside it. -/
structure Workspace (σ : Type) where
  store : Store
  own : σ

/-- Work on a store that may fail with `ε` and uses a state of its own. -/
abbrev Work (ε σ : Type) := EStateM ε (Workspace σ)

namespace Work

variable {ε σ α : Type}

/-- Runs an edit on the store; `wrap` says what its refusal means for the work. -/
def edit (wrap : StructuralError → ε) (e : Edit α) : Work ε σ α := fun w =>
  match e w.store with
  | .ok a s => .ok a { w with store := s }
  | .error err s => .error (wrap err) { w with store := s }

def store : Work ε σ Store := do return (← get).store

end Work

/-- What a walk does at the nodes. -/
structure Visitor (ε σ : Type) where
  wrap : StructuralError → ε
  /-- Called with the tag of the node, the node, and the module below which the walk started. -/
  visit : Tag → NodeId → NodeId → Work ε σ Unit

/-- Where the first `id` stands in a list. -/
def position? (ids : List NodeId) (id : NodeId) : Option Nat := ids.findIdx? (· = id)

namespace Visitor

variable {ε σ : Type} (v : Visitor ε σ)

/-- Calls the visitor on one node. -/
def dispatch (id module : NodeId) : Work ε σ Unit := do
  let n ← Work.edit v.wrap (Edit.node id)
  v.visit n.tag id module

/-- Calls the visitor on a node, and on what replaces it until a node stays in its place. -/
def settle (module : NodeId) : Nat → NodeId → Work ε σ (Option NodeId)
  | 0, id => throw (v.wrap (.endless id))
  | fuel + 1, id => do
    v.dispatch id module
    let s ← Work.store
    if s.isAttached id then return some id
    match s.replacementOf? id with
    | none => return none
    | some next => if s.isAttached next then settle module fuel next else return none

/-- Where the walk goes on among the children, after the child that is now `visited` and had `sibling` behind it.
-/
def nextIndex (children : List NodeId) (visited sibling : Option NodeId) : Nat :=
  match visited.bind (position? children) with
  | some i => i + 1
  | none => (sibling.bind (position? children)).getD children.length

mutual

/-- Visits a node and all below it, and gives the node that is in its place afterwards, if any. -/
def walkNode (module : NodeId) : Nat → NodeId → Work ε σ (Option NodeId)
  | 0, id => throw (v.wrap (.endless id))
  | fuel + 1, id => do
    match ← settle v module fuel id with
    | none => return none
    | some current => walkChildren module fuel current 0

/-- Visits the children of a node from an index on. -/
def walkChildren (module : NodeId) : Nat → NodeId → Nat → Work ε σ (Option NodeId)
  | 0, id, _ => throw (v.wrap (.endless id))
  | fuel + 1, id, index => do
    let before := (← Work.store).children id
    match before[index]? with
    | none => return some id
    | some child =>
      let visited ← walkNode module fuel child
      let s ← Work.store
      if s.isAttached id then
        walkChildren module fuel id (nextIndex (s.children id) visited before[index + 1]?)
      else return s.replacementOf? id

end

/-- Walks the tree below a module. -/
def walk (fuel : Nat) (module : NodeId) : Work ε σ Unit := do
  let n ← Work.edit v.wrap (Edit.node module)
  if n.kind.isModule then
    let _ ← v.walkNode module fuel module
  else throw (v.wrap (.notAModule module))

end Visitor

end ContractTree
