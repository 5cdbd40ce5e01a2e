import ContractTree.Store.Basic
import ContractTree.Store.Error

/-!
The check that a store holds a tree below a root: the root has no parent, every link downwards leads to a
registered node whose link upwards agrees, and no node is reached twice. Nodes still to be visited wait on a stack,
and a node is taken off the list of unvisited ones when its turn comes, so the check ends.
-/

namespace ContractTree.Store

def node (s : Store) (id : NodeId) : Except StructuralError Node :=
  match s.find? id with
  | some n => .ok n
  | none => .error (.unknownNode id)

/-- Whether each of `ids` is registered and names `owner` as its parent. -/
def checkChildren (s : Store) (owner : NodeId) : List NodeId → Except StructuralError Unit
  | [] => .ok ()
  | id :: ids =>
    match s.find? id with
    | none => .error (.inconsistent owner (.childNotRegistered id))
    | some n =>
      if n.parent = some owner then checkChildren s owner ids
      else .error (.inconsistent id (.parentLink owner n.parent))

/-- Visits the nodes on the stack and all below them. -/
def checkFrom (s : Store) (unvisited : List NodeId) : List NodeId → Except StructuralError Unit
  | [] => .ok ()
  | id :: stack =>
    if _h : id ∈ unvisited then
      match s.checkChildren id (s.children id) with
      | .error e => .error e
      | .ok () => checkFrom s (unvisited.erase id) ((s.children id).reverse ++ stack)
    else .error (.inconsistent id .reachedTwice)
termination_by unvisited.length
decreasing_by
  have := List.length_pos_of_mem _h
  rw [List.length_erase_of_mem _h]
  omega

/-- Checks that the nodes below `root` form a tree. -/
def verify (s : Store) (root : NodeId) : Except StructuralError Unit := do
  let n ← s.node root
  match n.parent with
  | some p => .error (.inconsistent root (.rootHasParent p))
  | none => s.checkFrom s.ids [root]

end ContractTree.Store
