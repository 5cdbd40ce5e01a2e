import ContractTree.Json.Printer
import ContractTree.Json.Reader
import ContractTree.Store.Edit

/-!
Tree documents: the exchange format of a tree, in which every node stands with its identity and its link upwards. A
document is captured from a store in pre-order, and read back by registering its nodes in the order in which they
stand and checking the tree.
-/

namespace ContractTree

structure Document where
  root : NodeId
  nextId : NodeId := ⟨0⟩
  nodes : List Node

namespace Document

/-! ## From and to a store -/

def captureWithin (s : Store) : Nat → NodeId → Except StructuralError (List Node)
  | 0, id => .error (.endless id)
  | fuel + 1, id => do
    let n ← s.node id
    let below ← n.children.mapM (captureWithin s fuel)
    return n :: below.flatten

/-- The tree below `root`, in pre-order. -/
def capture (s : Store) (root : NodeId) : Except StructuralError Document := do
  let nodes ← captureWithin s (s.size + 1) root
  return { root, nextId := s.nextId, nodes }

/-- The store that holds exactly the nodes of the document, which must form a tree below the root. -/
def toStore (d : Document) : Except StructuralError Store :=
  match (d.nodes.forM fun n => do let _ ← Edit.register n : Edit Unit) { nextId := d.nextId } with
  | .error e _ => .error e
  | .ok _ s => do
    s.verify d.root
    return s

/-! ## As JSON -/

def toJson (d : Document) : Json :=
  .obj [("root", d.root.toJson), ("next_id", d.nextId.toJson), ("nodes", .arr (d.nodes.map Node.toJson))]

def ofJson? (j : Json) : Option Document := do
  match ← j.record ["root", "next_id", "nodes"] with
  | [root, nextId, nodes] =>
    some {
      root := ← root.bind NodeId.ofJson?
      nextId := ← Json.orDefault? NodeId.ofJson? ⟨0⟩ nextId
      nodes := ← nodes.bind (Json.listOf? (Node.ofJson? true))
    }
  | _ => none

/-- Why a text is not a tree. -/
inductive LoadError where
  /-- The text is not a tree document. -/
  | unreadable
  /-- The document does not hold a tree. -/
  | invalid (cause : StructuralError)
  deriving DecidableEq, Repr

def parse? (text : String) : Option Document := (Json.parse? Json.nestingLimit text).bind ofJson?

/-- Reads a tree: the store that holds it, and its root. -/
def load (text : String) : Except LoadError (Store × NodeId) :=
  match parse? text with
  | none => .error .unreadable
  | some d =>
    match d.toStore with
    | .error e => .error (.invalid e)
    | .ok s => .ok (s, d.root)

def text (d : Document) : String := d.toJson.pretty

/-- Writes the tree below `root`. -/
def save (s : Store) (root : NodeId) : Except StructuralError String := do
  return (← capture s root).text

end Document

end ContractTree
