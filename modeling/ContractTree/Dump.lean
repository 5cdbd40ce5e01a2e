import ContractTree.Json.Printer
import ContractTree.Store.Verify

/-!
Trees as nested JSON. A dump is the document of a node with the documents of its children in the place of their
identities, and with types as they are written in source text. Which numbers of a document are identities is not
said in it: a number is taken for a child if a child has it as its identity, also inside of arrays. The fields of
every object stand in the order of their names.
-/

namespace ContractTree.Dump

/-- Puts a field in front of the first one whose name is not smaller. -/
def insertField {α : Type} (f : String × α) : List (String × α) → List (String × α)
  | [] => [f]
  | g :: rest => if f.1 ≤ g.1 then f :: g :: rest else g :: insertField f rest

/-- The fields in the order of their names. -/
def sortFields {α : Type} (fields : List (String × α)) : List (String × α) := fields.foldr insertField []

/-- The child that has this number as its identity. -/
def childWith? (children : List NodeId) (n : Nat) : Option NodeId :=
  (NodeId.ofJson? (.nat n)).filter (· ∈ children)

mutual

/-- A value with `dump` in the place of every number that is the identity of a child. -/
def nest (dump : NodeId → Except StructuralError Json) (children : List NodeId) :
    Json → Except StructuralError Json
  | .nat n =>
    match childWith? children n with
    | some id => dump id
    | none => .ok (.nat n)
  | .arr items => do return .arr (← nestItems dump children items)
  | j => .ok j

def nestItems (dump : NodeId → Except StructuralError Json) (children : List NodeId) :
    List Json → Except StructuralError (List Json)
  | [] => .ok []
  | j :: js => do return (← nest dump children j) :: (← nestItems dump children js)

end

/-- The fields that a dump writes itself or leaves out. -/
def ownFields : List String := ["ast_type", "node_id", "parent", "type"]

/-- The fields of a node's document that its dump takes over. -/
def takenFields (n : Node) : List (String × Json) :=
  match n.toJson with
  | .obj fields => fields.filter (·.1 ∉ ownFields)
  | _ => []

def treeWithin (s : Store) : Nat → NodeId → Except StructuralError Json
  | 0, id => .error (.endless id)
  | fuel + 1, id => do
    let n ← s.node id
    let fields ← (sortFields (takenFields n)).mapM fun (name, j) => do
      return (name, ← nest (treeWithin s fuel) n.children j)
    let ty := Json.ofOption (fun t => .str (Ty.display t)) n.ty
    return .obj (sortFields ([("ast_type", .str n.tag.label), ("node_id", id.toJson), ("type", ty)] ++ fields))

/-- The dump of the tree below `root`. -/
def tree (s : Store) (root : NodeId) : Except StructuralError Json := treeWithin s (s.size + 1) root

def text (s : Store) (root : NodeId) : Except StructuralError String := do
  return (← tree s root).pretty

end ContractTree.Dump
