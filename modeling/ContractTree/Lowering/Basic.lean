import ContractTree.Lowering.Declaration
import ContractTree.Lowering.Write

/-!
Lowering of state variables. The source lets a function use persistent state as if it were a variable (`self.x`,
`self.m[k]`, `self.n += 1`); the target has only reads and writes of named slots. One walk over the module lowers
every access, in the order in which the source evaluates them.
-/

namespace ContractTree.Lowering

/-- What the pass does at a node. -/
def visitor : Visitor PassError Progress where
  wrap := .structural
  visit tag id module :=
    match tag with
    | .module => Lower.collectCatalog id
    | .variableDecl => Lower.lowerDeclaration id module
    | .assign => Lower.lowerAssign id
    | .augAssign => Lower.lowerAugAssign id
    | .member | .subscript => Lower.lowerReadAt id
    | _ => return ()

/-- A bound for the walk. What a node of the store is lowered to has a number of nodes that grows with the keys in
the types of the store, and no node is lowered twice. -/
def walkBound (s : Store) : Nat := 8 * (s.weight + 4) * (s.weight + 4)

/-- Lowers the state variables of a module. The catalog is that of the last module that was looked at. -/
def run (module : NodeId) : Lower Unit := do
  Lower.count fun _ => {}
  visitor.walk (walkBound (← Work.store)) module

end ContractTree.Lowering
