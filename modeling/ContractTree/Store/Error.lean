import ContractTree.Node.Document

/-!
Why a change of the store is refused. Each cause has one wording (`StructuralError.message`).
-/

namespace ContractTree

/-- What is wrong with a tree at a node. -/
inductive Flaw where
  | rootHasParent (parent : NodeId)
  | reachedTwice
  | childNotRegistered (child : NodeId)
  /-- The node is a child of `owner`, and its link says otherwise. -/
  | parentLink (owner : NodeId) (link : Option NodeId)
  | targetNotName
  deriving DecidableEq, Repr

inductive StructuralError where
  | unknownNode (id : NodeId)
  | duplicateId (id : NodeId)
  | detached (id : NodeId)
  | notAChild (child parent : NodeId)
  | alreadyOwned (child owner : NodeId)
  | anchorNotFound (anchor block : NodeId)
  | notABlock (id : NodeId) (tag : Tag)
  | notAModule (id : NodeId)
  | inconsistent (node : NodeId) (flaw : Flaw)
  /-- The counter of identities is at its end. -/
  | idsExhausted
  /-- Links from this node lead on without end. -/
  | endless (id : NodeId)
  deriving DecidableEq, Repr

def Flaw.linkText : Option NodeId → String
  | none => "None"
  | some id => "Some(NodeId(" ++ id.text ++ "))"

def Flaw.message : Flaw → String
  | .rootHasParent parent => "root has parent " ++ parent.text
  | .reachedTwice => "reachable through more than one path"
  | .childNotRegistered child => "child " ++ child.text ++ " is not registered"
  | .parentLink owner link => "listed by " ++ owner.text ++ " but parent link is " ++ linkText link
  | .targetNotName => "declaration target is not a name"

def StructuralError.message : StructuralError → String
  | .unknownNode id => "Node " ++ id.text ++ " is not registered in this compilation"
  | .duplicateId id => "Node " ++ id.text ++ " is already registered"
  | .detached id => "Node " ++ id.text ++ " has no parent"
  | .notAChild child parent =>
    "Node " ++ child.text ++ " is not a child of its claimed parent " ++ parent.text
  | .alreadyOwned child owner => "Node " ++ child.text ++ " is still owned by " ++ owner.text
  | .anchorNotFound anchor block =>
    "Statement " ++ anchor.text ++ " is not a direct statement of block " ++ block.text
  | .notABlock id tag => "Node " ++ id.text ++ " (" ++ tag.label ++ ") does not hold a statement list"
  | .notAModule id => "Node " ++ id.text ++ " is not a module"
  | .inconsistent node flaw => "Inconsistent tree at node " ++ node.text ++ ": " ++ flaw.message
  | .idsExhausted => "Node identities are exhausted"
  | .endless id => "Links from node " ++ id.text ++ " do not end"

end ContractTree
