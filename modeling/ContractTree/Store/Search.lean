import ContractTree.Store.Basic

/-!
Finding nodes by their kind, upwards along the links to parents and downwards in pre-order.
-/

namespace ContractTree.Store

def preorderWithin (s : Store) : Nat → NodeId → List Node
  | 0, _ => []
  | fuel + 1, id =>
    match s.find? id with
    | none => []
    | some n => n :: n.children.flatMap (preorderWithin s fuel)

/-- The registered nodes at and below `id`, in pre-order. -/
def preorder (s : Store) (id : NodeId) : List Node := s.preorderWithin s.size id

/-- The nearest node above `id` with this tag for which `p` holds. -/
def ancestor? (s : Store) (id : NodeId) (tag : Tag) (p : Node → Bool) : Option NodeId :=
  ((s.ancestors id).find? fun n => n.tag = tag && p n).map Node.id

/-- The nodes below `id`, and `id` itself if asked for, with this tag for which `p` holds, in pre-order. -/
def descendants (s : Store) (id : NodeId) (tag : Tag) (p : Node → Bool) (includeSelf : Bool) : List NodeId :=
  let candidates := if includeSelf then s.preorder id else (s.children id).flatMap s.preorder
  (candidates.filter fun n => n.tag = tag && p n).map Node.id

def hasDescendant (s : Store) (id : NodeId) (tag : Tag) (p : Node → Bool) : Bool :=
  !(s.descendants id tag p true).isEmpty

end ContractTree.Store
