import ContractTree.Node.Basic

/-!
The store that owns every node of a compilation. Nodes stand in the order in which they were registered, no two
under one identity; identities come from a counter that only grows, so a discarded node leaves a gap that is never
filled. Links are identities: a store may hold a tree, several trees, or links that lead nowhere, and what a tree
is is said apart from it (`Store.verify`).

Following links in a store may never end. A chain of distinct nodes is no longer than the store, so walks along
links are bounded by `Store.size`.
-/

namespace ContractTree

structure Store where
  /-- The next identity to be handed out. -/
  nextId : NodeId := ⟨0⟩
  /-- The registered nodes, in order of registration. -/
  nodes : List Node := []
  /-- Which node took the place of which, the latest first. -/
  replacements : List (NodeId × NodeId) := []
  deriving DecidableEq

namespace Store

def size (s : Store) : Nat := s.nodes.length

def ids (s : Store) : List NodeId := s.nodes.map Node.id

/-- How many nodes there are and how many keys a slot of their types can have. -/
def weight (s : Store) : Nat := s.nodes.foldr (fun n w => 1 + (n.ty.map Ty.breadth).getD 0 + w) 0

def find? (s : Store) (id : NodeId) : Option Node := s.nodes.find? (·.id = id)

def contains (s : Store) (id : NodeId) : Bool := (s.find? id).isSome

/-- The children of a node; none if it is not registered. -/
def children (s : Store) (id : NodeId) : List NodeId := ((s.find? id).map Node.children).getD []

/-- The link to the parent, if the node is registered and has one. -/
def parent? (s : Store) (id : NodeId) : Option NodeId := (s.find? id).bind Node.parent

def ty? (s : Store) (id : NodeId) : Option Ty := (s.find? id).bind Node.ty

def kind? (s : Store) (id : NodeId) : Option Kind := (s.find? id).map Node.kind

/-! ## Changes to the registry -/

/-- Puts a node at the end of the registry. -/
def push (s : Store) (n : Node) : Store := { s with nodes := s.nodes ++ [n] }

/-- Changes the node with this identity. -/
def update (s : Store) (id : NodeId) (f : Node → Node) : Store :=
  { s with nodes := s.nodes.map fun n => if n.id = id then f n else n }

def erase (s : Store) (id : NodeId) : Store :=
  { s with nodes := s.nodes.filter (·.id ≠ id) }

def setParent (s : Store) (id : NodeId) (parent : Option NodeId) : Store :=
  s.update id fun n => { n with parent }

def setKind (s : Store) (id : NodeId) (kind : Kind) : Store :=
  s.update id fun n => { n with kind }

def setTy (s : Store) (id : NodeId) (ty : Option Ty) : Store :=
  s.update id fun n => { n with ty }

/-- Makes `owner` the parent of the nodes in `ids`. -/
def adopt (s : Store) (owner : NodeId) (ids : List NodeId) : Store :=
  { s with nodes := s.nodes.map fun n => if n.id ∈ ids then { n with parent := some owner } else n }

/-- Records that `new` took the place of `old`. -/
def recordReplacement (s : Store) (old new : NodeId) : Store :=
  { s with replacements := (old, new) :: s.replacements.filter (·.1 ≠ old) }

/-- How many links downwards the nodes hold. -/
def linkCount : List Node → Nat
  | [] => 0
  | n :: nodes => n.children.length + linkCount nodes

theorem linkCount_append (xs ys : List Node) : linkCount (xs ++ ys) = linkCount xs + linkCount ys := by
  induction xs with
  | nil => simp [linkCount]
  | cons n xs ih => simp [linkCount, ih, Nat.add_assoc]

theorem linkCount_filter_le (p : Node → Bool) (nodes : List Node) :
    linkCount (nodes.filter p) ≤ linkCount nodes := by
  induction nodes with
  | nil => exact Nat.le_refl 0
  | cons n nodes ih => cases h : p n <;> simp [h, linkCount] <;> omega

/-- With a node go the links it holds. -/
theorem linkCount_erase_le {s : Store} {id : NodeId} {n : Node} (h : s.find? id = some n) :
    linkCount (s.erase id).nodes + n.children.length ≤ linkCount s.nodes := by
  have hid : n.id = id := by simpa using List.find?_some h
  obtain ⟨before, after, heq⟩ := List.append_of_mem (List.mem_of_find?_eq_some h)
  have hbefore := linkCount_filter_le (·.id ≠ id) before
  have hafter := linkCount_filter_le (·.id ≠ id) after
  rw [erase, heq, List.filter_append, List.filter_cons_of_neg (by simp [hid]), linkCount_append, linkCount_append,
    linkCount]
  omega

/-! ## Links upwards -/

/-- Whether `parent` is registered and lists `id` among its children. -/
def lists (s : Store) (parent id : NodeId) : Bool := (s.children parent).contains id

/-- The nodes met on the way up from `start`, in at most `fuel` steps. -/
def upFrom (s : Store) : Nat → Option NodeId → List Node
  | 0, _ => []
  | _, none => []
  | fuel + 1, some id =>
    match s.find? id with
    | none => []
    | some n => n :: upFrom s fuel n.parent

/-- The nodes above `id`, nearest first. -/
def ancestors (s : Store) (id : NodeId) : List Node := s.upFrom s.size (s.parent? id)

def attachedWithin (s : Store) : Nat → NodeId → Bool
  | 0, _ => false
  | fuel + 1, id =>
    match s.find? id with
    | none => false
    | some n =>
      match n.parent with
      | none => n.kind.isModule
      | some p => s.lists p id && attachedWithin s fuel p

/-- Whether the node reaches a module without a parent through links that both ends agree on. -/
def isAttached (s : Store) (id : NodeId) : Bool := s.attachedWithin s.size id

/-- The attached node that `id` names as its parent and that lists it. -/
def owner? (s : Store) (id : NodeId) : Option NodeId :=
  (s.parent? id).filter fun p => s.lists p id && s.isAttached p

def enclosingWithin (s : Store) : Nat → NodeId → Option (NodeId × NodeId)
  | 0, _ => none
  | fuel + 1, id => do
    let p ← s.parent? id
    let n ← s.find? p
    if n.kind.holdsStatement id then some (id, p) else enclosingWithin s fuel p

/-- The nearest node at or above `id` that stands in a statement list, with the node that holds the list. -/
def enclosingStatement? (s : Store) (id : NodeId) : Option (NodeId × NodeId) := s.enclosingWithin s.size id

/-! ## Replacements -/

def replacedBy? (s : Store) (id : NodeId) : Option NodeId := s.replacements.lookup id

def followReplacements (s : Store) : Nat → NodeId → NodeId
  | 0, id => id
  | fuel + 1, id =>
    match s.replacedBy? id with
    | none => id
    | some next => followReplacements s fuel next

/-- The node at the end of the chain of replacements that starts at `id`; `none` if `id` was never replaced. A
chain that runs in a circle is left after one more step than there are replacements. -/
def replacementOf? (s : Store) (id : NodeId) : Option NodeId :=
  (s.replacedBy? id).map (s.followReplacements (s.replacements.length + 1))

end Store

end ContractTree
