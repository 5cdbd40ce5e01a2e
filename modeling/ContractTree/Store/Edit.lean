import ContractTree.Store.Verify

/-!
Changes of the store. An `Edit` runs on a store and either succeeds or is refused with a cause; what it did before
it was refused stays visible, so that it is a theorem, and not a matter of course, that a refused primitive edit
changes nothing.

A node may take a new place only if no attached node still lists it as a child (`Store.owner?`). This is how
subtrees move: their old owner is taken out of the tree first.
-/

namespace ContractTree

abbrev Edit := EStateM StructuralError Store

namespace Edit

/-- A question to the store that may be refused. -/
def ask {α : Type} (f : Store → Except StructuralError α) : Edit α := fun s =>
  match f s with
  | .ok a => .ok a s
  | .error e => .error e s

def node (id : NodeId) : Edit Node := ask (·.node id)

/-- Changes the node with this identity, which must be registered. -/
def updateNode (id : NodeId) (f : Node → Node) : Edit Unit := do
  let _ ← node id
  modify (·.update id f)

def setTy (id : NodeId) (ty : Option Ty) : Edit Unit := updateNode id fun n => { n with ty }

def setParent (id : NodeId) (parent : Option NodeId) : Edit Unit := updateNode id fun n => { n with parent }

def setKind (id : NodeId) (kind : Kind) : Edit Unit := updateNode id fun n => { n with kind }

/-! ## New nodes -/

/-- Hands out the next identity. -/
def reserve : Edit NodeId := do
  let id := (← get).nextId
  match id.next? with
  | none => throw .idsExhausted
  | some next =>
    modify fun s => { s with nextId := next }
    return id

/-- Registers a node under the identity it has. The counter moves on to stay above every registered identity. -/
def register (n : Node) : Edit NodeId := do
  if (← get).contains n.id then throw (.duplicateId n.id)
  if (← get).nextId ≤ n.id then
    match n.id.next? with
    | none => throw .idsExhausted
    | some next => modify fun s => { s with nextId := next }
  modify (·.push n)
  return n.id

/-- Registers a node whose kind may depend on its identity, under the next identity. -/
def insertNew (kind : NodeId → Kind) (ty : Option Ty) : Edit NodeId := do
  let id ← reserve
  modify (·.push { id, ty, kind := kind id })
  return id

/-- Refuses a node that an attached node still lists. -/
def requireFree (id : NodeId) : Edit Unit := do
  let _ ← node id
  match (← get).owner? id with
  | some owner => throw (.alreadyOwned id owner)
  | none => return ()

/-- Makes a node that adopts its children. -/
def alloc (kind : Kind) (ty : Option Ty) : Edit NodeId := do
  kind.children.forM requireFree
  let id ← insertNew (fun _ => kind) ty
  modify (·.adopt id kind.children)
  return id

/-- Makes a node without children. -/
def leaf (kind : Kind) (ty : Option Ty) : Edit NodeId := insertNew (fun _ => kind) ty

end Edit

/-- The name of the temporary that has this identity. -/
def tempName (id : NodeId) : String := "__tmp_" ++ id.text

namespace Edit

/-- Makes a temporary, a name spelled after its own identity. -/
def temp (ty : Option Ty) : Edit NodeId := insertNew (fun id => .name (tempName id)) ty

/-! ## Changes of place -/

/-- Refuses a node that an attached node still lists, unless that node is the one in `leaving`. -/
def requireMovable (id : NodeId) (leaving : Option NodeId) : Edit Unit := do
  let n ← node id
  if leaving.isSome && n.parent = leaving then return ()
  requireFree id

/-- Puts `new` where `old` is; `old` is left without a parent. -/
def replace (old new : NodeId) : Edit Unit := do
  match (← node old).parent with
  | none => throw (.detached old)
  | some p =>
    requireMovable new (some old)
    match (← node p).kind.replaceChild? old new with
    | none => throw (.notAChild old p)
    | some kind =>
      setKind p kind
      setParent new (some p)
      setParent old none
      modify (·.recordReplacement old new)

/-- Puts `stmt` in front of `anchor` in a statement list of `block`. -/
def insertBefore (stmt anchor block : NodeId) : Edit Unit := do
  requireMovable stmt none
  let b ← node block
  if b.kind.statementLists.isEmpty then throw (.notABlock block b.tag)
  match b.kind.insertStatement? stmt anchor with
  | none => throw (.anchorNotFound anchor block)
  | some kind =>
    setKind block kind
    setParent stmt (some block)

/-- Puts a declaration at the end of a module. -/
def appendDeclaration (module decl : NodeId) : Edit Unit := do
  requireMovable decl none
  match (← node module).kind with
  | .module body =>
    setKind module (.module (body ++ [decl]))
    setParent decl (some module)
  | _ => throw (.notAModule module)

end Edit

/-! ## Whole subtrees -/

/-- Removes the nodes on the stack, and with a node every child that names it as its parent. -/
def Store.discardAll (s : Store) : List NodeId → Store
  | [] => s
  | id :: stack =>
    match _h : s.find? id with
    | none => s.discardAll stack
    | some n =>
      let rest := s.erase id
      rest.discardAll (n.children.filter (fun c => rest.parent? c = some id) ++ stack)
termination_by stack => linkCount s.nodes + stack.length
decreasing_by
  · simp
  · have hlinks := Store.linkCount_erase_le _h
    have hpushed := List.length_filter_le (fun c => (s.erase id).parent? c = some id) n.children
    simp only [List.length_append, List.length_cons]
    omega

namespace Edit

/-- Removes a detached subtree. What another node has adopted stays. -/
def discard (id : NodeId) : Edit Unit := do
  match (← node id).parent with
  | none => pure ()
  | some p =>
    let _ ← node p
    requireFree id
  modify (·.discardAll [id])

def copyWithin : Nat → NodeId → Edit NodeId
  | 0, id => throw (.endless id)
  | fuel + 1, id => do
    let n ← node id
    let kind ← n.children.foldlM (fun kind child => do
      let copy ← copyWithin fuel child
      return (kind.replaceChild? child copy).getD kind) n.kind
    alloc kind n.ty

/-- Copies a subtree under fresh identities. The copy has no parent. -/
def deepCopy (id : NodeId) : Edit NodeId := do
  copyWithin ((← get).size + 1) id

end Edit

end ContractTree
