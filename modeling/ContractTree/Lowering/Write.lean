import ContractTree.Lowering.Read

/-!
Assignments to state variables. The reads in the assigned value go first, then those in the keys of the target. An
assignment then becomes a temporary for the value and a write of the temporary. An augmented assignment becomes a
read of the slot, the combination in a second temporary, and a write of that; a key that is not a name or a literal
is evaluated once, into a temporary that both the read and the write use.
-/

namespace ContractTree

/-- The value that an assignment stores or combines. -/
def Kind.assigned? : Kind → Option NodeId
  | .assign _ value => some value
  | .augAssign _ _ value => some value
  | _ => none

/-- Whether a key may be evaluated twice. -/
def Kind.isAtom : Kind → Bool
  | .name _ | .int _ | .bool _ | .str _ => true
  | _ => false

namespace Lower

/-- Takes a statement out of its block and leaves an empty one in its place. -/
def vacate (stmt : NodeId) : Lower NodeId := do
  let hole ← edit Build.pass
  edit (Edit.replace stmt hole)
  return hole

/-- Lowers the reads in an assignment to `a`: those in the value, then those in the keys. -/
def lowerOperands (node : NodeId) (a : Access) (site : Site) : Lower Unit := do
  lowerReadsBelow site Kind.assigned? node
  lowerKeys site a

/-- `t = value` and a write of `t` take the place of the assignment. -/
def storeValue (node : NodeId) (a : Access) (block value : NodeId) : Lower Unit := do
  let keys := a.keys (← Work.store)
  let hole ← vacate node
  let temp ← edit (Edit.temp (some a.var.value))
  let slot ← slotName a.var
  let evaluate ← edit (Build.assign temp value)
  let operand ← edit (Build.name (tempName temp) (some a.var.value))
  let write ← edit (Build.storageWrite slot keys operand)
  edit (Edit.replace hole write)
  edit (Edit.insertBefore evaluate write block)
  edit (Edit.discard hole)
  edit (Edit.discard node)
  count fun st => { st with writes := st.writes + 1 }

def lowerAssign (node : NodeId) : Lower Unit := do
  match (← edit (Edit.node node)).kind with
  | .assign target _ =>
    match ← ask (fun s c => s.targetAccess c target) with
    | none => return ()
    | some a =>
      let site ← ask (fun s _ => a.site s)
      lowerOperands node a site
      match (← edit (Edit.node node)).kind.assigned? with
      | none => return ()
      | some value => storeValue node a site.block value
  | _ => return ()

/-- Makes two nodes for one key, for the read and for the write. What is not an atom is bound to a temporary in
front of `hole`. -/
def shareKey (hole block key : NodeId) : Lower (NodeId × NodeId) := do
  let s ← Work.store
  if (s.kind? key).any Kind.isAtom then
    let copy ← edit (Edit.deepCopy key)
    return (key, copy)
  let ty := s.ty? key
  let held ← edit (Edit.temp ty)
  let bind ← edit (Build.assign held key)
  let forRead ← edit (Build.name (tempName held) ty)
  let forWrite ← edit (Build.name (tempName held) ty)
  edit (Edit.insertBefore bind hole block)
  return (forRead, forWrite)

/-- A read, the combination with `value`, and a write take the place of the augmented assignment. -/
def combineValue (node : NodeId) (a : Access) (op : BinOp) (block value : NodeId) : Lower Unit := do
  let keys := a.keys (← Work.store)
  let hole ← vacate node
  let shared ← keys.mapM (shareKey hole block)
  let ty := some a.var.value
  let current ← edit (Edit.temp ty)
  let combined ← edit (Edit.temp ty)
  let readSlot ← slotName a.var
  let writeSlot ← slotName a.var
  let read ← edit (Build.storageRead current readSlot (shared.map Prod.fst))
  let currentRef ← edit (Build.name (tempName current) ty)
  let combination ← edit (Build.binOp currentRef op value ty)
  let compute ← edit (Build.assign combined combination)
  let combinedRef ← edit (Build.name (tempName combined) ty)
  let write ← edit (Build.storageWrite writeSlot (shared.map Prod.snd) combinedRef)
  edit (Edit.insertBefore read hole block)
  edit (Edit.insertBefore compute hole block)
  edit (Edit.replace hole write)
  edit (Edit.discard hole)
  edit (Edit.discard node)
  count fun st => { st with augWrites := st.augWrites + 1 }

def lowerAugAssign (node : NodeId) : Lower Unit := do
  match (← edit (Edit.node node)).kind with
  | .augAssign target op _ =>
    match ← ask (fun s c => s.targetAccess c target) with
    | none => return ()
    | some a =>
      let site ← ask (fun s _ => a.site s)
      lowerOperands node a site
      match (← edit (Edit.node node)).kind.assigned? with
      | none => return ()
      | some value => combineValue node a op site.block value
  | _ => return ()

end Lower

end ContractTree
