import ContractTree.Lowering.Access
import ContractTree.Store.Build

/-!
Reads of state variables. A read of a slot becomes a statement of its own, in front of the statement that the read
stands in, which binds a fresh temporary to the value; the temporary takes the place of the read. The reads in the
keys go first, from left to right, so that each new statement uses only temporaries bound above it.
-/

namespace ContractTree.Lower

/-- Lowers one access. `lowerKey` lowers the reads in the key of a subscript. -/
def hoist (lowerKey : NodeId → Lower Unit) (a : Access) (site : Site) : Lower Unit := do
  a.subscripts.forM lowerKey
  let ty := ((← Work.store).ty? a.top).getD a.var.value
  let temp ← edit (Edit.temp (some ty))
  let reference ← edit (Build.name (tempName temp) (some ty))
  edit (Edit.replace a.top reference)
  let keys := a.keys (← Work.store)
  let slot ← slotName a.var
  let read ← edit (Build.storageRead temp slot keys)
  edit (Edit.insertBefore read site.stmt site.block)
  edit (Edit.discard a.top)
  count fun st => { st with reads := st.reads + 1 }

/-- Lowers the accesses below the child of `parent` that `pick` selects, one after the other. The child is selected
anew each time, because it may itself be the access that is replaced. -/
def readsBelow (site : Site) : Nat → (Kind → Option NodeId) → NodeId → Lower Unit
  | 0, _, parent => throw (.structural (.endless parent))
  | fuel + 1, pick, parent => do
    match pick (← edit (Edit.node parent)).kind with
    | none => return ()
    | some root =>
      match ← ask (fun s c => s.firstAccess c root) with
      | none => return ()
      | some a =>
        hoist (readsBelow site fuel Kind.slice?) a site
        readsBelow site fuel pick parent

/-- A bound for `readsBelow`: every access that is lowered takes a member of `self` out of the store, none is made,
and accesses nested in keys are no deeper than the store is large. -/
def readBound (s : Store) : Nat := 2 * s.size + 2

def lowerReadsBelow (site : Site) (pick : Kind → Option NodeId) (parent : NodeId) : Lower Unit := do
  readsBelow site (readBound (← Work.store)) pick parent

/-- Lowers the reads in the keys of an access. -/
def lowerKeys (site : Site) (a : Access) : Lower Unit :=
  a.subscripts.forM (lowerReadsBelow site Kind.slice?)

/-- Lowers the access whose outermost node is `id`, if there is one. -/
def lowerReadAt (id : NodeId) : Lower Unit := do
  match ← ask (fun s c => s.accessAt c id) with
  | none => return ()
  | some a =>
    let site ← ask (fun s _ => a.site s)
    hoist (lowerReadsBelow site Kind.slice?) a site

end ContractTree.Lower
