import ContractTree.Lowering.Catalog

/-!
Storage accesses. A chain is an expression with subscripts wrapped around it; it reaches a state variable when what
is left inside is `self` and the variable's name. An access is the node of such a chain that has exactly as many
subscripts as the variable has keys: fewer do not name a value, and further ones look into the value.
-/

namespace ContractTree

/-- A complete access to a slot. -/
structure Access where
  var : StorageVar
  /-- The outermost node of the access. -/
  top : NodeId
  /-- The subscripts of the chain, innermost first. -/
  subscripts : List NodeId

/-- The key of a subscript. -/
def Kind.slice? : Kind → Option NodeId
  | .subscript _ slice => some slice
  | _ => none

/-- The keys of an access, in source order. -/
def Access.keys (a : Access) (s : Store) : List NodeId :=
  a.subscripts.filterMap fun id => (s.kind? id).bind Kind.slice?

namespace Store

/-- What a subscript is applied to. -/
def subscripted? (s : Store) (id : NodeId) : Option NodeId :=
  match s.kind? id with
  | some (.subscript value _) => some value
  | _ => none

def chainWithin (s : Store) : Nat → NodeId → List NodeId
  | 0, _ => []
  | fuel + 1, id =>
    match s.subscripted? id with
    | some value => id :: chainWithin s fuel value
    | none => []

/-- The subscripts of a chain, outermost first. -/
def chain (s : Store) (id : NodeId) : List NodeId := s.chainWithin s.size id

def innermostWithin (s : Store) : Nat → NodeId → NodeId
  | 0, id => id
  | fuel + 1, id =>
    match s.subscripted? id with
    | some value => innermostWithin s fuel value
    | none => id

/-- What the subscripts of a chain are around. -/
def innermost (s : Store) (id : NodeId) : NodeId := s.innermostWithin s.size id

/-- Whether the node is what its parent subscripts. -/
def isSubscripted (s : Store) (id : NodeId) : Bool :=
  (s.parent? id).bind s.subscripted? = some id

/-- The variable that a node names as a member of `self`. -/
def receiver? (s : Store) (c : Catalog) (id : NodeId) : Option StorageVar :=
  match s.kind? id with
  | some (.member value attr) =>
    match s.kind? value with
    | some k => if k.isName "self" then c.find? attr else none
    | none => none
  | _ => none

/-- The access whose outermost node is `id`. A chain that is too short is an error, unless a further subscript goes
on with it. -/
def accessAt (s : Store) (c : Catalog) (id : NodeId) : Except LoweringError (Option Access) :=
  match s.receiver? c (s.innermost id) with
  | none => .ok none
  | some var =>
    let found := (s.chain id).length
    if var.depth < found then .ok none
    else if found < var.depth then
      if s.isSubscripted id then .ok none
      else .error (.unresolvedKeyChain var.name id var.depth found)
    else .ok (some { var, top := id, subscripts := (s.chain id).reverse })

/-- The access that an assignment stores to. The target must name the slot itself. -/
def targetAccess (s : Store) (c : Catalog) (id : NodeId) : Except LoweringError (Option Access) :=
  match s.receiver? c (s.innermost id) with
  | none => .ok none
  | some var =>
    let found := (s.chain id).length
    if var.depth < found then .error (.unsupportedTarget var.name id)
    else if found < var.depth then .error (.unresolvedKeyChain var.name id var.depth found)
    else .ok (some { var, top := id, subscripts := (s.chain id).reverse })

/-- The first access that one of the nodes gives, with what `f` answers for them asked in order. -/
def firstSome {α : Type} (f : NodeId → Except LoweringError (Option α)) :
    List NodeId → Except LoweringError (Option α)
  | [] => .ok none
  | id :: ids =>
    match f id with
    | .error e => .error e
    | .ok (some a) => .ok (some a)
    | .ok none => firstSome f ids

def firstAccessWithin (s : Store) (c : Catalog) : Nat → NodeId → Except LoweringError (Option Access)
  | 0, _ => .ok none
  | fuel + 1, id =>
    match s.accessAt c id with
    | .error e => .error e
    | .ok (some a) => .ok (some a)
    | .ok none => firstSome (firstAccessWithin s c fuel) (s.children id)

/-- The first access at or below a node, in pre-order. -/
def firstAccess (s : Store) (c : Catalog) (id : NodeId) : Except LoweringError (Option Access) :=
  s.firstAccessWithin c (s.size + 1) id

end Store

/-- Where the statements go that an access is lowered to: in front of `stmt`, in the block that holds it. -/
structure Site where
  stmt : NodeId
  block : NodeId

/-- The site of an access, which must lie inside a function. -/
def Access.site (a : Access) (s : Store) : Except LoweringError Site :=
  match s.enclosingStatement? a.top with
  | none => .error (.outsideFunction a.var.name a.top)
  | some (stmt, block) =>
    if (s.kind? block).any Kind.isModule then .error (.outsideFunction a.var.name a.top)
    else .ok { stmt, block }

namespace Lower

/-- A question to the store and the catalog that may fail. -/
def ask {α : Type} (f : Store → Catalog → Except LoweringError α) : Lower α := do
  let w ← get
  match f w.store w.own.catalog with
  | .ok a => return a
  | .error e => fail e

/-- Makes a name for the slot of a variable. -/
def slotName (v : StorageVar) : Lower NodeId := edit (Edit.leaf (.name v.slotName) (some v.slotTy))

end Lower

end ContractTree
