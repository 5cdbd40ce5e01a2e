import ContractTree.Store.Edit

/-!
Making well-formed nodes. Each maker allocates the names that its construct implies, adopts the children it is
given, and sets the type that the construct determines; a maker without children is refused only when identities
run out.
-/

namespace ContractTree.Build

/-! ## Expressions -/

def name (id : String) (ty : Option Ty) : Edit NodeId := Edit.leaf (.name id) ty

def int (value : Int) : Edit NodeId := Edit.leaf (.int value) none

def intTyped (value : Int) (ty : Ty) : Edit NodeId := Edit.leaf (.int value) (some ty)

def boolLit (value : Bool) : Edit NodeId := Edit.leaf (.bool value) (some .bool)

def strLit (value : String) : Edit NodeId := Edit.leaf (.str value) (some .string)

def member (value : NodeId) (attr : String) (ty : Option Ty) : Edit NodeId := Edit.alloc (.member value attr) ty

/-- The member `attr` of the contract itself. -/
def selfMember (attr : String) (ty : Option Ty) : Edit NodeId := do
  let receiver ← name "self" none
  member receiver attr ty

def subscript (value slice : NodeId) (ty : Option Ty) : Edit NodeId := Edit.alloc (.subscript value slice) ty

/-- The type that is left of a type after one subscript. -/
def afterKey : Ty → Ty
  | .mapping _ value => value
  | t => t

/-- Subscripts `value`, which has type `ty`, by each of the keys in turn. -/
def subscripts (value : NodeId) (ty : Ty) : List NodeId → Edit NodeId
  | [] => return value
  | key :: keys => do
    let next ← subscript value key (some (afterKey ty))
    subscripts next (afterKey ty) keys

/-- A state variable of this declared type under the keys. -/
def storageIndex (attr : String) (declared : Ty) (keys : List NodeId) : Edit NodeId := do
  let receiver ← selfMember attr (some declared)
  subscripts receiver declared keys

def binOp (left : NodeId) (op : BinOp) (right : NodeId) (ty : Option Ty) : Edit NodeId :=
  Edit.alloc (.binOp left op right) ty

def boolOp (op : BoolOp) (values : List NodeId) : Edit NodeId := Edit.alloc (.boolOp op values) (some .bool)

def compare (left : NodeId) (op : CompareOp) (right : NodeId) : Edit NodeId :=
  Edit.alloc (.compare left op right) (some .bool)

def unaryOp (op : UnaryOp) (operand : NodeId) (ty : Option Ty) : Edit NodeId := Edit.alloc (.unaryOp op operand) ty

def call (func : String) (args : List NodeId) (ty : Option Ty) : Edit NodeId := do
  let callee ← name func none
  Edit.alloc (.call callee args) ty

/-! ## Statements -/

def pass : Edit NodeId := Edit.leaf .pass none

def assign (target value : NodeId) : Edit NodeId := Edit.alloc (.assign target value) none

def augAssign (target : NodeId) (op : BinOp) (value : NodeId) : Edit NodeId :=
  Edit.alloc (.augAssign target op value) none

def annAssign (target : NodeId) (value : Option NodeId) : Edit NodeId := Edit.alloc (.annAssign target value) none

def ret (value : Option NodeId) : Edit NodeId := Edit.alloc (.ret value) none

def exprStmt (value : NodeId) : Edit NodeId := Edit.alloc (.exprStmt value) none

def exprStmtName (id : String) : Edit NodeId := do
  let value ← name id none
  exprStmt value

def ifElse (test : NodeId) (body orelse : List NodeId) : Edit NodeId := Edit.alloc (.ifElse test body orelse) none

def forIn (target iter : NodeId) (body : List NodeId) : Edit NodeId := Edit.alloc (.forIn target iter body) none

def assert (test : NodeId) : Edit NodeId := Edit.alloc (.assert test) none

/-- A read of a slot has the type of the name it binds. -/
def storageRead (target slot : NodeId) (keys : List NodeId) : Edit NodeId := do
  let ty := (← get).ty? target
  Edit.alloc (.storageRead target slot keys) ty

/-- A write of a slot has the type of the value it stores. -/
def storageWrite (slot : NodeId) (keys : List NodeId) (value : NodeId) : Edit NodeId := do
  let ty := (← get).ty? value
  Edit.alloc (.storageWrite slot keys value) ty

/-! ## Declarations -/

def arg (name : String) (ty : Ty) : Edit NodeId := Edit.leaf (.arg name) (some ty)

def declaration (id : String) (ty : Ty) (value : Option NodeId) (isPublic isConstant isImmutable : Bool) :
    Edit NodeId := do
  let target ← name id (some ty)
  Edit.alloc (.variableDecl target value isPublic isConstant isImmutable) (some ty)

def storageDecl (id : String) (ty : Ty) (isPublic : Bool) : Edit NodeId :=
  declaration id ty none isPublic false false

def constantDecl (id : String) (ty : Ty) (value : NodeId) : Edit NodeId :=
  declaration id ty (some value) false true false

def immutableDecl (id : String) (ty : Ty) (isPublic : Bool) : Edit NodeId :=
  declaration id ty none isPublic false true

/-- A function whose type lists the types of its arguments and no result. -/
def function (id : String) (args body : List NodeId) (visibility : Visibility) (mutability : Mutability) :
    Edit NodeId := do
  let params := args.filterMap (← get).ty?
  Edit.alloc (.functionDef id args body visibility mutability) (some (.function params none visibility mutability))

/-- A function type with this result; any other type is left alone. -/
def withReturns (returns : Ty) : Ty → Ty
  | .function params _ visibility mutability => .function params (some returns) visibility mutability
  | t => t

def setReturns (func : NodeId) (returns : Ty) : Edit Unit :=
  Edit.updateNode func fun n => { n with ty := n.ty.map (withReturns returns) }

def module (body : List NodeId) : Edit NodeId := Edit.alloc (.module body) none

end ContractTree.Build
