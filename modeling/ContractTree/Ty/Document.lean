import ContractTree.Json.Basic
import ContractTree.Ty.Basic

/-!
Types as JSON. A type without parts is its name; any other is an object with one field, named for the form of the
type. The reader also takes a record written as an array of its fields, and a name written as an object that holds
`null`; it refuses a width that its type cannot have. Only in documents may a slot type be such an array: every
reader is told so by `positional`.
-/

namespace ContractTree

namespace Visibility

def name : Visibility → String
  | .external => "External"
  | .internal => "Internal"

def all : List Visibility := [.external, .internal]

def toJson (v : Visibility) : Json := .str v.name

def ofJson? : Json → Option Visibility := Json.choice? all name

end Visibility

namespace Mutability

def name : Mutability → String
  | .pure => "Pure"
  | .view => "View"
  | .nonPayable => "NonPayable"
  | .payable => "Payable"

def all : List Mutability := [.pure, .view, .nonPayable, .payable]

def toJson (m : Mutability) : Json := .str m.name

def ofJson? : Json → Option Mutability := Json.choice? all name

end Mutability

namespace Ty

/-! ## Writing -/

mutual

def toJson : Ty → Json
  | .bool => .str "Bool"
  | .uint bits => .obj [("Uint", .nat bits.toNat)]
  | .int bits => .obj [("Int", .nat bits.toNat)]
  | .address => .str "Address"
  | .bytes size => .obj [("Bytes", .nat size.toNat)]
  | .string => .str "String"
  | .dynArray item bound => .obj [("DynArray", .arr [toJson item, .nat bound.toNat])]
  | .mapping key value => .obj [("Mapping", .arr [toJson key, toJson value])]
  | .storage keys value => .obj [("Storage", .obj [("keys", .arr (toJsonList keys)), ("value", toJson value)])]
  | .function params returns visibility mutability =>
    .obj [("Function", .obj [("params", .arr (toJsonList params)), ("returns", toJsonOption returns),
      ("visibility", visibility.toJson), ("mutability", mutability.toJson)])]

def toJsonList : List Ty → List Json
  | [] => []
  | t :: ts => toJson t :: toJsonList ts

def toJsonOption : Option Ty → Json
  | none => .null
  | some t => toJson t

end

/-! ## Reading -/

/-- The types without parts. -/
def ofName? (name : String) : Option Ty :=
  if name = "Bool" then some .bool
  else if name = "Address" then some .address
  else if name = "String" then some .string
  else none

/-- The types that have a width only. -/
def ofWidth? (name : String) (n : Nat) : Option Ty :=
  if name = "Uint" then if n < UInt16.size then some (.uint n.toUInt16) else none
  else if name = "Int" then if n < UInt16.size then some (.int n.toUInt16) else none
  else if name = "Bytes" then if n < UInt8.size then some (.bytes n.toUInt8) else none
  else none

def bound? (j : Json) : Option UInt64 :=
  (j.natBelow? UInt64.size).map Nat.toUInt64

/-- The fields of a slot type that are read so far. -/
structure SlotParts where
  keys : Option (List Ty) := none
  value : Option Ty := none

def SlotParts.ty? (p : SlotParts) : Option Ty := do
  some (.storage (← p.keys) (← p.value))

/-- The fields of a function type that are read so far. -/
structure FunctionParts where
  params : Option (List Ty) := none
  returns : Option (Option Ty) := none
  visibility : Option Visibility := none
  mutability : Option Mutability := none

/-- The result type may be missing. -/
def FunctionParts.ty? (p : FunctionParts) : Option Ty := do
  some (.function (← p.params) (p.returns.getD none) (← p.visibility) (← p.mutability))

mutual

/-- Reads a type; `positional` says whether the parts of a slot type may be given by their order alone. -/
def ofJson? (positional : Bool) : Json → Option Ty
  | .str name => ofName? name
  | .obj [(name, payload)] => ofVariant? positional name payload
  | _ => none

/-- The type of the form `name` with the parts in the second argument. -/
def ofVariant? (positional : Bool) (name : String) : Json → Option Ty
  | .null => ofName? name
  | .nat n => ofWidth? name n
  | .arr [a, b] =>
    if name = "DynArray" then do some (.dynArray (← ofJson? positional a) (← bound? b))
    else if name = "Mapping" then do some (.mapping (← ofJson? positional a) (← ofJson? positional b))
    else if name = "Storage" && positional then do
      some (.storage (← ofJsonArray? positional a) (← ofJson? positional b))
    else none
  | .arr [params, returns, visibility, mutability] =>
    if name = "Function" then do
      some (.function (← ofJsonArray? positional params) (← ofJsonOption? positional returns)
        (← Visibility.ofJson? visibility) (← Mutability.ofJson? mutability))
    else none
  | .obj fields =>
    if name = "Storage" then (slotParts? positional {} fields).bind SlotParts.ty?
    else if name = "Function" then (functionParts? positional {} fields).bind FunctionParts.ty?
    else none
  | _ => none

def ofJsonOption? (positional : Bool) : Json → Option (Option Ty)
  | .null => some none
  | j => (ofJson? positional j).map some

def ofJsonArray? (positional : Bool) : Json → Option (List Ty)
  | .arr items => ofJsonList? positional items
  | _ => none

def ofJsonList? (positional : Bool) : List Json → Option (List Ty)
  | [] => some []
  | j :: js => do some ((← ofJson? positional j) :: (← ofJsonList? positional js))

/-- Reads the fields of a slot type from left to right; a field that occurs twice is refused. -/
def slotParts? (positional : Bool) (p : SlotParts) : List (String × Json) → Option SlotParts
  | [] => some p
  | (name, j) :: rest =>
    if name = "keys" then
      if p.keys.isSome then none
      else (ofJsonArray? positional j).bind fun keys => slotParts? positional { p with keys := some keys } rest
    else if name = "value" then
      if p.value.isSome then none
      else (ofJson? positional j).bind fun value => slotParts? positional { p with value := some value } rest
    else slotParts? positional p rest

/-- Reads the fields of a function type from left to right; a field that occurs twice is refused. -/
def functionParts? (positional : Bool) (p : FunctionParts) : List (String × Json) → Option FunctionParts
  | [] => some p
  | (name, j) :: rest =>
    if name = "params" then
      if p.params.isSome then none
      else (ofJsonArray? positional j).bind fun params =>
        functionParts? positional { p with params := some params } rest
    else if name = "returns" then
      if p.returns.isSome then none
      else (ofJsonOption? positional j).bind fun returns =>
        functionParts? positional { p with returns := some returns } rest
    else if name = "visibility" then
      if p.visibility.isSome then none
      else (Visibility.ofJson? j).bind fun v => functionParts? positional { p with visibility := some v } rest
    else if name = "mutability" then
      if p.mutability.isSome then none
      else (Mutability.ofJson? j).bind fun m => functionParts? positional { p with mutability := some m } rest
    else functionParts? positional p rest

end

end Ty

end ContractTree
