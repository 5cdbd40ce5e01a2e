import ContractTree.Node.Basic
import ContractTree.Text.Decimal
import ContractTree.Ty.Document

/-!
Nodes as JSON. A node is one object: its identity, the link to its parent and its type if it has them, the name of
its kind, and the fields of the kind. The fields are given once, as a list of named slots (`Kind.slots`), so that
every form in which a node is written names them alike and in the same order.

Reading ignores fields it does not know. A field it knows may not occur twice, and which fields it knows depends on
the kind. Since the kind may stand behind its fields, every field that can belong to some kind has to be readable,
even one that is ignored.
-/

namespace ContractTree

namespace NodeId

def toJson (id : NodeId) : Json := .nat id.toNat

def ofJson? (j : Json) : Option NodeId :=
  (j.natBelow? UInt32.size).map fun n => ⟨n.toUInt32⟩

end NodeId

/-! ## Names of operators and kinds -/

namespace BinOp

def name : BinOp → String
  | .add => "Add"
  | .sub => "Sub"
  | .mult => "Mult"
  | .div => "Div"
  | .mod => "Mod"
  | .pow => "Pow"
  | .bitAnd => "BitAnd"
  | .bitOr => "BitOr"
  | .bitXor => "BitXor"
  | .lShift => "LShift"
  | .rShift => "RShift"

def all : List BinOp := [.add, .sub, .mult, .div, .mod, .pow, .bitAnd, .bitOr, .bitXor, .lShift, .rShift]

end BinOp

namespace BoolOp

def name : BoolOp → String
  | .and => "And"
  | .or => "Or"

def all : List BoolOp := [.and, .or]

end BoolOp

namespace CompareOp

def name : CompareOp → String
  | .eq => "Eq"
  | .notEq => "NotEq"
  | .lt => "Lt"
  | .ltE => "LtE"
  | .gt => "Gt"
  | .gtE => "GtE"

def all : List CompareOp := [.eq, .notEq, .lt, .ltE, .gt, .gtE]

end CompareOp

namespace UnaryOp

def name : UnaryOp → String
  | .not => "Not"
  | .neg => "USub"
  | .invert => "Invert"

def all : List UnaryOp := [.not, .neg, .invert]

end UnaryOp

namespace Tag

/-- The name of the kind in documents and messages. -/
def label : Tag → String
  | .module => "Module"
  | .variableDecl => "VariableDecl"
  | .functionDef => "FunctionDef"
  | .arg => "Arg"
  | .assign => "Assign"
  | .augAssign => "AugAssign"
  | .annAssign => "AnnAssign"
  | .ret => "Return"
  | .exprStmt => "Expr"
  | .ifElse => "If"
  | .forIn => "For"
  | .assert => "Assert"
  | .pass => "Pass"
  | .storageRead => "StorageRead"
  | .storageWrite => "StorageWrite"
  | .name => "Name"
  | .member => "Attribute"
  | .subscript => "Subscript"
  | .binOp => "BinOp"
  | .boolOp => "BoolOp"
  | .compare => "Compare"
  | .unaryOp => "UnaryOp"
  | .call => "Call"
  | .int => "Int"
  | .bool => "Bool"
  | .str => "Str"

/-- Every tag; a document may name a kind by its place in this list. -/
def all : List Tag :=
  [.module, .variableDecl, .functionDef, .arg, .assign, .augAssign, .annAssign, .ret, .exprStmt, .ifElse, .forIn,
    .assert, .pass, .storageRead, .storageWrite, .name, .member, .subscript, .binOp, .boolOp, .compare, .unaryOp,
    .call, .int, .bool, .str]

def ofLabel? (s : String) : Option Tag := all.find? (label · = s)

/-- A kind by its name, or by its place among all kinds. -/
def ofJson? : Json → Option Tag
  | .str s => ofLabel? s
  | .nat n => all[n]?
  | _ => none

/-- The fields of a kind, in the order in which they are written. -/
def fieldNames : Tag → List String
  | .module => ["body"]
  | .variableDecl => ["target", "value", "is_public", "is_constant", "is_immutable"]
  | .functionDef => ["name", "args", "body", "visibility", "mutability"]
  | .arg => ["name"]
  | .assign => ["target", "value"]
  | .augAssign => ["target", "op", "value"]
  | .annAssign => ["target", "value"]
  | .ret => ["value"]
  | .exprStmt => ["value"]
  | .ifElse => ["test", "body", "orelse"]
  | .forIn => ["target", "iter", "body"]
  | .assert => ["test"]
  | .pass => []
  | .storageRead => ["target", "slot", "keys"]
  | .storageWrite => ["slot", "keys", "value"]
  | .name => ["id"]
  | .member => ["value", "attr"]
  | .subscript => ["value", "slice"]
  | .binOp => ["left", "op", "right"]
  | .boolOp => ["op", "values"]
  | .compare => ["left", "op", "right"]
  | .unaryOp => ["op", "operand"]
  | .call => ["func", "args"]
  | .int => ["value"]
  | .bool => ["value"]
  | .str => ["value"]

end Tag

/-! ## Writing -/

/-- What stands in one field of a kind. -/
inductive Slot where
  | child (id : NodeId)
  | childOption (id : Option NodeId)
  | childList (ids : List NodeId)
  /-- A field that is not a link. -/
  | data (j : Json)

namespace Slot

def ids : Slot → List NodeId
  | .child id => [id]
  | .childOption id => id.toList
  | .childList ids => ids
  | .data _ => []

def toJson : Slot → Json
  | .child id => id.toJson
  | .childOption id => Json.ofOption NodeId.toJson id
  | .childList ids => .arr (ids.map NodeId.toJson)
  | .data j => j

end Slot

namespace Kind

/-- The fields of the kind with their names, in the order in which they are written. -/
def slots : Kind → List (String × Slot)
  | .module body => [("body", .childList body)]
  | .variableDecl target value isPublic isConstant isImmutable =>
    [("target", .child target), ("value", .childOption value), ("is_public", .data (.bool isPublic)),
      ("is_constant", .data (.bool isConstant)), ("is_immutable", .data (.bool isImmutable))]
  | .functionDef f args body visibility mutability =>
    [("name", .data (.str f)), ("args", .childList args), ("body", .childList body),
      ("visibility", .data visibility.toJson), ("mutability", .data mutability.toJson)]
  | .arg a => [("name", .data (.str a))]
  | .assign target value => [("target", .child target), ("value", .child value)]
  | .augAssign target op value =>
    [("target", .child target), ("op", .data (.str op.name)), ("value", .child value)]
  | .annAssign target value => [("target", .child target), ("value", .childOption value)]
  | .ret value => [("value", .childOption value)]
  | .exprStmt value => [("value", .child value)]
  | .ifElse test body orelse => [("test", .child test), ("body", .childList body), ("orelse", .childList orelse)]
  | .forIn target iter body => [("target", .child target), ("iter", .child iter), ("body", .childList body)]
  | .assert test => [("test", .child test)]
  | .pass => []
  | .storageRead target slot keys => [("target", .child target), ("slot", .child slot), ("keys", .childList keys)]
  | .storageWrite slot keys value => [("slot", .child slot), ("keys", .childList keys), ("value", .child value)]
  | .name id => [("id", .data (.str id))]
  | .member value attr => [("value", .child value), ("attr", .data (.str attr))]
  | .subscript value slice => [("value", .child value), ("slice", .child slice)]
  | .binOp left op right => [("left", .child left), ("op", .data (.str op.name)), ("right", .child right)]
  | .boolOp op values => [("op", .data (.str op.name)), ("values", .childList values)]
  | .compare left op right => [("left", .child left), ("op", .data (.str op.name)), ("right", .child right)]
  | .unaryOp op operand => [("op", .data (.str op.name)), ("operand", .child operand)]
  | .call func args => [("func", .child func), ("args", .childList args)]
  | .int value => [("value", .data (.str (Decimal.ofInt value)))]
  | .bool value => [("value", .data (.bool value))]
  | .str value => [("value", .data (.str value))]

theorem map_fst_slots (k : Kind) : k.slots.map (·.1) = k.tag.fieldNames := by
  cases k <;> rfl

/-- The fields under which a kind is written, the name of the kind first. -/
def toFields (k : Kind) : List (String × Json) :=
  ("ast_type", .str k.tag.label) :: k.slots.map fun s => (s.1, s.2.toJson)

end Kind

namespace Node

def toJson (n : Node) : Json :=
  .obj ([("node_id", n.id.toJson)] ++ n.parent.toList.map (("parent", ·.toJson)) ++
    n.ty.toList.map (("type", ·.toJson)) ++ n.kind.toFields)

end Node

/-! ## Reading -/

namespace Kind

/-- Reads a kind from fields, of which some may belong to something else. -/
def ofFields? (tag : Tag) (fields : List (String × Json)) : Option Kind := do
  let required := Json.required fields
  let child (field : String) : Option NodeId := (required field).bind NodeId.ofJson?
  let childList (field : String) : Option (List NodeId) := (required field).bind (Json.listOf? NodeId.ofJson?)
  let childOption (field : String) : Option (Option NodeId) :=
    (Json.field fields field).bind (Json.optional? NodeId.ofJson?)
  let text (field : String) : Option String := (required field).bind Json.str?
  let flag (field : String) : Option Bool := (Json.field fields field).bind (Json.orDefault? Json.bool? false)
  let choice {α : Type} (all : List α) (name : α → String) (field : String) : Option α :=
    (required field).bind (Json.choiceOrEmpty? all name)
  match tag with
  | .module => some (.module (← childList "body"))
  | .variableDecl =>
    some (.variableDecl (← child "target") (← childOption "value") (← flag "is_public") (← flag "is_constant")
      (← flag "is_immutable"))
  | .functionDef =>
    some (.functionDef (← text "name") (← childList "args") (← childList "body")
      (← choice Visibility.all Visibility.name "visibility")
      (← choice Mutability.all Mutability.name "mutability"))
  | .arg => some (.arg (← text "name"))
  | .assign => some (.assign (← child "target") (← child "value"))
  | .augAssign => some (.augAssign (← child "target") (← choice BinOp.all BinOp.name "op") (← child "value"))
  | .annAssign => some (.annAssign (← child "target") (← childOption "value"))
  | .ret => some (.ret (← childOption "value"))
  | .exprStmt => some (.exprStmt (← child "value"))
  | .ifElse =>
    some (.ifElse (← child "test") (← childList "body")
      (← (Json.field fields "orelse").bind (Json.orDefault? (Json.listOf? NodeId.ofJson?) [])))
  | .forIn => some (.forIn (← child "target") (← child "iter") (← childList "body"))
  | .assert => some (.assert (← child "test"))
  | .pass => some .pass
  | .storageRead => some (.storageRead (← child "target") (← child "slot") (← childList "keys"))
  | .storageWrite => some (.storageWrite (← child "slot") (← childList "keys") (← child "value"))
  | .name => some (.name (← text "id"))
  | .member => some (.member (← child "value") (← text "attr"))
  | .subscript => some (.subscript (← child "value") (← child "slice"))
  | .binOp => some (.binOp (← child "left") (← choice BinOp.all BinOp.name "op") (← child "right"))
  | .boolOp => some (.boolOp (← choice BoolOp.all BoolOp.name "op") (← childList "values"))
  | .compare =>
    some (.compare (← child "left") (← choice CompareOp.all CompareOp.name "op") (← child "right"))
  | .unaryOp => some (.unaryOp (← choice UnaryOp.all UnaryOp.name "op") (← child "operand"))
  | .call => some (.call (← child "func") (← childList "args"))
  | .int => some (.int (← (text "value").bind Decimal.int?))
  | .bool => some (.bool (← (required "value").bind Json.bool?))
  | .str => some (.str (← text "value"))

/-- Reads a kind that stands alone: an object that names it, or an array of its name and its fields in the order in
which they are written, of which the last ones may be missing if they may be missing at all. -/
def ofJson? : Json → Option Kind
  | .obj fields => do
    let tag ← ((Json.required fields "ast_type").bind Json.str?).bind Tag.ofLabel?
    ofFields? tag fields
  | .arr (label :: values) => do
    let tag ← label.str?.bind Tag.ofLabel?
    if values.length ≤ tag.fieldNames.length then ofFields? tag (tag.fieldNames.zip values) else none
  | _ => none

end Kind

namespace Node

/-- The fields of a node that no kind has. -/
def ownFields : List String := ["node_id", "parent", "type"]

/-- Reads a node; `positional` is as for its type. -/
def ofJson? (positional : Bool) : Json → Option Node
  | .obj fields => do
    let id ← (Json.required fields "node_id").bind NodeId.ofJson?
    let parent ← (Json.field fields "parent").bind (Json.optional? NodeId.ofJson?)
    let ty ← (Json.field fields "type").bind (Json.optional? (Ty.ofJson? positional))
    let others := fields.filter (·.1 ∉ ownFields)
    if !Json.fieldsReadable others then none
    else
      let tag ← (Json.required others "ast_type").bind Tag.ofJson?
      some { id, parent, ty, kind := ← Kind.ofFields? tag others }
  | _ => none

end Node

end ContractTree
