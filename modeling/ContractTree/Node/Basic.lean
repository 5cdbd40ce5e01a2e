import ContractTree.Ty.Basic

/-!
The nodes of a contract's syntax tree. A node is known by its identity, names its children by theirs, and carries a
link to its parent and a type, both of which it may lack. What a node is stands in its `Kind`; its children, in
source order, are `Kind.children`. Two more views look at the same links: the statement lists of a block, and the
operands of a storage write.
-/

namespace ContractTree

/-- The identity of a node: a number of 32 bits. -/
structure NodeId where
  val : UInt32
  deriving DecidableEq, Repr, Inhabited

namespace NodeId

def toNat (id : NodeId) : Nat := id.val.toNat

/-- The greatest identity, which is never handed out. -/
def last : NodeId := ⟨4294967295⟩

/-- The identity that follows, unless this is the last one. -/
def next? (id : NodeId) : Option NodeId :=
  if id = last then none else some ⟨id.val + 1⟩

def text (id : NodeId) : String := toString id.toNat

instance : LE NodeId := ⟨fun a b => a.toNat ≤ b.toNat⟩

instance : LT NodeId := ⟨fun a b => a.toNat < b.toNat⟩

instance (a b : NodeId) : Decidable (a ≤ b) := inferInstanceAs (Decidable (a.toNat ≤ b.toNat))

instance (a b : NodeId) : Decidable (a < b) := inferInstanceAs (Decidable (a.toNat < b.toNat))

end NodeId

/-! ## Operators -/

inductive BinOp where
  | add | sub | mult | div | mod | pow | bitAnd | bitOr | bitXor | lShift | rShift
  deriving DecidableEq, Repr

inductive BoolOp where
  | and | or
  deriving DecidableEq, Repr

inductive CompareOp where
  | eq | notEq | lt | ltE | gt | gtE
  deriving DecidableEq, Repr

inductive UnaryOp where
  | not | neg | invert
  deriving DecidableEq, Repr

/-! ## Kinds -/

/-- What a node is, with the links to its children. -/
inductive Kind where
  | module (body : List NodeId)
  | variableDecl (target : NodeId) (value : Option NodeId) (isPublic isConstant isImmutable : Bool)
  | functionDef (name : String) (args body : List NodeId) (visibility : Visibility) (mutability : Mutability)
  | arg (name : String)
  | assign (target value : NodeId)
  | augAssign (target : NodeId) (op : BinOp) (value : NodeId)
  | annAssign (target : NodeId) (value : Option NodeId)
  | ret (value : Option NodeId)
  | exprStmt (value : NodeId)
  | ifElse (test : NodeId) (body orelse : List NodeId)
  | forIn (target iter : NodeId) (body : List NodeId)
  | assert (test : NodeId)
  | pass
  | storageRead (target slot : NodeId) (keys : List NodeId)
  | storageWrite (slot : NodeId) (keys : List NodeId) (value : NodeId)
  | name (id : String)
  | member (value : NodeId) (attr : String)
  | subscript (value slice : NodeId)
  | binOp (left : NodeId) (op : BinOp) (right : NodeId)
  | boolOp (op : BoolOp) (values : List NodeId)
  | compare (left : NodeId) (op : CompareOp) (right : NodeId)
  | unaryOp (op : UnaryOp) (operand : NodeId)
  | call (func : NodeId) (args : List NodeId)
  | int (value : Int)
  | bool (value : Bool)
  | str (value : String)
  deriving DecidableEq, Repr, Inhabited

/-- The kind of a node without its contents. -/
inductive Tag where
  | module | variableDecl | functionDef | arg
  | assign | augAssign | annAssign | ret | exprStmt | ifElse | forIn | assert | pass | storageRead | storageWrite
  | name | member | subscript | binOp | boolOp | compare | unaryOp | call | int | bool | str
  deriving DecidableEq, Repr

/-- Whether nodes with this tag are statements of a function body. -/
def Tag.isStatement : Tag → Bool
  | .assign | .augAssign | .annAssign | .ret | .exprStmt | .ifElse | .forIn | .assert | .pass
  | .storageRead | .storageWrite => true
  | _ => false

namespace Kind

def tag : Kind → Tag
  | .module .. => .module
  | .variableDecl .. => .variableDecl
  | .functionDef .. => .functionDef
  | .arg .. => .arg
  | .assign .. => .assign
  | .augAssign .. => .augAssign
  | .annAssign .. => .annAssign
  | .ret .. => .ret
  | .exprStmt .. => .exprStmt
  | .ifElse .. => .ifElse
  | .forIn .. => .forIn
  | .assert .. => .assert
  | .pass => .pass
  | .storageRead .. => .storageRead
  | .storageWrite .. => .storageWrite
  | .name .. => .name
  | .member .. => .member
  | .subscript .. => .subscript
  | .binOp .. => .binOp
  | .boolOp .. => .boolOp
  | .compare .. => .compare
  | .unaryOp .. => .unaryOp
  | .call .. => .call
  | .int .. => .int
  | .bool .. => .bool
  | .str .. => .str

/-- The children, in source order. -/
def children : Kind → List NodeId
  | .module body => body
  | .variableDecl target value _ _ _ => target :: value.toList
  | .functionDef _ args body _ _ => args ++ body
  | .assign target value => [target, value]
  | .augAssign target _ value => [target, value]
  | .annAssign target value => target :: value.toList
  | .ret value => value.toList
  | .exprStmt value => [value]
  | .ifElse test body orelse => test :: (body ++ orelse)
  | .forIn target iter body => target :: iter :: body
  | .assert test => [test]
  | .storageRead target slot keys => target :: slot :: keys
  | .storageWrite slot keys value => slot :: (keys ++ [value])
  | .member value _ => [value]
  | .subscript value slice => [value, slice]
  | .binOp left _ right => [left, right]
  | .boolOp _ values => values
  | .compare left _ right => [left, right]
  | .unaryOp _ operand => [operand]
  | .call func args => func :: args
  | .arg _ | .pass | .name _ | .int _ | .bool _ | .str _ => []

/-- The lists of statements that the node holds. -/
def statementLists : Kind → List (List NodeId)
  | .module body => [body]
  | .functionDef _ _ body _ _ => [body]
  | .forIn _ _ body => [body]
  | .ifElse _ body orelse => [body, orelse]
  | _ => []

def holdsStatement (k : Kind) (stmt : NodeId) : Bool :=
  k.statementLists.any (·.contains stmt)

/-- The operands of a storage write: the keys in order, then the value. -/
def storageOperands? : Kind → Option (List NodeId)
  | .storageWrite _ keys value => some (keys ++ [value])
  | _ => none

def name? : Kind → Option String
  | .name id => some id
  | _ => none

def isName (k : Kind) (name : String) : Bool :=
  k.name? = some name

def isModule : Kind → Bool
  | .module _ => true
  | _ => false

end Kind

/-! ## Changing links -/

/-- The list with the first `old` in it changed to `new`; `none` when there is none. -/
def replaceFirst? (old new : NodeId) : List NodeId → Option (List NodeId)
  | [] => none
  | id :: ids => if id = old then some (new :: ids) else (replaceFirst? old new ids).map (id :: ·)

/-- The list with `new` put in front of the first `anchor` in it; `none` when there is none. -/
def insertBefore? (new anchor : NodeId) : List NodeId → Option (List NodeId)
  | [] => none
  | id :: ids => if id = anchor then some (new :: id :: ids) else (insertBefore? new anchor ids).map (id :: ·)

namespace Kind

/-- The kind with the first link to `old`, in the order of `children`, changed to `new`; `none` when `old` is not a
child. -/
def replaceChild? (old new : NodeId) : Kind → Option Kind
  | .module body => (replaceFirst? old new body).map .module
  | .variableDecl target value p c i =>
    if target = old then some (.variableDecl new value p c i)
    else if value = some old then some (.variableDecl target (some new) p c i)
    else none
  | .functionDef f args body v m =>
    ((replaceFirst? old new args).map (.functionDef f · body v m)).or
      ((replaceFirst? old new body).map (.functionDef f args · v m))
  | .assign target value =>
    if target = old then some (.assign new value)
    else if value = old then some (.assign target new)
    else none
  | .augAssign target op value =>
    if target = old then some (.augAssign new op value)
    else if value = old then some (.augAssign target op new)
    else none
  | .annAssign target value =>
    if target = old then some (.annAssign new value)
    else if value = some old then some (.annAssign target (some new))
    else none
  | .ret value => if value = some old then some (.ret (some new)) else none
  | .exprStmt value => if value = old then some (.exprStmt new) else none
  | .ifElse test body orelse =>
    if test = old then some (.ifElse new body orelse)
    else
      ((replaceFirst? old new body).map (.ifElse test · orelse)).or
        ((replaceFirst? old new orelse).map (.ifElse test body ·))
  | .forIn target iter body =>
    if target = old then some (.forIn new iter body)
    else if iter = old then some (.forIn target new body)
    else (replaceFirst? old new body).map (.forIn target iter ·)
  | .assert test => if test = old then some (.assert new) else none
  | .storageRead target slot keys =>
    if target = old then some (.storageRead new slot keys)
    else if slot = old then some (.storageRead target new keys)
    else (replaceFirst? old new keys).map (.storageRead target slot ·)
  | .storageWrite slot keys value =>
    if slot = old then some (.storageWrite new keys value)
    else
      ((replaceFirst? old new keys).map (.storageWrite slot · value)).or
        (if value = old then some (.storageWrite slot keys new) else none)
  | .member value attr => if value = old then some (.member new attr) else none
  | .subscript value slice =>
    if value = old then some (.subscript new slice)
    else if slice = old then some (.subscript value new)
    else none
  | .binOp left op right =>
    if left = old then some (.binOp new op right)
    else if right = old then some (.binOp left op new)
    else none
  | .boolOp op values => (replaceFirst? old new values).map (.boolOp op ·)
  | .compare left op right =>
    if left = old then some (.compare new op right)
    else if right = old then some (.compare left op new)
    else none
  | .unaryOp op operand => if operand = old then some (.unaryOp op new) else none
  | .call func args =>
    if func = old then some (.call new args)
    else (replaceFirst? old new args).map (.call func ·)
  | .arg _ | .pass | .name _ | .int _ | .bool _ | .str _ => none

/-- The kind with `new` put in front of the first `anchor` of its statement lists; `none` when no list holds it. -/
def insertStatement? (new anchor : NodeId) : Kind → Option Kind
  | .module body => (insertBefore? new anchor body).map .module
  | .functionDef f args body v m => (insertBefore? new anchor body).map (.functionDef f args · v m)
  | .forIn target iter body => (insertBefore? new anchor body).map (.forIn target iter ·)
  | .ifElse test body orelse =>
    ((insertBefore? new anchor body).map (.ifElse test · orelse)).or
      ((insertBefore? new anchor orelse).map (.ifElse test body ·))
  | _ => none

end Kind

/-! ## Nodes -/

structure Node where
  id : NodeId
  parent : Option NodeId := none
  ty : Option Ty := none
  kind : Kind
  deriving DecidableEq, Repr, Inhabited

namespace Node

def tag (n : Node) : Tag := n.kind.tag

def children (n : Node) : List NodeId := n.kind.children

end Node

end ContractTree
