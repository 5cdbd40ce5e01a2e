import ContractTree.Print.Layout
import ContractTree.Store.Verify
import ContractTree.Text.Quoted

/-!
Trees as source text. An operand that is itself an operation stands in parentheses, so the text of an expression
shows how it is put together. Storage operations print as `t = storage_read slot[k0, k1]` and
`storage_write slot[k0](t)`; a slot without keys has no brackets.
-/

namespace ContractTree

namespace BinOp

def symbol : BinOp → String
  | .add => "+"
  | .sub => "-"
  | .mult => "*"
  | .div => "/"
  | .mod => "%"
  | .pow => "**"
  | .bitAnd => "&"
  | .bitOr => "|"
  | .bitXor => "^"
  | .lShift => "<<"
  | .rShift => ">>"

end BinOp

namespace BoolOp

def symbol : BoolOp → String
  | .and => "and"
  | .or => "or"

end BoolOp

namespace CompareOp

def symbol : CompareOp → String
  | .eq => "=="
  | .notEq => "!="
  | .lt => "<"
  | .ltE => "<="
  | .gt => ">"
  | .gtE => ">="

end CompareOp

namespace UnaryOp

/-- The operator with what separates it from its operand. -/
def symbol : UnaryOp → String
  | .not => "not "
  | .neg => "-"
  | .invert => "~"

end UnaryOp

namespace Visibility

def decorator : Visibility → String
  | .external => "@external"
  | .internal => "@internal"

end Visibility

namespace Mutability

def decorator? : Mutability → Option String
  | .pure => some "@pure"
  | .view => some "@view"
  | .payable => some "@payable"
  | .nonPayable => none

end Mutability

/-- Whether an operand of this kind stands in parentheses. -/
def Kind.isOperation : Kind → Bool
  | .binOp .. | .boolOp .. | .compare .. | .unaryOp .. => true
  | _ => false

namespace Print

/-- Why a tree has no source text. -/
inductive RenderError where
  | structural (cause : StructuralError)
  | notAStatement (id : NodeId) (tag : Tag)
  | notAnArgument (id : NodeId) (tag : Tag)
  | notAnExpression (id : NodeId) (tag : Tag)
  deriving DecidableEq, Repr

def RenderError.message : RenderError → String
  | .structural cause => cause.message
  | .notAStatement id tag => "node " ++ id.text ++ " (" ++ tag.label ++ ") is not a statement"
  | .notAnArgument id tag => "node " ++ id.text ++ " (" ++ tag.label ++ ") is not an argument"
  | .notAnExpression id tag => "node " ++ id.text ++ " (" ++ tag.label ++ ") is not an expression"

def kindOf (s : Store) (id : NodeId) : Except RenderError Kind :=
  match s.find? id with
  | some n => .ok n.kind
  | none => .error (.structural (.unknownNode id))

/-! ## Expressions -/

/-- The text of an operand. -/
def parenthesized (s : Store) (id : NodeId) (text : String) : String :=
  if (s.kind? id).any Kind.isOperation then "(" ++ text ++ ")" else text

def exprWithin (s : Store) : Nat → NodeId → Except RenderError String
  | 0, id => .error (.structural (.endless id))
  | fuel + 1, id => do
    let sub := exprWithin s fuel
    let operand (id : NodeId) : Except RenderError String := do return parenthesized s id (← sub id)
    let binary (left : NodeId) (symbol : String) (right : NodeId) : Except RenderError String := do
      return (← operand left) ++ " " ++ symbol ++ " " ++ (← operand right)
    match ← kindOf s id with
    | .name name => return name
    | .member value attr => return (← operand value) ++ "." ++ attr
    | .subscript value slice => return (← operand value) ++ "[" ++ (← sub slice) ++ "]"
    | .binOp left op right => binary left op.symbol right
    | .boolOp op values => return (" " ++ op.symbol ++ " ").intercalate (← values.mapM operand)
    | .compare left op right => binary left op.symbol right
    | .unaryOp op value => return op.symbol ++ (← operand value)
    | .call func args => return (← sub func) ++ "(" ++ ", ".intercalate (← args.mapM sub) ++ ")"
    | .int value => return Decimal.ofInt value
    | .bool value => return if value then "True" else "False"
    | .str value => return Text.quoted value
    | other => .error (.notAnExpression id other.tag)

/-- The text of an expression. -/
def expr (s : Store) (id : NodeId) : Except RenderError String := exprWithin s (s.size + 1) id

def exprList (s : Store) (ids : List NodeId) : Except RenderError String := do
  return ", ".intercalate (← ids.mapM (expr s))

/-- The keys of a slot in brackets; nothing if there are none. -/
def keyList (s : Store) (keys : List NodeId) : Except RenderError String := do
  if keys.isEmpty then return ""
  return "[" ++ (← exprList s keys) ++ "]"

/-- What stands behind an equals sign, if there is a value. -/
def initializer (s : Store) : Option NodeId → Except RenderError String
  | none => return ""
  | some value => return " = " ++ (← expr s value)

/-! ## Statements -/

/-- The type of a declaration with what is said about the variable around it. -/
def declaredTy (ty : Option Ty) (isPublic isConstant isImmutable : Bool) : String :=
  let base := (ty.map Ty.display).getD "?"
  let base := if isConstant then "constant(" ++ base ++ ")" else base
  let base := if isImmutable then "immutable(" ++ base ++ ")" else base
  if isPublic then "public(" ++ base ++ ")" else base

/-- A statement that takes one line. -/
def simpleStatement (s : Store) (l : Layout) (id : NodeId) : Except RenderError String := do
  match ← kindOf s id with
  | .variableDecl target value isPublic isConstant isImmutable =>
    return (← expr s target) ++ ": " ++ declaredTy (s.ty? id) isPublic isConstant isImmutable
      ++ (← initializer s value)
  | .assign target value => return (← expr s target) ++ " = " ++ (← expr s value)
  | .augAssign target op value => return (← expr s target) ++ " " ++ op.symbol ++ "= " ++ (← expr s value)
  | .annAssign target value =>
    return (← expr s target) ++ ((s.ty? target).map (": " ++ ·.display)).getD "" ++ (← initializer s value)
  | .ret none => return l.paint .blue "return"
  | .ret (some value) => return l.paint .blue "return" ++ " " ++ (← expr s value)
  | .exprStmt value => expr s value
  | .assert test => return l.paint .blue "assert" ++ " " ++ (← expr s test)
  | .pass => return l.paint .blue "pass"
  | .storageRead target slot keys =>
    return (← expr s target) ++ " = " ++ l.paint .magenta "storage_read" ++ " " ++ (← expr s slot)
      ++ (← keyList s keys)
  | .storageWrite slot keys value =>
    return l.paint .magenta "storage_write" ++ " " ++ (← expr s slot) ++ (← keyList s keys) ++ "("
      ++ (← expr s value) ++ ")"
  | other => .error (.notAStatement id other.tag)

/-- A line with the notes that the configuration asks for behind it. -/
def annotated (s : Store) (c : Config) (id : NodeId) (line : String) : String :=
  let ids := if c.showIds then ["#" ++ id.text] else []
  let types := if c.showTypes then (s.ty? id).toList.map Ty.display else []
  match ids ++ types with
  | [] => line
  | notes => line ++ "  " ++ (Layout.ofConfig c).paint .dimmed ("# " ++ " ".intercalate notes)

def argument (s : Store) (id : NodeId) : Except RenderError String := do
  match ← kindOf s id with
  | .arg name => return name ++ ((s.ty? id).map (": " ++ ·.display)).getD ""
  | other => .error (.notAnArgument id other.tag)

/-- The result of a function, as it stands behind the arguments. -/
def resultText : Option Ty → String
  | some (.function _ (some result) _ _) => " -> " ++ result.display
  | _ => ""

/-! ## Blocks -/

def emitWithin (s : Store) (c : Config) : Nat → Layout → NodeId → Except RenderError String
  | 0, _, id => .error (.structural (.endless id))
  | fuel + 1, l, id => do
    let sub := emitWithin s c fuel
    let block (l : Layout) (body : List NodeId) : Except RenderError String := do
      if body.isEmpty then return l.line (l.paint .blue "pass")
      return String.join (← body.mapM (sub l))
    let compound (header : String) (body : List NodeId) : Except RenderError String := do
      return l.line (annotated s c id (header ++ ":")) ++ (← block l.indent body)
    match ← kindOf s id with
    | .module body =>
      let items ← body.zipIdx.mapM fun (item, i) => do
        let isFunction := (← kindOf s item).tag = .functionDef
        return (if 0 < i && isFunction then Layout.blank else "") ++ (← sub l item)
      return String.join items
    | .functionDef name args body visibility mutability =>
      let decorators := visibility.decorator :: mutability.decorator?.toList
      let header := l.paint .blue "def" ++ " " ++ name ++ "(" ++ ", ".intercalate (← args.mapM (argument s)) ++ ")"
        ++ resultText (s.ty? id)
      return String.join (decorators.map fun d => l.line (l.paint .yellow d)) ++ (← compound header body)
    | .ifElse test body orelse =>
      let thenText ← compound (l.paint .blue "if" ++ " " ++ (← expr s test)) body
      if orelse.isEmpty then return thenText
      let elseText ← block l.indent orelse
      return thenText ++ l.header (l.paint .blue "else") ++ elseText
    | .forIn target iter body =>
      compound (l.paint .blue "for" ++ " " ++ (← expr s target) ++ " in " ++ (← expr s iter)) body
    | _ => return l.line (annotated s c id (← simpleStatement s l id))

/-- The source text of the tree below `root`. -/
def render (s : Store) (c : Config) (root : NodeId) : Except RenderError String :=
  emitWithin s c (s.size + 1) (Layout.ofConfig c) root

end Print

end ContractTree
