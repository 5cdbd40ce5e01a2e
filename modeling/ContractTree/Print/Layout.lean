import ContractTree.Json.Basic

/-!
The look of printed source: how lines are indented and which words are coloured. A `Layout` is a place in the text,
at some depth of indentation; colours are escape sequences around a text, and a reset inside the text is followed
by the opening sequence again, so that the colour holds to the end.
-/

namespace ContractTree.Print

/-! ## Configuration -/

inductive Indent where
  | spaces (n : Nat)
  | tabs
  deriving DecidableEq, Repr

/-- One step of indentation. -/
def Indent.unit : Indent → String
  | .spaces n => String.ofList (List.replicate n ' ')
  | .tabs => "\t"

structure Config where
  useColors : Bool := true
  indent : Indent := .spaces 4
  /-- Whether the identity of the node stands behind each statement. -/
  showIds : Bool := false
  /-- Whether the type of the node, if it has one, stands behind each statement. -/
  showTypes : Bool := false
  deriving DecidableEq, Repr

/-- No colours. -/
def Config.plain : Config := { useColors := false }

namespace Indent

def toJson : Indent → Json
  | .spaces n => .obj [("Spaces", .nat n)]
  | .tabs => .str "Tabs"

def ofJson? : Json → Option Indent
  | .obj [("Spaces", j)] => (j.natBelow? UInt64.size).map .spaces
  | j => Json.choice? [.tabs] (fun _ => "Tabs") j

end Indent

namespace Config

def toJson (c : Config) : Json :=
  .obj [("use_colors", .bool c.useColors), ("indent", c.indent.toJson), ("show_ids", .bool c.showIds),
    ("show_types", .bool c.showTypes)]

/-- What the document does not say is as in the default configuration. -/
def ofJson? (j : Json) : Option Config := do
  let default : Config := {}
  match ← j.record ["use_colors", "indent", "show_ids", "show_types"] with
  | [useColors, indent, showIds, showTypes] =>
    some {
      useColors := ← Json.orDefault? Json.bool? default.useColors useColors
      indent := ← Json.orDefault? Indent.ofJson? default.indent indent
      showIds := ← Json.orDefault? Json.bool? default.showIds showIds
      showTypes := ← Json.orDefault? Json.bool? default.showTypes showTypes
    }
  | _ => none

end Config

/-! ## Colours -/

inductive Color where
  | red | green | yellow | blue | magenta | cyan | dimmed
  deriving DecidableEq, Repr

namespace Color

def code : Color → Nat
  | .red => 31
  | .green => 32
  | .yellow => 33
  | .blue => 34
  | .magenta => 35
  | .cyan => 36
  | .dimmed => 2

def name : Color → String
  | .red => "red"
  | .green => "green"
  | .yellow => "yellow"
  | .blue => "blue"
  | .magenta => "magenta"
  | .cyan => "cyan"
  | .dimmed => "dimmed"

def all : List Color := [.red, .green, .yellow, .blue, .magenta, .cyan, .dimmed]

def ofName? (s : String) : Option Color := all.find? (name · = s)

/-- The sequence that switches the colour on. -/
def opening (c : Color) : List Char := '\x1b' :: '[' :: Nat.toDigits 10 c.code ++ ['m']

end Color

/-- The sequence that switches colours off. -/
def reset : List Char := ['\x1b', '[', '0', 'm']

/-- Puts `opening` behind every reset. -/
def reopen (opening : List Char) : List Char → List Char
  | '\x1b' :: '[' :: '0' :: 'm' :: rest => reset ++ opening ++ reopen opening rest
  | c :: rest => c :: reopen opening rest
  | [] => []

def colored (c : Color) (text : String) : String :=
  String.ofList (c.opening ++ reopen c.opening text.toList ++ reset)

/-! ## Layout -/

structure Layout where
  level : Nat := 0
  unit : String := "    "
  useColors : Bool := true
  deriving DecidableEq, Repr

namespace Layout

def ofConfig (c : Config) : Layout := { unit := c.indent.unit, useColors := c.useColors }

def indent (l : Layout) : Layout := { l with level := l.level + 1 }

/-- One step back, if there is one. -/
def dedent (l : Layout) : Layout := { l with level := l.level - 1 }

/-- What stands before a line. -/
def margin (l : Layout) : String := String.join (List.replicate l.level l.unit)

def line (l : Layout) (text : String) : String := l.margin ++ text ++ "\n"

def blank : String := "\n"

/-- The line that opens a block. -/
def header (l : Layout) (text : String) : String := l.line (text ++ ":")

def paint (l : Layout) (c : Color) (text : String) : String :=
  if l.useColors then colored c text else text

/-- Paints with a colour given by name; a name that is no colour changes nothing. -/
def paintNamed (l : Layout) (name text : String) : String :=
  match Color.ofName? name with
  | some c => l.paint c text
  | none => text

end Layout

/-! ## Writing -/

/-- Text that is being written, with the place where it goes on. -/
structure Page where
  layout : Layout := {}
  text : String := ""
  deriving DecidableEq, Repr

namespace Page

def line (p : Page) (text : String) : Page := { p with text := p.text ++ p.layout.line text }

def blank (p : Page) : Page := { p with text := p.text ++ Layout.blank }

def indent (p : Page) : Page := { p with layout := p.layout.indent }

def dedent (p : Page) : Page := { p with layout := p.layout.dedent }

def setColors (p : Page) (on : Bool) : Page := { p with layout := { p.layout with useColors := on } }

/-- Writes the header of a block; what follows stands inside the block, until `dedent` ends it. -/
def openBlock (p : Page) (text : String) : Page :=
  indent { p with text := p.text ++ p.layout.header text }

end Page

end ContractTree.Print
