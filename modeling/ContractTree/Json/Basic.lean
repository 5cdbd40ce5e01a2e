/-!
JSON values. The fields of an object keep the order in which they stand, and a name may occur more than once: what
a repeated name means is for the reader of a particular document to say (`Json.field`). A numeral that is a natural
number is kept as one, and every other numeral as its text, since no document of this library holds a negative
number or a fraction.

A text may also spell what has no value: a string with half a pair of surrogates, a number out of range, or arrays
and objects nested too deep. The reader keeps the place of such a part (`Json.unreadable`), because a document may
hold it where it is only passed over.
-/

namespace ContractTree

inductive Json where
  | null
  | bool (b : Bool)
  | nat (n : Nat)
  | real (text : String)
  | str (s : String)
  | arr (items : List Json)
  | obj (fields : List (String × Json))
  /-- Something that may be passed over but not read. -/
  | unreadable
  deriving Inhabited

namespace Json

mutual

/-- How many arrays and objects stand inside one another at the deepest place. -/
def depth : Json → Nat
  | .arr items => itemsDepth items + 1
  | .obj fields => fieldsDepth fields + 1
  | _ => 0

def itemsDepth : List Json → Nat
  | [] => 0
  | j :: js => max (depth j) (itemsDepth js)

def fieldsDepth : List (String × Json) → Nat
  | [] => 0
  | (_, j) :: fs => max (depth j) (fieldsDepth fs)

end

mutual

/-- Whether every part of the value can be read. -/
def isReadable : Json → Bool
  | .arr items => itemsReadable items
  | .obj fields => fieldsReadable fields
  | .unreadable => false
  | _ => true

def itemsReadable : List Json → Bool
  | [] => true
  | j :: js => isReadable j && itemsReadable js

def fieldsReadable : List (String × Json) → Bool
  | [] => true
  | (_, j) :: fs => isReadable j && fieldsReadable fs

end

/-! ## Reading the parts of a document -/

/-- The value under `name`: `none` when the name occurs twice, `some none` when it does not occur. -/
def field (fields : List (String × Json)) (name : String) : Option (Option Json) :=
  match fields.filter (·.1 = name) with
  | [] => some none
  | [(_, j)] => some (some j)
  | _ => none

/-- The value under a name that occurs exactly once. -/
def required (fields : List (String × Json)) (name : String) : Option Json :=
  (field fields name).join

/-- The values of a record's fields, in the order of `names`. A record is an object, or an array of the values in
that order, in which trailing ones may be missing. -/
def record (names : List String) : Json → Option (List (Option Json))
  | .obj fields => names.mapM (field fields)
  | .arr items =>
    if items.length ≤ names.length then
      some (items.map some ++ List.replicate (names.length - items.length) none)
    else none
  | _ => none

def nat? : Json → Option Nat
  | .nat n => some n
  | _ => none

def bool? : Json → Option Bool
  | .bool b => some b
  | _ => none

def str? : Json → Option String
  | .str s => some s
  | _ => none

def arr? : Json → Option (List Json)
  | .arr items => some items
  | _ => none

/-- A natural number below `bound`. -/
def natBelow? (bound : Nat) (j : Json) : Option Nat :=
  j.nat?.filter (· < bound)

/-- A list whose items are all read by `item`. -/
def listOf? {α : Type} (item : Json → Option α) (j : Json) : Option (List α) :=
  j.arr?.bind (·.mapM item)

/-- A value that may be missing or `null`. -/
def optional? {α : Type} (read : Json → Option α) : Option Json → Option (Option α)
  | none => some none
  | some .null => some none
  | some j => (read j).map some

/-- A value that may be missing, but not `null`. -/
def orDefault? {α : Type} (read : Json → Option α) (default : α) : Option Json → Option α
  | none => some default
  | some j => read j

/-- One of the choices in `all`, written as its name or as an object that holds `null` under it. -/
def choice? {α : Type} (all : List α) (name : α → String) : Json → Option α
  | .str s => all.find? (name · = s)
  | .obj [(s, .null)] => all.find? (name · = s)
  | _ => none

/-- A choice, which may also be written as an object that holds an empty object under its name. -/
def choiceOrEmpty? {α : Type} (all : List α) (name : α → String) : Json → Option α
  | .obj [(s, .obj [])] => all.find? (name · = s)
  | j => choice? all name j

/-! ## Writing the parts of a document -/

def ofOption {α : Type} (write : α → Json) : Option α → Json
  | none => .null
  | some a => write a

end Json

end ContractTree
