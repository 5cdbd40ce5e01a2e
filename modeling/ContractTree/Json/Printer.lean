import ContractTree.Json.Basic

/-!
Writing JSON. One writer serves both layouts: a `Spacing` says what stands before an item at a given depth and
after a colon, and everything else is fixed. Strings escape the quote, the backslash and the characters below
U+0020, and nothing else. What cannot be read is not written either: `null` stands in its place.
-/

namespace ContractTree.Json

/-- The blanks of a layout. -/
structure Spacing where
  /-- What stands before an item, and before the closing bracket, at this depth. -/
  newline : Nat → List Char
  afterColon : List Char

namespace Spacing

/-- No blanks at all. -/
def compact : Spacing := ⟨fun _ => [], []⟩

/-- A line per item, two blanks deeper at each level. -/
def pretty : Spacing := ⟨fun depth => '\n' :: List.replicate (2 * depth) ' ', [' ']⟩

end Spacing

/-! ## Strings -/

def hexDigit (n : Nat) : Char := Nat.digitChar (n % 16)

def escapeChar (c : Char) : List Char :=
  if c = '"' then ['\\', '"']
  else if c = '\\' then ['\\', '\\']
  else if c = '\n' then ['\\', 'n']
  else if c = '\r' then ['\\', 'r']
  else if c = '\t' then ['\\', 't']
  else if c = '\x08' then ['\\', 'b']
  else if c = '\x0c' then ['\\', 'f']
  else if c.toNat < 0x20 then ['\\', 'u', '0', '0', hexDigit (c.toNat / 16), hexDigit c.toNat]
  else [c]

def quoted (s : String) : List Char :=
  '"' :: s.toList.flatMap escapeChar ++ ['"']

/-! ## Values -/

mutual

/-- The text of a value whose first character stands at `depth`. -/
def chars (sp : Spacing) (depth : Nat) : Json → List Char
  | .null => ['n', 'u', 'l', 'l']
  | .bool true => ['t', 'r', 'u', 'e']
  | .bool false => ['f', 'a', 'l', 's', 'e']
  | .nat n => Nat.toDigits 10 n
  | .real text => text.toList
  | .unreadable => ['n', 'u', 'l', 'l']
  | .str s => quoted s
  | .arr [] => ['[', ']']
  | .arr (j :: js) =>
    '[' :: sp.newline (depth + 1) ++ chars sp (depth + 1) j ++ itemChars sp (depth + 1) js
      ++ sp.newline depth ++ [']']
  | .obj [] => ['{', '}']
  | .obj ((k, j) :: fs) =>
    '{' :: sp.newline (depth + 1) ++ quoted k ++ ':' :: sp.afterColon ++ chars sp (depth + 1) j
      ++ fieldChars sp (depth + 1) fs ++ sp.newline depth ++ ['}']

/-- The items of an array after its first. -/
def itemChars (sp : Spacing) (depth : Nat) : List Json → List Char
  | [] => []
  | j :: js => ',' :: sp.newline depth ++ chars sp depth j ++ itemChars sp depth js

/-- The fields of an object after its first. -/
def fieldChars (sp : Spacing) (depth : Nat) : List (String × Json) → List Char
  | [] => []
  | (k, j) :: fs =>
    ',' :: sp.newline depth ++ quoted k ++ ':' :: sp.afterColon ++ chars sp depth j
      ++ fieldChars sp depth fs

end

def compact (j : Json) : String := String.ofList (chars .compact 0 j)

def pretty (j : Json) : String := String.ofList (chars .pretty 0 j)

end ContractTree.Json
