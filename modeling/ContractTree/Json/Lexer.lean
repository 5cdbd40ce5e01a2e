import ContractTree.Json.Numeral

/-!
The tokens of a JSON text. The lexer is an automaton that reads one character at a time (`LexState.step`), so
lexing is a fold over the text. Literals and numerals share one mode, `word`, and are told apart once the word is
complete (`word?`). A string is collected as the codes that its characters and escapes spell, and put together at
its end (`textOfCodes?`), since an escape may spell one half of a pair of surrogates.
-/

namespace ContractTree.Json

inductive Token where
  | lbrace
  | rbrace
  | lbracket
  | rbracket
  | colon
  | comma
  /-- A string; `none` if it holds half a pair of surrogates. -/
  | text (s : Option String)
  /-- A literal or a numeral. -/
  | scalar (j : Json)

/-! ## Words -/

def isBlank (c : Char) : Bool :=
  c = ' ' || c = '\n' || c = '\r' || c = '\t'

def isWordChar (c : Char) : Bool :=
  c.isAlphanum || c = '+' || c = '-' || c = '.'

def word? (cs : List Char) : Option Json :=
  if cs = ['n', 'u', 'l', 'l'] then some .null
  else if cs = ['t', 'r', 'u', 'e'] then some (.bool true)
  else if cs = ['f', 'a', 'l', 's', 'e'] then some (.bool false)
  else numeral? cs

/-! ## Strings -/

def isHighSurrogate (code : Nat) : Bool := 0xD800 ≤ code && code < 0xDC00

def isLowSurrogate (code : Nat) : Bool := 0xDC00 ≤ code && code < 0xE000

def joinSurrogates (high low : Nat) : Char :=
  Char.ofNat (0x10000 + (high - 0xD800) * 0x400 + (low - 0xDC00))

/-- The characters that codes spell, in front of `acc`; the codes are given last first. -/
def charsOfCodes? : List Nat → List Char → Option (List Char)
  | [], acc => some acc
  | low :: high :: rest, acc =>
    if isLowSurrogate low && isHighSurrogate high then charsOfCodes? rest (joinSurrogates high low :: acc)
    else if isLowSurrogate low || isHighSurrogate low then none
    else charsOfCodes? (high :: rest) (Char.ofNat low :: acc)
  | [code], acc => if isLowSurrogate code || isHighSurrogate code then none else some (Char.ofNat code :: acc)

/-- The text that codes spell, given last first; `none` if one of them is half a pair of surrogates. -/
def textOfCodes? (rev : List Nat) : Option String := (charsOfCodes? rev []).map String.ofList

/-! ## The automaton -/

/-- Where in a token the lexer stands. What is read of the token so far is kept newest first. -/
inductive Mode where
  | between
  | word (rev : List Char)
  /-- Inside a string. -/
  | text (rev : List Nat)
  /-- After a backslash. -/
  | escape (rev : List Nat)
  /-- Inside a four-digit escape, of which `left` digits are still to come. -/
  | hex (rev : List Nat) (value : Nat) (left : Nat)

/-- What the lexer knows after a part of the text; tokens are kept newest first. -/
structure LexState where
  mode : Mode
  done : List Token

def punctuation? (c : Char) : Option Token :=
  if c = '{' then some .lbrace
  else if c = '}' then some .rbrace
  else if c = '[' then some .lbracket
  else if c = ']' then some .rbracket
  else if c = ':' then some .colon
  else if c = ',' then some .comma
  else none

def simpleEscape? (c : Char) : Option Char :=
  if c = '"' || c = '\\' || c = '/' then some c
  else if c = 'b' then some '\x08'
  else if c = 'f' then some '\x0c'
  else if c = 'n' then some '\n'
  else if c = 'r' then some '\r'
  else if c = 't' then some '\t'
  else none

def hexValue? (c : Char) : Option Nat :=
  if c.isDigit then some (c.toNat - '0'.toNat)
  else if 'a' ≤ c ∧ c ≤ 'f' then some (c.toNat - 'a'.toNat + 10)
  else if 'A' ≤ c ∧ c ≤ 'F' then some (c.toNat - 'A'.toNat + 10)
  else none

/-- A character that stands between tokens. -/
def LexState.start (done : List Token) (c : Char) : Option LexState :=
  if isBlank c then some ⟨.between, done⟩
  else if c = '"' then some ⟨.text [], done⟩
  else if isWordChar c then some ⟨.word [c], done⟩
  else (punctuation? c).map fun t => ⟨.between, t :: done⟩

def LexState.step (s : LexState) (c : Char) : Option LexState :=
  match s.mode with
  | .between => LexState.start s.done c
  | .word rev =>
    if isWordChar c then some ⟨.word (c :: rev), s.done⟩
    else (word? rev.reverse).bind fun j => LexState.start (.scalar j :: s.done) c
  | .text rev =>
    if c = '"' then some ⟨.between, .text (textOfCodes? rev) :: s.done⟩
    else if c = '\\' then some ⟨.escape rev, s.done⟩
    else if c.toNat < 0x20 then none
    else some ⟨.text (c.toNat :: rev), s.done⟩
  | .escape rev =>
    if c = 'u' then some ⟨.hex rev 0 4, s.done⟩
    else (simpleEscape? c).map fun e => ⟨.text (e.toNat :: rev), s.done⟩
  | .hex rev value left =>
    (hexValue? c).map fun d =>
      if left ≤ 1 then ⟨.text ((16 * value + d) :: rev), s.done⟩
      else ⟨.hex rev (16 * value + d) (left - 1), s.done⟩

/-- The tokens of a text that ends here. -/
def LexState.finish (s : LexState) : Option (List Token) :=
  match s.mode with
  | .between => some s.done.reverse
  | .word rev => (word? rev.reverse).map fun j => (Token.scalar j :: s.done).reverse
  | _ => none

def tokens? (cs : List Char) : Option (List Token) :=
  (cs.foldlM LexState.step ⟨.between, []⟩).bind LexState.finish

end ContractTree.Json
