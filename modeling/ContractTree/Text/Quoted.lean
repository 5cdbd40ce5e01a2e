import ContractTree.Text.Hidden

/-!
String literals in source text. A literal stands in double quotes; the quote and the backslash get a backslash,
line ends, tabulators and the zero character have an escape of their own, and every other character that would not
show is written as its number in hexadecimal digits.
-/

namespace ContractTree.Text

/-- Whether the character is written as its number. -/
def needsNumber (c : Char) : Bool :=
  c.toNat < 0x20 || 0x7f ≤ c.toNat && isHidden c

def quoteChar (c : Char) : List Char :=
  if c = '"' then ['\\', '"']
  else if c = '\\' then ['\\', '\\']
  else if c = '\n' then ['\\', 'n']
  else if c = '\r' then ['\\', 'r']
  else if c = '\t' then ['\\', 't']
  else if c = '\x00' then ['\\', '0']
  else if needsNumber c then ['\\', 'u', '{'] ++ Nat.toDigits 16 c.toNat ++ ['}']
  else [c]

def quoted (s : String) : String :=
  String.ofList ('"' :: s.toList.flatMap quoteChar ++ ['"'])

end ContractTree.Text
