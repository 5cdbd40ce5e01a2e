/-!
Whole numbers of any size as decimal text. Reading takes one sign at most and digits with underscores between or
after them; writing puts a minus sign before a negative number and nothing else besides the digits.
-/

namespace ContractTree.Decimal

def digitsValue (ds : List Char) : Nat :=
  ds.foldl (fun n d => 10 * n + (d.toNat - '0'.toNat)) 0

/-- Digits and underscores, the first of them a digit. -/
def nat? : List Char → Option Nat
  | [] => none
  | c :: cs =>
    if c.isDigit && cs.all (fun d => d.isDigit || d = '_') then
      some (digitsValue ((c :: cs).filter Char.isDigit))
    else none

def int? (text : String) : Option Int :=
  match text.toList with
  | '-' :: cs => (nat? cs).map fun n => -(n : Int)
  | '+' :: cs => (nat? cs).map Int.ofNat
  | cs => (nat? cs).map Int.ofNat

def ofInt : Int → String
  | .ofNat n => toString n
  | .negSucc n => "-" ++ toString (n + 1)

end ContractTree.Decimal
