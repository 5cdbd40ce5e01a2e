import ContractTree.Json.Basic
import ContractTree.Text.Decimal

/-!
Numerals: which words are numbers, and which numbers are too large to be read. A number is taken as a significand
below `2 ^ 64` and a power of ten; digits that do not fit the significand count as powers of ten before the point,
and not at all behind it. Significand and power are rounded to a double each, and the number is out of range if the
product of the two is.
-/

namespace ContractTree.Json

/-! ## The form of a numeral -/

/-- One digit or more. -/
def isDigits (cs : List Char) : Bool :=
  !cs.isEmpty && cs.all Char.isDigit

/-- The part of a numeral before the point: digits that do not start with a superfluous zero. -/
def isWhole (cs : List Char) : Bool :=
  isDigits cs && (cs.length = 1 || cs.head? != some '0')

/-- An exponent, or nothing. -/
def isExponent : List Char → Bool
  | [] => true
  | e :: '+' :: ds => (e = 'e' || e = 'E') && isDigits ds
  | e :: '-' :: ds => (e = 'e' || e = 'E') && isDigits ds
  | e :: ds => (e = 'e' || e = 'E') && isDigits ds

/-- A fraction and an exponent, each of which may be missing. -/
def isTail : List Char → Bool
  | '.' :: cs => isDigits (cs.takeWhile Char.isDigit) && isExponent (cs.dropWhile Char.isDigit)
  | cs => isExponent cs

def isUnsigned (cs : List Char) : Bool :=
  isWhole (cs.takeWhile Char.isDigit) && isTail (cs.dropWhile Char.isDigit)

/-! ## Range -/

/-- The number `significand * 10 ^ exponent`. -/
structure Magnitude where
  significand : Nat
  exponent : Int

/-- Puts digits behind a significand as long as it stays below `2 ^ 64`; gives it with the digits that are left. -/
def appendDigits (significand : Nat) : List Char → Nat × List Char
  | [] => (significand, [])
  | d :: ds =>
    let next := 10 * significand + (d.toNat - '0'.toNat)
    if next < UInt64.size then appendDigits next ds else (significand, d :: ds)

def exponentValue : List Char → Int
  | _ :: '+' :: ds => Decimal.digitsValue ds
  | _ :: '-' :: ds => -(Decimal.digitsValue ds : Int)
  | _ :: ds => Decimal.digitsValue ds
  | [] => 0

/-- The magnitude of a numeral without sign. -/
def magnitude (cs : List Char) : Magnitude :=
  let (whole, left) := appendDigits 0 (cs.takeWhile Char.isDigit)
  match cs.dropWhile Char.isDigit with
  | '.' :: rest =>
    let places := rest.takeWhile Char.isDigit
    let (significand, ignored) := appendDigits whole places
    ⟨significand,
      (left.length + ignored.length : Int) - places.length + exponentValue (rest.dropWhile Char.isDigit)⟩
  | rest => ⟨whole, left.length + exponentValue rest⟩

/-- The double nearest to a natural number, if doubles had no largest exponent: 53 bits, and a tie goes to even. -/
def nearestDouble (n : Nat) : Nat :=
  let unit := Nat.pow 2 (n.log2 - 52)
  let below := n / unit
  let rest := n % unit
  if unit < 2 * rest || unit = 2 * rest && below % 2 = 1 then (below + 1) * unit else below * unit

/-- The least number that is nearer to `2 ^ 1024` than to the largest double, or as near. -/
def doubleLimit : Nat := Nat.pow 2 1024 - Nat.pow 2 970

/-- No power of ten above this is a double. -/
def maxDoubleExponent : Int := 308

def Magnitude.isInRange (m : Magnitude) : Bool :=
  m.significand = 0 || m.exponent ≤ 0 ||
    m.exponent ≤ maxDoubleExponent
      && nearestDouble m.significand * nearestDouble (Nat.pow 10 m.exponent.toNat) < doubleLimit

/-! ## Reading -/

def numeral? (cs : List Char) : Option Json :=
  let unsigned := match cs with
    | '-' :: rest => rest
    | _ => cs
  if !isUnsigned unsigned then none
  else if !(magnitude unsigned).isInRange then some .unreadable
  else if isWhole cs then some (.nat (Decimal.digitsValue cs))
  else some (.real (String.ofList cs))

end ContractTree.Json
