/-!
The types of contract values. A state variable is declared with a plain type or with nested mappings; once lowered
it is a storage slot, whose type lists the keys of all mapping levels and the type of the value they lead to.
`Ty.slot` takes a declared type to the type of its slot, and leaves a slot alone.
-/

namespace ContractTree

inductive Visibility where
  | external
  | internal
  deriving DecidableEq, Repr

inductive Mutability where
  | pure
  | view
  | nonPayable
  | payable
  deriving DecidableEq, Repr

inductive Ty where
  | bool
  | uint (bits : UInt16)
  | int (bits : UInt16)
  | address
  | bytes (size : UInt8)
  | string
  | dynArray (item : Ty) (bound : UInt64)
  | mapping (key value : Ty)
  | storage (keys : List Ty) (value : Ty)
  | function (params : List Ty) (returns : Option Ty) (visibility : Visibility) (mutability : Mutability)
  deriving Repr, Inhabited

namespace Ty

/-- The keys of nested mappings, outermost first. -/
def levelKeys : Ty → List Ty
  | .mapping key value => key :: levelKeys value
  | _ => []

/-- The type that nested mappings lead to. -/
def levelValue : Ty → Ty
  | .mapping _ value => levelValue value
  | t => t

/-- The types of the keys that lead to a value of the slot. -/
def slotKeys : Ty → List Ty
  | .storage keys _ => keys
  | t => t.levelKeys

/-- The type of the values held in the slot. -/
def slotValue : Ty → Ty
  | .storage _ value => value
  | t => t.levelValue

/-- The type of the storage slot of a variable declared with this type. -/
def slot (t : Ty) : Ty := .storage t.slotKeys t.slotValue

/-- How many keys lead to a value of the slot. -/
def keyDepth (t : Ty) : Nat := t.slotKeys.length

/-- The greatest number of keys that lead to a value of a slot, for this type and for the values in it. -/
def breadth : Ty → Nat
  | .mapping key value => max (levelKeys (.mapping key value)).length (breadth value)
  | .storage keys value => max keys.length (breadth value)
  | _ => 0

theorem keyDepth_le_breadth (t : Ty) : t.keyDepth ≤ t.breadth := by
  cases t with
  | mapping key value => exact Nat.le_max_left _ _
  | storage keys value => exact Nat.le_max_left _ _
  | _ => exact Nat.le_refl 0

def isSlot : Ty → Bool
  | .storage _ _ => true
  | _ => false

/-! ## Text -/

mutual

/-- The type as it is written in source text. -/
def display : Ty → String
  | .bool => "bool"
  | .uint bits => "uint" ++ toString bits.toNat
  | .int bits => "int" ++ toString bits.toNat
  | .address => "address"
  | .bytes size => "bytes" ++ toString size.toNat
  | .string => "String"
  | .dynArray item bound => "DynArray[" ++ display item ++ ", " ++ toString bound.toNat ++ "]"
  | .mapping key value => "HashMap[" ++ display key ++ ", " ++ display value ++ "]"
  | .storage keys value => "storage<[" ++ displayList keys ++ "] => " ++ display value ++ ">"
  | .function params none _ _ => "function(" ++ displayList params ++ ")"
  | .function params (some result) _ _ => "function(" ++ displayList params ++ ") -> " ++ display result

/-- Types with a comma between them. -/
def displayList : List Ty → String
  | [] => ""
  | [t] => display t
  | t :: ts => display t ++ ", " ++ displayList ts

end

/-! ## Equality -/

mutual

/-- Whether two types are the same. -/
def same : Ty → Ty → Bool
  | .bool, .bool | .address, .address | .string, .string => true
  | .uint n, .uint n' | .int n, .int n' => n == n'
  | .bytes n, .bytes n' => n == n'
  | .dynArray t n, .dynArray t' n' => t.same t' && n == n'
  | .mapping k v, .mapping k' v' => k.same k' && v.same v'
  | .storage ks v, .storage ks' v' => sameList ks ks' && v.same v'
  | .function ps r v m, .function ps' r' v' m' => sameList ps ps' && sameOption r r' && v == v' && m == m'
  | _, _ => false

def sameList : List Ty → List Ty → Bool
  | [], [] => true
  | t :: ts, t' :: ts' => t.same t' && sameList ts ts'
  | _, _ => false

def sameOption : Option Ty → Option Ty → Bool
  | none, none => true
  | some t, some t' => t.same t'
  | _, _ => false

end

mutual

theorem same_iff : (s t : Ty) → (s.same t = true ↔ s = t)
  | .bool, t | .address, t | .string, t | .uint _, t | .int _, t | .bytes _, t => by cases t <;> simp [same]
  | .dynArray item _, t => by cases t <;> simp [same, same_iff item]
  | .mapping key value, t => by cases t <;> simp [same, same_iff key, same_iff value]
  | .storage keys value, t => by cases t <;> simp [same, sameList_iff keys, same_iff value]
  | .function params returns _ _, t => by
    cases t <;> simp [same, sameList_iff params, sameOption_iff returns, and_assoc]

theorem sameList_iff : (ss ts : List Ty) → (sameList ss ts = true ↔ ss = ts)
  | [], ts => by cases ts <;> simp [sameList]
  | s :: ss, ts => by cases ts <;> simp [sameList, same_iff s, sameList_iff ss]

theorem sameOption_iff : (s t : Option Ty) → (sameOption s t = true ↔ s = t)
  | none, t => by cases t <;> simp [sameOption]
  | some s, t => by cases t <;> simp [sameOption, same_iff s]

end

instance decidableEq : DecidableEq Ty := fun s t => decidable_of_iff _ (same_iff s t)

end Ty

end ContractTree
