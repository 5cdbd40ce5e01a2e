import ContractTree.Lowering.Error
import ContractTree.Walk

/-!
The state variables of a module. Every variable that is declared in the module's body and is neither constant nor
immutable lives in a storage slot; the catalog lists them in the order of their declarations. Of two declarations
with one name the later one counts, in the place of the earlier one.
-/

namespace ContractTree

/-- A variable that lives in a storage slot. -/
structure StorageVar where
  name : String
  decl : NodeId
  /-- The type that the declaration was found with. -/
  declared : Ty
  isPublic : Bool

namespace StorageVar

def slotName (v : StorageVar) : String := v.name ++ "_STORAGE"

def slotTy (v : StorageVar) : Ty := v.declared.slot

/-- The types of the keys that lead to a value of the slot. -/
def keys (v : StorageVar) : List Ty := v.declared.slotKeys

/-- The type of the values in the slot. -/
def value (v : StorageVar) : Ty := v.declared.slotValue

/-- How many subscripts a complete access has. -/
def depth (v : StorageVar) : Nat := v.keys.length

end StorageVar

abbrev Catalog := List StorageVar

namespace Catalog

def find? (c : Catalog) (name : String) : Option StorageVar := List.find? (·.name = name) c

/-- The variable that this node declares. -/
def declaredAt? (c : Catalog) (decl : NodeId) : Option StorageVar := List.find? (·.decl = decl) c

/-- Puts a variable in the place of the one that has its name, or else at the end. -/
def insert (c : Catalog) (v : StorageVar) : Catalog :=
  if c.any (·.name = v.name) then c.map fun w => if w.name = v.name then v else w else c ++ [v]

end Catalog

namespace Lowering

/-- How many constructs of each sort were lowered. -/
structure Stats where
  reads : Nat := 0
  writes : Nat := 0
  augWrites : Nat := 0
  getters : Nat := 0
  deriving DecidableEq, Repr

/-- What the pass keeps beside the store. -/
structure Progress where
  catalog : Catalog := []
  stats : Stats := {}

end Lowering

abbrev Lower := Work PassError Lowering.Progress

namespace Lower

def edit {α : Type} (e : Edit α) : Lower α := Work.edit .structural e

def fail {α : Type} (e : LoweringError) : Lower α := throw (.lowering e)

def catalog : Lower Catalog := do return (← get).own.catalog

def modifyCatalog (f : Catalog → Catalog) : Lower Unit :=
  modify fun w => { w with own := { w.own with catalog := f w.own.catalog } }

def count (f : Lowering.Stats → Lowering.Stats) : Lower Unit :=
  modify fun w => { w with own := { w.own with stats := f w.own.stats } }

/-- Looks at a declaration of a module's body and takes it into the catalog if it has a slot. -/
def collectDecl (decl : NodeId) : Lower Unit := do
  match (← edit (Edit.node decl)).kind with
  | .variableDecl target _ isPublic isConstant isImmutable =>
    if isConstant || isImmutable then return ()
    match (← edit (Edit.node target)).kind.name? with
    | none => throw (.structural (.inconsistent decl .targetNotName))
    | some name =>
      let s ← Work.store
      match (s.ty? decl).or (s.ty? target) with
      | none => fail (.missingType name decl)
      | some declared => modifyCatalog (·.insert { name, decl, declared, isPublic })
  | _ => return ()

/-- Makes the catalog of a module anew. -/
def collectCatalog (module : NodeId) : Lower Unit := do
  modifyCatalog fun _ => []
  match (← edit (Edit.node module)).kind with
  | .module body => body.forM collectDecl
  | _ => throw (.structural (.notAModule module))

end Lower

end ContractTree
