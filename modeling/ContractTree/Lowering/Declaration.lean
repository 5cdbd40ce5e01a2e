import ContractTree.Lowering.Access
import ContractTree.Store.Build

/-!
Declarations of state variables. The declaration of a state variable, and the name it declares, get the type of the
slot. A public variable also gets a getter: an external function of its name that takes the keys and returns the
value. A declaration that has a slot type already is left alone.
-/

namespace ContractTree.Lower

/-- Whether one of the declarations is a function of this name. -/
def hasFunction (s : Store) (body : List NodeId) (name : String) : Bool :=
  body.any fun id =>
    match s.kind? id with
    | some (.functionDef f _ _ _ _) => f = name
    | _ => false

/-- Makes an argument and a reference to it for each key, from the `i`th on. -/
def getterKeys (i : Nat) : List Ty → Lower (List (NodeId × NodeId))
  | [] => return []
  | ty :: tys => do
    let name := "key" ++ toString i
    let arg ← edit (Build.arg name ty)
    let reference ← edit (Build.name name (some ty))
    let rest ← getterKeys (i + 1) tys
    return (arg, reference) :: rest

/-- Adds the getter of a variable to the module. -/
def addGetter (v : StorageVar) (module : NodeId) : Lower Unit := do
  match (← edit (Edit.node module)).kind with
  | .module body => if hasFunction (← Work.store) body v.name then fail (.getterCollision v.name)
  | _ => pure ()
  let temp ← edit (Edit.temp (some v.value))
  let slot ← slotName v
  let keys ← getterKeys 0 v.keys
  let read ← edit (Build.storageRead temp slot (keys.map Prod.snd))
  let returned ← edit (Build.name (tempName temp) (some v.value))
  let ret ← edit (Build.ret (some returned))
  let getter ← edit (Build.function v.name (keys.map Prod.fst) [read, ret] .external .view)
  edit (Build.setReturns getter v.value)
  edit (Edit.appendDeclaration module getter)
  count fun st => { st with getters := st.getters + 1 }

def lowerDeclaration (node module : NodeId) : Lower Unit := do
  match (← catalog).declaredAt? node with
  | none => return ()
  | some v =>
    if ((← Work.store).ty? node).any Ty.isSlot then return ()
    edit (Edit.setTy node (some v.slotTy))
    match (← edit (Edit.node node)).kind with
    | .variableDecl target _ _ _ _ => edit (Edit.setTy target (some v.slotTy))
    | _ => pure ()
    if v.isPublic then addGetter v module

end ContractTree.Lower
