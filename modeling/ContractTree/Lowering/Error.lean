import ContractTree.Store.Error

/-!
Why a pass over a tree fails. Each cause has one wording.
-/

namespace ContractTree

inductive LoweringError where
  | unresolvedKeyChain (var : String) (node : NodeId) (expected found : Nat)
  | unsupportedTarget (var : String) (node : NodeId)
  | getterCollision (var : String)
  | outsideFunction (var : String) (node : NodeId)
  | missingType (var : String) (node : NodeId)
  deriving DecidableEq, Repr

def LoweringError.message : LoweringError → String
  | .unresolvedKeyChain var node expected found =>
    "Storage access `self." ++ var ++ "` at node " ++ node.text ++ " supplies " ++ toString found ++ " of the "
      ++ toString expected ++ " keys its mapping declares"
  | .unsupportedTarget var node =>
    "Cannot assign into part of the value stored in `self." ++ var ++ "` (node " ++ node.text ++ ")"
  | .getterCollision var => "Public getter `" ++ var ++ "` collides with an existing function"
  | .outsideFunction var node =>
    "Storage access `self." ++ var ++ "` at node " ++ node.text ++ " is not inside a function body"
  | .missingType var node =>
    "Storage declaration `" ++ var ++ "` (node " ++ node.text ++ ") carries no type annotation"

inductive PassError where
  | structural (cause : StructuralError)
  | lowering (cause : LoweringError)
  | unknownPass (key : String)
  /-- The pass of this name succeeded and left no tree behind. -/
  | verification (pass : String) (cause : StructuralError)
  deriving DecidableEq, Repr

def PassError.message : PassError → String
  | .structural cause => "Structural error: " ++ cause.message
  | .lowering cause => "Lowering error: " ++ cause.message
  | .unknownPass key => "Unknown pass key: " ++ key
  | .verification pass cause => "Pass " ++ pass ++ " left the tree inconsistent: " ++ cause.message

/-- The message of the cause that the error passes on, if it has one. -/
def PassError.source? : PassError → Option String
  | .structural cause => some cause.message
  | .lowering cause => some cause.message
  | .unknownPass _ => none
  | .verification _ cause => some cause.message

end ContractTree
