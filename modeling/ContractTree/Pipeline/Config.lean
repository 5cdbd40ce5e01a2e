import ContractTree.Json.Reader

/-!
What a pipeline is to do: the passes by key, in the order in which they run, and what goes on around each pass. A
configuration document may leave out anything; what it leaves out is as in the default configuration.
-/

namespace ContractTree.Pipeline

structure Config where
  passes : List String := ["Sv"]
  verifyAfterEach : Bool := true
  printTree : Bool := false
  collectStats : Bool := false
  deriving DecidableEq, Repr

namespace Config

def toJson (c : Config) : Json :=
  .obj [("passes", .arr (c.passes.map .str)), ("verify_after_each", .bool c.verifyAfterEach),
    ("print_tree", .bool c.printTree), ("collect_stats", .bool c.collectStats)]

def ofJson? (j : Json) : Option Config := do
  let default : Config := {}
  match ← j.record ["passes", "verify_after_each", "print_tree", "collect_stats"] with
  | [passes, verifyAfterEach, printTree, collectStats] =>
    some {
      passes := ← Json.orDefault? (Json.listOf? Json.str?) default.passes passes
      verifyAfterEach := ← Json.orDefault? Json.bool? default.verifyAfterEach verifyAfterEach
      printTree := ← Json.orDefault? Json.bool? default.printTree printTree
      collectStats := ← Json.orDefault? Json.bool? default.collectStats collectStats
    }
  | _ => none

def parse? (text : String) : Option Config := (Json.parse? Json.nestingLimit text).bind ofJson?

/-- Why there is no configuration at a path. -/
inductive LoadError where
  /-- The file cannot be read; the reason is the system's. -/
  | unreadable (path reason : String)
  | invalid (path : String)

def LoadError.message : LoadError → String
  | .unreadable path _ => "Failed to read pipeline config " ++ path
  | .invalid path => "Invalid pipeline config " ++ path

/-- The configuration in the file at `path`, whose text, or why it has none, is `content`. -/
def load (path : String) (content : Except String String) : Except LoadError Config :=
  match content with
  | .error reason => .error (.unreadable path reason)
  | .ok text =>
    match parse? text with
    | none => .error (.invalid path)
    | some c => .ok c

end Config

end ContractTree.Pipeline
