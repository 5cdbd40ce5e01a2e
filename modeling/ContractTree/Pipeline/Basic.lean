import ContractTree.Lowering.Basic
import ContractTree.Pipeline.Config

/-!
Passes in a row. After each pass the tree is checked, if the configuration says so, and an observer is shown the
result; the first failure ends the run. What the passes did to the store, what the observer noted and the
statistics of the finished passes stay visible after a failure.
-/

namespace ContractTree

/-- A pass over the tree below a module. -/
structure Pass where
  /-- What the pass is called in configurations. -/
  key : String
  name : String
  description : String := "No description provided"
  run : NodeId → EStateM PassError Store Unit

namespace Lowering

/-- The lowering on its own, with a fresh catalog. -/
def runOnce (module : NodeId) : EStateM PassError Store Unit := fun s =>
  match run module { store := s, own := {} } with
  | .ok _ w => .ok () w.store
  | .error e w => .error e w.store

def pass : Pass where
  key := "Sv"
  name := "storage-var-lowering"
  description := "Rewrites `self.<var>` accesses into explicit storage reads and writes"
  run := runOnce

end Lowering

namespace Pass

/-- Every pass there is, in the order in which they run by default. -/
def all : List Pass := [Lowering.pass]

def find? (key : String) : Option Pass := all.find? (·.key = key)

end Pass

/-- How a pass left the store. -/
structure PassReport where
  key : String
  name : String
  nodesAfter : Nat
  deriving DecidableEq, Repr

structure Pipeline where
  passes : List Pass := []
  verifyAfterEach : Bool := true
  collectStats : Bool := false

namespace Pipeline

/-- The pipeline of all passes. -/
def default : Pipeline := { passes := Pass.all }

def lookupAll : List String → Except PassError (List Pass)
  | [] => .ok []
  | key :: keys =>
    match Pass.find? key with
    | none => .error (.unknownPass key)
    | some p => do return p :: (← lookupAll keys)

def ofConfig (c : Config) : Except PassError Pipeline := do
  let passes ← lookupAll c.passes
  return { passes, verifyAfterEach := c.verifyAfterEach, collectStats := c.collectStats }

def withPass (p : Pipeline) (pass : Pass) : Pipeline := { p with passes := p.passes ++ [pass] }

def keys (p : Pipeline) : List String := p.passes.map Pass.key

/-- What a run has come to; `seen` is the observer's. -/
structure State (σ : Type) where
  store : Store
  reports : List PassReport := []
  seen : σ

/-- What looks at the tree after a pass. -/
abbrev Observer (σ : Type) := Pass → Store → NodeId → EStateM PassError σ Unit

variable {σ : Type}

/-- Runs one pass and what goes on around it. -/
def runPass (p : Pipeline) (observe : Observer σ) (module : NodeId) (pass : Pass) :
    EStateM PassError (State σ) Unit := do
  let st ← get
  match pass.run module st.store with
  | .error e s =>
    set { st with store := s }
    throw e
  | .ok _ s =>
    set { st with store := s }
    if p.verifyAfterEach then
      match s.verify module with
      | .error e => throw (.verification pass.name e)
      | .ok _ => pure ()
    if p.collectStats then
      modify fun st =>
        { st with reports := st.reports ++ [{ key := pass.key, name := pass.name, nodesAfter := s.size }] }
    match observe pass s module (← get).seen with
    | .error e seen =>
      modify ({ · with seen })
      throw e
    | .ok _ seen => modify ({ · with seen })

/-- Runs the passes in order on the tree below `module`. -/
def run (p : Pipeline) (observe : Observer σ) (module : NodeId) : EStateM PassError (State σ) Unit :=
  p.passes.forM (p.runPass observe module)

/-- Runs every pass there is. -/
def lowerModule (module : NodeId) : EStateM PassError Store Unit := fun s =>
  let ignore : Observer Unit := fun _ _ _ => pure ()
  match default.run ignore module { store := s, seen := () } with
  | .ok _ st => .ok () st.store
  | .error e st => .error e st.store

end Pipeline

end ContractTree
