import ContractTree.Cli.Command
import ContractTree.Document
import ContractTree.Dump
import ContractTree.Pipeline.Basic
import ContractTree.Print.Source

/-!
What a command does. A run is a function of the files it reads; it says what is printed, whether a file is to be
written, and with which code the program ends. Nothing is written when anything before fails.
-/

namespace ContractTree.Cli

/-- Why a run fails. -/
inductive Failure where
  | config (cause : Pipeline.Config.LoadError)
  /-- The document at the path has no text; the reason is the system's. -/
  | unreadable (path reason : String)
  | document (path : String) (cause : Document.LoadError)
  | pipeline (cause : PassError)
  | lowering (path : String) (cause : PassError)
  | dump (cause : StructuralError)
  | render (cause : Print.RenderError)
  | capture (cause : StructuralError)
  | captureTo (path : String) (cause : StructuralError)
  /-- The file cannot be written; the reason is the system's. -/
  | unwritable (path reason : String)

/-- The message and the causes behind it, outermost first. -/
def Failure.chain : Failure → List String
  | .config (.unreadable path reason) => [(Pipeline.Config.LoadError.unreadable path reason).message, reason]
  | .config (.invalid path) => [(Pipeline.Config.LoadError.invalid path).message, "not a pipeline configuration"]
  | .unreadable path reason => ["Failed to load tree document " ++ path, reason]
  | .document path .unreadable => ["Failed to load tree document " ++ path, "not a tree document"]
  | .document path (.invalid cause) => ["Failed to load tree document " ++ path, cause.message]
  | .pipeline cause => cause.message :: cause.source?.toList
  | .lowering path cause => ("Lowering " ++ path ++ " failed") :: cause.message :: cause.source?.toList
  | .dump cause => ["Failed to dump tree", cause.message]
  | .render cause => [cause.message]
  | .capture cause => [cause.message]
  | .captureTo path cause => ["Failed to write " ++ path, cause.message]
  | .unwritable path reason => ["Failed to write " ++ path, reason]

/-- Whether the innermost cause is worded by the system or by the reader of JSON. -/
def Failure.isForeign : Failure → Bool
  | .config _ | .unreadable _ _ | .document _ .unreadable | .unwritable _ _ => true
  | _ => false

/-- Whether the failure is that identities ran out, which ends the program at once. -/
def Failure.isExhausted : Failure → Bool
  | .document _ (.invalid .idsExhausted) | .lowering _ (.structural .idsExhausted) => true
  | _ => false

/-- A text whose lines after the first are indented by `margin`. -/
def hanging (margin text : String) : String := ("\n" ++ margin).intercalate (text.splitOn "\n")

/-- The causes with their numbers. -/
def numbered : List String → String
  | [] => ""
  | causes =>
    "\n".intercalate (causes.zipIdx.map fun (cause, i) =>
      String.ofList (List.replicate (5 - (toString i).length) ' ') ++ toString i ++ ": " ++
        hanging "       " cause)

/-- A message and the causes behind it, as they are printed. A single cause has no number. -/
def reportText : List String → String
  | [] => ""
  | [message] => "Error: " ++ message ++ "\n"
  | [message, cause] => "Error: " ++ message ++ "\n\nCaused by:\n    " ++ hanging "    " cause ++ "\n"
  | message :: causes => "Error: " ++ message ++ "\n\nCaused by:\n" ++ numbered causes ++ "\n"

/-- How a run ends. -/
structure Outcome where
  stdout : String := ""
  stderr : String := ""
  /-- A file to be written, with its content. -/
  save : Option (String × String) := none
  /-- What is told once the file is written. -/
  farewell : String := ""
  failure : Option Failure := none

namespace Outcome

def fail (stderr : String) (f : Failure) : Outcome := { stderr, failure := some f }

/-- The outcome if the file cannot be written. -/
def refuseSave (o : Outcome) (reason : String) : Outcome :=
  match o.save with
  | none => o
  | some (path, _) => fail o.stderr (.unwritable path reason)

def exitCode (o : Outcome) : Nat :=
  match o.failure with
  | none => 0
  | some f => if f.isExhausted then 101 else 1

/-- All that is printed beside the result. -/
def messages (o : Outcome) : String :=
  match o.failure with
  | none => o.stderr ++ o.farewell
  | some f => o.stderr ++ reportText f.chain

end Outcome

/-! ## The commands -/

/-- The text of each file, or why it has none. -/
abbrev Files := String → Except String String

def loadTree (files : Files) (path : String) : Except Failure (Store × NodeId) :=
  match files path with
  | .error reason => .error (.unreadable path reason)
  | .ok text =>
    match Document.load text with
    | .error e => .error (.document path e)
    | .ok r => .ok r

def loadConfig (files : Files) : Option String → Except Failure Pipeline.Config
  | none => .ok {}
  | some path =>
    match Pipeline.Config.load path (files path) with
    | .error e => .error (.config e)
    | .ok c => .ok c

/-- What the observer of a run has to tell. -/
structure Dumps where
  text : String := ""
  failure : Option StructuralError := none

/-- Dumps the tree after each pass; the first dump that fails is remembered. -/
def dumpObserver : Pipeline.Observer Dumps := fun pass s module =>
  modify fun d =>
    match Dump.text s module with
    | .ok text => { d with text := d.text ++ "After " ++ pass.name ++ "\n" ++ text ++ "\n" }
    | .error e => { d with failure := d.failure.or (some e) }

def silentObserver : Pipeline.Observer Dumps := fun _ _ _ => return ()

/-- What a verbose run tells before it starts. -/
def greeting (input : String) (output : Option String) (config : Pipeline.Config) : String :=
  " Stowage\n" ++ String.ofList (List.replicate 50 '=') ++ "\n Input: " ++ input ++ "\n"
    ++ (output.map fun path => " Output: " ++ path ++ "\n").getD ""
    ++ " Passes: " ++ ",".intercalate config.passes ++ "\n\n"

/-- What a verbose run tells after it succeeded. -/
def farewell (reports : List PassReport) (output : Option String) : String :=
  String.join (reports.map fun r =>
      "   " ++ r.name ++ " (" ++ r.key ++ "): " ++ toString r.nodesAfter ++ " nodes\n")
    ++ "\n SUCCESS: Lowering successful!\n"
    ++ (output.map fun path => "   Output: " ++ path ++ "\n").getD ""

/-- What becomes of the lowered tree. -/
def deliver (colors : Bool) (s : Store) (root : NodeId) (format : Format) (output : Option String) :
    Except Failure Outcome :=
  match format, output with
  | .json, some path =>
    match Document.save s root with
    | .error e => .error (.captureTo path e)
    | .ok text => .ok { save := some (path, text) }
  | .json, none =>
    match Document.save s root with
    | .error e => .error (.capture e)
    | .ok text => .ok { stdout := text ++ "\n" }
  | .text, some path =>
    match Print.render s .plain root with
    | .error e => .error (.render e)
    | .ok text => .ok { save := some (path, text) }
  | .text, none =>
    match Print.render s { useColors := colors } root with
    | .error e => .error (.render e)
    | .ok text => .ok { stdout := text }

def lower (files : Files) (colors : Bool) (input : String) (output : Option String) (passes : Option (List String))
    (config : Option String) (printTree : Bool) (format : Format) (verbose : Bool) : Outcome :=
  match loadConfig files config with
  | .error f => .fail "" f
  | .ok base =>
    let config : Pipeline.Config :=
      { base with
        passes := passes.getD base.passes
        printTree := base.printTree || printTree
        collectStats := base.collectStats || verbose }
    let start := if verbose then greeting input output config else ""
    match loadTree files input with
    | .error f => .fail start f
    | .ok (s, root) =>
      match Pipeline.ofConfig config with
      | .error e => .fail start (.pipeline e)
      | .ok pipeline =>
        let observe := if config.printTree then dumpObserver else silentObserver
        match pipeline.run observe root { store := s, seen := {} } with
        | .error e st => .fail (start ++ st.seen.text) (.lowering input e)
        | .ok _ st =>
          let told := start ++ st.seen.text
          match st.seen.failure with
          | some e => .fail told (.dump e)
          | none =>
            match deliver colors st.store root format output with
            | .error f => .fail told f
            | .ok o =>
              { o with stderr := told, farewell := if verbose then Cli.farewell st.reports output else "" }

def showTree (files : Files) (colors : Bool) (input : String) (ids types : Bool) : Outcome :=
  match loadTree files input with
  | .error f => .fail "" f
  | .ok (s, root) =>
    match Print.render s { useColors := colors, showIds := ids, showTypes := types } root with
    | .error e => .fail "" (.render e)
    | .ok text => { stdout := text }

/-- Runs a command. `colors` says whether printed source is coloured. -/
def Command.run (files : Files) (colors : Bool) : Command → Outcome
  | .lower input output passes config printTree format verbose =>
    Cli.lower files colors input output passes config printTree format verbose
  | .show input ids types => Cli.showTree files colors input ids types

end ContractTree.Cli
