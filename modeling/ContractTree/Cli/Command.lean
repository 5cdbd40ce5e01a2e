/-!
The command line. `lower` runs the passes over a tree document and `show` prints one as source text. Arguments are
read from left to right; the first one that makes no sense is a usage error, and asking for help or the version
ends the reading where it stands.
-/

namespace ContractTree.Cli

inductive Format where
  | json
  | text
  deriving DecidableEq, Repr

/-- The arguments of `lower` that are read so far. -/
structure LowerArgs where
  input : Option String := none
  output : Option String := none
  passes : Option (List String) := none
  config : Option String := none
  printTree : Bool := false
  format : Option Format := none
  verbose : Bool := false

/-- The arguments of `show` that are read so far. -/
structure ShowArgs where
  input : Option String := none
  ids : Bool := false
  types : Bool := false

/-- The two commands, of which help may be asked. -/
inductive Verb where
  | lower
  | show
  deriving DecidableEq, Repr

inductive Command where
  | lower (input : String) (output : Option String) (passes : Option (List String)) (config : Option String)
      (printTree : Bool) (format : Format) (verbose : Bool)
  | show (input : String) (ids types : Bool)
  deriving DecidableEq, Repr

/-- What the arguments ask for. -/
inductive Request where
  | run (c : Command)
  | help (about : Option Verb)
  | version
  | misuse
  deriving DecidableEq, Repr

/-! ## Arguments -/

/-- What an option does with the arguments read so far; `none` refuses it. -/
inductive Action (α : Type) where
  | flag (set : α → Option α)
  | value (set : String → α → Option α)
  | help

/-- How a command reads its arguments. -/
structure Grammar (α : Type) where
  long : String → Option (Action α)
  short : Char → Option (Action α)
  positional : String → α → Option α

/-- Whether an argument is an option, so that it cannot be the value of the option before it. -/
def isOption (arg : String) : Bool :=
  match arg.toList with
  | ['-'] => false
  | '-' :: _ => true
  | _ => false

/-- The outcome of reading arguments: what they say, that help was asked for, or that they make no sense. -/
inductive Reading (α : Type) where
  | done (a : α)
  | help
  | misuse

/-- What stands in front of the first equals sign, and what stands behind it. -/
def splitValue (cs : List Char) : List Char × Option String :=
  match cs.dropWhile (· ≠ '=') with
  | [] => (cs, none)
  | _ :: value => (cs.takeWhile (· ≠ '='), some (String.ofList value))

/-- Reads a group of one-letter options. Gives the option at the end of the group that still lacks its value, if
any. -/
def readShorts {α : Type} (g : Grammar α) : List Char → α → Reading (α × Option (String → α → Option α))
  | [], a => .done (a, none)
  | c :: cs, a =>
    match g.short c with
    | none => .misuse
    | some .help => .help
    | some (.flag set) =>
      match set a with
      | none => .misuse
      | some a => readShorts g cs a
    | some (.value set) =>
      match cs with
      | [] => .done (a, some set)
      | '=' :: value => finish (set (String.ofList value) a)
      | value => finish (set (String.ofList value) a)
where
  finish : Option α → Reading (α × Option (String → α → Option α))
    | none => .misuse
    | some a => .done (a, none)

/-- Reads one argument that is an option. -/
def readOption {α : Type} (g : Grammar α) (arg : List Char) (a : α) :
    Reading (α × Option (String → α → Option α)) :=
  match arg with
  | '-' :: '-' :: cs =>
    let (name, value) := splitValue cs
    match g.long (String.ofList name), value with
    | some .help, none => .help
    | some (.flag set), none =>
      match set a with
      | none => .misuse
      | some a => .done (a, none)
    | some (.value set), none => .done (a, some set)
    | some (.value set), some value =>
      match set value a with
      | none => .misuse
      | some a => .done (a, none)
    | _, _ => .misuse
  | '-' :: cs => readShorts g cs a
  | _ => .misuse

/-- Arguments behind a double dash are never options. -/
def readPositionals {α : Type} (g : Grammar α) : List String → α → Reading α
  | [], a => .done a
  | arg :: args, a =>
    match g.positional arg a with
    | none => .misuse
    | some a => readPositionals g args a

/-- Reads the arguments; `pending` is the option before them, if it lacks its value. -/
def readArgs {α : Type} (g : Grammar α) : List String → Option (String → α → Option α) → α → Reading α
  | [], none, a => .done a
  | [], some _, _ => .misuse
  | arg :: args, some set, a =>
    if isOption arg then .misuse
    else
      match set arg a with
      | none => .misuse
      | some a => readArgs g args none a
  | arg :: args, none, a =>
    if arg = "--" then readPositionals g args a
    else if isOption arg then
      match readOption g arg.toList a with
      | .done (a, pending) => readArgs g args pending a
      | .help => .help
      | .misuse => .misuse
    else
      match g.positional arg a with
      | none => .misuse
      | some a => readArgs g args none a

/-! ## The commands -/

/-- Sets an option that may be given once. -/
def once {α β : Type} (get : α → Option β) (set : β → α → α) (b : β) (a : α) : Option α :=
  if (get a).isSome then none else some (set b a)

/-- Sets a flag that may be given once. -/
def onceFlag {α : Type} (get : α → Bool) (set : α → α) (a : α) : Option α :=
  if get a then none else some (set a)

/-- A path, which is never empty. -/
def path {α : Type} (set : String → α → Option α) (s : String) (a : α) : Option α :=
  if s = "" then none else set s a

def format? (s : String) : Option Format :=
  if s = "json" then some .json else if s = "text" then some .text else none

namespace LowerArgs

def output? : Action LowerArgs := .value (path (once LowerArgs.output fun s a => { a with output := some s }))

/-- Keys are given with commas between them, and the option may be given more than once. -/
def passes? : Action LowerArgs :=
  .value fun s a => some { a with passes := some (a.passes.getD [] ++ s.splitOn ",") }

def config? : Action LowerArgs := .value (path (once LowerArgs.config fun s a => { a with config := some s }))

def format? : Action LowerArgs :=
  .value fun s a =>
    (Cli.format? s).bind fun f => once LowerArgs.format (fun f a => { a with format := some f }) f a

def printTree? : Action LowerArgs := .flag (onceFlag LowerArgs.printTree fun a => { a with printTree := true })

def verbose? : Action LowerArgs := .flag (onceFlag LowerArgs.verbose fun a => { a with verbose := true })

def grammar : Grammar LowerArgs where
  long name :=
    if name = "output" then some output?
    else if name = "passes" then some passes?
    else if name = "config" then some config?
    else if name = "print-tree" then some printTree?
    else if name = "emit" then some format?
    else if name = "verbose" then some verbose?
    else if name = "help" then some .help
    else none
  short c :=
    if c = 'o' then some output? else if c = 'v' then some verbose? else if c = 'h' then some .help else none
  positional := path (once LowerArgs.input fun s a => { a with input := some s })

def command? (a : LowerArgs) : Option Command :=
  a.input.map fun input => .lower input a.output a.passes a.config a.printTree (a.format.getD .json) a.verbose

end LowerArgs

namespace ShowArgs

def ids? : Action ShowArgs := .flag (onceFlag ShowArgs.ids fun a => { a with ids := true })

def types? : Action ShowArgs := .flag (onceFlag ShowArgs.types fun a => { a with types := true })

def grammar : Grammar ShowArgs where
  long name :=
    if name = "ids" then some ids?
    else if name = "types" then some types?
    else if name = "help" then some .help
    else none
  short c := if c = 'h' then some .help else none
  positional := path (once ShowArgs.input fun s a => { a with input := some s })

def command? (a : ShowArgs) : Option Command := a.input.map fun input => .show input a.ids a.types

end ShowArgs

/-- The request of a command whose arguments read as given. -/
def Reading.request {α : Type} (verb : Verb) (command? : α → Option Command) : Reading α → Request
  | .done a =>
    match command? a with
    | some c => .run c
    | none => .misuse
  | .help => .help (some verb)
  | .misuse => .misuse

def verb? (s : String) : Option Verb :=
  if s = "lower" then some .lower else if s = "show" then some .show else none

/-- What an option in front of the command asks for. Of a group of one-letter options the first decides. -/
def Request.ofOption? (arg : List Char) : Option Request :=
  match arg with
  | '-' :: 'h' :: _ => some (.help none)
  | '-' :: 'V' :: _ => some .version
  | '-' :: '-' :: name =>
    if name = "help".toList then some (.help none) else if name = "version".toList then some .version else none
  | _ => none

/-- What a command line asks for. -/
def Request.parse : List String → Request
  | [] => .misuse
  | first :: args =>
    if let some request := Request.ofOption? first.toList then request
    else if first = "help" then
      match args with
      | [] => .help none
      | [verb] =>
        match verb? verb with
        | some v => .help (some v)
        | none => if verb = "help" then .help none else .misuse
      | _ => .misuse
    else
      match verb? first with
      | some .lower => (readArgs LowerArgs.grammar args none {}).request .lower LowerArgs.command?
      | some .show => (readArgs ShowArgs.grammar args none {}).request .show ShowArgs.command?
      | none => .misuse

/-- The files that a command reads. -/
def Command.reads : Command → List String
  | .lower input _ _ config _ _ _ => config.toList ++ [input]
  | .show input _ _ => [input]

end ContractTree.Cli
