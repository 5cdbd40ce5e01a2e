import ContractTree.Cli.Help
import ContractTree.Cli.Run

/-!
The program: reads the files that the command needs, runs it, writes what it says and prints the rest.
-/

namespace ContractTree.Cli

/-- The text of a file, or why it has none. -/
def readContent (path : String) : IO (Except String String) := do
  try return .ok (← IO.FS.readFile path)
  catch e => return .error (toString e)

/-- Writes the file of an outcome, if there is one. -/
def finishSave (o : Outcome) : IO Outcome := do
  match o.save with
  | none => return o
  | some (path, content) =>
    try
      IO.FS.writeFile path content
      return o
    catch e => return o.refuseSave (toString e)

def runCommand (c : Command) : IO UInt32 := do
  let contents ← c.reads.mapM fun path => do return (path, ← readContent path)
  let files : Files := fun path => (contents.lookup path).getD (.error "not read")
  let colors ← (← IO.getStdout).isTty
  let o ← finishSave (c.run files colors)
  IO.print o.stdout
  IO.eprint o.messages
  return o.exitCode.toUInt32

end ContractTree.Cli

open ContractTree.Cli in
def main (args : List String) : IO UInt32 := do
  match Request.parse args with
  | .run c => runCommand c
  | .help about =>
    IO.print (helpText about)
    return 0
  | .version =>
    IO.print versionText
    return 0
  | .misuse =>
    IO.eprint (helpText none)
    return misuseCode.toUInt32
