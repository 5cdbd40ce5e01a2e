import ContractTree.Cli.Command

/-!
What the program tells about itself.
-/

namespace ContractTree.Cli

def programName : String := "stowage"

def versionText : String := programName ++ " 0.1.0\n"

def helpText : Option Verb → String
  | none =>
    "Stowage - lowers contract state access into explicit storage operations\n\n"
      ++ "Usage: " ++ programName ++ " <COMMAND>\n\n"
      ++ "Commands:\n"
      ++ "  lower  Run the pass pipeline over a tree document\n"
      ++ "  show   Render a tree document as pseudo-source\n"
      ++ "  help   Print this message or the help of the given subcommand(s)\n\n"
      ++ "Options:\n"
      ++ "  -h, --help     Print help\n"
      ++ "  -V, --version  Print version\n"
  | some .lower =>
    "Run the pass pipeline over a tree document\n\n"
      ++ "Usage: " ++ programName ++ " lower [OPTIONS] <INPUT>\n\n"
      ++ "Arguments:\n"
      ++ "  <INPUT>  \n\n"
      ++ "Options:\n"
      ++ "  -o, --output <OUTPUT>  \n"
      ++ "      --passes <PASSES>  Pass keys to run, in order (defaults to every registered pass)\n"
      ++ "      --config <CONFIG>  \n"
      ++ "      --print-tree       Dump the tree to stderr after every pass\n"
      ++ "      --emit <EMIT>      [default: json] [possible values: json, text]\n"
      ++ "  -v, --verbose          \n"
      ++ "  -h, --help             Print help\n"
  | some .show =>
    "Render a tree document as pseudo-source\n\n"
      ++ "Usage: " ++ programName ++ " show [OPTIONS] <INPUT>\n\n"
      ++ "Arguments:\n"
      ++ "  <INPUT>  \n\n"
      ++ "Options:\n"
      ++ "      --ids    \n"
      ++ "      --types  \n"
      ++ "  -h, --help   Print help\n"

/-- The exit code of a command line that makes no sense. -/
def misuseCode : Nat := 2

end ContractTree.Cli
