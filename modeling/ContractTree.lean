import ContractTree.Cli.Command
import ContractTree.Cli.Help
import ContractTree.Cli.Run
import ContractTree.Document
import ContractTree.Dump
import ContractTree.Json.Basic
import ContractTree.Json.Lexer
import ContractTree.Json.Numeral
import ContractTree.Json.Printer
import ContractTree.Json.Reader
import ContractTree.Lowering.Access
import ContractTree.Lowering.Basic
import ContractTree.Lowering.Catalog
import ContractTree.Lowering.Declaration
import ContractTree.Lowering.Error
import ContractTree.Lowering.Read
import ContractTree.Lowering.Write
import ContractTree.Main
import ContractTree.Node.Basic
import ContractTree.Node.Document
import ContractTree.Pipeline.Basic
import ContractTree.Pipeline.Config
import ContractTree.Print.Layout
import ContractTree.Print.Source
import ContractTree.Proofs.Accounting
import ContractTree.Proofs.Admission
import ContractTree.Proofs.Adornment
import ContractTree.Proofs.Ancestry
import ContractTree.Proofs.Assign
import ContractTree.Proofs.Calls
import ContractTree.Proofs.Chain
import ContractTree.Proofs.Commands
import ContractTree.Proofs.Completeness
import ContractTree.Proofs.Consistency
import ContractTree.Proofs.Copy
import ContractTree.Proofs.Declare
import ContractTree.Proofs.Denote
import ContractTree.Proofs.Discard
import ContractTree.Proofs.DocumentText
import ContractTree.Proofs.Dumped
import ContractTree.Proofs.Edited
import ContractTree.Proofs.Ends
import ContractTree.Proofs.Expansion
import ContractTree.Proofs.ExprText
import ContractTree.Proofs.Extract
import ContractTree.Proofs.Faithful
import ContractTree.Proofs.Fields
import ContractTree.Proofs.Forest
import ContractTree.Proofs.ForestEdit
import ContractTree.Proofs.Getters
import ContractTree.Proofs.Handler
import ContractTree.Proofs.Hoist
import ContractTree.Proofs.Hoisted
import ContractTree.Proofs.Holds
import ContractTree.Proofs.Husk
import ContractTree.Proofs.Hygiene
import ContractTree.Proofs.Idempotence
import ContractTree.Proofs.Issued
import ContractTree.Proofs.Itinerary
import ContractTree.Proofs.JsonText
import ContractTree.Proofs.KeyChain
import ContractTree.Proofs.Label
import ContractTree.Proofs.Lift
import ContractTree.Proofs.Linked
import ContractTree.Proofs.Loops
import ContractTree.Proofs.Lowered
import ContractTree.Proofs.Nesting
import ContractTree.Proofs.Persistence
import ContractTree.Proofs.Phrase
import ContractTree.Proofs.Preservation
import ContractTree.Proofs.Printable
import ContractTree.Proofs.Program
import ContractTree.Proofs.QuotedText
import ContractTree.Proofs.Reload
import ContractTree.Proofs.Rendered
import ContractTree.Proofs.Replacement
import ContractTree.Proofs.Search
import ContractTree.Proofs.Site
import ContractTree.Proofs.Tally
import ContractTree.Proofs.Targets
import ContractTree.Proofs.Temporaries
import ContractTree.Proofs.Termination
import ContractTree.Proofs.Tidy
import ContractTree.Proofs.Todo
import ContractTree.Proofs.Tour
import ContractTree.Proofs.Toured
import ContractTree.Proofs.Traced
import ContractTree.Proofs.Tree
import ContractTree.Proofs.TypeText
import ContractTree.Proofs.Typed
import ContractTree.Proofs.Unbounded
import ContractTree.Proofs.Untouched
import ContractTree.Proofs.Verdict
import ContractTree.Proofs.Visit
import ContractTree.Proofs.Walk
import ContractTree.Proofs.Walkable
import ContractTree.Proofs.Walked
import ContractTree.Store.Basic
import ContractTree.Store.Build
import ContractTree.Store.Edit
import ContractTree.Store.Error
import ContractTree.Store.Lemmas
import ContractTree.Store.Search
import ContractTree.Store.Verify
import ContractTree.Text.Decimal
import ContractTree.Text.Hidden
import ContractTree.Text.Quoted
import ContractTree.Ty.Basic
import ContractTree.Ty.Document
import ContractTree.Walk
