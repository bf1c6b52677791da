import MiniGoc.Act
import MiniGoc.Assembly
import MiniGoc.Assembly.Descriptor
import MiniGoc.Assembly.Emit
import MiniGoc.Assembly.Form
import MiniGoc.Assembly.Printer
import MiniGoc.Command
import MiniGoc.Fault
import MiniGoc.Frame
import MiniGoc.Grammar
import MiniGoc.Grammar.Accessors
import MiniGoc.Grammar.Machine
import MiniGoc.Grammar.Predict
import MiniGoc.Grammar.Rules
import MiniGoc.Grammar.Stacks
import MiniGoc.Listing
import MiniGoc.Listing.Decl
import MiniGoc.Listing.Expr
import MiniGoc.Listing.Stmt
import MiniGoc.Lookup
import MiniGoc.Main
import MiniGoc.Node
import MiniGoc.Node.Equality
import MiniGoc.Node.OfTree
import MiniGoc.Node.Printer
import MiniGoc.Node.Traversal
import MiniGoc.Number.Binary64
import MiniGoc.Number.Layout
import MiniGoc.Number.Numeral
import MiniGoc.Starter
import MiniGoc.Symbol
import MiniGoc.Text.Class
import MiniGoc.Token.Comment
import MiniGoc.Token.Kind
import MiniGoc.Token.Lexer
import MiniGoc.Token.Pattern
import MiniGoc.Transcript
import MiniGoc.Tree
import MiniGoc.Tree.Parser
import MiniGoc.Tree.Reader
import MiniGoc.Tree.Repair
import MiniGoc.Typing
import MiniGoc.Workbench
import MiniGoc.Proofs.Act
import MiniGoc.Proofs.Unambiguity
import MiniGoc.Proofs.Emit
import MiniGoc.Proofs.Source
import MiniGoc.Proofs.Acceptance
import MiniGoc.Proofs.Calls
import MiniGoc.Proofs.Files
import MiniGoc.Proofs.Labels
import MiniGoc.Proofs.Linking
import MiniGoc.Proofs.Locals
import MiniGoc.Proofs.MainMethod
import MiniGoc.Proofs.Scoping
import MiniGoc.Proofs.Separate
import MiniGoc.Proofs.Slots
import MiniGoc.Proofs.StackLimit
import MiniGoc.Proofs.Supported
import MiniGoc.Proofs.Relexing
import MiniGoc.Proofs.Identifiers
import MiniGoc.Proofs.Readback
import MiniGoc.Proofs.Verdict
import MiniGoc.Proofs.Inference
import MiniGoc.Proofs.Precedence
import MiniGoc.Proofs.Compound
import MiniGoc.Proofs.Nesting
import MiniGoc.Proofs.StringErrors
import MiniGoc.Proofs.Buildable
import MiniGoc.Proofs.Straying
import MiniGoc.Proofs.Bookkeeping
import MiniGoc.Proofs.Descriptors
import MiniGoc.Proofs.Equality
import MiniGoc.Proofs.Constants
