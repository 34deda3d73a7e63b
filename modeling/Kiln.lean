import Kiln.Builtin
import Kiln.Call
import Kiln.CommandLine
import Kiln.Digest
import Kiln.Error
import Kiln.Eval
import Kiln.Expr
import Kiln.Expr.Parser
import Kiln.FileSystem
import Kiln.FileSystem.Change
import Kiln.Fingerprint
import Kiln.Machine
import Kiln.Main
import Kiln.Memory
import Kiln.Module
import Kiln.Path
import Kiln.Program
import Kiln.Program.Cat
import Kiln.Program.Child
import Kiln.Program.Directory
import Kiln.Program.Escape
import Kiln.Program.Usage
import Kiln.Shell.Arithmetic
import Kiln.Shell.Parser
import Kiln.Shell.Pattern
import Kiln.Shell.Printf
import Kiln.Shell.Run
import Kiln.Shell.State
import Kiln.Shell.Syntax
import Kiln.Shell.Test
import Kiln.Step
import Kiln.Stmt
import Kiln.Stmt.Parser
import Kiln.Store
import Kiln.Table
import Kiln.Text.Glob
import Kiln.Text.Lossy
import Kiln.Text.Numeral
import Kiln.Text.Pieces
import Kiln.Text.Printable
import Kiln.Token
import Kiln.Token.Stream
import Kiln.Value
import Kiln.Proofs.Law
import Kiln.Proofs.Memory.Operations
import Kiln.Proofs.Fingerprint.Gather.Stmt
import Kiln.Proofs.Fingerprint.Written
import Kiln.Proofs.Fingerprint.Collisions
import Kiln.Proofs.FileSystem.Changes
import Kiln.Proofs.Store.Disk
import Kiln.Proofs.Store.Rerun
import Kiln.Proofs.Eval.Aside
import Kiln.Proofs.Eval.Regime
import Kiln.Proofs.Eval.Values
import Kiln.Proofs.Eval.Evaluator
import Kiln.Proofs.Eval.Frames
import Kiln.Proofs.Eval.Signals
import Kiln.Proofs.Eval.Depends
import Kiln.Proofs.Memory.Separation
import Kiln.Proofs.Eval.Scopes
import Kiln.Proofs.Parser.Printing
import Kiln.Proofs.Parser.RoundTrip
import Kiln.Proofs.Bare
import Kiln.Proofs.Parser.Bare
import Kiln.Proofs.Eval.Bare
import Kiln.Proofs.Eval.Account
import Kiln.Proofs.Eval.Manner
import Kiln.Proofs.Eval.Blame
import Kiln.Proofs.Eval.Return
import Kiln.Proofs.Fingerprint.Files
import Kiln.Proofs.Fingerprint.Mentions
import Kiln.Proofs.Fingerprint.Sensitivity
import Kiln.Proofs.Fingerprint.Agreement
import Kiln.Proofs.Memory.Isolation
import Kiln.Proofs.Eval.Isolation
import Kiln.Proofs.Parser.Layout
import Kiln.Proofs.Parser.Statements
import Kiln.Proofs.Parser.StmtRoundTrip
import Kiln.Proofs.Path.Normal
import Kiln.Proofs.Eval.Chronicle
import Kiln.Proofs.Eval.Quiet
import Kiln.Proofs.Eval.Course
import Kiln.Proofs.Eval.Recount
import Kiln.Proofs.Eval.Directory
import Kiln.Proofs.Eval.Placement
import Kiln.Proofs.Eval.Loaded
import Kiln.Proofs.Eval.Covered
import Kiln.Proofs.Parser.Termination
import Kiln.Proofs.Text.Lossy
import Kiln.Proofs.Token.RoundTrip
import Kiln.Proofs.Token.Spans
import Kiln.Proofs.Eval.Retention
import Kiln.Proofs.Parser.Chains
import Kiln.Proofs.Memory.Acyclic
import Kiln.Proofs.Fingerprint.Gather.Tree
import Kiln.Proofs.Fingerprint.Reading.Tree
import Kiln.Proofs.Fingerprint.Hasher
import Kiln.Proofs.Fingerprint.Recursion
import Kiln.Proofs.Eval.Refused
import Kiln.Proofs.Text.Coercion
import Kiln.Proofs.Memory.Resolution
import Kiln.Proofs.Eval.Reference
import Kiln.Proofs.Eval.Purity
import Kiln.Proofs.Text.Literals
import Kiln.Proofs.Eval.Formulas
import Kiln.Proofs.Memory.Concatenation
import Kiln.Proofs.Eval.Equality
import Kiln.Proofs.Path.Relative
import Kiln.Proofs.FileSystem.Copying
import Kiln.Proofs.Eval.Listing
import Kiln.Proofs.Eval.Selection
import Kiln.Proofs.Eval.Joining
import Kiln.Proofs.Eval.Environment
import Kiln.Proofs.CommandLine
