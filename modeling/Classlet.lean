import Classlet.Numeral.Power
import Classlet.Numeral.Read
import Classlet.Numeral.Format
import Classlet.Text.Quoted
import Classlet.Text.Blank
import Classlet.Token
import Classlet.Token.Scan
import Classlet.Syntax
import Classlet.Syntax.Print
import Classlet.Grammar.Statement
import Classlet.Scope.Arena
import Classlet.Module.Location
import Classlet.Failure
import Classlet.Memory.Copy
import Classlet.Memory.Display
import Classlet.Memory.Same
import Classlet.Interpreter.State
import Classlet.Interpreter.Operation
import Classlet.Interpreter.Builtin
import Classlet.Interpreter.Expression
import Classlet.Interpreter.Class
import Classlet.Interpreter.Assignment
import Classlet.Interpreter.Statement
import Classlet.Interpreter.Call
import Classlet.Module.Exports
import Classlet.Interpreter.Module
import Classlet.Interpreter
import Classlet.Settings
import Classlet.Source
import Classlet.FileTree
import Classlet.Script
import Classlet.CommandLine
import Classlet.Main
import Classlet.Proofs.Scope.Slots
import Classlet.Proofs.Scope.Exact
import Classlet.Proofs.Scope.Release
import Classlet.Proofs.Scope.Operation
import Classlet.Proofs.Scope.Archive
import Classlet.Proofs.Scope.Session
import Classlet.Proofs.Scope.Liveness
import Classlet.Proofs.Scope.Correspondence
import Classlet.Proofs.Scope.Refinement
import Classlet.Proofs.Scope.Bookkeeping
import Classlet.Proofs.Evaluator.Closed
import Classlet.Proofs.Evaluator.Code
import Classlet.Proofs.Evaluator.Sound
import Classlet.Proofs.Evaluator.Balance
import Classlet.Proofs.Evaluator.Calls
import Classlet.Proofs.Evaluator.Reached
import Classlet.Proofs.Run.Moment
import Classlet.Proofs.Run.Turn
import Classlet.Proofs.Run.Trace
import Classlet.Proofs.Run.Calls
import Classlet.Proofs.Run.Adequacy
import Classlet.Proofs.Run.Variables
import Classlet.Proofs.Run.Imports
import Classlet.Proofs.Run.Importers
import Classlet.Proofs.Run.Cache
import Classlet.Proofs.Run.Structs
import Classlet.Proofs.Memory.Exports
import Classlet.Proofs.Run.Contexts
import Classlet.Proofs.Run.Exports
import Classlet.Proofs.Error.Origin
import Classlet.Proofs.Error.Frames
import Classlet.Proofs.Error.Handlers
import Classlet.Proofs.Numeral.Digits
import Classlet.Proofs.Token.Spelling
import Classlet.Proofs.Grammar.Yields
import Classlet.Proofs.Grammar.Fragments
import Classlet.Proofs.Grammar.WellFormed
import Classlet.Proofs.Grammar.Placement
import Classlet.Proofs.Evaluator.Exits
import Classlet.Proofs.Grammar.Derivation
import Classlet.Proofs.Grammar.Reading
import Classlet.Proofs.Grammar.Lookahead
import Classlet.Proofs.Grammar.LeftRecursion
import Classlet.Proofs.Grammar.Arguments
import Classlet.Proofs.Grammar.Brackets
import Classlet.Proofs.Grammar.Operators
import Classlet.Proofs.Grammar.ExpressionStatement
import Classlet.Proofs.Syntax.Moved
import Classlet.Proofs.Token.Joined
import Classlet.Proofs.Token.Reads
import Classlet.Proofs.Token.Layout
import Classlet.Proofs.Token.Faults
import Classlet.Proofs.Grammar.Quotation
import Classlet.Proofs.Operation.Rendering
import Classlet.Proofs.Operation.Repetition
import Classlet.Proofs.Grammar.Seam
import Classlet.Proofs.Grammar.SeamExpression
import Classlet.Proofs.Grammar.SeamStatement
import Classlet.Proofs.Grammar.Printed
import Classlet.Proofs.Assignment.Passage
import Classlet.Proofs.Assignment.ReadBack
import Classlet.Proofs.Error.Kept
import Classlet.Proofs.Scope.Leaks
import Classlet.Proofs.Termination.Builtins
import Classlet.Proofs.Termination.Calls
import Classlet.Proofs.Termination.Evaluation
import Classlet.Proofs.Path.Canonical
import Classlet.Proofs.Assignment.Failure
import Classlet.Proofs.Assignment.Simultaneous
import Classlet.Proofs.Call.Arrangement
import Classlet.Proofs.Call.Binding
import Classlet.Proofs.Call.Body
import Classlet.Proofs.Operation.Dispatch
import Classlet.Proofs.Operation.Integer
import Classlet.Proofs.Operation.Datum
import Classlet.Proofs.Operation.Comparison
import Classlet.Proofs.Operation.Negation
import Classlet.Proofs.Operation.Sequence
import Classlet.Proofs.Operation.Literal
import Classlet.Proofs.Memory.Registry
import Classlet.Proofs.Memory.Separation
import Classlet.Proofs.Grammar.Walk
import Classlet.Proofs.Grammar.WalkExpression
import Classlet.Proofs.Grammar.WalkStatement
import Classlet.Proofs.Grammar.Progress
