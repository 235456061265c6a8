import Calculator.Text.Blank
import Calculator.Text.Lines
import Calculator.Text.Word
import Calculator.Binary64.Rounding
import Calculator.Binary64.Basic
import Calculator.Decimal.Basic
import Calculator.Decimal.Shortest
import Calculator.Decimal.Notation
import Calculator.Numeral
import Calculator.LineError
import Calculator.Operator
import Calculator.Lexeme.Basic
import Calculator.Lexeme.Scan
import Calculator.NamedConstant
import Calculator.Primitive
import Calculator.Name
import Calculator.Bindings
import Calculator.Expr.Basic
import Calculator.Expr.Fault
import Calculator.Expr.Unfinished
import Calculator.Memory.Basic
import Calculator.Expr.Read
import Calculator.Memory.Parse
import Calculator.Memory.Evaluate
import Calculator.Tabulation
import Calculator.Session.Command
import Calculator.Session.Reply
import Calculator.Session.Basic
import Calculator.Session.Transcript
import Calculator.Session.Options
import Calculator.Main
import Calculator.Proofs.Scanning.Literal
import Calculator.Proofs.Scanning.Spelling
import Calculator.Proofs.Scanning.LongestMatch
import Calculator.Proofs.Scanning.Line
import Calculator.Proofs.Grammar.Derivation
import Calculator.Proofs.Grammar.Unambiguous
import Calculator.Proofs.Grammar.Completeness
import Calculator.Proofs.Grammar.Soundness
import Calculator.Proofs.Grammar.Target
import Calculator.Proofs.VariableName
import Calculator.Proofs.Grammar.Parse
import Calculator.Proofs.Memory.Evaluation
import Calculator.Proofs.Memory.Reachable
import Calculator.Proofs.Expr.Nodes
import Calculator.Proofs.Grammar.Names
import Calculator.Proofs.Memory.Parsed
import Calculator.Proofs.Memory.Noninterference
import Calculator.Proofs.Memory.Table
import Calculator.Proofs.Grammar.Blame
import Calculator.Proofs.Memory.Spans
import Calculator.Proofs.Grammar.Relocation
import Calculator.Proofs.Scanning.Seams
import Calculator.Proofs.Memory.Relocation
import Calculator.Proofs.Memory.Spacing
import Calculator.Proofs.Grammar.Listing
import Calculator.Proofs.Scanning.Substitution
import Calculator.Proofs.Memory.Substitution
import Calculator.Proofs.Text.ByteLines
import Calculator.Proofs.Session.Turns
import Calculator.Proofs.Session.Discipline
import Calculator.Proofs.Grammar.Height
import Calculator.Proofs.Grammar.Slices
import Calculator.Proofs.Grammar.Levels
import Calculator.Proofs.Memory.Strict
import Calculator.Proofs.Binary64.Bits
import Calculator.Proofs.Binary64.Nearest
import Calculator.Proofs.Decimal.Reading
import Calculator.Proofs.Decimal.Literal
import Calculator.Proofs.Decimal.RoundTrip
import Calculator.Proofs.Memory.ReadBack
import Calculator.Proofs.Memory.Variable
import Calculator.Proofs.Scanning.Front
import Calculator.Proofs.Memory.Assignment
import Calculator.Proofs.Grammar.Parens
import Calculator.Proofs.Memory.Cut
import Calculator.Proofs.Binary64.Units
import Calculator.Proofs.Binary64.Packing
import Calculator.Proofs.Binary64.Unpacked
import Calculator.Proofs.Binary64.Arithmetic
import Calculator.Proofs.Grid
import Calculator.Proofs.Grammar.Lookahead
import Calculator.Proofs.Memory.Extension
import Calculator.Proofs.Grammar.Runs
import Calculator.Proofs.Scanning.Operators
import Calculator.Proofs.Memory.OperatorRuns
import Calculator.Proofs.Grammar.Nesting
import Calculator.Proofs.Memory.Nesting
import Calculator.Proofs.Memory.FirstFault
import Calculator.Proofs.Memory.Power
import Calculator.Proofs.Decimal.Canonical
import Calculator.Proofs.Factorial
import Calculator.Proofs.Memory.History
