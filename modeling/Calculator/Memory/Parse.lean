import Calculator.Expr.Read
import Calculator.Lexeme.Scan
import Calculator.Text.Blank

/-!
# Parsing a line

A line is an expression, or `let`, a name, `=` and an expression. All that stands between `let` and
the first `=` counts as the name, so that a malformed one is reported as a whole.
-/

namespace Calculator

def Lexeme.isEquals (l : Lexeme) : Bool :=
  l.token = .equals

/-- The text from the first of some lexemes up to a position, without blanks at its ends. -/
def targetText (line : String) (lexemes : List Lexeme) (stop : Nat) : String :=
  match lexemes with
  | [] => ""
  | first :: _ => String.ofList (Text.trim (slice line first.position stop).toList)

namespace Statement

/-- The assignment whose word `let` is followed by the given lexemes. -/
def readAssignment (m : Memory) (line : String) (letWord : Lexeme) (lexemes : List Lexeme) :
    Except SyntaxFault Statement :=
  match lexemes.dropWhile (!·.isEquals) with
  | [] => .error (.letWithoutValue letWord)
  | equals :: value =>
    let name := targetText line lexemes equals.position
    match Name.fault? name with
    | some fault => .error (.badName name fault)
    | none => (Expr.read m value).map (.assignment name)

def read (m : Memory) (line : String) (lexemes : List Lexeme) : Except SyntaxFault Statement :=
  match lexemes with
  | [] => (Expr.read m []).map .expression
  | first :: rest =>
    if first.token = .letWord then
      readAssignment m line first rest
    else
      (Expr.read m (first :: rest)).map .expression

end Statement

/-- The statement on a line. -/
def Memory.parse (m : Memory) (line : String) : Except LineError Statement :=
  match scan line with
  | .ok lexemes => (Statement.read m line lexemes).mapError (SyntaxFault.lineError line)
  | .error error => .error error

end Calculator
