import Calculator.Tabulation
import Calculator.Session.Command
import Calculator.Session.Reply

/-!
# Sessions

A session answers lines one after another. It keeps a memory, and how results are written: the
number of places after the point and the number of samples of a plot.
-/

namespace Calculator

structure Session where
  memory : Memory
  precision : Nat
  plotSamples : Nat

namespace Session

/-- A session with nothing bound and the usual settings. -/
def fresh : Session :=
  ⟨.fresh, 10, 21⟩

def help : List String :=
  ["expressions   2 + 3 * 4, (1 + 2) ^ 2, 1.5e3, -x",
    "constants     " ++ ", ".intercalate (NamedConstant.all.map NamedConstant.name),
    "previous      ans",
    "functions     " ++ " ".intercalate (Primitive.all.map Primitive.name),
    "assignment    let name = expression",
    "commands      vars, ans, clear, plot <start> <end> <expression in x>, help, exit"]

def plotUsage : String :=
  "usage: plot <start> <end> <expression in x>"

/-- A text set to the right in a column. -/
def padLeft (width : Nat) (text : String) : String :=
  String.ofList (text.toList.leftpad width ' ')

def format (s : Session) (x : Float) : String :=
  Decimal.result s.precision x

def bindingLines (s : Session) : List String :=
  if s.memory.bindings.isEmpty then
    ["no variables defined"]
  else
    s.memory.bindings.toList.map fun entry => entry.1 ++ " = " ++ s.format entry.2

def answerLine (s : Session) : String :=
  match s.memory.answer with
  | some value => s.format value
  | none => "no previous answer"

def row (s : Session) (sample : Sample) : String :=
  let y := if sample.isDefined then s.format sample.y else "undefined"
  padLeft 16 (s.format sample.x) ++ "  " ++ y

/-- The table of an expression in `x` between two bounds, which are expressions themselves. -/
def plotBetween (s : Session) (start stop expression : String) : Reply × Session :=
  match s.memory.valueOf start with
  | .error fault => (.ofError start fault, s)
  | .ok first =>
    match s.memory.valueOf stop with
    | .error fault => (.ofError stop fault, s)
    | .ok last =>
      match s.memory.tabulate expression "x" ⟨first, last, s.plotSamples⟩ with
      | (.ok samples, after) => (.shown (samples.map s.row), { s with memory := after })
      | (.error fault, after) => (.ofError expression fault, { s with memory := after })

/-- A plot of the given arguments: the bounds are a word each, the expression is the rest. -/
def plot (s : Session) (arguments : List Char) : Reply × Session :=
  let (start, rest) := Text.firstWord arguments
  let (stop, expression) := Text.firstWord rest
  if start = [] ∨ stop = [] ∨ expression = [] then
    (.refused [plotUsage], s)
  else
    s.plotBetween (String.ofList start) (String.ofList stop) (String.ofList expression)

def evaluate (s : Session) (line : String) : Reply × Session :=
  match s.memory.evaluate line with
  | (.ok value, after) => (.shown [s.format value], { s with memory := after })
  | (.error fault, after) => (.ofError line fault, { s with memory := after })

/-- The reply to a line, and the session after it. -/
def run (s : Session) (line : String) : Reply × Session :=
  match Command.ofLine line with
  | .exit => (.ended, s)
  | .help => (.shown help, s)
  | .showBindings => (.shown s.bindingLines, s)
  | .showAnswer => (.shown [s.answerLine], s)
  | .clear => (.shown ["variables cleared"], { s with memory := s.memory.clearBindings })
  | .plot arguments => s.plot arguments
  | .evaluate => s.evaluate line

end Session

end Calculator
