import Calculator.Text.Blank

/-!
# Line commands

A line is a command if its first word is one and the rest suits it: `plot` needs a rest, the others
stand alone. All other lines are evaluated.
-/

namespace Calculator

inductive Command where
  | exit
  | help
  | showBindings
  | showAnswer
  | clear
  | plot (arguments : List Char)
  | evaluate
  deriving DecidableEq, Repr

namespace Command

/-- The command that a word alone on a line gives. -/
def ofWord : String → Command
  | "exit" => .exit
  | "quit" => .exit
  | "help" => .help
  | "vars" => .showBindings
  | "ans" => .showAnswer
  | "clear" => .clear
  | _ => .evaluate

def ofLine (line : String) : Command :=
  let (word, rest) := Text.firstWord (Text.trim line.toList)
  if rest = [] then
    ofWord (String.ofList word)
  else if String.ofList word = "plot" then
    .plot rest
  else
    .evaluate

end Command

end Calculator
