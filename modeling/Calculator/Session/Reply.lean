import Calculator.LineError

/-!
# Replies

A line is answered by lines on the standard output, or refused by lines on the standard error, or it
ends the session.
-/

namespace Calculator

inductive Reply where
  | shown (lines : List String)
  | refused (lines : List String)
  | ended

namespace Reply

/-- Lines as they are written, each with its line feed. -/
def written (lines : List String) : String :=
  String.join (lines.map (· ++ "\n"))

def output : Reply → String
  | .shown lines => written lines
  | .refused _ => ""
  | .ended => ""

def errors : Reply → String
  | .shown _ => ""
  | .refused lines => written lines
  | .ended => ""

def isRefused : Reply → Bool
  | .refused _ => true
  | _ => false

def repeated (c : Char) (count : Nat) : String :=
  String.ofList (List.replicate count c)

/-- Refuses a text for an error. If the error has a place in the text, the text is repeated with
that place marked below it. -/
def ofError (text : String) (error : LineError) : Reply :=
  let marks :=
    match error.span with
    | some span =>
      ["  " ++ text, "  " ++ repeated ' ' span.position ++ repeated '^' span.length]
    | none => []
  .refused (marks ++ ["error: " ++ error.message])

end Reply

end Calculator
