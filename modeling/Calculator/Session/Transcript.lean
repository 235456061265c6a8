import Calculator.Session.Basic
import Calculator.Text.Lines

/-!
# Transcripts

A transcript is all that a run of the calculator writes, and its exit code. It is made turn by turn:
a turn is what a session does with one line. A conversation and a script take the same turns, but
for the prompt that a conversation writes before it reads a line.
-/

namespace Calculator

/-! ## Turns -/

/-- What a session does with a line: it replies, or passes over a blank line. -/
structure Turn where
  line : String
  reply : Option Reply
  /-- The session after the line. -/
  after : Session

namespace Turn

def output (t : Turn) : String :=
  (t.reply.map Reply.output).getD ""

def errors (t : Turn) : String :=
  (t.reply.map Reply.errors).getD ""

/-- The session ends with this turn. -/
def isLast (t : Turn) : Bool :=
  match t.reply with
  | some .ended => true
  | _ => false

end Turn

/-- A line of blanks alone is passed over. -/
def Transcript.isBlankLine (line : String) : Bool :=
  line.toList.all Text.isBlank

namespace Session

def turn (s : Session) (line : String) : Turn :=
  if Transcript.isBlankLine line then ⟨line, none, s⟩
  else ⟨line, some (s.run line).1, (s.run line).2⟩

/-- The turn over a line of raw input; none if the input has ended or the line is not UTF-8. -/
def nextTurn? (s : Session) (rawLine : ByteArray) : Option Turn :=
  (Text.readableLines rawLine).head?.map s.turn

end Session

/-! ## Runs -/

structure Transcript where
  output : String
  errors : String
  exitCode : Nat
  deriving DecidableEq, Repr

namespace Transcript

/-- Writes something before all the rest. -/
def writeFirst (t : Transcript) (output errors : String) : Transcript :=
  { t with output := output ++ t.output, errors := errors ++ t.errors }

/-- The transcript of some lines, with a prompt before each line and before their end. -/
def ofLines (prompt : String) (s : Session) : List String → Transcript
  | [] => ⟨prompt, "", 0⟩
  | line :: rest =>
    let t := s.turn line
    let later : Transcript := if t.isLast then ⟨"", "", 0⟩ else ofLines prompt t.after rest
    later.writeFirst (prompt ++ t.output) t.errors

def prompt : String := "> "

/-- A conversation over the lines of some input. -/
def conversation (s : Session) (input : ByteArray) : Transcript :=
  ofLines prompt s (Text.readableLines input)

/-- The run of a script. -/
def script (s : Session) (text : String) : Transcript :=
  ofLines "" s (Text.lines text)

/-- The failure to read a script. -/
def unreadable (path : String) : Transcript :=
  ⟨"", s!"Failed to read the input file '{path}'. Perhaps this file does not exist?\n", 1⟩

/-- The run of a script file, given its content if there is such a file. -/
def scriptFile (s : Session) (path : String) (content : Option ByteArray) : Transcript :=
  match content.bind String.fromUTF8? with
  | some text => script s text
  | none => unreadable path

/-- The run of a single line. -/
def oneShot (s : Session) (line : String) : Transcript :=
  let reply := (s.run line).1
  ⟨reply.output, reply.errors, if reply.isRefused then 1 else 0⟩

end Transcript

end Calculator
