import Calculator.Session.Options
import Calculator.Session.Transcript

/-!
# The command line program

Runs a session on a script file, on one line or on the standard input. All that it writes is that of
the transcripts; a conversation is written turn by turn as it goes on.
-/

namespace Calculator

/-- The bytes up to the next line feed, which is kept, or else all that are left; none at the end of
the input. -/
def readRawLine (input : IO.FS.Stream) : IO ByteArray := do
  let mut line := ByteArray.empty
  repeat
    let next ← input.read 1
    line := line ++ next
    if next.isEmpty || next.toList = [10] then
      break
  return line

/-- Writes the transcript of a conversation turn by turn, each one as its line has been read: a
round of the loop is the step that `Transcript.conversation_append` splits off. -/
def converse (start : Session) : IO Unit := do
  let input ← IO.getStdin
  let output ← IO.getStdout
  let mut session := start
  repeat
    output.putStr Transcript.prompt
    output.flush
    match session.nextTurn? (← readRawLine input) with
    | none => break
    | some turn =>
      output.putStr turn.output
      IO.eprint turn.errors
      if turn.isLast then
        break
      session := turn.after

def write (t : Transcript) : IO UInt32 := do
  IO.print t.output
  IO.eprint t.errors
  return UInt32.ofNat t.exitCode

def readContent (path : String) : IO (Option ByteArray) := do
  try
    return some (← IO.FS.readBinFile path)
  catch _ =>
    return none

end Calculator

open Calculator

def main (arguments : List String) : IO UInt32 := do
  match Options.usual.read? arguments with
  | none =>
    IO.eprintln Options.usage
    return 2
  | some options =>
    match options.contents with
    | none =>
      converse options.session
      return 0
    | some contents =>
      if options.isFile then
        write (.scriptFile options.session contents (← readContent contents))
      else
        write (.oneShot options.session contents)
