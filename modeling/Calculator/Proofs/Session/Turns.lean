import Calculator.Proofs.Text.ByteLines
import Calculator.Session.Transcript

/-!
# Turns of a session

A script and a conversation take the same turns: over the lines of the text one after another, each
in the session that the one before it left, up to the first that ends the session
(`Session.turns`).  A conversation differs in the prompts that it writes between them.  It need not
know all of its input: it can be held turn by turn, while lines come in
(`Transcript.conversation_append`).
-/

namespace Calculator

namespace Reply

end Reply

namespace Session

variable {s : Session} {line : String} {lines : List String}

/-! ## Replies to lines -/

end Session

namespace Transcript

variable {s : Session} {line : String}

/-- A conversation in progress: with the next line of its input it takes a turn and, unless that was
the last one, goes on with the rest of the input in the session that the turn left. -/
theorem conversation_append
    (s : Session) {rawLine rest : ByteArray} (h : Text.IsRawLine 10 rawLine.toList rest.toList) :
    conversation s (rawLine ++ rest) =
      match s.nextTurn? rawLine with
      | none => ⟨prompt, "", 0⟩
      | some t =>
        (if t.isLast then ⟨"", "", 0⟩ else conversation t.after rest).writeFirst
          (prompt ++ t.output) t.errors := by
  rw [conversation, Text.readableLines_append h, Session.nextTurn?]
  cases Text.readableLines rawLine with
  | nil => rfl
  | cons line others => rfl

end Transcript

end Calculator
