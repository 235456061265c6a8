import Calculator.Primitive
import Calculator.NamedConstant
import Calculator.Text.Word

/-!
# Names of variables

A variable name begins with a letter, goes on with letters, digits and underscores, and is not taken
by a constant, a built-in function or the language itself.
-/

namespace Calculator.Name

/-- The name of the previous answer. -/
def answer : String := "ans"

/-- Words of the language that cannot name a variable. -/
def reserved : List String :=
  [answer, "let"]

/-- The first rule that a name breaks. -/
inductive Fault where
  | missing
  | badStart
  | badCharacter
  | constant
  | primitive
  | reserved
  deriving DecidableEq, Repr

def Fault.reason : Fault → String
  | .missing => "a variable name is required"
  | .badStart => "names must start with a letter"
  | .badCharacter => "names may only contain letters, digits and underscores"
  | .constant => "constants cannot be reassigned"
  | .primitive => "the name belongs to a built-in function"
  | .reserved => "the name is reserved"

def isConstant (name : String) : Bool :=
  (NamedConstant.find? name).isSome

def isPrimitive (name : String) : Bool :=
  (Primitive.find? name).isSome

/-- The fault in the spelling of a name. -/
def spellingFault? : List Char → Option Fault
  | [] => some .missing
  | first :: rest =>
    if !first.isAlpha then some .badStart
    else if !rest.all Text.continuesWord then some .badCharacter
    else none

/-- The fault of a name that is spelt well but taken. -/
def takenFault? (name : String) : Option Fault :=
  if isConstant name then some .constant
  else if isPrimitive name then some .primitive
  else if name ∈ reserved then some .reserved
  else none

def fault? (name : String) : Option Fault :=
  (spellingFault? name.toList).or (takenFault? name)

/-- Accepts a name that a variable may have. -/
def check (name : String) : Except LineError Unit :=
  match fault? name with
  | some fault => .error (.badName name fault.reason)
  | none => .ok ()

end Calculator.Name
