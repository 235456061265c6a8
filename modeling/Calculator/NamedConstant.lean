/-!
# Constants

The four named constants. Their names can never be assigned to.
-/

namespace Calculator

inductive NamedConstant where
  | pi
  | e
  | tau
  | golden
  deriving DecidableEq, Repr

namespace NamedConstant

def all : List NamedConstant :=
  [.pi, .e, .tau, .golden]

def name : NamedConstant → String
  | .pi => "pi"
  | .e => "e"
  | .tau => "tau"
  | .golden => "golden"

def value : NamedConstant → Float
  | .pi => 3.141592653589793
  | .e => 2.718281828459045
  | .tau => 6.283185307179586
  | .golden => 1.618033988749895

def find? (name : String) : Option NamedConstant :=
  all.find? fun constant => constant.name == name

theorem mem_all (constant : NamedConstant) : constant ∈ all := by
  cases constant <;> decide

end NamedConstant

end Calculator
