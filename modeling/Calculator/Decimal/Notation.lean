import Calculator.Decimal.Shortest

/-!
# The text of a double

Messages quote a double by its shortest decimal, always positional. A result is rounded to a fixed
number of places and loses the zeros at the end, but keeps all its digits and an exponent when it
is very small or very large.
-/

namespace Calculator.Decimal

open Binary64

/-- Puts the sign of a double before the text of its absolute value. -/
def signed (x : Float) (text : List Char) : List Char :=
  if isNegative x then '-' :: text else text

/-- The text of a double whose absolute value, if finite, is written by `body`. -/
def write (body : Decimal → List Char) (x : Float) : String :=
  String.ofList <|
    if infinite < magnitude x then
      ['N', 'a', 'N']
    else if magnitude x = infinite then
      signed x ['i', 'n', 'f']
    else
      signed x (body (shortest x))

/-- The shortest digits that read back, without an exponent. -/
def plain (x : Float) : String :=
  write positional x

/-- The shortest digits that read back, with an exponent. -/
def exponential (x : Float) : String :=
  write scientific x

/-- Doubles from this one upwards are written without an exponent. -/
def leastFixed : Float :=
  toFloat ⟨1, -6⟩

/-- Doubles from this one upwards are written with an exponent. -/
def leastExponential : Float :=
  toFloat ⟨1, 15⟩

/-- Whether a result is written without an exponent. -/
def isFixed (x : Float) : Bool :=
  magnitude x = 0 ||
    (magnitude leastFixed ≤ magnitude x && magnitude x < magnitude leastExponential)

/-- The absolute value of a finite double in units of `10 ^ (-places)`, rounded half to even. -/
def fixed (places : Nat) (x : Float) : Nat :=
  divNearest (units x * tenPow places) one

/-- The text of a result with at most `places` digits after the point. -/
def result (places : Nat) (x : Float) : String :=
  if isFixed x then
    let coefficient := fixed places x
    let text := positional (ofFixed coefficient places)
    String.ofList (if coefficient = 0 then text else signed x text)
  else
    exponential x

end Calculator.Decimal
