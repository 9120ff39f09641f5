import Dialogue.Number.Shortest

/-!
# Numbers in running text

The text of a number inside a string: positional, without an exponent and
without a needless point. The reader takes more than the writer gives: an
exponent, a leading plus, a point at either end, and names for the values that
have no digits.
-/

namespace Dialogue.Number

private def signText (negative : Bool) : List Char := if negative then ['-'] else []

/-- The shortest digits that read back, without an exponent; a half goes up.
Not-a-number has no sign. -/
def text : Number → String
  | .nan => "NaN"
  | .infinite negative => String.ofList (signText negative ++ "inf".toList)
  | .finite negative magnitude =>
    let (whole, fraction) := (magnitude.shortest .up).positional
    let point := if fraction.isEmpty then [] else '.' :: Digit.text fraction
    String.ofList (signText negative ++ Digit.text whole ++ point)

def splitSign : List Char → Bool × List Char
  | '-' :: rest => (true, rest)
  | '+' :: rest => (false, rest)
  | text => (false, text)

/-- An exponent that takes up the rest of the text; no text is exponent zero. -/
def exponentOf? : List Char → Option Int
  | [] => some 0
  | mark :: rest =>
    if mark = 'e' ∨ mark = 'E' then
      let (negative, rest) := splitSign rest
      match Digit.span rest with
      | ([], _) => none
      | (digits, []) => some (if negative then -(Digit.value digits : Int) else Digit.value digits)
      | (_, _ :: _) => none
    else none

/-- The digits after a point, and what follows them; no point is no digits. -/
def fractionOf : List Char → List Digit × List Char
  | '.' :: rest => Digit.span rest
  | text => ([], text)

/-- Digits with an optional point and exponent, at least one digit in all, as
the nearest number. What is too large is infinite. -/
def ofDigits? (negative : Bool) (text : List Char) : Option Number :=
  let (whole, rest) := Digit.span text
  let (fraction, rest) := fractionOf rest
  if whole.isEmpty && fraction.isEmpty then none
  else
    (exponentOf? rest).map fun exponent =>
      match Magnitude.ofDecimal (Digit.value (whole ++ fraction)) (exponent - fraction.length) with
      | some magnitude => .finite negative magnitude
      | none => .infinite negative

/-- The number that a text writes. Names are read without regard to case. -/
def ofText? (text : String) : Option Number :=
  let (negative, rest) := splitSign text.toList
  let name := String.ofList (rest.map Char.toLower)
  if name = "nan" then some .nan
  else if name = "inf" ∨ name = "infinity" then some (.infinite negative)
  else ofDigits? negative rest

end Dialogue.Number
