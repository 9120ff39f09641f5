import Dialogue.Number.Shortest

/-!
# Numerals

A number of a JSON text as it is written, digit by digit. The value of a
numeral is not always the nearest binary64 number: `Numeral.magnitude?` gathers
a 64-bit significand and scales it by one power of ten, rounding each time.
-/

namespace Dialogue.Json

inductive Sign
  | plus
  | minus
  deriving DecidableEq, Repr

structure Exponent where
  capital : Bool
  sign : Option Sign
  digits : List Digit
  deriving DecidableEq, Repr

/-- A numeral. No fraction digits means no point. -/
structure Numeral where
  negative : Bool
  whole : List Digit
  fraction : List Digit
  exponent : Option Exponent
  deriving DecidableEq, Repr

namespace Exponent

def text (e : Exponent) : List Char :=
  let sign := match e.sign with
    | none => []
    | some .plus => ['+']
    | some .minus => ['-']
  (if e.capital then 'E' else 'e') :: sign ++ Digit.text e.digits

def value (e : Exponent) : Int :=
  if e.sign = some .minus then -(Digit.value e.digits : Int) else Digit.value e.digits

end Exponent

namespace Numeral

def text (n : Numeral) : List Char :=
  (if n.negative then ['-'] else []) ++ Digit.text n.whole ++
    (if n.fraction.isEmpty then [] else '.' :: Digit.text n.fraction) ++
    (n.exponent.map Exponent.text).getD []

/-- Appends digits to a significand for as long as it stays below `2 ^ 64`, and
counts those that were taken. -/
def gather (significand : Nat) : List Digit → Nat × Nat
  | [] => (significand, 0)
  | d :: rest =>
    let next := 10 * significand + d.val
    if next < 0x10000000000000000 then
      let (total, taken) := gather next rest
      (total, taken + 1)
    else (significand, 0)

/-- Multiplies by a power of ten in one rounded operation, or in two when the
power is below the range. After two nothing is left of a 64-bit significand. -/
def scaled? (x : Magnitude) (e : Int) : Option Magnitude :=
  if x.isZero then some x
  else if 308 < e then none
  else if 0 ≤ e then (Magnitude.ofDecimal 1 e).bind x.mul
  else if -308 ≤ e then (Magnitude.ofDecimal 1 (-e)).bind x.div
  else if -616 ≤ e then do
    let x ← (Magnitude.ofDecimal 1 308).bind x.div
    (Magnitude.ofDecimal 1 (-e - 308)).bind x.div
  else some .zero

/-- The magnitude of a numeral, or `none` when it is out of range. Digits that
the significand cannot take are dropped: before the point they still count as
places, after it they do not. -/
def magnitude? (n : Numeral) : Option Magnitude := do
  let (whole, kept) := gather 0 n.whole
  let (significand, places) := gather whole n.fraction
  let written := (n.exponent.map Exponent.value).getD 0
  scaled? (← Magnitude.ofNat significand) (n.whole.length - kept - places + written)

def number? (n : Numeral) : Option Number := n.magnitude?.map (.finite n.negative)

def ofNat (n : Nat) : Numeral := ⟨false, Digit.digits n, [], none⟩

/-- The number of 64 bits that is written without sign, point and exponent. -/
def natural? (n : Numeral) : Option Nat :=
  let value := Digit.value n.whole
  if n.negative || !n.fraction.isEmpty || n.exponent.isSome || 0x10000000000000000 ≤ value then none
  else some value

/-- How a number is written: the shortest digits that read back, a half going to
the even digit, positionally from `10 ^ -5` up to `10 ^ 16` and always with a
fraction, otherwise with a signed exponent. What is not finite has no numeral. -/
def ofNumber? : Number → Option Numeral
  | .finite negative magnitude =>
    let shortest := magnitude.shortest .toEven
    if -5 ≤ shortest.exponent ∧ shortest.exponent ≤ 15 then
      let (whole, fraction) := shortest.positional
      some ⟨negative, whole, if fraction.isEmpty then [Digit.zero] else fraction, none⟩
    else
      let sign := if shortest.exponent < 0 then Sign.minus else .plus
      some ⟨negative, shortest.digits.take 1, shortest.digits.drop 1,
        some ⟨false, some sign, Digit.digits shortest.exponent.natAbs⟩⟩
  | _ => none

end Numeral

end Dialogue.Json
