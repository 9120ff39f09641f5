import Dialogue.Number.Digit

/-!
# Binary64 numbers

A number is not-a-number, an infinity, or a sign with a magnitude. A magnitude
is `significand · 2 ^ scale`, held as the exponent and fraction fields of the
interchange format, so equal values are equal terms except for the two zeros. A
fraction has 52 bits, and `0x10000000000000` is `2 ^ 52`.

Every operation is the exact result rounded once: `Magnitude.nearest` takes an
exact quotient to the nearest magnitude, a half going to the even neighbour.
-/

namespace Dialogue

structure Magnitude where
  exponent : Fin 2047
  fraction : Fin 0x10000000000000
  deriving DecidableEq, Repr

namespace Magnitude

/-- The integer part of `significand · 2 ^ scale`. Exponent zero is the
subnormal range, which has no leading one. -/
def significand (x : Magnitude) : Nat :=
  if x.exponent.val = 0 then x.fraction.val else 0x10000000000000 + x.fraction.val

def scale (x : Magnitude) : Int :=
  if x.exponent.val = 0 then -1074 else (x.exponent.val : Int) - 1075

def isZero (x : Magnitude) : Bool := x.significand == 0

def zero : Magnitude := ⟨0, 0⟩

def one : Magnitude := ⟨1023, 0⟩

/-- Magnitudes counted upward from zero; `none` past the largest. -/
def ofIndex? (n : Nat) : Option Magnitude :=
  if h : n < 2047 * 0x10000000000000 then
    some ⟨⟨n / 0x10000000000000, by omega⟩, ⟨n % 0x10000000000000, by omega⟩⟩
  else none

/-- The integer nearest to `num / den`, a half going to the even neighbour. -/
def roundQuotient (num den : Nat) : Nat :=
  let below := num / den
  match compare (2 * (num % den)) den with
  | .lt => below
  | .gt => below + 1
  | .eq => if below % 2 = 0 then below else below + 1

def pow2 (e : Int) : Nat := Nat.pow 2 e.toNat

def pow10 (e : Int) : Nat := Nat.pow 10 e.toNat

/-- The `k` with `2 ^ k ≤ num / den < 2 ^ (k + 1)`, for positive arguments. -/
def floorLog2 (num den : Nat) : Int :=
  let k : Int := (num.log2 : Int) - den.log2
  if num * pow2 (-k) < den * pow2 k then k - 1 else k

/-- The magnitude nearest to `num / den · 2 ^ e`, for a positive `den`, or
`none` when that lies past the largest one. -/
def nearest (num den : Nat) (e : Int) : Option Magnitude :=
  if num = 0 then some zero
  else
    let scale := max (floorLog2 num den + e - 52) (-1074)
    let shift := e - scale
    let rounded := roundQuotient (num * pow2 shift) (den * pow2 (-shift))
    ofIndex? ((scale + 1074).toNat * 0x10000000000000 + rounded)

def mul (x y : Magnitude) : Option Magnitude :=
  nearest (x.significand * y.significand) 1 (x.scale + y.scale)

def div (x y : Magnitude) : Option Magnitude :=
  nearest x.significand y.significand (x.scale - y.scale)

def ofNat (n : Nat) : Option Magnitude := nearest n 1 0

/-- The magnitude nearest to `digits · 10 ^ exponent`. Powers of ten that
decide the result by themselves are not computed. -/
def ofDecimal (digits : Nat) (exponent : Int) : Option Magnitude :=
  if digits = 0 ∨ exponent + digits.log2 < -400 then some zero
  else if exponent > 400 then none
  else nearest (digits * pow10 exponent) (pow10 (-exponent)) 0

end Magnitude

inductive Number
  | nan
  | infinite (negative : Bool)
  | finite (negative : Bool) (magnitude : Magnitude)
  deriving DecidableEq, Repr

namespace Number

def zero : Number := .finite false .zero

def one : Number := .finite false .one

/-- Both zeros are zero, and not-a-number is not. -/
def isZero : Number → Bool
  | .finite _ magnitude => magnitude.isZero
  | _ => false

def isFinite : Number → Bool
  | .finite _ _ => true
  | _ => false

end Number

end Dialogue
