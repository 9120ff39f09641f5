import Dialogue.Number.Basic

/-!
# The shortest decimal of a magnitude

Of the decimals that read back as a magnitude, the one with the fewest digits,
and of those the nearest. Everything is compared exactly, in naturals. When two
decimals of that length are equally near, the format that is being written
decides; `Tie` is that decision.
-/

namespace Dialogue

inductive Tie
  | toEven
  | up
  deriving DecidableEq, Repr

/-- `d.ddd · 10 ^ exponent`, by its digits. -/
structure Scientific where
  digits : List Digit
  exponent : Int
  deriving DecidableEq, Repr

namespace Magnitude

/-- At a power of two the neighbour below is half as far away as the one above. -/
def narrowBelow (x : Magnitude) : Bool := x.fraction.val == 0 && decide (1 < x.exponent.val)

def compareScaled (a : Nat) (i : Int) (n : Nat) (j : Int) : Ordering :=
  compare (a * pow10 i * pow2 (-j)) (n * pow2 j * pow10 (-i))

/-- Is `n · 10 ^ e` among the reals whose nearest magnitude is `x`? The ends of
that interval belong to it when the significand is even. -/
def readsBack (x : Magnitude) (n : Nat) (e : Int) : Bool :=
  let low := compareScaled n e (4 * x.significand - if x.narrowBelow then 1 else 2) (x.scale - 2)
  let high := compareScaled n e (4 * x.significand + 2) (x.scale - 2)
  let closed := x.significand % 2 == 0
  (low == .gt || closed && low == .eq) && (high == .lt || closed && high == .eq)

/-- The least `k` with `x < 10 ^ k`, for a nonzero `x`. The estimate from the
binary logarithm is never past the answer, and short of it by two at most. -/
def decimalPoint (x : Magnitude) : Int :=
  let estimate : Int := ((x.significand.log2 : Int) + x.scale) * 30103 / 100000
  let covers (k : Int) : Bool := compareScaled 1 k x.significand x.scale == .gt
  if covers estimate then estimate
  else if covers (estimate + 1) then estimate + 1
  else estimate + 2

/-- The multiple of `10 ^ grid` nearest to `x` that reads back, if one does. -/
def onGrid? (x : Magnitude) (tie : Tie) (grid : Int) : Option Nat :=
  let below := x.significand * pow2 x.scale * pow10 (-grid) / (pow2 (-x.scale) * pow10 grid)
  match x.readsBack below grid, x.readsBack (below + 1) grid with
  | true, true =>
    match compareScaled (2 * below + 1) grid (2 * x.significand) x.scale with
    | .lt => some (below + 1)
    | .gt => some below
    | .eq =>
      match tie with
      | .up => some (below + 1)
      | .toEven => some (if below % 2 = 0 then below else below + 1)
  | true, false => some below
  | false, true => some (below + 1)
  | false, false => none

def exactDecimal (x : Magnitude) : Nat × Int :=
  if x.scale < 0 then (x.significand * Nat.pow 5 (-x.scale).toNat, x.scale)
  else (x.significand * pow2 x.scale, 0)

/-- The shortest decimal of `x`. Seventeen digits always tell a magnitude from
its neighbours, so the grids of one to seventeen digits are tried in turn. -/
def shortest (x : Magnitude) (tie : Tie) : Scientific :=
  if x.isZero then ⟨[Digit.zero], 0⟩
  else
    let grids := (List.range 17).map fun i => x.decimalPoint - (i + 1 : Nat)
    let (n, grid) := (grids.findSome? fun grid => (x.onGrid? tie grid).map (·, grid)).getD
      x.exactDecimal
    let digits := Digit.digits n
    ⟨(digits.reverse.dropWhile (· = Digit.zero)).reverse, grid + digits.length - 1⟩

end Magnitude

def Scientific.positional (x : Scientific) : List Digit × List Digit :=
  if x.exponent < 0 then
    ([Digit.zero], List.replicate (-x.exponent - 1).toNat Digit.zero ++ x.digits)
  else
    let places := x.exponent.toNat + 1
    (x.digits.take places ++ List.replicate (places - x.digits.length) Digit.zero,
      x.digits.drop places)

end Dialogue
