import Dialogue.Proofs.Range

/-!
# Decimals that are written for magnitudes

The shortest decimal of a magnitude starts with no zero (`Magnitude.normalized_shortest`) and is
at most half a step past the magnitude (`Magnitude.value_shortest_le`). A numeral has the
value of the decimal that it is made of, so it is properly written and in range
(`Json.Numeral.readable_of_ofNumber?`).
-/

namespace Dialogue

namespace Magnitude

variable {n : Nat}

theorem pow10_eq (e : Int) : (pow10 e : ℚ) = 10 ^ e * pow10 (-e) :=
  cast_pow_toNat (by decide) e

theorem scaled_le_iff (a : Nat) (i : Int) (n : Nat) (j : Int) :
    a * pow10 i * pow2 (-j) ≤ n * pow2 j * pow10 (-i) ↔ (a * 10 ^ i : ℚ) ≤ n * 2 ^ j := by
  have hpos : (0 : ℚ) < pow10 (-i) * pow2 (-j) := by
    exact_mod_cast Nat.mul_pos (Nat.pow_pos (by decide)) (pow2_pos (-j))
  have hleft : ((a * pow10 i * pow2 (-j) : Nat) : ℚ) =
      a * 10 ^ i * (pow10 (-i) * pow2 (-j)) := by
    push_cast
    rw [pow10_eq i]
    ring
  have hright : ((n * pow2 j * pow10 (-i) : Nat) : ℚ) =
      n * 2 ^ j * (pow10 (-i) * pow2 (-j)) := by
    push_cast
    rw [pow2_eq j]
    ring
  rw [← Nat.cast_le (α := ℚ), hleft, hright, mul_le_mul_iff_of_pos_right hpos]

/-- What reads back is at most half a step past the magnitude, and not zero. -/
theorem le_of_readsBack {x : Magnitude} (hx : 0 < x.significand) (h : x.readsBack n e = true) :
    0 < n ∧ (n * 10 ^ e : ℚ) ≤ (4 * x.significand + 2) * 2 ^ (x.scale - 2) := by
  simp only [readsBack, Bool.and_eq_true, Bool.or_eq_true, beq_iff_eq] at h
  obtain ⟨hlow, hhigh⟩ := h
  constructor
  · refine Nat.pos_of_ne_zero fun hzero => ?_
    have hleast : 0 < 4 * x.significand - if x.narrowBelow then 1 else 2 := by
      split <;> omega
    have hless : compareScaled n e (4 * x.significand - if x.narrowBelow then 1 else 2)
        (x.scale - 2) = .lt := by
      rw [hzero, compareScaled, Nat.zero_mul, Nat.zero_mul, Nat.compare_eq_lt]
      exact Nat.mul_pos (Nat.mul_pos hleast (pow2_pos _)) (Nat.pow_pos (by decide))
    simp [hless] at hlow
  · have hle : compareScaled n e (4 * x.significand + 2) (x.scale - 2) ≠ .gt := by
      rintro hgreater
      simp [hgreater] at hhigh
    exact_mod_cast (scaled_le_iff ..).mp (Nat.compare_ne_gt.mp hle)

theorem readsBack_of_onGrid? {x : Magnitude} (h : x.onGrid? tie grid = some n) :
    x.readsBack n grid = true := by
  unfold onGrid? at h
  dsimp only at h
  split at h
  · rename_i hbelow habove
    split at h
    · cases h
      exact habove
    · cases h
      exact hbelow
    · split at h <;> cases h
      · exact habove
      · split
        · exact hbelow
        · exact habove
  · rename_i hbelow _
    cases h
    exact hbelow
  · rename_i _ habove
    cases h
    exact habove
  · cases h

theorem exactDecimal_eq (x : Magnitude) :
    (x.exactDecimal.1 * 10 ^ x.exactDecimal.2 : ℚ) = x.value := by
  unfold exactDecimal value
  split
  · rename_i hscale
    obtain ⟨k, hk⟩ := Int.eq_ofNat_of_zero_le (Int.neg_nonneg.mpr hscale.le)
    have hneg : x.scale = -k := by omega
    have hten : (10 : ℚ) ^ k = 5 ^ k * 2 ^ k := by
      rw [← mul_pow]
      norm_num
    rw [hneg]
    simp only [neg_neg, Int.toNat_natCast, Nat.pow_eq, Nat.cast_mul, Nat.cast_pow, Nat.cast_ofNat,
      zpow_neg, zpow_natCast, hten]
    field_simp
  · rename_i hscale
    have hone : pow2 (-x.scale) = 1 := by rw [pow2, Int.toNat_of_nonpos (by omega)]
    rw [Nat.cast_mul, pow2_eq, hone]
    simp

theorem le_of_exactDecimal {x : Magnitude} (hx : 0 < x.significand) :
    0 < x.exactDecimal.1 ∧ (x.exactDecimal.1 * 10 ^ x.exactDecimal.2 : ℚ) ≤
      (4 * x.significand + 2) * 2 ^ (x.scale - 2) := by
  have hvalue := x.exactDecimal_eq
  have hpow : (0 : ℚ) < 2 ^ x.scale := by positivity
  constructor
  · refine Nat.pos_of_ne_zero fun hzero => ?_
    have hpos : 0 < x.value := by
      unfold value
      positivity
    rw [hzero, Nat.cast_zero, zero_mul] at hvalue
    exact hpos.ne hvalue
  · rw [hvalue, value, zpow_sub₀ two_ne_zero]
    norm_num
    linarith

theorem exists_shortest {x : Magnitude} (hx : 0 < x.significand) (tie : Tie) :
    ∃ (n : Nat) (grid : Int), 0 < n ∧
      (n * 10 ^ grid : ℚ) ≤ (4 * x.significand + 2) * 2 ^ (x.scale - 2) ∧
      x.shortest tie =
        ⟨((Digit.digits n).reverse.dropWhile (· = Digit.zero)).reverse,
          grid + (Digit.digits n).length - 1⟩ := by
  have hzero : x.isZero = false := by simp [isZero, hx.ne']
  let found := ((List.range 17).map fun i => x.decimalPoint - (i + 1 : Nat)).findSome? fun grid =>
    (x.onGrid? tie grid).map (·, grid)
  have hclose : 0 < (found.getD x.exactDecimal).1 ∧
      ((found.getD x.exactDecimal).1 * 10 ^ (found.getD x.exactDecimal).2 : ℚ) ≤
        (4 * x.significand + 2) * 2 ^ (x.scale - 2) := by
    cases hfound : found with
    | none => exact le_of_exactDecimal hx
    | some pair =>
      obtain ⟨grid, _, hgrid⟩ := List.exists_of_findSome?_eq_some hfound
      obtain ⟨n, hn, rfl⟩ := Option.map_eq_some_iff.mp hgrid
      exact le_of_readsBack hx (readsBack_of_onGrid? hn)
  refine ⟨_, _, hclose.1, hclose.2, ?_⟩
  unfold shortest
  rw [hzero]
  rfl

end Magnitude

-- ---------------------------------------------------------------------------
-- Digits
-- ---------------------------------------------------------------------------

namespace Digit

/-- A row of digits that starts with a zero only if it is that zero. -/
def NoLeadingZero (ds : List Digit) : Prop :=
  ∃ first rest, ds = first :: rest ∧ (first = zero → rest = [])

theorem value_eq_zero {ds : List Digit} (h : ∀ d ∈ ds, d = zero) : value ds = 0 := by
  induction ds using List.reverseRecOn with
  | nil => rfl
  | append_singleton ds d ih =>
    rw [value_append_singleton, ih fun other hother => h other (List.mem_append_left _ hother),
      h d (by simp)]
    rfl

theorem exists_digits_eq_cons (n : Nat) :
    ∃ first rest, digits n = first :: rest ∧ (0 < n → first ≠ zero) ∧ (n = 0 → rest = []) := by
  fun_induction digits n with
  | case1 n h =>
    refine ⟨⟨n, h⟩, [], rfl, fun hpos hzero => ?_, fun _ => rfl⟩
    exact hpos.ne' (congrArg Fin.val hzero)
  | case2 n h ih =>
    obtain ⟨first, rest, hdigits, hfirst, _⟩ := ih
    exact ⟨first, _, by rw [hdigits, List.cons_append], fun _ => hfirst (by omega), by omega⟩

theorem noLeadingZero_digits (n : Nat) : NoLeadingZero (digits n) := by
  obtain ⟨first, rest, hdigits, hfirst, hrest⟩ := exists_digits_eq_cons n
  refine ⟨first, rest, hdigits, fun hzero => hrest ?_⟩
  by_contra hn
  exact hfirst (Nat.pos_of_ne_zero hn) hzero

/-- Zeros at the end of a row of digits only count as places. -/
theorem value_strip (ds : List Digit) :
    ∃ dropped, ds.length = (ds.reverse.dropWhile (· = zero)).reverse.length + dropped ∧
      value ds = value (ds.reverse.dropWhile (· = zero)).reverse * 10 ^ dropped := by
  have hsplit : ds = (ds.reverse.dropWhile (· = zero)).reverse ++
      (ds.reverse.takeWhile (· = zero)).reverse := by
    rw [← List.reverse_append, List.takeWhile_append_dropWhile, List.reverse_reverse]
  have hzero : value (ds.reverse.takeWhile (· = zero)).reverse = 0 := by
    refine value_eq_zero fun d hd => ?_
    have hall := List.all_eq_true.mp List.all_takeWhile d (List.mem_reverse.mp hd)
    exact of_decide_eq_true hall
  refine ⟨(ds.reverse.takeWhile (· = zero)).reverse.length, ?_, ?_⟩
  · rw [← List.length_append, ← hsplit]
  · conv_lhs => rw [hsplit]
    rw [value_append, hzero, Nat.add_zero]

theorem strip_cons {first : Digit} (h : first ≠ zero) (rest : List Digit) :
    ∃ kept, ((first :: rest).reverse.dropWhile (· = zero)).reverse = first :: kept := by
  rw [List.reverse_cons, List.dropWhile_append]
  split
  · exact ⟨[], by simp [h]⟩
  · exact ⟨(rest.reverse.dropWhile (· = zero)).reverse, by simp⟩

end Digit

-- ---------------------------------------------------------------------------
-- Decimals
-- ---------------------------------------------------------------------------

namespace Scientific

def value (x : Scientific) : ℚ :=
  Digit.value x.digits * 10 ^ (x.exponent + 1 - x.digits.length)

/-- A decimal that starts with a zero only if it is zero. -/
def Normalized (x : Scientific) : Prop :=
  ∃ first rest, x.digits = first :: rest ∧ (first = Digit.zero → rest = [] ∧ x.exponent = 0)

theorem value_replicate_zero (n : Nat) : Digit.value (List.replicate n Digit.zero) = 0 :=
  Digit.value_eq_zero fun _ h => List.eq_of_mem_replicate h

theorem value_positional (x : Scientific) :
    (Digit.value (x.positional.1 ++ x.positional.2) : ℚ) *
      10 ^ (-(x.positional.2.length : Int)) = x.value := by
  unfold positional value
  split
  · rename_i hneg
    have hvalue : Digit.value ([Digit.zero] ++
        (List.replicate (-x.exponent - 1).toNat Digit.zero ++ x.digits)) =
          Digit.value x.digits := by
      rw [← List.append_assoc, Digit.value_append, Digit.value_append, value_replicate_zero]
      simp [Digit.value, Digit.zero]
    rw [hvalue]
    congr 2
    simp only [List.length_append, List.length_replicate]
    omega
  · rename_i hneg
    dsimp only
    rcases Nat.le_total x.digits.length (x.exponent.toNat + 1) with hshort | hlong
    · rw [List.take_of_length_le hshort, List.drop_of_length_le hshort, List.append_nil,
        Digit.value_append, value_replicate_zero, List.length_replicate]
      have hplaces : x.exponent + 1 - x.digits.length =
          ((x.exponent.toNat + 1 - x.digits.length : Nat) : Int) := by
        omega
      rw [hplaces, zpow_natCast]
      simp
    · rw [Nat.sub_eq_zero_of_le hlong, List.replicate_zero, List.append_nil,
        List.take_append_drop, List.length_drop]
      congr 2
      omega

theorem noLeadingZero_positional {x : Scientific} (hx : x.Normalized) :
    Digit.NoLeadingZero x.positional.1 := by
  obtain ⟨first, rest, hdigits, hfirst⟩ := hx
  unfold positional
  split
  · exact ⟨Digit.zero, [], rfl, fun _ => rfl⟩
  · refine ⟨first, rest.take x.exponent.toNat ++
      List.replicate (x.exponent.toNat - rest.length) Digit.zero, ?_, fun hzero => ?_⟩
    · simp [hdigits]
    · obtain ⟨rfl, hexponent⟩ := hfirst hzero
      simp [hexponent]

end Scientific

theorem Magnitude.shortest_of_isZero {x : Magnitude} (hx : x.significand = 0) (tie : Tie) :
    x.shortest tie = ⟨[Digit.zero], 0⟩ := by
  unfold shortest
  rw [if_pos (by simp [isZero, hx])]

theorem Magnitude.normalized_shortest (x : Magnitude) (tie : Tie) :
    (x.shortest tie).Normalized := by
  rcases Nat.eq_zero_or_pos x.significand with hx | hx
  · rw [shortest_of_isZero hx]
    exact ⟨Digit.zero, [], rfl, fun _ => ⟨rfl, rfl⟩⟩
  · obtain ⟨n, grid, hn, _, hshortest⟩ := exists_shortest hx tie
    obtain ⟨first, rest, hdigits, hfirst, _⟩ := Digit.exists_digits_eq_cons n
    obtain ⟨kept, hkept⟩ := Digit.strip_cons (hfirst hn) rest
    refine ⟨first, kept, ?_, fun hzero => absurd hzero (hfirst hn)⟩
    rw [hshortest, hdigits, hkept]

/-- The shortest decimal is at most half a step past the magnitude. -/
theorem Magnitude.value_shortest_le (x : Magnitude) (tie : Tie) :
    (x.shortest tie).value ≤ (4 * x.significand + 2) * 2 ^ (x.scale - 2) := by
  rcases Nat.eq_zero_or_pos x.significand with hx | hx
  · rw [shortest_of_isZero hx, Scientific.value, Digit.value_eq_zero (by simp), Nat.cast_zero,
      zero_mul]
    positivity
  · obtain ⟨n, grid, _, hle, hshortest⟩ := exists_shortest hx tie
    obtain ⟨dropped, hlength, hvalue⟩ := Digit.value_strip (Digit.digits n)
    rw [Digit.value_digits] at hvalue
    rw [hshortest, Scientific.value]
    dsimp only
    refine le_trans (le_of_eq ?_) hle
    have hexponent : grid + (Digit.digits n).length - 1 + 1 -
        (((Digit.digits n).reverse.dropWhile (· = Digit.zero)).reverse.length : Int) =
          dropped + grid := by
      omega
    rw [hexponent, zpow_add₀ (by norm_num), zpow_natCast, ← mul_assoc]
    congr 1
    exact_mod_cast hvalue.symm

-- ---------------------------------------------------------------------------
-- Numerals
-- ---------------------------------------------------------------------------

namespace Json.Numeral

/-- How a numeral has to be written. -/
def WellFormed (n : Numeral) : Prop :=
  Digit.NoLeadingZero n.whole ∧ ∀ exponent ∈ n.exponent, exponent.digits ≠ []

theorem value_pointed (negative : Bool) (whole fraction : List Digit) :
    value ⟨negative, whole, if fraction.isEmpty then [Digit.zero] else fraction, none⟩ =
      Digit.value (whole ++ fraction) * 10 ^ (-(fraction.length : Int)) := by
  unfold value
  cases fraction with
  | nil =>
    have hzero : Digit.value (whole ++ [Digit.zero]) = 10 * Digit.value whole :=
      Digit.value_append_singleton whole Digit.zero
    simp only [List.isEmpty_nil, if_true, List.append_nil, hzero]
    norm_num
    ring
  | cons d rest => simp

theorem value_signed (e : Int) :
    Exponent.value ⟨false, some (if e < 0 then .minus else .plus), Digit.digits e.natAbs⟩ = e := by
  unfold Exponent.value
  rw [Digit.value_digits]
  by_cases hneg : e < 0
  · rw [if_pos hneg, if_pos rfl]
    omega
  · rw [if_neg hneg, if_neg (by simp)]
    omega

theorem of_ofNumber? {n : Numeral} {negative : Bool} {x : Magnitude}
    (h : ofNumber? (.finite negative x) = some n) :
    n.WellFormed ∧ n.value = (x.shortest .toEven).value := by
  have hnormalized := x.normalized_shortest .toEven
  unfold ofNumber? at h
  dsimp only at h
  split at h
  · cases h
    refine ⟨⟨Scientific.noLeadingZero_positional hnormalized, by simp⟩, ?_⟩
    rw [value_pointed, Scientific.value_positional]
  · cases h
    obtain ⟨first, rest, hdigits, _⟩ := hnormalized
    obtain ⟨d, ds, hexponent, _⟩ := Digit.exists_digits_eq_cons (x.shortest .toEven).exponent.natAbs
    refine ⟨⟨⟨first, [], by simp [hdigits], fun _ => rfl⟩, by simp [hexponent]⟩, ?_⟩
    rw [value, Scientific.value, Option.map_some, Option.getD_some, value_signed,
      List.take_append_drop, hdigits]
    congr 2
    simp

theorem readable_of_ofNumber? {n : Numeral} {x : Number} (h : ofNumber? x = some n) :
    n.WellFormed ∧ n.number?.isSome := by
  cases x with
  | nan => cases h
  | infinite negative => cases h
  | finite negative x =>
    obtain ⟨hformed, hvalue⟩ := of_ofNumber? h
    refine ⟨hformed, ?_⟩
    by_cases hx : x = Magnitude.greatest
    · have hgreatest : ∀ negative,
          ((ofNumber? (.finite negative .greatest)).bind number?).isSome = true := by
        decide +kernel
      have hsome := hgreatest negative
      rwa [← hx, h] at hsome
    · have hmiddle := Magnitude.middle_le_ceiling hx
      exact isSome_number? (hvalue.le.trans ((x.value_shortest_le .toEven).trans hmiddle))

theorem readable_ofNat {n : Nat} (h : n ≤ Magnitude.ceiling) :
    (ofNat n).WellFormed ∧ (ofNat n).number?.isSome := by
  refine ⟨⟨Digit.noLeadingZero_digits n, by simp [ofNat]⟩, isSome_number? ?_⟩
  have hvalue : (ofNat n).value = n := by simp [ofNat, value, Digit.value_digits]
  rw [hvalue]
  exact_mod_cast h

end Json.Numeral

end Dialogue
