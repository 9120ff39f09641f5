import Dialogue.Number.Basic
import Mathlib.Algebra.Order.Field.Power
import Mathlib.Data.Rat.Cast.Order
import Mathlib.Tactic.FieldSimp
import Mathlib.Tactic.Linarith
import Mathlib.Tactic.Positivity
import Mathlib.Tactic.Ring

/-!
# Magnitudes as rationals

`Magnitude.value` is the value of a magnitude, and grows with its place in the order of
`ofIndex?`. What is below the middle between a magnitude and the next one up is never
rounded past it (`exists_nearest_le`): so it is in range, too.
-/

namespace Dialogue.Magnitude

variable {num den n : Nat} {e : Int}

def value (x : Magnitude) : ℚ := x.significand * 2 ^ x.scale

def index (x : Magnitude) : Nat := x.exponent.val * 0x10000000000000 + x.fraction.val

theorem significand_lt (x : Magnitude) : x.significand < 2 ^ 53 := by
  have hfraction := x.fraction.isLt
  unfold significand
  split <;> omega

theorem scale_ge (x : Magnitude) : -1074 ≤ x.scale := by
  unfold scale
  split <;> omega

theorem le_significand {x : Magnitude} (h : x.exponent.val ≠ 0) : 2 ^ 52 ≤ x.significand := by
  unfold significand
  rw [if_neg h]
  omega

theorem index_eq (x : Magnitude) :
    (x.index : Int) = (x.scale + 1074) * 2 ^ 52 + x.significand := by
  unfold index scale significand
  split <;> omega

theorem index_lt (x : Magnitude) : x.index < 2047 * 0x10000000000000 := by
  have hexponent := x.exponent.isLt
  have hfraction := x.fraction.isLt
  unfold index
  omega

theorem eq_of_index_eq {x y : Magnitude} (h : x.index = y.index) : x = y := by
  obtain ⟨⟨e, he⟩, ⟨f, hf⟩⟩ := x
  obtain ⟨⟨e', he'⟩, ⟨f', hf'⟩⟩ := y
  simp only [index] at h
  obtain rfl : e = e' := by omega
  obtain rfl : f = f' := by omega
  rfl

theorem exists_ofIndex? (h : n < 2047 * 0x10000000000000) :
    ∃ x, ofIndex? n = some x ∧ x.index = n := by
  unfold ofIndex?
  rw [dif_pos h]
  exact ⟨_, rfl, Nat.div_add_mod' n _⟩

theorem value_le_value {x y : Magnitude} (h : x.index ≤ y.index) : x.value ≤ y.value := by
  have hx := x.index_eq
  have hy := y.index_eq
  have hlt := x.significand_lt
  have hylt := y.significand_lt
  have hge {z : Magnitude} (hz : -1074 < z.scale) : 2 ^ 52 ≤ z.significand := by
    refine le_significand fun hzero => ?_
    rw [scale, if_pos hzero] at hz
    omega
  unfold value
  rcases lt_trichotomy x.scale y.scale with hscale | hscale | hscale
  · have hnormal := hge (z := y) (by have := x.scale_ge; omega)
    calc (x.significand : ℚ) * 2 ^ x.scale ≤ 2 ^ 53 * 2 ^ x.scale := by
          gcongr
          exact_mod_cast hlt.le
      _ = 2 ^ 52 * 2 ^ (x.scale + 1) := by
          rw [zpow_add_one₀ two_ne_zero]
          ring
      _ ≤ y.significand * 2 ^ y.scale := by
          gcongr
          · exact_mod_cast hnormal
          · exact one_le_two
          · omega
  · rw [hscale]
    gcongr
    omega
  · have hnormal := hge (z := x) (by have := y.scale_ge; omega)
    omega

-- ---------------------------------------------------------------------------
-- Rounding
-- ---------------------------------------------------------------------------

theorem cast_pow_toNat {base : Nat} (hbase : base ≠ 0) (e : Int) :
    (Nat.pow base e.toNat : ℚ) = base ^ e * Nat.pow base (-e).toNat := by
  rcases le_total 0 e with h | h
  · obtain ⟨n, rfl⟩ := Int.eq_ofNat_of_zero_le h
    simp
  · obtain ⟨n, hn⟩ := Int.eq_ofNat_of_zero_le (Int.neg_nonneg.mpr h)
    obtain rfl : e = -n := by omega
    have hcast : (base : ℚ) ≠ 0 := by exact_mod_cast hbase
    simp [hcast]

theorem pow2_eq (e : Int) : (pow2 e : ℚ) = 2 ^ e * pow2 (-e) := cast_pow_toNat two_ne_zero e

theorem pow2_pos (e : Int) : 0 < pow2 e := Nat.pow_pos Nat.two_pos

theorem mul_pow2_neg_lt_iff (a b : Nat) (j : Int) :
    a * pow2 (-j) < b * pow2 j ↔ (a : ℚ) < b * 2 ^ j := by
  have hpow : (0 : ℚ) < pow2 (-j) := by exact_mod_cast pow2_pos (-j)
  rw [← Nat.cast_lt (α := ℚ), Nat.cast_mul, Nat.cast_mul, pow2_eq j, ← mul_assoc,
    mul_lt_mul_iff_of_pos_right hpow]

theorem mul_pow2_lt_iff (a b : Nat) (j : Int) :
    a * pow2 j < b * pow2 (-j) ↔ (a * 2 ^ j : ℚ) < b := by
  have hneg := mul_pow2_neg_lt_iff a b (-j)
  rwa [neg_neg, zpow_neg, ← div_eq_mul_inv, lt_div_iff₀ (by positivity)] at hneg

theorem roundQuotient_le (hden : 0 < den) (h : 2 * num < (2 * n + 1) * den) :
    roundQuotient num den ≤ n := by
  have hbelow : num / den ≤ n := by
    rw [← Nat.lt_succ_iff, Nat.div_lt_iff_lt_mul hden]
    nlinarith
  have hsplit := Nat.div_add_mod num den
  have hclose (hequal : num / den = n) : 2 * (num % den) < den := by
    rw [hequal] at hsplit
    nlinarith
  unfold roundQuotient
  dsimp only
  split
  · exact hbelow
  · rename_i hcompare
    have := Nat.compare_eq_gt.mp hcompare
    by_contra hpast
    have := hclose (by omega)
    omega
  · rename_i hcompare
    have := Nat.compare_eq_eq.mp hcompare
    split
    · exact hbelow
    · by_contra hpast
      have := hclose (by omega)
      omega

theorem log2_le_and_lt (hn : 0 < n) :
    (2 : ℚ) ^ (n.log2 : Int) ≤ n ∧ (n : ℚ) < 2 ^ ((n.log2 : Int) + 1) := by
  refine ⟨?_, ?_⟩
  · exact_mod_cast Nat.log2_self_le hn.ne'
  · exact_mod_cast Nat.lt_log2_self

theorem floorLog2_le_and_lt (hnum : 0 < num) (hden : 0 < den) :
    (2 : ℚ) ^ floorLog2 num den ≤ num / den ∧
      (num / den : ℚ) < 2 ^ (floorLog2 num den + 1) := by
  obtain ⟨hnumge, hnumlt⟩ := log2_le_and_lt hnum
  obtain ⟨hdenge, hdenlt⟩ := log2_le_and_lt hden
  have hcast : (0 : ℚ) < den := by exact_mod_cast hden
  have hlow : (2 : ℚ) ^ ((num.log2 : Int) - den.log2 - 1) ≤ num / den := by
    rw [le_div_iff₀ hcast]
    calc (2 : ℚ) ^ ((num.log2 : Int) - den.log2 - 1) * den
        ≤ 2 ^ ((num.log2 : Int) - den.log2 - 1) * 2 ^ ((den.log2 : Int) + 1) := by gcongr
      _ = 2 ^ (num.log2 : Int) := by
        rw [← zpow_add₀ two_ne_zero]
        congr 1
        ring
      _ ≤ num := hnumge
  have hhigh : (num / den : ℚ) < 2 ^ ((num.log2 : Int) - den.log2 + 1) := by
    rw [div_lt_iff₀ hcast]
    calc (num : ℚ) < 2 ^ ((num.log2 : Int) + 1) := hnumlt
      _ = 2 ^ ((num.log2 : Int) - den.log2 + 1) * 2 ^ (den.log2 : Int) := by
        rw [← zpow_add₀ two_ne_zero]
        congr 1
        ring
      _ ≤ 2 ^ ((num.log2 : Int) - den.log2 + 1) * den := by gcongr
  unfold floorLog2
  simp only [mul_pow2_neg_lt_iff, ← div_lt_iff₀' hcast]
  split
  · rename_i hbelow
    exact ⟨hlow, by simpa using hbelow⟩
  · rename_i hbelow
    exact ⟨not_lt.mp hbelow, hhigh⟩

theorem roundQuotient_scaled_le (hden : 0 < den) {scale : Int}
    (h : 2 * (num / den * 2 ^ e : ℚ) < (2 * n + 1) * 2 ^ scale) :
    roundQuotient (num * pow2 (e - scale)) (den * pow2 (-(e - scale))) ≤ n := by
  have hpow : (0 : ℚ) < pow2 (-(e - scale)) := by exact_mod_cast pow2_pos (-(e - scale))
  have hcast : (0 : ℚ) < den := by exact_mod_cast hden
  refine roundQuotient_le (Nat.mul_pos hden (pow2_pos _)) ?_
  rw [← Nat.cast_lt (α := ℚ)]
  push_cast
  rw [pow2_eq (e - scale), zpow_sub₀ two_ne_zero]
  calc 2 * ((num : ℚ) * (2 ^ e / 2 ^ scale * pow2 (-(e - scale))))
      = 2 * (num / den * 2 ^ e) * (den * pow2 (-(e - scale)) / 2 ^ scale) := by
        field_simp
    _ < (2 * n + 1) * 2 ^ scale * (den * pow2 (-(e - scale)) / 2 ^ scale) := by gcongr
    _ = (2 * n + 1) * (den * pow2 (-(e - scale))) := by
        field_simp

/-- What is below the middle between a magnitude and the next one up is in range, and is not
rounded past that magnitude. -/
theorem exists_nearest_le (hden : 0 < den) {y : Magnitude} (hy : y.exponent.val ≠ 0)
    (h : 2 * (num / den * 2 ^ e : ℚ) < (2 * y.significand + 1) * 2 ^ y.scale) :
    ∃ x, nearest num den e = some x ∧ x.value ≤ y.value := by
  suffices hindex : ∃ i, nearest num den e = ofIndex? i ∧ i ≤ y.index by
    obtain ⟨i, hi, hle⟩ := hindex
    obtain ⟨x, hx, rfl⟩ := exists_ofIndex? (hle.trans_lt y.index_lt)
    exact ⟨x, hi.trans hx, value_le_value hle⟩
  unfold nearest
  split
  · exact ⟨0, rfl, Nat.zero_le _⟩
  · rename_i hnum
    refine ⟨_, rfl, ?_⟩
    obtain ⟨hlow, hhigh⟩ := floorLog2_le_and_lt (Nat.pos_of_ne_zero hnum) hden
    have hindex := y.index_eq
    have hnormal := le_significand hy
    have hscale := y.scale_ge
    set log := floorLog2 num den
    set scale := max (log + e - 52) (-1074) with hmax
    have hfull : roundQuotient (num * pow2 (e - scale)) (den * pow2 (-(e - scale))) ≤ 2 ^ 53 := by
      have hpos : (0 : ℚ) < 2 ^ scale := by positivity
      have hvalue : (num / den * 2 ^ e : ℚ) < 2 ^ 53 * 2 ^ scale :=
        calc (num / den * 2 ^ e : ℚ) < 2 ^ (log + 1) * 2 ^ e := by gcongr
          _ = 2 ^ (log + 1 + e) := (zpow_add₀ two_ne_zero _ _).symm
          _ ≤ 2 ^ (53 + scale) := zpow_le_zpow_right₀ one_le_two (by omega)
          _ = 2 ^ 53 * 2 ^ scale := zpow_add₀ two_ne_zero _ _
      refine roundQuotient_scaled_le hden ?_
      push_cast
      linarith
    rcases lt_trichotomy scale y.scale with hless | hequal | hmore
    · omega
    · have hsame : roundQuotient (num * pow2 (e - scale)) (den * pow2 (-(e - scale))) ≤
          y.significand := roundQuotient_scaled_le hden (hequal ▸ h)
      omega
    · -- Such a scale is one of the normal range, so the quotient is too large for this.
      have hlt : (y.significand : ℚ) + 1 ≤ 2 ^ 53 := by exact_mod_cast y.significand_lt
      have hpos : (0 : ℚ) < 2 ^ y.scale := by positivity
      have hvalue : (2 ^ 53 * 2 ^ y.scale : ℚ) ≤ num / den * 2 ^ e :=
        calc (2 ^ 53 * 2 ^ y.scale : ℚ) = 2 ^ (53 + y.scale) := (zpow_add₀ two_ne_zero _ _).symm
          _ ≤ 2 ^ (log + e) := zpow_le_zpow_right₀ one_le_two (by omega)
          _ = 2 ^ log * 2 ^ e := zpow_add₀ two_ne_zero _ _
          _ ≤ num / den * 2 ^ e := by gcongr
      nlinarith

-- ---------------------------------------------------------------------------
-- Results in range
-- ---------------------------------------------------------------------------

def greatest : Magnitude := ⟨⟨2046, by decide⟩, ⟨0xFFFFFFFFFFFFF, by decide⟩⟩

/-- The least number that is rounded past the greatest magnitude. -/
def overflow : Nat := (2 ^ 54 - 1) * 2 ^ 970

theorem value_nonneg (x : Magnitude) : 0 ≤ x.value := by
  unfold value
  positivity

/-- That is the middle between the greatest magnitude and what would come after it. -/
theorem two_mul_overflow :
    2 * (overflow : ℚ) = (2 * greatest.significand + 1) * 2 ^ greatest.scale := by
  have hsignificand : greatest.significand = 2 ^ 53 - 1 := rfl
  have hscale : greatest.scale = ((970 : Nat) : Int) + 1 := rfl
  rw [hsignificand, hscale, overflow, zpow_add_one₀ two_ne_zero, zpow_natCast, Nat.cast_mul,
    Nat.cast_pow, Nat.cast_two]
  generalize (2 : ℚ) ^ 970 = power
  norm_num
  ring

theorem value_lt_overflow (x : Magnitude) : x.value < overflow := by
  have hindex : x.index ≤ greatest.index := Nat.le_of_lt_succ x.index_lt
  have hgreatest : greatest.value < overflow := by
    have hpos : (0 : ℚ) < 2 ^ greatest.scale := by positivity
    have hmiddle := two_mul_overflow
    unfold value
    linarith
  exact (value_le_value hindex).trans_lt hgreatest

theorem isSome_nearest (hden : 0 < den) (h : (num / den * 2 ^ e : ℚ) < overflow) :
    (nearest num den e).isSome := by
  have hbelow : 2 * (num / den * 2 ^ e : ℚ) <
      (2 * greatest.significand + 1) * 2 ^ greatest.scale := by
    rw [← two_mul_overflow]
    linarith
  obtain ⟨x, hx, _⟩ := exists_nearest_le hden (by decide) hbelow
  rw [hx]
  rfl

theorem isSome_mul {x y : Magnitude} (h : x.value * y.value < overflow) : (x.mul y).isSome := by
  refine isSome_nearest Nat.one_pos ?_
  rw [zpow_add₀ two_ne_zero]
  push_cast
  convert h using 1
  unfold value
  ring

theorem isSome_div {x y : Magnitude} (hy : 1 ≤ y.value) : (x.div y).isSome := by
  have hpos : 0 < y.significand := by
    refine Nat.pos_of_ne_zero fun hzero => ?_
    norm_num [value, hzero] at hy
  refine isSome_nearest hpos ?_
  rw [zpow_sub₀ two_ne_zero, div_mul_div_comm]
  exact (div_le_self x.value_nonneg hy).trans_lt x.value_lt_overflow

end Dialogue.Magnitude
