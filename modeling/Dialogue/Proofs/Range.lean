import Dialogue.Json.Numeral
import Dialogue.Proofs.Rounding

/-!
# Numbers that can be read back

A numeral is read in two or three rounded steps, so it can be out of range although its
value is not. `Numeral.isSome_number?` says that this does not happen up to the middle
between the two greatest magnitudes. It comes down to the powers of ten, one by one
(`Magnitude.roomy_powers`).
-/

namespace Dialogue

theorem Digit.value_append (ds more : List Digit) :
    value (ds ++ more) = value ds * 10 ^ more.length + value more := by
  induction more using List.reverseRecOn with
  | nil => simp [value]
  | append_singleton more d ih =>
    rw [← List.append_assoc, value_append_singleton, value_append_singleton, ih,
      List.length_append, List.length_singleton, pow_succ]
    ring

namespace Magnitude

def ceiling : Nat := (2 ^ 54 - 3) * 2 ^ 970

theorem middle_le_ceiling {x : Magnitude} (hx : x ≠ greatest) :
    ((4 * x.significand + 2) * 2 ^ (x.scale - 2) : ℚ) ≤ ceiling := by
  have hceiling : (ceiling : ℚ) = (2 ^ 54 - 3) * 2 ^ ((970 : Nat) : Int) := by
    rw [ceiling, Nat.cast_mul, Nat.cast_pow, Nat.cast_two, zpow_natCast]
    generalize (2 : ℚ) ^ 970 = power
    norm_num
  have hpow : (0 : ℚ) < 2 ^ ((970 : Nat) : Int) := by positivity
  have hlt : (x.significand : ℚ) + 1 ≤ 2 ^ 53 := by exact_mod_cast x.significand_lt
  rw [hceiling, zpow_sub₀ two_ne_zero]
  rcases le_or_gt x.scale ((970 : Nat) : Int) with hscale | hscale
  · have hle : (2 : ℚ) ^ x.scale ≤ 2 ^ ((970 : Nat) : Int) := zpow_le_zpow_right₀ one_le_two hscale
    generalize (2 : ℚ) ^ ((970 : Nat) : Int) = power at *
    have hstep : (4 * x.significand + 2 : ℚ) * 2 ^ x.scale ≤ 2 ^ 55 * power := by
      gcongr
      linarith
    norm_num at hstep ⊢
    linarith
  · have hsame : x.scale = ((970 : Nat) : Int) + 1 := by
      have hexponent := x.exponent.isLt
      unfold scale at hscale ⊢
      split at hscale <;> omega
    have hless : x.significand + 2 ≤ 2 ^ 53 := by
      by_contra hmost
      have hindex := x.index_eq
      have hgreatest : greatest.index = 2047 * 0x10000000000000 - 1 := rfl
      have hlt := x.significand_lt
      exact hx (eq_of_index_eq (by omega))
    have hless : (x.significand : ℚ) + 2 ≤ 2 ^ 53 := by exact_mod_cast hless
    rw [hsame, zpow_add_one₀ two_ne_zero]
    generalize (2 : ℚ) ^ ((970 : Nat) : Int) = power at *
    norm_num at hless ⊢
    nlinarith

theorem ceiling_lt_pow {k : Nat} (h : 309 ≤ k) : ceiling < 10 ^ k := by
  obtain ⟨n, hn, hpow⟩ : ∃ n ≤ k, ceiling < 10 ^ n := ⟨309, h, by decide +kernel⟩
  exact hpow.trans_le (Nat.pow_le_pow_right (by decide) hn)

/-- The greatest significand that a power of ten may have in a numeral that is not past the
ceiling. -/
def room (k : Nat) : Nat := min (2 ^ 64 - 1) (ceiling / 10 ^ k)

/-- The power is at least one. The greatest significand is nowhere near where it would be
rounded further up, and times the power it is in range. -/
def roomy (k : Nat) (power most : Magnitude) : Bool :=
  pow2 (-power.scale) ≤ power.significand * pow2 power.scale &&
    most.exponent.val ≠ 0 &&
    2 * room k * pow2 (-most.scale) < (2 * most.significand + 1) * pow2 most.scale &&
    most.significand * power.significand * pow2 (most.scale + power.scale) <
      overflow * pow2 (-(most.scale + power.scale))

theorem roomy_powers : ∀ k : Nat, k < 309 → ∃ power ∈ ofDecimal 1 k, ∃ most ∈ ofNat (room k),
    roomy k power most = true := by
  decide +kernel

theorem exists_power {k : Nat} (hk : k < 309) :
    ∃ power most : Magnitude, ofDecimal 1 k = some power ∧ 1 ≤ power.value ∧
      most.value * power.value < overflow ∧
      ∀ n ≤ room k, ∃ x, ofNat n = some x ∧ x.value ≤ most.value := by
  obtain ⟨power, hpower, most, -, hroomy⟩ := roomy_powers k hk
  simp only [roomy, Bool.and_eq_true, decide_eq_true_eq] at hroomy
  obtain ⟨⟨⟨hone, hnormal⟩, hroom⟩, hproduct⟩ := hroomy
  refine ⟨power, most, hpower, ?_, ?_, fun n hn => exists_nearest_le Nat.one_pos hnormal ?_⟩
  · have hone := mt (mul_pow2_lt_iff power.significand 1 power.scale).mpr (by omega)
    unfold value
    simpa using hone
  · rw [mul_pow2_lt_iff, zpow_add₀ two_ne_zero] at hproduct
    push_cast at hproduct
    unfold value
    linarith
  · rw [mul_pow2_neg_lt_iff] at hroom
    push_cast at hroom
    have hle : (n : ℚ) ≤ room k := by exact_mod_cast hn
    norm_num
    linarith

end Magnitude

namespace Json.Numeral

open Magnitude (ceiling room)

theorem isSome_div_power {e : Int} (hlow : 0 ≤ e) (hhigh : e ≤ 308) (x : Magnitude) :
    ((Magnitude.ofDecimal 1 e).bind x.div).isSome := by
  obtain ⟨k, rfl⟩ := Int.eq_ofNat_of_zero_le hlow
  obtain ⟨power, _, hpower, hone, _⟩ := Magnitude.exists_power (k := k) (by omega)
  rw [hpower]
  exact Magnitude.isSome_div hone

/-- A significand of 64 bits is scaled without going out of range, if the product is not past
the ceiling. -/
theorem isSome_scaled? {n : Nat} {e : Int} (hn : n < 2 ^ 64) (h : (n * 10 ^ e : ℚ) ≤ ceiling) :
    ((Magnitude.ofNat n).bind fun x => scaled? x e).isSome := by
  rcases Nat.eq_zero_or_pos n with rfl | hpos
  · rfl
  have hsome : ∃ x, Magnitude.ofNat n = some x := by
    refine Option.isSome_iff_exists.mp (Magnitude.isSome_nearest Nat.one_pos ?_)
    have hbelow : 2 ^ 64 < Magnitude.overflow := by decide +kernel
    have hcast : (n : ℚ) < Magnitude.overflow := by exact_mod_cast hn.trans hbelow
    rwa [Nat.cast_one, div_one, zpow_zero, mul_one]
  obtain ⟨x, hx⟩ := hsome
  rw [hx, Option.bind_some, scaled?]
  split
  · rfl
  · rcases le_or_gt 0 e with hup | hdown
    · obtain ⟨k, rfl⟩ := Int.eq_ofNat_of_zero_le hup
      have hproduct : n * 10 ^ k ≤ ceiling := by
        rw [zpow_natCast] at h
        exact_mod_cast h
      have hk : k < 309 := by
        by_contra hpast
        have hlarge := Magnitude.ceiling_lt_pow (Nat.le_of_not_lt hpast)
        exact (hlarge.trans_le (Nat.le_mul_of_pos_left _ hpos)).not_ge hproduct
      obtain ⟨power, most, hpower, _, hrange, hmost⟩ := Magnitude.exists_power hk
      have hroom : n ≤ room k :=
        le_min (by omega) ((Nat.le_div_iff_mul_le (by positivity)).mpr hproduct)
      obtain ⟨_, hsame, hle⟩ := hmost n hroom
      cases hx.symm.trans hsame
      rw [if_neg (by omega), if_pos hup, hpower, Option.bind_some]
      refine Magnitude.isSome_mul (lt_of_le_of_lt ?_ hrange)
      exact mul_le_mul_of_nonneg_right hle power.value_nonneg
    · rw [if_neg (by omega), if_neg (by omega)]
      split
      · exact isSome_div_power (by omega) (by omega) x
      · split
        · obtain ⟨y, hy⟩ := Option.isSome_iff_exists.mp (isSome_div_power (by omega) le_rfl x)
          rw [hy]
          exact isSome_div_power (by omega) (by omega) y
        · rfl

-- ---------------------------------------------------------------------------
-- Numerals
-- ---------------------------------------------------------------------------

/-- The digits that are left out count as places, so what is gathered is never more than
what is written. -/
theorem gather_le (ds : List Digit) {s : Nat} (hs : s < 2 ^ 64) :
    ∃ dropped, (gather s ds).2 + dropped = ds.length ∧ (gather s ds).1 < 2 ^ 64 ∧
      (gather s ds).1 * 10 ^ dropped ≤ s * 10 ^ ds.length + Digit.value ds ∧
      (dropped ≠ 0 → 2 ^ 64 * 10 ^ dropped ≤ 10 * (s * 10 ^ ds.length + Digit.value ds)) := by
  induction ds generalizing s with
  | nil => exact ⟨0, rfl, hs, by simp [gather], by simp⟩
  | cons d rest ih =>
    have hvalue : s * 10 ^ (d :: rest).length + Digit.value (d :: rest) =
        (10 * s + d.val) * 10 ^ rest.length + Digit.value rest := by
      rw [← List.singleton_append, Digit.value_append, List.length_append, Nat.pow_add]
      simp only [Digit.value, List.length_singleton, List.foldl_cons, List.foldl_nil]
      ring
    rw [hvalue, gather]
    split
    · rename_i hnext
      obtain ⟨dropped, hlength, hrest⟩ := ih hnext
      refine ⟨dropped, ?_, hrest⟩
      dsimp only
      rw [List.length_cons]
      omega
    · rename_i hnext
      refine ⟨rest.length + 1, by simp, hs, ?_, fun _ => ?_⟩
      · rw [pow_succ]
        nlinarith [Nat.zero_le (d.val * 10 ^ rest.length)]
      · rw [pow_succ 10]
        have hfull : 2 ^ 64 ≤ 10 * s + d.val := Nat.le_of_not_lt hnext
        nlinarith [Nat.mul_le_mul_right (10 ^ rest.length) hfull]

theorem gather_of_none_taken {ds : List Digit} {s : Nat} (h : (gather s ds).2 = 0) :
    (gather s ds).1 = s := by
  cases ds with
  | nil => rfl
  | cons d rest =>
    rw [gather] at h ⊢
    split at h
    · cases h
    · rename_i hnext
      rw [if_neg hnext]

/-- What is gathered before and after the point is never more than what is written: digits
after the point only matter if all before it were taken. -/
theorem gathered_le (whole fraction : List Digit) :
    ∃ dropped, dropped + (gather 0 whole).2 + (gather (gather 0 whole).1 fraction).2 =
        whole.length + fraction.length ∧
      (gather (gather 0 whole).1 fraction).1 < 2 ^ 64 ∧
      (gather (gather 0 whole).1 fraction).1 * 10 ^ dropped ≤ Digit.value (whole ++ fraction) := by
  obtain ⟨left, hleft, hwhole, hwholele, hcut⟩ := gather_le whole (s := 0) (by decide)
  obtain ⟨spilled, hspilled, htotal, htotalle, -⟩ := gather_le fraction hwhole
  have hnone : (gather (gather 0 whole).1 fraction).2 = 0 →
      (gather (gather 0 whole).1 fraction).1 = (gather 0 whole).1 := gather_of_none_taken
  set taken := gather 0 whole
  set total := gather taken.1 fraction
  refine ⟨left + spilled, by omega, htotal, ?_⟩
  rw [Digit.value_append, pow_add]
  rw [zero_mul, zero_add] at hwholele hcut
  rcases Nat.eq_zero_or_pos left with rfl | hleftpos
  · rw [pow_zero, mul_one] at hwholele
    have hscaled := Nat.mul_le_mul_right (10 ^ fraction.length) hwholele
    linarith
  · have hscaled := Nat.mul_le_mul_right (10 ^ fraction.length) (hcut hleftpos.ne')
    rcases Nat.eq_zero_or_pos total.2 with hzero | hpos
    · obtain rfl : spilled = fraction.length := by omega
      rw [hnone hzero, ← mul_assoc]
      exact (Nat.mul_le_mul_right _ hwholele).trans (Nat.le_add_right _ _)
    · have hplaces : 10 ^ (spilled + 1) ≤ 10 ^ fraction.length :=
        Nat.pow_le_pow_right (by decide) (by omega)
      have hmore := Nat.mul_le_mul (Nat.mul_le_mul_right (10 ^ left) htotal.le) hplaces
      rw [pow_succ] at hmore
      linarith

def value (n : Numeral) : ℚ :=
  Digit.value (n.whole ++ n.fraction) *
    10 ^ ((n.exponent.map Exponent.value).getD 0 - n.fraction.length)

theorem isSome_number? {n : Numeral} (h : n.value ≤ ceiling) : n.number?.isSome := by
  obtain ⟨dropped, hdropped, htotal, hle⟩ := gathered_le n.whole n.fraction
  unfold number? magnitude?
  rw [Option.isSome_map]
  dsimp only
  set taken := gather 0 n.whole
  set total := gather taken.1 n.fraction
  refine isSome_scaled? htotal (le_trans ?_ h)
  have hexponent : (n.whole.length : Int) - taken.2 - total.2 +
      (n.exponent.map Exponent.value).getD 0 =
        (dropped : Int) + ((n.exponent.map Exponent.value).getD 0 - n.fraction.length) := by
    omega
  rw [hexponent, zpow_add₀ (by norm_num), zpow_natCast, ← mul_assoc, value]
  gcongr
  exact_mod_cast hle

end Json.Numeral

end Dialogue
