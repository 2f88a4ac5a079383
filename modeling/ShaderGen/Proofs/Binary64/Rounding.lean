import Mathlib.Algebra.Order.Field.Basic
import Mathlib.Data.Rat.Cast.Order
import Mathlib.Tactic.FieldSimp
import Mathlib.Tactic.NormNum
import Mathlib.Tactic.Positivity
import ShaderGen.Proofs.Binary64.Nearest

/-!
# Rounding rational numbers

`RoundsTo x v` says that a rational number is rounded to a finite binary64 number: no finite number
is nearer, and another one is as near only if the significand of the number is even.

## Key results

- `roundsTo_iff_betweenMidpoints`: a number of the right sign is rounded to if and only if the
  rational lies between the midpoints to its two neighbours
- `RoundsTo.eq`: no rational is rounded to two numbers of one sign
-/

namespace ShaderGen.Binary64

/-! ### Values -/

/-- A finite number in multiples of the least subnormal number, without its sign. -/
def units (v : Binary64) : Nat := v.significand * 2 ^ v.scale

/-- Magnitude of a finite number. -/
def size (v : Binary64) : ℚ := v.units / unitsPerOne

/-- The number that a bit pattern stands for, if it is finite. -/
def value (v : Binary64) : ℚ :=
  (if v.isNegative then -1 else 1) * v.significand * 2 ^ v.exponent

/-- A quarter of the gap above a number. -/
def quarterGap (v : Binary64) : ℚ := 2 ^ v.scale / (4 * unitsPerOne)

/-- How many quarters of the gap above a number go into half the gap below it. -/
def quartersBelow (v : Binary64) : Nat := if v.gapNarrowsBelow then 1 else 2

/-- One is a positive number of units. -/
theorem unitsPerOne_pos : (0 : ℚ) < unitsPerOne := by
  rw [unitsPerOne, Nat.cast_pow]
  exact pow_pos (by norm_num) 1074

/-- Four times one is a power of two in units. -/
theorem four_mul_unitsPerOne : 4 * (unitsPerOne : ℚ) = 2 ^ 1076 := by
  rw [unitsPerOne, Nat.cast_pow, Nat.cast_ofNat, pow_add 2 1074 2, mul_comm]
  norm_num only

/-- A magnitude is not negative. -/
theorem size_nonneg (v : Binary64) : 0 ≤ v.size :=
  div_nonneg (Nat.cast_nonneg _) unitsPerOne_pos.le

/-- A quarter of a gap is positive. -/
theorem quarterGap_pos (v : Binary64) : 0 < v.quarterGap :=
  div_pos (by positivity) (mul_pos (by norm_num) unitsPerOne_pos)

/-- Some quarters lie below each number. -/
theorem quartersBelow_pos (v : Binary64) : 0 < v.quartersBelow := by
  unfold quartersBelow
  split <;> omega

/-- The value is the magnitude with the sign. -/
theorem value_eq_size (v : Binary64) :
    v.value = if v.isNegative then -v.size else v.size := by
  have hunit : (2 : ℚ) ^ v.exponent = 2 ^ v.scale / unitsPerOne := by
    rw [exponent_eq_scale, zpow_sub₀ (by norm_num), zpow_natCast, unitsPerOne, Nat.cast_pow]
    rfl
  rw [value, hunit, size, units]
  push_cast
  split <;> ring

/-- The magnitude is that of the value. -/
theorem abs_value (v : Binary64) : |v.value| = v.size := by
  rw [value_eq_size]
  split
  · rw [abs_neg, abs_of_nonneg v.size_nonneg]
  · exact abs_of_nonneg v.size_nonneg

/-- A magnitude is counted in quarters of its own gap. -/
theorem size_eq_quarters (v : Binary64) : v.size = 4 * v.significand * v.quarterGap := by
  have hone := unitsPerOne_pos
  rw [size, units, quarterGap]
  push_cast
  field_simp

/-! ### Neighbours -/

/-- The hidden bit is a power of two. -/
theorem hiddenBit_eq : hiddenBit = 2 ^ 52 := rfl

/-- Greater numbers are at least one gap away. -/
theorem units_gap_above {v w : Binary64} (h : v.units < w.units) :
    v.units + 2 ^ v.scale ≤ w.units := by
  unfold units at *
  rcases Nat.lt_or_ge w.scale v.scale with hscale | hscale
  · -- A number of a smaller scale is not greater.
    have hs := hiddenBit_le_significand (v := v) (by omega)
    obtain ⟨k, hk⟩ : ∃ k, v.scale = w.scale + 1 + k := ⟨v.scale - (w.scale + 1), by omega⟩
    have hlt : w.significand * 2 ^ w.scale < 2 ^ 53 * 2 ^ w.scale :=
      Nat.mul_lt_mul_of_pos_right w.significand_lt (Nat.two_pow_pos _)
    have hle : 2 ^ 53 * 2 ^ w.scale ≤ v.significand * 2 ^ v.scale :=
      calc 2 ^ 53 * 2 ^ w.scale = 2 ^ 52 * 2 ^ (w.scale + 1) := by ring
        _ ≤ v.significand * 2 ^ v.scale :=
          Nat.mul_le_mul hs (Nat.pow_le_pow_right (by decide) (by omega))
    omega
  · obtain ⟨k, hk⟩ : ∃ k, w.scale = v.scale + k := ⟨w.scale - v.scale, by omega⟩
    have hw : w.significand * 2 ^ w.scale = w.significand * 2 ^ k * 2 ^ v.scale := by
      rw [hk]
      ring
    rw [hw] at h ⊢
    have hlt := Nat.lt_of_mul_lt_mul_right h
    calc v.significand * 2 ^ v.scale + 2 ^ v.scale = (v.significand + 1) * 2 ^ v.scale := by ring
      _ ≤ w.significand * 2 ^ k * 2 ^ v.scale := Nat.mul_le_mul_right _ hlt

/-- Smaller numbers are at least one gap away. -/
theorem units_gap_below {v w : Binary64} (h : w.units < v.units) :
    4 * w.units + 2 * v.quartersBelow * 2 ^ v.scale ≤ 4 * v.units := by
  have hnarrow := v.gapNarrowsBelow_iff
  unfold units quartersBelow at *
  -- A number below has a lesser scale, or the same scale and a lesser significand.
  rcases Nat.lt_or_ge w.scale v.scale with hscale | hscale
  · have hs := hiddenBit_le_significand (v := v) (by omega)
    obtain ⟨k, hk⟩ : ∃ k, v.scale = k + 1 := ⟨v.scale - 1, by omega⟩
    have hw : w.significand * 2 ^ w.scale ≤ (2 ^ 53 - 1) * 2 ^ k :=
      Nat.mul_le_mul (by have := w.significand_lt; omega)
        (Nat.pow_le_pow_right (by decide) (by omega))
    have hpos := Nat.two_pow_pos k
    have hdouble : 2 ^ v.scale = 2 * 2 ^ k := by
      rw [hk]
      ring
    rw [hdouble]
    -- Below a power of two the gap is half as wide, so only two quarters are asked for.
    by_cases hpow : v.significand = 2 ^ 52
    · rw [if_pos (hnarrow.mpr ⟨hpow, by omega⟩), hpow]
      omega
    · have hstep : (2 ^ 52 + 1) * (2 * 2 ^ k) ≤ v.significand * (2 * 2 ^ k) :=
        Nat.mul_le_mul_right _ (by omega)
      rw [if_neg fun h => hpow (hnarrow.mp h).1]
      omega
  · obtain ⟨k, hk⟩ : ∃ k, w.scale = v.scale + k := ⟨w.scale - v.scale, by omega⟩
    have hw : w.significand * 2 ^ w.scale = w.significand * 2 ^ k * 2 ^ v.scale := by
      rw [hk]
      ring
    rw [hw] at h ⊢
    have hlt := Nat.lt_of_mul_lt_mul_right h
    have hstep : (w.significand * 2 ^ k + 1) * 2 ^ v.scale ≤ v.significand * 2 ^ v.scale :=
      Nat.mul_le_mul_right _ hlt
    rw [Nat.add_mul, Nat.one_mul] at hstep
    split <;> omega

/-- The number with a sign, a scale and a significand. -/
def ofParts (negative : Bool) (scale significand : Nat) : Binary64 :=
  ⟨.ofNat ((if negative then signBit else 0) + (scale * hiddenBit + significand))⟩

/-- The fields of an assembled number are those it was assembled from. -/
theorem ofParts_spec (negative : Bool) {k s : Nat} (hs : s < 2 ^ 53) (hk : 0 < k → 2 ^ 52 ≤ s)
    (hfin : k * hiddenBit + s < 2047 * hiddenBit) :
    (ofParts negative k s).isFinite = true ∧ (ofParts negative k s).isNegative = negative ∧
      (ofParts negative k s).units = s * 2 ^ k := by
  have hbits : (ofParts negative k s).bits.toNat =
      (if negative then signBit else 0) + (k * hiddenBit + s) := by
    rw [ofParts, UInt64.toNat_ofNat', Nat.mod_eq_of_lt]
    simp only [hiddenBit, signBit] at *
    -- The fields do not overlap, so each is read back by a division or a remainder.
    split <;> omega
  have hsign : (ofParts negative k s).isNegative = negative := by
    cases negative <;> simp only [isNegative, hbits, signBit, hiddenBit] at * <;> simp; omega
  have hmod : (ofParts negative k s).bits.toNat % signBit = k * hiddenBit + s := by
    rw [hbits]
    simp only [signBit, hiddenBit] at *
    split <;> omega
  have hscale : (ofParts negative k s).scale = k := by
    simp only [scale, exponentField, hbits, signBit, hiddenBit] at *
    split <;> omega
  have hsignificand : (ofParts negative k s).significand = s := by
    have hparts := (ofParts negative k s).magnitude_bits
    rw [hmod, hscale] at hparts
    omega
  refine ⟨?_, hsign, by rw [units, hscale, hsignificand]⟩
  simp only [isFinite, exponentField, hbits, bne_iff_ne, signBit, hiddenBit] at *
  split <;> omega

/-- Below the greatest finite number there is a number one gap above. -/
theorem exists_above {v : Binary64}
    (h : v.scale * hiddenBit + v.significand + 1 < 2047 * hiddenBit) :
    ∃ w : Binary64, w.isFinite = true ∧ w.isNegative = v.isNegative ∧
      w.units = v.units + 2 ^ v.scale := by
  have hs := v.significand_lt
  have hbit := hiddenBit_eq
  by_cases hcarry : v.significand + 1 < 2 ^ 53
  · have hleast := hiddenBit_le_significand (v := v)
    obtain ⟨hfin, hneg, hunits⟩ :=
      ofParts_spec v.isNegative (k := v.scale) hcarry (by omega) (by omega)
    exact ⟨_, hfin, hneg, by rw [hunits, units, Nat.add_mul, Nat.one_mul]⟩
  · -- After the last significand of a scale the next scale begins.
    have hlast : v.significand + 1 = 2 * 2 ^ 52 := by omega
    have hfits : (v.scale + 1) * hiddenBit + 2 ^ 52 < 2047 * hiddenBit := by
      rw [Nat.add_mul, Nat.one_mul]
      omega
    obtain ⟨hfin, hneg, hunits⟩ := ofParts_spec v.isNegative (by omega) (by omega) hfits
    refine ⟨_, hfin, hneg, ?_⟩
    calc _ = 2 ^ 52 * 2 ^ (v.scale + 1) := hunits
      _ = (v.significand + 1) * 2 ^ v.scale := by rw [hlast]; ring
      _ = v.units + 2 ^ v.scale := by rw [units, Nat.add_mul, Nat.one_mul]

/-- Above zero there is a number one gap below. -/
theorem exists_below {v : Binary64} (hfin : v.isFinite = true) (hne : v.significand ≠ 0) :
    ∃ w : Binary64, w.isFinite = true ∧ w.isNegative = v.isNegative ∧
      4 * w.units + 2 * v.quartersBelow * 2 ^ v.scale = 4 * v.units := by
  have hs := v.significand_lt
  have hbit := hiddenBit_eq
  have hparts := parts_lt hfin
  have hnarrow := v.gapNarrowsBelow_iff
  by_cases hpow : v.significand = 2 ^ 52 ∧ 0 < v.scale
  · -- Below the least number of a binade the scale before it ends.
    obtain ⟨k, hk⟩ : ∃ k, v.scale = k + 1 := ⟨v.scale - 1, by omega⟩
    have hfits : k * hiddenBit + (2 ^ 53 - 1) < 2047 * hiddenBit := by
      rw [hk, Nat.add_mul, Nat.one_mul] at hparts
      omega
    obtain ⟨hwfin, hneg, hunits⟩ := ofParts_spec v.isNegative (by omega) (by omega) hfits
    refine ⟨_, hwfin, hneg, ?_⟩
    have hdouble : 2 ^ v.scale = 2 * 2 ^ k := by
      rw [hk]
      ring
    rw [hunits, quartersBelow, if_pos (hnarrow.mpr hpow), units, hpow.1, hdouble]
    omega
  · -- Inside a binade the number before has the significand before.
    obtain ⟨s, hsucc⟩ : ∃ s, v.significand = s + 1 := ⟨v.significand - 1, by omega⟩
    have hleast := hiddenBit_le_significand (v := v)
    obtain ⟨hwfin, hneg, hunits⟩ :=
      ofParts_spec v.isNegative (k := v.scale) (s := s) (by omega) (by omega) (by omega)
    refine ⟨_, hwfin, hneg, ?_⟩
    rw [hunits, quartersBelow, if_neg fun h => hpow (hnarrow.mp h), units, hsucc, Nat.add_mul]
    omega

/-- Greater magnitudes are at least one gap away. -/
theorem size_gap_above {v w : Binary64} (h : v.size < w.size) :
    v.size + 4 * v.quarterGap ≤ w.size := by
  have hone := unitsPerOne_pos
  unfold size at *
  have hlt := Nat.cast_lt.mp ((div_lt_div_iff_of_pos_right hone).mp h)
  -- Whole units differ by a gap at least, and sizes are units over a constant.
  have hgap : ((v.units + 2 ^ v.scale : ℕ) : ℚ) / unitsPerOne ≤ w.units / unitsPerOne :=
    (div_le_div_iff_of_pos_right hone).mpr (Nat.cast_le.mpr (units_gap_above hlt))
  refine le_trans (le_of_eq ?_) hgap
  rw [quarterGap]
  push_cast
  field_simp

/-- Smaller magnitudes are at least one gap away. -/
theorem size_gap_below {v w : Binary64} (h : w.size < v.size) :
    w.size + 2 * v.quartersBelow * v.quarterGap ≤ v.size := by
  have hone := unitsPerOne_pos
  unfold size at *
  have hlt := Nat.cast_lt.mp ((div_lt_div_iff_of_pos_right hone).mp h)
  -- Below a power of two the gap is only half as large, which `quartersBelow` accounts for.
  have hgap : ((4 * w.units + 2 * v.quartersBelow * 2 ^ v.scale : ℕ) : ℚ) ≤ (4 * v.units : ℕ) :=
    Nat.cast_le.mpr (units_gap_below hlt)
  rw [quarterGap]
  push_cast at hgap
  field_simp
  linarith

/-! ### Midpoints -/

/-- The midpoint between the magnitude of a number and the next smaller one; there is none below
    zero. -/
def midpointBelow (v : Binary64) : ℚ :=
  ((4 * v.significand - v.quartersBelow : ℕ) : ℚ) * v.quarterGap

/-- The midpoint between the magnitude of a number and the next greater one. -/
def midpointAbove (v : Binary64) : ℚ := ((4 * v.significand + 2 : ℕ) : ℚ) * v.quarterGap

/-- A rational number lies between the midpoints around the magnitude of a number. The midpoints
    themselves count if the significand is even. -/
def BetweenMidpoints (v : Binary64) (a : ℚ) : Prop :=
  (v.midpointBelow ≤ a ∧ a ≤ v.midpointAbove) ∧
    (v.significand % 2 = 1 → v.midpointBelow < a ∧ a < v.midpointAbove)

/-- Being attracted in units is lying between midpoints as a rational number. -/
theorem attracts_iff_betweenMidpoints {v : Binary64} {num den : Nat} {a : ℚ} (hden : 0 < den)
    (ha : (num : ℚ) = a * den) : v.Attracts num den ↔ v.BetweenMidpoints a := by
  have hone := unitsPerOne_pos
  have hden' : (0 : ℚ) < den := Nat.cast_pos.mpr hden
  have hvalue : ((4 * (num * unitsPerOne) : ℕ) : ℚ) = a * (4 * unitsPerOne * den) := by
    push_cast
    rw [ha]
    -- The two sides are compared in units, with the denominator multiplied away.
    ring
  have hquarters : ∀ n : Nat, ((n * (2 ^ v.scale * den) : ℕ) : ℚ) =
      n * v.quarterGap * (4 * unitsPerOne * den) := by
    intro n
    rw [quarterGap]
    push_cast
    field_simp
  have hfactor : (0 : ℚ) < 4 * unitsPerOne * den := mul_pos (mul_pos (by norm_num) hone) hden'
  have hbelow : ∀ n : Nat,
      n * (2 ^ v.scale * den) ≤ 4 * (num * unitsPerOne) ↔ n * v.quarterGap ≤ a := by
    intro n
    rw [← Nat.cast_le (α := ℚ), hquarters, hvalue, mul_le_mul_iff_of_pos_right hfactor]
  have habove : ∀ n : Nat,
      4 * (num * unitsPerOne) ≤ n * (2 ^ v.scale * den) ↔ a ≤ n * v.quarterGap := by
    intro n
    rw [← Nat.cast_le (α := ℚ), hquarters, hvalue, mul_le_mul_iff_of_pos_right hfactor]
  simp only [Attracts, BetweenMidpoints, ← not_le, hbelow, habove]
  rfl

/-- The upper midpoint lies half a gap above. -/
theorem midpointAbove_eq (v : Binary64) : v.midpointAbove = v.size + 2 * v.quarterGap := by
  rw [midpointAbove, size_eq_quarters]
  push_cast
  ring

/-- The lower midpoint lies half of the gap below under the number. -/
theorem midpointBelow_eq {v : Binary64} (hne : v.significand ≠ 0) :
    v.midpointBelow = v.size - v.quartersBelow * v.quarterGap := by
  have hle : v.quartersBelow ≤ 4 * v.significand := by
    unfold quartersBelow
    split <;> omega
  rw [midpointBelow, size_eq_quarters, Nat.cast_sub hle]
  push_cast
  ring

/-- Every number but zero has a number half a gap or a whole one below. -/
theorem exists_size_below {v : Binary64} (hfin : v.isFinite = true) (hne : v.significand ≠ 0) :
    ∃ w : Binary64, w.isFinite = true ∧ w.isNegative = v.isNegative ∧
      w.size + 2 * v.quartersBelow * v.quarterGap = v.size := by
  obtain ⟨w, hwfin, hneg, hunits⟩ := exists_below hfin hne
  have hone := unitsPerOne_pos
  -- The distance is known of the units, and is carried over to the rationals.
  have hcast : ((4 * w.units + 2 * v.quartersBelow * 2 ^ v.scale : ℕ) : ℚ) = (4 * v.units : ℕ) :=
    congrArg Nat.cast hunits
  refine ⟨w, hwfin, hneg, ?_⟩
  rw [size, size, quarterGap]
  push_cast at hcast
  field_simp
  linarith

/-- Scale of the greatest finite number. -/
def greatestScale : Nat := 2045

/-- Magnitude from which on numbers are too great to be rounded to a finite number: halfway between
    the greatest finite number and the next power of two. -/
def overflow : ℚ := 2 ^ 1024 - 2 ^ 970

/-- Numbers overflow from the midpoint above the greatest one. -/
theorem overflow_eq :
    overflow = ((4 * (2 ^ 53 - 1) + 2 : ℕ) : ℚ) * (2 ^ greatestScale / (4 * unitsPerOne)) := by
  rw [overflow, four_mul_unitsPerOne,
    show (2 : ℚ) ^ greatestScale = 2 ^ 969 * 2 ^ 1076 from pow_add 2 969 1076,
    show (2 : ℚ) ^ 1024 = 2 ^ 55 * 2 ^ 969 from pow_add 2 55 969,
    show (2 : ℚ) ^ 970 = 2 * 2 ^ 969 from pow_succ' 2 969,
    mul_div_cancel_right₀ _ (pow_ne_zero _ (by norm_num))]
  -- What is left is the same for any number in place of this power.
  generalize (2 : ℚ) ^ 969 = y
  push_cast
  ring

/-- The midpoint above a finite number is the limit for the greatest one, which is odd, and below
    it for all others, which have a number above. -/
theorem greatest_or_exists_above {v : Binary64} (hfin : v.isFinite = true) :
    (v.significand % 2 = 1 ∧ v.midpointAbove = overflow) ∨
      (v.midpointAbove < overflow ∧ ∃ w : Binary64, w.isFinite = true ∧
        w.isNegative = v.isNegative ∧ w.size = v.size + 4 * v.quarterGap) := by
  have hs := v.significand_lt
  have hbit := hiddenBit_eq
  have hscale : v.scale ≤ greatestScale := by
    have hfield := v.exponentField_lt
    simp only [isFinite, bne_iff_ne] at hfin
    simp only [scale, greatestScale]
    omega
  -- The greatest number has no number above it, and its significand is odd.
  by_cases hgreatest : v.scale = greatestScale ∧ v.significand = 2 ^ 53 - 1
  · refine .inl ⟨by omega, ?_⟩
    rw [midpointAbove, quarterGap, overflow_eq, hgreatest.1, hgreatest.2]
  · have hmid :
        (4 * v.significand + 2) * 2 ^ v.scale < (4 * (2 ^ 53 - 1) + 2) * 2 ^ greatestScale := by
      rcases Nat.lt_or_ge v.scale greatestScale with hlt | hge
      · calc (4 * v.significand + 2) * 2 ^ v.scale
            ≤ (4 * (2 ^ 53 - 1) + 2) * 2 ^ v.scale := Nat.mul_le_mul_right _ (by omega)
          _ < (4 * (2 ^ 53 - 1) + 2) * 2 ^ greatestScale :=
            Nat.mul_lt_mul_of_pos_left (Nat.pow_lt_pow_right (by decide) hlt) (by decide)
      · rw [show v.scale = greatestScale by omega]
        exact Nat.mul_lt_mul_of_pos_right (by omega) (Nat.two_pow_pos greatestScale)
    -- One unit above, the exponent field is still that of a finite number.
    have habove : v.scale * hiddenBit + v.significand + 1 < 2047 * hiddenBit := by
      rcases Nat.lt_or_ge v.scale greatestScale with hlt | hge
      · have hle : v.scale * hiddenBit ≤ 2044 * hiddenBit :=
          Nat.mul_le_mul_right _ (Nat.le_of_lt_succ hlt)
        omega
      · rw [show v.scale = 2045 from Nat.le_antisymm hscale hge]
        omega
    obtain ⟨w, hwfin, hneg, hunits⟩ := exists_above habove
    have hone := unitsPerOne_pos
    refine .inr ⟨?_, w, hwfin, hneg, ?_⟩
    · rw [midpointAbove, quarterGap, overflow_eq, ← mul_div_assoc, ← mul_div_assoc]
      refine div_lt_div_of_pos_right ?_ (mul_pos (by norm_num) hone)
      exact_mod_cast hmid
    · rw [size, size, hunits, quarterGap]
      push_cast
      field_simp

/-! ### Rounding -/

/-- A rational number is rounded to a finite binary64 number: it is not too great for one, none is
    nearer, and if another one is as near, the number has an even significand. -/
structure RoundsTo (x : ℚ) (v : Binary64) : Prop where
  finite : v.isFinite = true
  in_range : |x| < overflow
  nearest : ∀ w : Binary64, w.isFinite = true → |x - v.value| ≤ |x - w.value|
  even : ∀ w : Binary64, w.isFinite = true → w.value ≠ v.value →
    |x - w.value| = |x - v.value| → v.significand % 2 = 0

/-- A rational number has the sign of a binary64 number, which zero has in any case. -/
def SharesSign (v : Binary64) (x : ℚ) : Prop := x = if v.isNegative then -|x| else |x|

section

variable {v w : Binary64} {x a : ℚ}

/-- On one side of zero the distance of two numbers is that of their magnitudes. -/
theorem abs_sub_value (hx : v.SharesSign x) (hw : w.isNegative = v.isNegative) :
    |x - w.value| = |(|x|) - w.size| := by
  unfold SharesSign at hx
  rw [value_eq_size, hw]
  generalize |x| = a at *
  rw [hx]
  split
  · rw [neg_sub_neg, abs_sub_comm]
  · rfl

/-- On two sides of zero the distance of two numbers is what their magnitudes make together. -/
theorem abs_sub_value_of_ne (hx : v.SharesSign x) (hw : w.isNegative ≠ v.isNegative) :
    |x - w.value| = |x| + w.size := by
  have hsize := w.size_nonneg
  have habs := abs_nonneg x
  -- Both signs are alike: the distance across zero is the sum of the magnitudes.
  unfold SharesSign at hx
  rw [value_eq_size]
  generalize |x| = a at *
  cases hv : v.isNegative with
  | true =>
    have hneg : w.isNegative = false := by simpa [hv] using hw
    rw [hx, hv, hneg, if_pos rfl, if_neg Bool.false_ne_true, ← neg_add', abs_neg]
    exact abs_of_nonneg (add_nonneg habs hsize)
  | false =>
    have hneg : w.isNegative = true := by simpa [hv] using hw
    rw [hx, hv, hneg, if_pos rfl, if_neg Bool.false_ne_true, sub_neg_eq_add]
    exact abs_of_nonneg (add_nonneg habs hsize)

/-- The distance of two numbers is at least that of their magnitudes. -/
theorem le_abs_sub_value (x : ℚ) (w : Binary64) : |(|x|) - w.size| ≤ |x - w.value| := by
  rw [← w.abs_value]
  exact abs_abs_sub_abs_le x w.value

/-- Of two numbers the smaller one is as near to a third as the greater one up to the point halfway
    between them. -/
private theorem dist_le_iff {s t : ℚ} (h : s < t) : |a - s| ≤ |a - t| ↔ 2 * a ≤ s + t := by
  rw [← sq_le_sq]
  constructor <;> intro hle <;> nlinarith

/-- A point is nearer to the lower of two numbers if it lies below the middle of them. -/
private theorem dist_lt_iff {s t : ℚ} (h : s < t) : |a - s| < |a - t| ↔ 2 * a < s + t := by
  rw [← sq_lt_sq]
  constructor <;> intro hlt <;> nlinarith

/-- What lies between the midpoints around a magnitude is no nearer to any other one, and it is
    farther away from any other one if the significand is odd. -/
theorem BetweenMidpoints.dist (h : v.BetweenMidpoints a) (hne : w.size ≠ v.size) :
    |a - v.size| ≤ |a - w.size| ∧
      (v.significand % 2 = 1 → |a - v.size| < |a - w.size|) := by
  obtain ⟨⟨hbelow, habove⟩, hodd⟩ := h
  rw [midpointAbove_eq] at habove hodd
  -- The other number lies below or above, and each side has its own midpoint.
  rcases lt_or_gt_of_ne hne with hlt | hgt
  · have hzero : v.significand ≠ 0 := by
      intro hzero
      rw [size_eq_quarters v, hzero, Nat.cast_zero, mul_zero, zero_mul] at hlt
      exact absurd w.size_nonneg (not_le.mpr hlt)
    have hgap := size_gap_below hlt
    rw [midpointBelow_eq hzero] at hbelow hodd
    constructor
    · rw [← not_lt, dist_lt_iff hlt]
      linarith
    · intro hs
      rw [← not_le, dist_le_iff hlt]
      linarith [(hodd hs).1]
  · have hgap := size_gap_above hgt
    constructor
    · rw [dist_le_iff hgt]
      linarith
    · intro hs
      rw [dist_lt_iff hgt]
      linarith [(hodd hs).2]

/-- What lies between the midpoints around a number of its sign is farther away from any other
    number if the significand is odd. -/
theorem BetweenMidpoints.dist_lt (hx : v.SharesSign x) (h : v.BetweenMidpoints |x|)
    (hodd : v.significand % 2 = 1) (hne : w.value ≠ v.value) :
    |x - v.value| < |x - w.value| := by
  rw [abs_sub_value hx rfl]
  by_cases hsize : w.size = v.size
  · -- The other number has the other sign, and neither of them is zero.
    have hneg : w.isNegative ≠ v.isNegative := fun hneg =>
      hne (by rw [value_eq_size, value_eq_size, hneg, hsize])
    have hgap := v.quarterGap_pos
    have hsignificand : (0 : ℚ) < v.significand := Nat.cast_pos.mpr (by omega)
    have hvsize : 0 < v.size := by
      rw [size_eq_quarters]
      positivity
    have hpos : 0 < |x| := (mul_nonneg (Nat.cast_nonneg _) hgap.le).trans_lt (h.2 hodd).1
    rw [abs_sub_value_of_ne hx hneg, hsize]
    refine abs_lt.mpr ⟨?_, ?_⟩ <;> linarith
  · exact ((h.dist hsize).2 hodd).trans_le (le_abs_sub_value x w)

/-- What lies between the midpoints of a number rounds to it. -/
theorem BetweenMidpoints.roundsTo (hfin : v.isFinite = true) (hx : v.SharesSign x)
    (h : v.BetweenMidpoints |x|) : RoundsTo x v where
  finite := hfin
  in_range := by
    rcases greatest_or_exists_above hfin with ⟨hodd, hlimit⟩ | ⟨hlimit, -⟩
    · exact hlimit ▸ (h.2 hodd).2
    · exact h.1.2.trans_lt hlimit
  nearest w _ := by
    rw [abs_sub_value hx rfl]
    refine le_trans ?_ (le_abs_sub_value x w)
    -- Numbers of one size are equally far away, and another size lies beyond a midpoint.
    by_cases hsize : w.size = v.size
    · rw [hsize]
    · exact (h.dist hsize).1
  even w _ hne htie := by
    by_contra hs
    exact (h.dist_lt hx (by omega) hne).ne' htie

/-- What a rational number is rounded to is no farther away than other numbers of its sign, and
    nearer than all of them if its significand is odd. -/
theorem RoundsTo.near (hx : v.SharesSign x) (h : RoundsTo x v) (hfin : w.isFinite = true)
    (hneg : w.isNegative = v.isNegative) :
    |(|x|) - v.size| ≤ |(|x|) - w.size| ∧
      (v.significand % 2 = 1 → w.size ≠ v.size → |(|x|) - v.size| < |(|x|) - w.size|) := by
  have hv : |x - v.value| = |(|x|) - v.size| := abs_sub_value hx rfl
  have hw : |x - w.value| = |(|x|) - w.size| := abs_sub_value hx hneg
  have hle := h.nearest w hfin
  rw [hv, hw] at hle
  -- An even significand wins a tie, so for an odd one there is no tie.
  refine ⟨hle, fun hodd hne => lt_of_le_of_ne hle fun heq => ?_⟩
  have hvalues : w.value ≠ v.value := fun hvalue =>
    hne (by rw [← w.abs_value, hvalue, v.abs_value])
  have heven := h.even w hfin hvalues (by rw [hv, hw, heq])
  omega

/-- What rounds to a number is not above its upper midpoint. -/
theorem RoundsTo.le_midpointAbove (hx : v.SharesSign x) (h : RoundsTo x v) :
    |x| ≤ v.midpointAbove ∧ (v.significand % 2 = 1 → |x| < v.midpointAbove) := by
  -- The greatest number has a limit instead of a neighbour.
  rcases greatest_or_exists_above h.finite with ⟨-, hlimit⟩ | ⟨-, w, hfin, hneg, hsize⟩
  · rw [hlimit]
    exact ⟨h.in_range.le, fun _ => h.in_range⟩
  · have hgap := v.quarterGap_pos
    have hlt : v.size < w.size := by linarith
    obtain ⟨hle, hstrict⟩ := h.near hx hfin hneg
    rw [midpointAbove_eq]
    rw [dist_le_iff hlt] at hle
    rw [dist_lt_iff hlt] at hstrict
    exact ⟨by linarith, fun hodd => by linarith [hstrict hodd hlt.ne']⟩

/-- What rounds to a number is not below its lower midpoint. -/
theorem RoundsTo.midpointBelow_le (hx : v.SharesSign x) (h : RoundsTo x v) :
    v.midpointBelow ≤ |x| ∧ (v.significand % 2 = 1 → v.midpointBelow < |x|) := by
  -- Nothing is below zero, so its lower midpoint is zero.
  by_cases hzero : v.significand = 0
  · have hmid : v.midpointBelow = 0 := by
      rw [midpointBelow, hzero, Nat.mul_zero, Nat.zero_sub, Nat.cast_zero, zero_mul]
    rw [hmid]
    exact ⟨abs_nonneg x, fun hodd => by omega⟩
  · obtain ⟨w, hfin, hneg, hsize⟩ := exists_size_below h.finite hzero
    have hquarters : (0 : ℚ) < v.quartersBelow := Nat.cast_pos.mpr v.quartersBelow_pos
    have hstep : 0 < v.quartersBelow * v.quarterGap := mul_pos hquarters v.quarterGap_pos
    have hlt : w.size < v.size := by linarith
    obtain ⟨hle, hstrict⟩ := h.near hx hfin hneg
    rw [midpointBelow_eq hzero]
    rw [← not_lt, dist_lt_iff hlt, not_lt] at hle
    rw [← not_le, dist_le_iff hlt, not_le] at hstrict
    exact ⟨by linarith, fun hodd => by linarith [hstrict hodd hlt.ne]⟩

/-- What rounds to a number lies between its midpoints. -/
theorem RoundsTo.betweenMidpoints (hx : v.SharesSign x) (h : RoundsTo x v) :
    v.BetweenMidpoints |x| := by
  obtain ⟨hbelow, hbelow'⟩ := h.midpointBelow_le hx
  obtain ⟨habove, habove'⟩ := h.le_midpointAbove hx
  exact ⟨⟨hbelow, habove⟩, fun hodd => ⟨hbelow' hodd, habove' hodd⟩⟩

/-- What a rational number of the same sign is rounded to are the finite numbers with midpoints
    around it. -/
theorem roundsTo_iff_betweenMidpoints (hx : v.SharesSign x) :
    RoundsTo x v ↔ v.isFinite = true ∧ v.BetweenMidpoints |x| :=
  ⟨fun h => ⟨h.finite, h.betweenMidpoints hx⟩, fun h => h.2.roundsTo h.1 hx⟩

/-- Numbers of one sign are equal if their magnitudes have the same bits. -/
theorem eq_of_magnitude (hsign : v.isNegative = w.isNegative) (h : v.magnitude = w.magnitude) :
    v = w := by
  have hbits : v.bits.toNat % signBit = w.bits.toNat % signBit := by
    have hnat := congrArg (fun u : Binary64 => u.bits.toNat) h
    simp only [magnitude, UInt64.toNat_ofNat', signBit] at hnat ⊢
    omega
  have hv := v.bits.toNat_lt
  have hw := w.bits.toNat_lt
  simp only [isNegative, decide_eq_decide] at hsign
  have heq : v.bits.toNat = w.bits.toNat := by
    simp only [signBit] at hbits hsign
    -- The sign and the rest of the bits are all there is of a number.
    omega
  obtain ⟨bits⟩ := v
  obtain ⟨bits'⟩ := w
  exact congrArg Binary64.mk (UInt64.toNat_inj.mp heq)

/-- A rational number is not rounded to two numbers of its sign. -/
theorem RoundsTo.eq (hv : RoundsTo x v) (hw : RoundsTo x w) (hsv : v.SharesSign x)
    (hsw : w.SharesSign x) (hsign : v.isNegative = w.isNegative) : v = w := by
  have hnum : ((|x|).num.toNat : ℚ) = |x| * (|x|).den := by
    rw [Rat.mul_den_eq_num, ← Int.cast_natCast,
      Int.toNat_of_nonneg (Rat.num_nonneg.mpr (abs_nonneg x))]
  have hden : 0 < (|x|).den := (|x|).den_pos
  refine eq_of_magnitude hsign ?_
  -- Both are the number nearest to the fraction, and that one is computed.
  rw [← nearest_eq_magnitude hv.finite hden
      ((attracts_iff_betweenMidpoints hden hnum).mpr (hv.betweenMidpoints hsv)),
    ← nearest_eq_magnitude hw.finite hden
      ((attracts_iff_betweenMidpoints hden hnum).mpr (hw.betweenMidpoints hsw))]

end

end ShaderGen.Binary64
