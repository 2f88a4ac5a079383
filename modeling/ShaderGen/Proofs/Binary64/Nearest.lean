import Mathlib.Tactic.Linarith
import Mathlib.Tactic.Ring
import ShaderGen.Binary64.Basic

/-!
# Rounding to the nearest binary64 number

`Binary64.nearest` takes a ratio of natural numbers to the nearest binary64 number, a ratio halfway
between two of them to the one with the even significand. Multiples of the least subnormal number
are counted, so that everything is arithmetic on natural numbers.

The main statement, `nearest_eq_magnitude`, says which ratios go to a given number: those between
the midpoints to its two neighbours, the midpoints themselves if its significand is even.
-/

namespace ShaderGen

/-- The whole number nearest to `a / b`, the even one of two that are equally near. -/
def roundHalfEven (a b : Nat) : Nat :=
  let below := a / b
  let rest := a % b
  if 2 * rest < b ∨ 2 * rest = b ∧ below % 2 = 0 then below else below + 1

/-- A quotient within one half of a whole number rounds to it; at a distance of exactly one half
    the whole number has to be even. -/
theorem roundHalfEven_eq {a b s : Nat} (hb : 0 < b) (hlow : 2 * s * b ≤ 2 * a + b)
    (hhigh : 2 * a ≤ (2 * s + 1) * b)
    (hodd : s % 2 = 1 → 2 * s * b < 2 * a + b ∧ 2 * a < (2 * s + 1) * b) :
    roundHalfEven a b = s := by
  have hdiv : b * (a / b) + a % b = a := Nat.div_add_mod a b
  have hrest : a % b < b := Nat.mod_lt a hb
  simp only [roundHalfEven]
  generalize a / b = q at *
  generalize a % b = r at *
  -- The floor of the quotient is `s` or the number before it.
  have hle : q ≤ s := by
    by_contra h
    have : b * (s + 1) ≤ b * q := Nat.mul_le_mul_left b (by omega)
    nlinarith
  have hge : s ≤ q + 1 := by
    by_contra h
    have : b * (q + 2) ≤ b * s := Nat.mul_le_mul_left b (by omega)
    nlinarith
  rcases Nat.lt_or_ge q s with hlt | hge'
  · obtain rfl : s = q + 1 := by omega
    have h1 : b ≤ 2 * r := by nlinarith
    -- A tie is allowed only where the number itself is even.
    by_cases htie : 2 * r = b
    · have heven : ¬ (q + 1) % 2 = 1 := fun h => by
        have := (hodd h).1
        nlinarith
      rw [if_neg (by omega)]
    · rw [if_neg (by omega)]
  · obtain rfl : s = q := by omega
    have h1 : 2 * r ≤ b := by nlinarith
    by_cases htie : 2 * r = b
    · have heven : ¬ s % 2 = 1 := fun h => by
        have := (hodd h).2
        nlinarith
      rw [if_pos (Or.inr ⟨htie, by omega⟩)]
    · rw [if_pos (Or.inl (by omega))]

namespace Binary64

/-- How many times the least subnormal number goes into one. -/
def unitsPerOne : Nat := 2 ^ 1074

/-- The binary64 number nearest to `num / den`. The ratio is counted in multiples of the least
    subnormal number; `shift` is how far it has to be scaled down to leave a significand. What is
    too great for a finite number goes to infinity. -/
def nearest (num den : Nat) : Binary64 :=
  let scaled := num * unitsPerOne
  let shift := Nat.log2 (scaled / den) - 52
  ⟨.ofNat (min (shift * hiddenBit + roundHalfEven scaled (den * 2 ^ shift)) (2047 * hiddenBit))⟩

/-- The number without its sign. -/
def magnitude (v : Binary64) : Binary64 := ⟨.ofNat (v.bits.toNat % signBit)⟩

/-- How many times the gap between subnormal numbers is doubled around a number. -/
def scale (v : Binary64) : Nat := v.exponentField - 1

/-- The exponent of a number is its scale, counted from the smallest one. -/
theorem exponent_eq_scale (v : Binary64) : v.exponent = (v.scale : Int) - 1074 := by
  simp only [exponent, scale]
  split <;> omega

/-- The exponent field has eleven bits. -/
theorem exponentField_lt (v : Binary64) : v.exponentField < 2048 := by
  simp only [exponentField]
  omega

/-- The fraction field has fifty two. -/
theorem fractionField_lt (v : Binary64) : v.fractionField < 2 ^ 52 :=
  Nat.mod_lt _ (by decide)

/-- Subnormal numbers have the significand of their bit pattern and no scale, all others a hidden
    bit and a scale one less than their exponent field. -/
theorem subnormal_or_normal (v : Binary64) :
    (v.exponentField = 0 ∧ v.significand = v.fractionField ∧ v.scale = 0) ∨
      (v.exponentField = v.scale + 1 ∧ v.significand = v.fractionField + 2 ^ 52) := by
  simp only [scale, significand, hiddenBit]
  by_cases hzero : v.exponentField = 0
  · left
    exact ⟨hzero, if_pos hzero, by omega⟩
  · right
    exact ⟨by omega, if_neg hzero⟩

/-- A significand has at most fifty three bits. -/
theorem significand_lt (v : Binary64) : v.significand < 2 ^ 53 := by
  have hfrac := v.fractionField_lt
  have hcases := v.subnormal_or_normal
  omega

/-- Only subnormal numbers, which have no scale, lack the hidden bit. -/
theorem hiddenBit_le_significand {v : Binary64} (h : 0 < v.scale) : 2 ^ 52 ≤ v.significand := by
  have hcases := v.subnormal_or_normal
  omega

/-- The bit pattern of a magnitude counts up through the significands of each scale in turn. -/
theorem magnitude_bits (v : Binary64) :
    v.bits.toNat % signBit = v.scale * hiddenBit + v.significand := by
  have hbits : v.bits.toNat < 2 ^ 64 := v.bits.toNat_lt
  have hfield : v.exponentField = v.bits.toNat / 2 ^ 52 % 2048 := rfl
  have hfrac : v.fractionField = v.bits.toNat % 2 ^ 52 := rfl
  have hcases := v.subnormal_or_normal
  simp only [hiddenBit, signBit]
  omega

/-- The bit pattern of a finite magnitude stays below that of infinity. -/
theorem parts_lt {v : Binary64} (hfin : v.isFinite = true) :
    v.scale * hiddenBit + v.significand < 2047 * hiddenBit := by
  have hfield := v.exponentField_lt
  have hfrac := v.fractionField_lt
  have hcases := v.subnormal_or_normal
  simp only [isFinite, bne_iff_ne, ne_eq, hiddenBit] at *
  omega

/-- Whether a ratio lies between the midpoints from the magnitude of a number to its two
    neighbours, in quarters of the gap above the number. The gap below the least number of a
    binade is half as wide. The midpoints count if the significand is even. -/
def Attracts (v : Binary64) (num den : Nat) : Prop :=
  let low := (4 * v.significand - if v.gapNarrowsBelow then 1 else 2) * (2 ^ v.scale * den)
  let high := (4 * v.significand + 2) * (2 ^ v.scale * den)
  let value := 4 * (num * unitsPerOne)
  (low ≤ value ∧ value ≤ high) ∧ (v.significand % 2 = 1 → low < value ∧ value < high)

/-- The gap narrows below powers of two that have a scale, and there alone. -/
theorem gapNarrowsBelow_iff (v : Binary64) :
    v.gapNarrowsBelow = true ↔ v.significand = 2 ^ 52 ∧ 0 < v.scale := by
  have hfrac := v.fractionField_lt
  have hcases := v.subnormal_or_normal
  simp only [gapNarrowsBelow, Bool.and_eq_true, beq_iff_eq, decide_eq_true_eq]
  omega

/-- A power of two bounds a quotient from below if it bounds the dividend. -/
private theorem log2_div {n d e : Nat} (hd : 0 < d) (hlow : 2 ^ e * d ≤ n)
    (hhigh : n < 2 ^ (e + 1) * d) : Nat.log2 (n / d) = e := by
  have hle : 2 ^ e ≤ n / d := (Nat.le_div_iff_mul_le hd).mpr hlow
  have hlt : n / d < 2 ^ (e + 1) := (Nat.div_lt_iff_lt_mul hd).mpr hhigh
  have hne : n / d ≠ 0 := by
    have := Nat.two_pow_pos e
    omega
  exact (Nat.log2_eq_iff hne).mpr ⟨hle, hlt⟩

/-- What `nearest` makes of a shift and a rounded significand that make up the bit pattern of a
    finite magnitude. -/
private theorem nearest_of_parts {num den : Nat} {v : Binary64} (shift rounded : Nat)
    (hfin : v.isFinite = true)
    (hshift : Nat.log2 (num * unitsPerOne / den) - 52 = shift)
    (hround : roundHalfEven (num * unitsPerOne) (den * 2 ^ shift) = rounded)
    (hparts : shift * hiddenBit + rounded = v.scale * hiddenBit + v.significand) :
    nearest num den = v.magnitude := by
  simp only [nearest, hshift, hround, magnitude, magnitude_bits]
  rw [hparts, Nat.min_eq_left (parts_lt hfin).le]

/-- A ratio between the midpoints around a finite number goes to that number. -/
theorem nearest_eq_magnitude {v : Binary64} {num den : Nat} (hfin : v.isFinite = true)
    (hden : 0 < den) (h : v.Attracts num den) : nearest num den = v.magnitude := by
  obtain ⟨⟨hlow, hhigh⟩, hodd⟩ := h
  have hs := v.significand_lt
  have hunit : 0 < 2 ^ v.scale * den := Nat.mul_pos (Nat.two_pow_pos _) hden
  by_cases hbelow : num * unitsPerOne < 2 ^ 52 * (2 ^ v.scale * den) ∧ 0 < v.scale
  · -- A ratio just below the binade of the number has a smaller shift, and its significand
    -- carries over into the binade.
    obtain ⟨hlt, hscale⟩ := hbelow
    have hs52 := hiddenBit_le_significand hscale
    have hpow : v.significand = 2 ^ 52 := by
      -- A larger significand would put the ratio into the binade.
      by_contra hne
      have hstep : (4 * 2 ^ 52 + 2) * (2 ^ v.scale * den) ≤
          (4 * v.significand - if v.gapNarrowsBelow then 1 else 2) * (2 ^ v.scale * den) :=
        Nat.mul_le_mul_right _ (by split <;> omega)
      omega
    have hnarrow : v.gapNarrowsBelow = true := v.gapNarrowsBelow_iff.mpr ⟨hpow, hscale⟩
    obtain ⟨k, hk⟩ : ∃ k, v.scale = k + 1 := ⟨v.scale - 1, by omega⟩
    -- Half the gap: everything is stated in units of the smaller binade from here on.
    have hdouble : 2 ^ v.scale * den = 2 * (den * 2 ^ k) := by
      rw [hk, pow_succ]
      ring
    rw [hdouble] at hlow hlt hunit
    simp only [hnarrow, hpow, if_true] at hlow
    apply nearest_of_parts k (2 ^ 53) hfin
    · rw [log2_div (e := 52 + k) hden]
      · omega
      · rw [show 2 ^ (52 + k) * den = 2 ^ 52 * (den * 2 ^ k) by ring]
        omega
      · rw [show 2 ^ (52 + k + 1) * den = 2 ^ 53 * (den * 2 ^ k) by ring]
        omega
    · apply roundHalfEven_eq (by omega)
      · omega
      · omega
      · intro hodd
        norm_num at hodd
    · simp only [hk, hpow, hiddenBit]
      omega
  · -- In the binade itself the shift is the scale, and the significand is the rounded quotient.
    have htop : num * unitsPerOne < 2 ^ 53 * (2 ^ v.scale * den) := by
      have hstep : (4 * v.significand + 2) * (2 ^ v.scale * den) < 2 ^ 55 * (2 ^ v.scale * den) :=
        Nat.mul_lt_mul_of_pos_right (by omega) hunit
      omega
    have hslack : 2 * (2 * v.significand * (2 ^ v.scale * den)) ≤
        (4 * v.significand - if v.gapNarrowsBelow then 1 else 2) * (2 ^ v.scale * den) +
          2 * (2 ^ v.scale * den) := by
      rw [← Nat.add_mul, ← Nat.mul_assoc]
      exact Nat.mul_le_mul_right _ (by split <;> omega)
    have hupper : (4 * v.significand + 2) * (2 ^ v.scale * den) =
        2 * ((2 * v.significand + 1) * (2 ^ v.scale * den)) := by ring
    -- With the three bounds in these units, what is left is the logarithm and the rounding.
    apply nearest_of_parts v.scale v.significand hfin
    · -- A subnormal number has scale zero, where the logarithm is only bounded.
      by_cases hscale : 0 < v.scale
      · rw [log2_div (e := 52 + v.scale) hden]
        · omega
        · rw [show 2 ^ (52 + v.scale) * den = 2 ^ 52 * (2 ^ v.scale * den) by ring]
          omega
        · rw [show 2 ^ (52 + v.scale + 1) * den = 2 ^ 53 * (2 ^ v.scale * den) by ring]
          omega
      · have hzero : v.scale = 0 := by omega
        rw [hzero, pow_zero, Nat.one_mul] at htop
        have hlt := (Nat.div_lt_iff_lt_mul hden).mpr htop
        have hlog : Nat.log2 (num * unitsPerOne / den) < 53 := by
          by_cases hne : num * unitsPerOne / den = 0
          · rw [hne]
            decide
          · exact (Nat.log2_lt hne).mpr hlt
        omega
    · rw [Nat.mul_comm den]
      apply roundHalfEven_eq hunit
      · omega
      · omega
      · intro h
        obtain ⟨hl, hh⟩ := hodd h
        omega
    · rfl

end Binary64

end ShaderGen
