import Mathlib.Data.Rat.Cast.Order
import Mathlib.Tactic.FieldSimp
import Mathlib.Tactic.NormNum
import Mathlib.Tactic.Positivity
import Mathlib.Tactic.Zify
import ShaderGen.Binary64.Shortest
import ShaderGen.Proofs.Binary64.Rounding

/-!
# Reading float numerals

A float numeral is read as an exact ratio and then taken to the nearest binary64 number.

The numeral that is printed is looked for on grids of decimals, from the coarsest one on, and on
each of them only at the two points next to the number. This finds one with the fewest digits of all
that are rounded to the number.

## Key results

- `Decimal.ratio?_text`: the positional text of a decimal has the value of the decimal
- `Binary64.betweenMidpoints_shortest`: the shortest decimal of a number lies between the midpoints
  around it
- `Binary64.ofNumeral?_magnitudeText`: the text of a finite magnitude reads back
- `Binary64.digitCount_shortest_le`: no decimal between the midpoints around a number has fewer
  digits than its shortest one
-/

namespace ShaderGen

namespace Decimal

/-- The exact value of a decimal. -/
def value (d : Decimal) : ℚ := d.coefficient * 10 ^ d.exponent

/-- The value in multiples of a smaller power of ten. -/
theorem value_eq_of_exponent {d : Decimal} {e : Int} {p : Nat} (h : d.exponent = e + p) :
    d.value = (d.coefficient * 10 ^ p : ℕ) * 10 ^ e := by
  rw [value, h, zpow_add₀ (by norm_num), zpow_natCast]
  push_cast
  ring

/-- Numerator and denominator of a positional numeral, which has a decimal point and at least one
    digit on either side of it. -/
def ratio? (cs : List Char) : Option (Nat × Nat) :=
  let whole := cs.takeWhile Char.isDigit
  match cs.dropWhile Char.isDigit with
  | '.' :: places =>
    if whole ≠ [] ∧ places ≠ [] ∧ places.all Char.isDigit then
      some (Nat.ofDigitChars 10 (whole ++ places) 0, 10 ^ places.length)
    else none
  | _ => none

/-- The digits before a point end at the point. -/
theorem takeWhile_isDigit_point {whole places : List Char} (h : ∀ c ∈ whole, c.isDigit = true) :
    (whole ++ '.' :: places).takeWhile Char.isDigit = whole := by
  rw [List.takeWhile_append_of_pos h, List.takeWhile_cons_of_neg (by decide), List.append_nil]

/-- The digits before a point end at the point. -/
theorem dropWhile_isDigit_point {whole places : List Char} (h : ∀ c ∈ whole, c.isDigit = true) :
    (whole ++ '.' :: places).dropWhile Char.isDigit = '.' :: places := by
  rw [List.dropWhile_append_of_pos h, List.dropWhile_cons_of_neg (by decide)]

/-- Digits around a point are read as one whole number over a power of ten. -/
theorem ratio?_digits {whole places : List Char} (hw : ∀ c ∈ whole, c.isDigit = true)
    (hp : ∀ c ∈ places, c.isDigit = true) (hwne : whole ≠ []) (hpne : places ≠ []) :
    ratio? (whole ++ '.' :: places) =
      some (Nat.ofDigitChars 10 (whole ++ places) 0, 10 ^ places.length) := by
  simp only [ratio?, takeWhile_isDigit_point hw, dropWhile_isDigit_point hw]
  rw [if_pos ⟨hwne, hpne, List.all_eq_true.mpr hp⟩]

/-- A number is written in digits. -/
private theorem digits_isDigit (n : Nat) : ∀ c ∈ Nat.toDigits 10 n, c.isDigit = true :=
  fun _ hc => Nat.isDigit_of_mem_toDigits (by decide) (by decide) hc

/-- So are zeros. -/
private theorem zeros_isDigit (n : Nat) : ∀ c ∈ List.replicate n '0', c.isDigit = true := by
  intro c hc
  rw [(List.mem_replicate.mp hc).2]
  decide

/-- The text of a decimal, as digits around a point: those of the coefficient, and zeros. -/
theorem text_toList (d : Decimal) : ∃ whole places : List Char,
    d.text.toList = whole ++ '.' :: places ∧
    (∀ c ∈ whole, c.isDigit = true) ∧ (∀ c ∈ places, c.isDigit = true) ∧
    whole ≠ [] ∧ places ≠ [] ∧
    (∃ before after : Nat, whole ++ places = List.replicate before '0' ++
      Nat.toDigits 10 d.coefficient ++ List.replicate after '0') ∧
    (Nat.ofDigitChars 10 (whole ++ places) 0 : ℚ) = d.value * 10 ^ places.length := by
  have hdigits := digits_isDigit d.coefficient
  have hne : Nat.toDigits 10 d.coefficient ≠ [] := Nat.toDigits_ne_nil
  by_cases hsign : 0 ≤ d.exponent
  · -- A whole number: zeros fill the positions up to the point.
    obtain ⟨n, hn⟩ := Int.eq_ofNat_of_zero_le hsign
    refine ⟨Nat.toDigits 10 d.coefficient ++ List.replicate n '0', ['0'], ?_, ?_, by simp, ?_,
      by simp, ⟨0, n + 1, by simp [List.replicate_succ']⟩, ?_⟩
    · simp [text, hn]
    · intro c hc
      rcases List.mem_append.mp hc with hc | hc
      · exact hdigits c hc
      · exact zeros_isDigit n c hc
    · simp [hne]
    · rw [Nat.ofDigitChars_append, Nat.ofDigitChars_append, Nat.ofDigitChars_ten_toDigits,
        Nat.ofDigitChars_replicate_zero, value, hn]
      simp [Nat.ofDigitChars_cons]
      ring
  · -- The point stands among the digits, behind zeros if there are too few of them.
    obtain ⟨n, hn⟩ : ∃ n : Nat, d.exponent = -(n : Int) := ⟨(-d.exponent).toNat, by omega⟩
    have htoNat : (-d.exponent).toNat = n := by omega
    -- Padding makes sure that a digit stands before the point.
    let padded := List.replicate (n + 1 - (Nat.toDigits 10 d.coefficient).length) '0' ++
      Nat.toDigits 10 d.coefficient
    have hlength : n + 1 ≤ padded.length := by
      simp only [padded, List.length_append, List.length_replicate]
      omega
    have hpadded : ∀ c ∈ padded, c.isDigit = true := by
      intro c hc
      rcases List.mem_append.mp hc with hc | hc
      · exact zeros_isDigit _ c hc
      · exact hdigits c hc
    refine ⟨padded.take (padded.length - n), padded.drop (padded.length - n), ?_,
      fun c hc => hpadded c (List.mem_of_mem_take hc),
      fun c hc => hpadded c (List.mem_of_mem_drop hc), ?_, ?_,
      ⟨n + 1 - (Nat.toDigits 10 d.coefficient).length, 0, ?_⟩, ?_⟩
    · simp only [text, if_neg hsign, htoNat, String.toList_ofList]
      rfl
    · intro h
      have htake := congrArg List.length h
      rw [List.length_take, List.length_nil] at htake
      omega
    · rw [ne_eq, List.drop_eq_nil_iff]
      omega
    · rw [List.take_append_drop, List.replicate_zero, List.append_nil]
    · have hcount : (padded.drop (padded.length - n)).length = n := by
        rw [List.length_drop]
        omega
      -- Moving the point by `n` places gives back the coefficient.
      have hvalue : d.value * 10 ^ n = d.coefficient := by
        rw [value, hn, mul_assoc, zpow_neg, zpow_natCast, inv_mul_cancel₀ (by positivity), mul_one]
      rw [List.take_append_drop, hcount, hvalue, Nat.ofDigitChars_append,
        Nat.ofDigitChars_replicate_zero, Nat.mul_zero, Nat.ofDigitChars_ten_toDigits]

/-- The text of a decimal is read as a ratio of the same value. -/
theorem ratio?_text (d : Decimal) : ∃ num den : Nat,
    ratio? d.text.toList = some (num, den) ∧ 0 < den ∧ (num : ℚ) = d.value * den := by
  obtain ⟨whole, places, htext, hw, hp, hwne, hpne, -, hvalue⟩ := d.text_toList
  refine ⟨_, _, by rw [htext, ratio?_digits hw hp hwne hpne], by positivity, ?_⟩
  rw [hvalue]
  push_cast
  rfl

end Decimal

namespace Interval

/-- A rational number lies in the interval. -/
def Spans (i : Interval) (x : ℚ) : Prop :=
  (i.lower * 10 ^ i.exponent ≤ x ∧ x ≤ i.upper * 10 ^ i.exponent) ∧
    (i.closed = false → i.lower * 10 ^ i.exponent < x ∧ x < i.upper * 10 ^ i.exponent)

/-- An interval contains a number if its value lies in the span. -/
theorem contains_iff_spans {i : Interval} {c : Nat} :
    i.contains c = true ↔ i.Spans (c * 10 ^ i.exponent) := by
  have hunit : (0 : ℚ) < 10 ^ i.exponent := zpow_pos (by norm_num) _
  simp only [contains, Spans, mul_le_mul_iff_of_pos_right hunit, mul_lt_mul_iff_of_pos_right hunit,
    Nat.cast_le, Nat.cast_lt]
  -- An open interval asks for strict bounds, which imply the others.
  cases i.closed with
  | true => simp
  | false =>
    simp only [Bool.false_eq_true, if_false, Bool.and_eq_true, decide_eq_true_eq, true_implies]
    exact ⟨fun h => ⟨⟨h.1.le, h.2.le⟩, h⟩, fun h => h.2⟩

/-- Whatever grid point `neighbour?` picks lies in the interval. -/
theorem contains_neighbour? {i : Interval} {places c : Nat} (h : i.neighbour? places = some c) :
    i.contains (c * 10 ^ places) = true := by
  simp only [neighbour?, Nat.pow_eq] at h
  split at h
  · -- There is none, the one below, the one above, or the closer of the two.
    exact nomatch h
  · obtain rfl := Option.some.inj h
    assumption
  · obtain rfl := Option.some.inj h
    assumption
  · split at h <;> obtain rfl := Option.some.inj h <;> assumption

/-- The point of the coarsest grid lies in the interval if the value itself does. -/
theorem coarsest_contains {i : Interval} (h : i.contains i.value = true) (places : Nat) :
    ∃ p : Nat, (i.coarsest places).exponent = i.exponent + p ∧
      i.contains ((i.coarsest places).coefficient * 10 ^ p) = true := by
  induction places with
  | zero => exact ⟨0, by simp [coarsest], by simpa [coarsest] using h⟩
  | succ n ih =>
    -- If the widest spacing has no neighbour inside, a narrower one is tried.
    simp only [coarsest]
    split
    · rename_i c hc
      exact ⟨n + 1, rfl, contains_neighbour? hc⟩
    · exact ih

end Interval

namespace Binary64

/-- A number of quarter gaps at the exponent of `v`, in the unit of its rounding interval. -/
private def quarters (v : Binary64) (n : Nat) : Nat :=
  if 2 ≤ v.exponent then n * Nat.pow 2 (v.exponent - 2).toNat
  else n * Nat.pow 5 (2 - v.exponent).toNat

/-- The unit of the rounding interval makes up for the factors of five. -/
private theorem quarters_value (v : Binary64) (n : Nat) :
    (v.quarters n : ℚ) * 10 ^ v.roundingInterval.exponent = n * v.quarterGap := by
  have hexp := v.exponent_eq_scale
  have hgap : v.quarterGap = 2 ^ ((v.scale : Int) - 1076) := by
    rw [zpow_sub₀ (by norm_num), zpow_natCast, quarterGap, four_mul_unitsPerOne]
    rfl
  rw [hgap]
  -- Either the gap is a whole number of quarters, or ten is divided out to make it one.
  simp only [roundingInterval, quarters, Nat.pow_eq]
  by_cases h : 2 ≤ v.exponent
  · obtain ⟨j, hj⟩ : ∃ j : Nat, v.exponent = j + 2 := ⟨(v.exponent - 2).toNat, by omega⟩
    rw [if_pos h, show min (v.exponent - 2) 0 = 0 by omega,
      show (v.exponent - 2).toNat = j by omega, show (v.scale : Int) - 1076 = j by omega]
    push_cast
    simp
  · obtain ⟨j, hj⟩ : ∃ j : Nat, v.exponent = 2 - j := ⟨(2 - v.exponent).toNat, by omega⟩
    rw [if_neg h, show min (v.exponent - 2) 0 = -(j : Int) by omega,
      show (2 - v.exponent).toNat = j by omega, show (v.scale : Int) - 1076 = -(j : Int) by omega]
    push_cast
    rw [zpow_neg, zpow_neg, zpow_natCast, zpow_natCast, show (10 : ℚ) = 5 * 2 by norm_num, mul_pow]
    field_simp

/-- The rounding interval reaches from one midpoint to the other. -/
theorem spans_roundingInterval_iff {v : Binary64} {a : ℚ} :
    v.roundingInterval.Spans a ↔ v.BetweenMidpoints a := by
  have hlower : (v.roundingInterval.lower : ℚ) * 10 ^ v.roundingInterval.exponent =
      v.midpointBelow := v.quarters_value _
  have hupper : (v.roundingInterval.upper : ℚ) * 10 ^ v.roundingInterval.exponent =
      v.midpointAbove := v.quarters_value _
  have hclosed : v.roundingInterval.closed = (v.significand % 2 == 0) := rfl
  rw [Interval.Spans, BetweenMidpoints, hlower, hupper, hclosed, beq_eq_false_iff_ne,
    Nat.mod_two_ne_zero]

/-- The rounding interval of a number other than zero is above zero. -/
theorem roundingInterval_lower_pos {v : Binary64} (h : v.significand ≠ 0) :
    0 < v.roundingInterval.lower := by
  simp only [roundingInterval, Nat.pow_eq]
  split <;> exact Nat.mul_pos (by split <;> omega) (by positivity)

/-- The rounding interval holds the number itself. -/
theorem roundingInterval_contains {v : Binary64} (h : v.significand ≠ 0) :
    v.roundingInterval.contains v.roundingInterval.value = true := by
  have hmono : ∀ m n : Nat, m < n → v.quarters m < v.quarters n := by
    intro m n hmn
    simp only [quarters, Nat.pow_eq]
    split <;> exact Nat.mul_lt_mul_of_pos_right hmn (by positivity)
  -- The bounds lie half a gap away, so on either side of the value.
  have hlow : v.roundingInterval.lower < v.roundingInterval.value :=
    hmono _ _ (by split <;> omega)
  have hhigh : v.roundingInterval.value < v.roundingInterval.upper := hmono _ _ (by omega)
  simp only [Interval.contains]
  split <;> simp <;> omega

/-- The shortest decimal lies between the midpoints around the number. -/
theorem betweenMidpoints_shortest (v : Binary64) : v.BetweenMidpoints v.shortest.value := by
  -- Zero is written as itself, and lies between its own midpoints.
  by_cases hzero : v.significand = 0
  · have hvalue : v.shortest.value = 0 := by
      rw [shortest, if_pos hzero, Decimal.value, Nat.cast_zero, zero_mul]
    have hgap := v.quarterGap_pos
    rw [BetweenMidpoints, midpointBelow, midpointAbove, hvalue, hzero, Nat.mul_zero, Nat.zero_sub,
      Nat.cast_zero, zero_mul]
    exact ⟨⟨le_rfl, by positivity⟩, fun hodd => by omega⟩
  · obtain ⟨p, hexp, hin⟩ := Interval.coarsest_contains (roundingInterval_contains hzero)
      (Nat.toDigits 10 v.roundingInterval.upper).length
    have hshortest : v.shortest = v.roundingInterval.shortest := if_neg hzero
    rw [← spans_roundingInterval_iff, hshortest, Interval.shortest,
      Decimal.value_eq_of_exponent hexp, ← Interval.contains_iff_spans]
    exact hin

/-- The number that a float numeral stands for. -/
def ofNumeral? (cs : List Char) : Option Binary64 :=
  (Decimal.ratio? cs).map fun (num, den) => nearest num den

/-- The text of a finite magnitude stands for that magnitude. -/
theorem ofNumeral?_magnitudeText {v : Binary64} (hfin : v.isFinite = true) :
    ofNumeral? v.magnitudeText.toList = some v.magnitude := by
  have hnan : v.isNaN = false := by simp [isNaN, hfin]
  have htext : v.magnitudeText = v.shortest.text := by simp [magnitudeText, hnan, hfin]
  obtain ⟨num, den, hratio, hden, hvalue⟩ := v.shortest.ratio?_text
  rw [ofNumeral?, htext, hratio, Option.map_some]
  have hattracts := (attracts_iff_betweenMidpoints hden hvalue).mpr v.betweenMidpoints_shortest
  exact congrArg some (nearest_eq_magnitude hfin hden hattracts)

end Binary64

/-! ### The fewest digits -/

/-- Number of decimal digits. -/
def digitCount (n : Nat) : Nat := (Nat.toDigits 10 n).length

/-- A number has a digit at least. -/
theorem digitCount_pos (n : Nat) : 0 < digitCount n := Nat.length_toDigits_pos

/-- A number is less than a power of ten with as many digits. -/
theorem lt_of_digitCount_le {n k : Nat} (h : digitCount n ≤ k) : n < 10 ^ k :=
  (Nat.length_toDigits_le_iff (by decide) ((digitCount_pos n).trans_le h)).mp h

/-- A number with more digits is not. -/
theorem le_of_lt_digitCount {n k : Nat} (hk : 0 < k) (h : k < digitCount n) : 10 ^ k ≤ n :=
  not_lt.mp fun hlt => not_lt.mpr ((Nat.length_toDigits_le_iff (by decide) hk).mpr hlt) h

namespace Interval

variable {i : Interval} {places p q m : Nat}

/-- The interval has no gaps. -/
theorem spans_of_between {x y z : ℚ} (hx : i.Spans x) (hy : i.Spans y) (hxz : x ≤ z) (hzy : z ≤ y) :
    i.Spans z :=
  ⟨⟨hx.1.1.trans hxz, hzy.trans hy.1.2⟩,
    fun h => ⟨(hx.2 h).1.trans_le hxz, hzy.trans_lt (hy.2 h).2⟩⟩

/-- An interval holds what lies between its members. -/
theorem contains_of_between {a b c : Nat} (ha : i.contains a = true) (hb : i.contains b = true)
    (hac : a ≤ c) (hcb : c ≤ b) : i.contains c = true := by
  have hunit : (0 : ℚ) < 10 ^ i.exponent := zpow_pos (by norm_num) _
  rw [contains_iff_spans] at *
  exact spans_of_between ha hb (mul_le_mul_of_nonneg_right (Nat.cast_le.mpr hac) hunit.le)
    (mul_le_mul_of_nonneg_right (Nat.cast_le.mpr hcb) hunit.le)

/-- Where no point of a grid next to the value lies in the interval, no point of the grid does. -/
theorem not_contains_of_neighbour?_eq_none (hvalue : i.contains i.value = true)
    (h : i.neighbour? places = none) (m : Nat) : i.contains (m * 10 ^ places) = false := by
  -- Neither multiple next to the value is in the interval, and any other is further away.
  obtain ⟨hbelow, habove⟩ :
      i.contains (i.value / 10 ^ places * 10 ^ places) = false ∧
        i.contains ((i.value / 10 ^ places + 1) * 10 ^ places) = false := by
    simp only [neighbour?, Nat.pow_eq] at h
    split at h
    · exact ⟨by assumption, by assumption⟩
    · cases h
    · cases h
    · split at h <;> cases h
  have hdiv := Nat.div_add_mod' i.value (10 ^ places)
  have hmod := Nat.mod_lt i.value (Nat.pow_pos (n := places) (by decide : 0 < 10))
  rw [Bool.eq_false_iff]
  intro hm
  rcases Nat.lt_or_ge (i.value / 10 ^ places) m with hlt | hge
  · refine absurd (contains_of_between hvalue hm ?_ (Nat.mul_le_mul_right _ hlt)) (by simp [habove])
    rw [Nat.succ_mul]
    omega
  · exact absurd (contains_of_between hm hvalue (Nat.mul_le_mul_right _ hge) (by omega))
      (by simp [hbelow])

/-- No grid that is coarser than the one of the result was passed over with a point in the
    interval. -/
theorem coarsest_maximal (hvalue : i.contains i.value = true)
    (hp : (i.coarsest places).exponent = i.exponent + p) (hq : p < q) (hle : q ≤ places) (m : Nat) :
    i.contains (m * 10 ^ q) = false := by
  induction places with
  | zero => omega
  | succ n ih =>
    rw [coarsest] at hp
    split at hp
    · simp only at hp
      omega
    · rename_i hnone
      -- The search goes from coarse to fine, so every grid above `p` was looked at before.
      rcases Nat.lt_or_ge n q with hlt | hge
      · obtain rfl : q = n + 1 := by omega
        exact not_contains_of_neighbour?_eq_none hvalue hnone m
      · exact ih hp hge

/-- No grid coarser than the one of the shortest decimal has a positive point in the interval. -/
theorem shortest_maximal (hvalue : i.contains i.value = true)
    (hp : i.shortest.exponent = i.exponent + p) (hq : p < q) (hm : 0 < m) :
    i.contains (m * 10 ^ q) = false := by
  -- A coarser number would have to be below the upper end, so it was tried as well.
  rw [Bool.eq_false_iff]
  intro hin
  have hle : m * 10 ^ q ≤ i.upper := by
    unfold contains at hin
    split at hin <;> simp at hin <;> omega
  have hpow : 10 ^ q ≤ i.upper := (Nat.le_mul_of_pos_left _ hm).trans hle
  have hcount : q ≤ digitCount i.upper := by
    by_contra hlt
    have := lt_of_digitCount_le (n := i.upper) (k := q) (by omega)
    omega
  have hout := coarsest_maximal hvalue hp hq hcount m
  rw [hin] at hout
  cases hout

/-- No decimal in the interval has fewer digits than the shortest one. -/
theorem shortest_digitCount_le (hlower : 0 < i.lower) (hvalue : i.contains i.value = true)
    {d : Decimal} (hd : i.Spans d.value) :
    digitCount i.shortest.coefficient ≤ digitCount d.coefficient := by
  obtain ⟨p, hexp, hin⟩ := coarsest_contains hvalue (digitCount i.upper)
  have hunit : (0 : ℚ) < 10 ^ i.exponent := zpow_pos (by norm_num) _
  have hpos : 0 < d.value := (mul_pos (Nat.cast_pos.mpr hlower) hunit).trans_le hd.1.1
  have hcoeff : 0 < d.coefficient := by
    by_contra hzero
    rw [Decimal.value, Nat.eq_zero_of_not_pos hzero, Nat.cast_zero, zero_mul] at hpos
    exact lt_irrefl _ hpos
  by_contra hfewer
  rw [not_le] at hfewer
  rcases lt_or_ge (i.exponent + p) d.exponent with hcoarse | hfine
  · -- The decimal is on a coarser grid.
    obtain ⟨q, hq⟩ : ∃ q : Nat, d.exponent = i.exponent + q :=
      ⟨(d.exponent - i.exponent).toNat, by omega⟩
    rw [Decimal.value_eq_of_exponent hq, ← contains_iff_spans,
      shortest_maximal hvalue hexp (by omega) hcoeff] at hd
    cases hd
  · -- A power of ten is between the two decimals, and it lies on a coarser grid.
    -- The power of ten with as many digits as the given coefficient separates the two.
    generalize hk : digitCount d.coefficient = k at hfewer
    have hkpos : 0 < k := hk ▸ digitCount_pos _
    have hbelow : d.value ≤ (10 ^ (k + p) : ℕ) * 10 ^ i.exponent :=
      calc d.value ≤ 10 ^ k * 10 ^ d.exponent :=
            mul_le_mul_of_nonneg_right (by exact_mod_cast (lt_of_digitCount_le hk.le).le)
              (zpow_pos (by norm_num) _).le
        _ ≤ 10 ^ k * 10 ^ (i.exponent + p) :=
            mul_le_mul_of_nonneg_left (zpow_le_zpow_right₀ (by norm_num) hfine) (by positivity)
        _ = (10 ^ (k + p) : ℕ) * 10 ^ i.exponent := by
            rw [zpow_add₀ (by norm_num), zpow_natCast]
            push_cast
            ring
    have habove : 10 ^ (k + p) ≤ i.shortest.coefficient * 10 ^ p := by
      rw [Nat.pow_add]
      exact Nat.mul_le_mul_right _ (le_of_lt_digitCount hkpos hfewer)
    have hbetween : i.contains (1 * 10 ^ (k + p)) = true := by
      rw [Nat.one_mul, contains_iff_spans]
      exact spans_of_between hd (contains_iff_spans.mp hin) hbelow
        (mul_le_mul_of_nonneg_right (Nat.cast_le.mpr habove) hunit.le)
    rw [shortest_maximal hvalue hexp (by omega) Nat.one_pos] at hbetween
    cases hbetween

end Interval

/-- No decimal between the midpoints around a number has fewer digits than its shortest one. -/
theorem Binary64.digitCount_shortest_le {v : Binary64} {d : Decimal}
    (h : v.BetweenMidpoints d.value) :
    digitCount v.shortest.coefficient ≤ digitCount d.coefficient := by
  by_cases hzero : v.significand = 0
  · rw [shortest, if_pos hzero]
    exact digitCount_pos _
  · rw [shortest, if_neg hzero]
    exact Interval.shortest_digitCount_le (roundingInterval_lower_pos hzero)
      (roundingInterval_contains hzero) (spans_roundingInterval_iff.mpr h)

end ShaderGen
