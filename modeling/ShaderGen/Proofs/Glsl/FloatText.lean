import ShaderGen.Glsl.Obstacle
import ShaderGen.Glsl.Spelling
import ShaderGen.Proofs.Binary64.Numeral
import ShaderGen.Proofs.Glsl.Token

/-!
# Texts of float literals

The text of a finite float literal is a numeral without an exponent. Its exact value is rounded to
the number it was printed for, and to no other one.

## Key results

- `Numeral.text_injective`: a text is that of one numeral
- `Numeral.ReadsAs.eq`: a numeral stands for one number
- `Binary64.printed_numeral_rounds_back`: a finite float literal is printed as a numeral that stands
  for it, and two of them never have one text
-/

namespace ShaderGen

open Glsl Glsl.Piece

/-- A decimal number written out in positions: digits around a point, at least one on either side
    of it, and perhaps a minus sign before them. -/
@[ext]
structure Numeral where
  negative : Bool
  whole : List Char
  places : List Char
  whole_isDigit : ∀ c ∈ whole, c.isDigit = true
  places_isDigit : ∀ c ∈ places, c.isDigit = true
  whole_ne_nil : whole ≠ []
  places_ne_nil : places ≠ []

namespace Numeral

/-- The digits without the point. -/
def digits (n : Numeral) : List Char := n.whole ++ n.places

/-- The text of a numeral. -/
def text (n : Numeral) : String :=
  (if n.negative then "-" else "") ++ String.ofList (n.whole ++ '.' :: n.places)

/-- Exact value without the sign. -/
def size (n : Numeral) : ℚ := (Nat.ofDigitChars 10 n.digits 0 : ℕ) / 10 ^ n.places.length

/-- Exact value. -/
def value (n : Numeral) : ℚ := if n.negative then -n.size else n.size

/-- All digits but some zeros at the ends are among `k` digits in a row. -/
def FitsIn (n : Numeral) (k : Nat) : Prop :=
  ∃ (before after : Nat) (row : List Char), row ≠ [] ∧ row.length ≤ k ∧
    n.digits = List.replicate before '0' ++ row ++ List.replicate after '0'

/-- A numeral stands for a number: it has the same sign, and its value is rounded to the number. -/
structure ReadsAs (n : Numeral) (v : Binary64) : Prop where
  sign : n.negative = v.isNegative
  rounds : Binary64.RoundsTo n.value v

variable {m n : Numeral} {v w : Binary64} {j k : Nat}

/-! ### Texts -/

/-- The text of a numeral is its sign, its whole digits, a point and its places. -/
theorem toList_text (n : Numeral) :
    n.text.toList = (if n.negative then ['-'] else []) ++ (n.whole ++ '.' :: n.places) := by
  rw [text, String.toList_append, String.toList_ofList]
  split <;> rfl

/-- Every digit of a numeral is a decimal digit. -/
theorem isDigit_of_mem_digits {c : Char} (h : c ∈ n.digits) : c.isDigit = true :=
  (List.mem_append.mp h).elim (n.whole_isDigit c) (n.places_isDigit c)

/-- Only a negative numeral begins with a minus sign. -/
theorem head?_text : n.text.toList.head? = some '-' ↔ n.negative = true := by
  rw [toList_text]
  cases n.negative with
  | true => simp
  | false =>
    -- Without a sign the first character is a digit.
    obtain ⟨c, cs, hwhole⟩ := List.exists_cons_of_ne_nil n.whole_ne_nil
    have hdigit := n.whole_isDigit c (by simp [hwhole])
    rw [hwhole]
    simp only [Bool.false_eq_true, if_false, List.nil_append, List.cons_append, List.head?_cons,
      Option.some.injEq, iff_false]
    rintro rfl
    exact absurd hdigit (by decide)

/-- A text is that of one numeral. -/
theorem text_injective : Function.Injective text := by
  intro m n h
  -- The sign is read off the first character, the whole digits up to the point.
  have hsign : m.negative = n.negative := by
    rw [Bool.eq_iff_iff, ← head?_text, ← head?_text, h]
  have hlist := congrArg String.toList h
  rw [toList_text, toList_text, hsign] at hlist
  have hbody := List.append_cancel_left hlist
  have hwhole := congrArg (List.takeWhile Char.isDigit) hbody
  have hplaces := congrArg (List.dropWhile Char.isDigit) hbody
  rw [Decimal.takeWhile_isDigit_point m.whole_isDigit,
    Decimal.takeWhile_isDigit_point n.whole_isDigit] at hwhole
  rw [Decimal.dropWhile_isDigit_point m.whole_isDigit,
    Decimal.dropWhile_isDigit_point n.whole_isDigit] at hplaces
  exact Numeral.ext hsign hwhole (List.cons.inj hplaces).2

/-- A numeral has no parenthesis. -/
theorem parenthesis_notMem_text (n : Numeral) : '(' ∉ n.text.toList := by
  have hwhole : '(' ∉ n.whole := fun h => absurd (n.whole_isDigit _ h) (by decide)
  have hplaces : '(' ∉ n.places := fun h => absurd (n.places_isDigit _ h) (by decide)
  rw [toList_text]
  cases n.negative <;> simp [hwhole, hplaces]

/-! ### Values -/

/-- The size of a numeral is not negative. -/
theorem size_nonneg (n : Numeral) : 0 ≤ n.size := by
  unfold size
  positivity

/-- It is the absolute value of what the numeral stands for. -/
theorem abs_value (n : Numeral) : |n.value| = n.size := by
  unfold value
  split
  · rw [abs_neg, abs_of_nonneg n.size_nonneg]
  · exact abs_of_nonneg n.size_nonneg

/-- Digits stand for less than the power of ten with a zero for each of them. -/
theorem ofDigitChars_lt {cs : List Char} (h : ∀ c ∈ cs, c.isDigit = true) (start : Nat) :
    Nat.ofDigitChars 10 cs start < (start + 1) * 10 ^ cs.length := by
  induction cs generalizing start with
  | nil => simp
  | cons c cs ih =>
    -- A digit lies between the codes of `0` and `9`.
    have hdigit : c.toNat - '0'.toNat ≤ 9 := by
      have := h c List.mem_cons_self
      simp only [Char.isDigit, Bool.and_eq_true, decide_eq_true_eq] at this
      have hle : c.toNat ≤ 57 := this.2
      have hzero : '0'.toNat = 48 := rfl
      omega
    rw [Nat.ofDigitChars_cons, List.length_cons]
    calc Nat.ofDigitChars 10 cs (10 * start + (c.toNat - '0'.toNat))
        < (10 * start + (c.toNat - '0'.toNat) + 1) * 10 ^ cs.length :=
          ih (fun d hd => h d (List.mem_cons_of_mem c hd)) _
      _ ≤ (10 * start + 10) * 10 ^ cs.length := Nat.mul_le_mul_right _ (by omega)
      _ = (start + 1) * 10 ^ (cs.length + 1) := by ring

/-- A numeral whose digits fit in `k` has the value of a decimal with that many digits. -/
theorem FitsIn.exists_decimal (h : n.FitsIn k) :
    ∃ d : Decimal, n.size = d.value ∧ digitCount d.coefficient ≤ k := by
  obtain ⟨before, after, row, hne, hlength, hdigits⟩ := h
  have hrow : ∀ c ∈ row, c.isDigit = true := fun c hc =>
    isDigit_of_mem_digits (n := n) (by simp [hdigits, hc])
  refine ⟨⟨Nat.ofDigitChars 10 row 0, (after : Int) - n.places.length⟩, ?_, ?_⟩
  · -- The zeros around the digits only shift the point.
    rw [size, hdigits, Nat.ofDigitChars_append, Nat.ofDigitChars_append,
      Nat.ofDigitChars_replicate_zero, Nat.ofDigitChars_replicate_zero, Nat.mul_zero, Decimal.value,
      zpow_sub₀ (by norm_num), zpow_natCast, zpow_natCast]
    push_cast
    ring
  · refine ((Nat.length_toDigits_le_iff (by decide) (List.length_pos_of_ne_nil hne)).mpr ?_).trans
      hlength
    simpa using ofDigitChars_lt hrow 0

/-- A numeral that fits into a number of digits fits into more. -/
theorem FitsIn.mono (h : n.FitsIn j) (hjk : j ≤ k) : n.FitsIn k := by
  obtain ⟨before, after, row, hne, hlength, hdigits⟩ := h
  exact ⟨before, after, row, hne, hlength.trans hjk, hdigits⟩

/-! ### Reading -/

/-- A numeral written with the sign of a value has that sign. -/
theorem sharesSign (h : n.negative = v.isNegative) : v.SharesSign n.value := by
  rw [Binary64.SharesSign, abs_value, value, h]

/-- The numbers that a numeral stands for have its sign and midpoints around its value. -/
theorem readsAs_iff : n.ReadsAs v ↔
    n.negative = v.isNegative ∧ v.isFinite = true ∧ v.BetweenMidpoints n.size := by
  rw [← abs_value]
  constructor
  · rintro ⟨hsign, hrounds⟩
    exact ⟨hsign, (Binary64.roundsTo_iff_betweenMidpoints (sharesSign hsign)).mp hrounds⟩
  · rintro ⟨hsign, hbetween⟩
    exact ⟨hsign, (Binary64.roundsTo_iff_betweenMidpoints (sharesSign hsign)).mpr hbetween⟩

/-- A numeral stands for one number. -/
theorem ReadsAs.eq (hv : n.ReadsAs v) (hw : n.ReadsAs w) : v = w :=
  hv.rounds.eq hw.rounds (sharesSign hv.sign) (sharesSign hw.sign) (hv.sign.symm.trans hw.sign)

end Numeral

/-- The text of a decimal is a numeral with the digits of its coefficient. -/
theorem Decimal.exists_numeral (d : Decimal) (negative : Bool) : ∃ n : Numeral,
    n.text = (if negative then "-" else "") ++ d.text ∧ n.negative = negative ∧
      n.size = d.value ∧ n.FitsIn (digitCount d.coefficient) := by
  obtain ⟨whole, places, htext, hw, hp, hwne, hpne, ⟨before, after, hdigits⟩, hvalue⟩ :=
    d.text_toList
  refine ⟨⟨negative, whole, places, hw, hp, hwne, hpne⟩, ?_, rfl, ?_,
    before, after, Nat.toDigits 10 d.coefficient, Nat.toDigits_ne_nil, le_rfl, hdigits⟩
  · rw [Numeral.text, ← htext, String.ofList_toList]
  · rw [Numeral.size, Numeral.digits, hvalue]
    exact mul_div_cancel_right₀ _ (by positivity)

namespace Binary64

variable {v w : Binary64} {p q : Precedence}

/-- A number is printed as its magnitude, with a minus sign if the sign bit is set. -/
theorem toList_render_floatPieces (v : Binary64) : (render (floatPieces v)).toList =
    (if v.isNegative then ['-'] else []) ++ v.magnitudeText.toList := by
  rw [floatPieces, toList_render]
  split <;> simp only [List.flatMap_cons, List.flatMap_nil, List.append_nil] <;> rfl

/-- A finite number is printed as a numeral that stands for it, and none that does has its digits
    in a shorter row. -/
theorem exists_numeral (hfin : v.isFinite = true) : ∃ n : Numeral,
    render (floatPieces v) = n.text ∧ n.ReadsAs v ∧
      ∀ (m : Numeral) (k : Nat), m.ReadsAs v → m.FitsIn k → n.FitsIn k := by
  have hnan : v.isNaN = false := by simp [isNaN, hfin]
  have hmagnitude : v.magnitudeText = v.shortest.text := by simp [magnitudeText, hnan, hfin]
  obtain ⟨n, htext, hsign, hsize, hfits⟩ := v.shortest.exists_numeral v.isNegative
  refine ⟨n, ?_, ?_, fun m k hm hk => ?_⟩
  · rw [← String.toList_inj, toList_render_floatPieces, hmagnitude, htext, String.toList_append]
    split <;> rfl
  · rw [Numeral.readsAs_iff, hsize]
    exact ⟨hsign, hfin, v.betweenMidpoints_shortest⟩
  · -- Another numeral of the same value is a decimal between the same midpoints.
    obtain ⟨d, hd, hcount⟩ := hk.exists_decimal
    have hbetween := (Numeral.readsAs_iff.mp hm).2.2
    rw [hd] at hbetween
    exact hfits.mono ((digitCount_shortest_le hbetween).trans hcount)

/-- A literal is printed as its number, in parentheses perhaps. -/
theorem toList_render_literalPieces (v : Binary64) (p : Precedence) :
    (render (literalPieces p (.float v))).toList = (render (floatPieces v)).toList ∨
      (render (literalPieces p (.float v))).toList =
        '(' :: ((render (floatPieces v)).toList ++ [')']) := by
  rw [literalPieces, wrap]
  -- A numeral gets parentheses only where a sign would bind too loosely.
  split
  · split
    · exact .inl rfl
    · rw [parenthesized, toList_render, List.cons_append, List.flatMap_cons, List.flatMap_append,
        ← toList_render]
      exact .inr rfl
  · exact .inl rfl

/-- Literals that are printed alike are equal. -/
theorem eq_of_render_literalPieces (hv : v.isFinite = true) (hw : w.isFinite = true)
    (h : render (literalPieces p (.float v)) = render (literalPieces q (.float w))) : v = w := by
  obtain ⟨n, hntext, hn, -⟩ := exists_numeral hv
  obtain ⟨m, hmtext, hm, -⟩ := exists_numeral hw
  have hnparen := n.parenthesis_notMem_text
  have hmparen := m.parenthesis_notMem_text
  have htext : n.text.toList = m.text.toList := by
    have hlist := congrArg String.toList h
    rw [← hntext] at hnparen ⊢
    rw [← hmtext] at hmparen ⊢
    rcases toList_render_literalPieces v p with hp | hp <;>
      rcases toList_render_literalPieces w q with hq | hq <;>
      rw [hp, hq] at hlist
    · exact hlist
    · -- A numeral does not begin with a parenthesis.
      exact absurd (hlist ▸ List.mem_cons_self) hnparen
    · exact absurd (hlist ▸ List.mem_cons_self) hmparen
    · exact List.append_cancel_right (List.cons.inj hlist).2
  obtain rfl := Numeral.text_injective (String.toList_inj.mp htext)
  exact hn.eq hm

/-- A finite float literal is never refused. It is printed as a numeral without an exponent, with a
    minus sign exactly if the sign bit is set. The exact value of the numeral is rounded to the
    number and to no other one, and no numeral that is has fewer digits. No other finite literal is
    printed as the same text, wherever the two of them stand. -/
theorem printed_numeral_rounds_back (hfin : v.isFinite = true) :
    (∀ legacy, (Literal.float v).obstacle? legacy = none) ∧
    (∃ n : Numeral, render (floatPieces v) = n.text ∧ n.negative = v.isNegative ∧
      (∀ w, n.ReadsAs w ↔ w = v) ∧
      ∀ (m : Numeral) (k : Nat), m.ReadsAs v → m.FitsIn k → n.FitsIn k) ∧
    ∀ (w : Binary64) (p q : Precedence), w.isFinite = true →
      render (literalPieces p (.float v)) = render (literalPieces q (.float w)) → v = w := by
  obtain ⟨n, htext, hreads, hshortest⟩ := exists_numeral hfin
  refine ⟨fun legacy => if_pos hfin, ⟨n, htext, hreads.sign, fun w => ⟨fun hw => hw.eq hreads, ?_⟩,
    hshortest⟩, fun w p q hw h => eq_of_render_literalPieces hfin hw h⟩
  rintro rfl
  exact hreads

/-- The decimal `10 ^ 23` is halfway between two numbers and goes to the one with an even
    significand, whose text it is. -/
theorem halfway_numeral_rounds_back :
    let v : Binary64 := ⟨0x44b52d02c7e14af6⟩
    v.isFinite = true ∧
      ∃ n : Numeral, n.text = "100000000000000000000000.0" ∧ ∀ w, n.ReadsAs w ↔ w = v := by
  intro v
  have hfin : v.isFinite = true := by decide
  obtain ⟨-, ⟨n, htext, -, hreads, -⟩, -⟩ := printed_numeral_rounds_back hfin
  have hprinted : render (floatPieces v) = "100000000000000000000000.0" := by decide +kernel
  exact ⟨hfin, n, by rw [← htext, hprinted], hreads⟩

/-- The two zeros have two texts. -/
example : render (floatPieces .zero) = "0.0" ∧
    render (floatPieces ⟨0x8000000000000000⟩) = "-0.0" := by decide +kernel

end Binary64

end ShaderGen
