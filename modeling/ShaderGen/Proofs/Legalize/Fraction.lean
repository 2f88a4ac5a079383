import Mathlib.Algebra.Order.Floor.Ring
import Mathlib.Data.Rat.Floor
import Mathlib.Tactic.Linarith
import Mathlib.Tactic.NormNum
import ShaderGen.Proofs.Binary64.Rounding
import ShaderGen.Proofs.Legalize.Guarded

/-!
# Guarded fractions of rational numbers

Where arithmetic is exact, the guarded fraction is the fraction of its operand in every lane but
those that hold zero or a negative integer. The sign of zero is zero, so a half is left of the
formula there; the absolute value of a negative integer has no fraction, and one is left. The
fraction of both is zero.

## Main definitions

- `guardedFraction`: what comes out for one number
- `Machine.Exact`: a machine over the rational numbers whose arithmetic is exact

## Key results

- `Legalize.Fract.guarded_value`: the value of what takes the place of a fraction
- `Legalize.Fract.zero_and_minus_one_change`: two operands whose fraction is changed
-/

namespace ShaderGen

/-- The sign of a number: one, zero or minus one. -/
def signOf (r : ℚ) : ℚ := if r < 0 then -1 else if r = 0 then 0 else 1

/-- What comes out of the guarded fraction of a number. -/
def guardedFraction (r : ℚ) : ℚ :=
  if r = 0 then 1 / 2 else if r < 0 ∧ Int.fract r = 0 then 1 else Int.fract r

/-- What the guard computes, as a function of the value. -/
theorem guardedFraction_eq (r : ℚ) :
    1 / 2 - signOf r * (1 / 2 - Int.fract |r|) = guardedFraction r := by
  unfold signOf guardedFraction
  -- Below zero the fraction of the opposite is one minus the fraction, unless both are zero.
  rcases lt_trichotomy r 0 with hneg | rfl | hpos
  · have habs : |r| = -r := abs_of_neg hneg
    rw [if_pos hneg, if_neg hneg.ne, habs]
    by_cases hint : Int.fract r = 0
    · have hopposite : Int.fract (-r) = 0 := Int.fract_neg_eq_zero.mpr hint
      rw [if_pos ⟨hneg, hint⟩, hopposite]
      norm_num
    · rw [if_neg fun h => hint h.2, Int.fract_neg hint]
      ring
  · norm_num
  · have habs : |r| = r := abs_of_pos hpos
    rw [if_neg hpos.not_gt, if_neg hpos.ne', if_neg hpos.ne', if_neg fun h => hpos.not_gt h.1, habs]
    ring

/-- A negative number without a fraction is a negative integer. -/
theorem neg_integer_iff (r : ℚ) : r < 0 ∧ Int.fract r = 0 ↔ ∃ n : ℕ, r = -(n + 1) := by
  constructor
  · rintro ⟨hneg, hint⟩
    obtain ⟨k, rfl⟩ := Int.fract_eq_zero_iff.mp hint
    -- The number is a negative integer, and these are counted from minus one down.
    have hk : k < 0 := by exact_mod_cast hneg
    obtain ⟨n, rfl⟩ := Int.eq_negSucc_of_lt_zero hk
    exact ⟨n, by push_cast [Int.negSucc_eq]; ring⟩
  · rintro ⟨n, rfl⟩
    have hpos : (0 : ℚ) < n + 1 := by positivity
    refine ⟨by linarith, ?_⟩
    rw [Int.fract_neg_eq_zero]
    exact_mod_cast Int.fract_natCast (n + 1)

/-- The fraction is changed at zero and at the negative integers, and nowhere else. -/
theorem guardedFraction_eq_fract_iff (r : ℚ) :
    guardedFraction r = Int.fract r ↔ r ≠ 0 ∧ ∀ n : ℕ, r ≠ -(n + 1) := by
  unfold guardedFraction
  -- Zero and the negative integers are where the two differ.
  by_cases hzero : r = 0
  · subst hzero
    norm_num
  · by_cases hint : r < 0 ∧ Int.fract r = 0
    · obtain ⟨n, hn⟩ := (neg_integer_iff r).mp hint
      rw [if_neg hzero, if_pos hint, hint.2]
      exact ⟨fun h => absurd h one_ne_zero, fun h => absurd hn (h.2 n)⟩
    · rw [if_neg hzero, if_neg hint]
      exact ⟨fun _ => ⟨hzero, fun n hn => hint ((neg_integer_iff r).mpr ⟨n, hn⟩)⟩, fun _ => rfl⟩

/-! ### Machines over the rational numbers -/

/-- A machine over the rational numbers that computes lane by lane, and exactly. -/
structure Machine.Exact (m : Machine ℚ) (ops : ScalarOps ℚ) : Prop extends m.Lanewise ops where
  half : m.literal (.float .half) = 1 / 2
  sub (r s : ℚ) : ops.binary .sub .float r s = r - s
  mul (r s : ℚ) : ops.binary .mul .float r s = r * s
  abs (r : ℚ) : ops.function .abs .float r = |r|
  sign (r : ℚ) : ops.function .sign .float r = signOf r
  fract (r : ℚ) : ops.function .fract .float r = Int.fract r

/-- Functions of rational numbers. -/
def ScalarOps.rational : ScalarOps ℚ where
  negate _ r := -r
  binary op _ r s :=
    match op with
    | .add => r + s
    | .sub => r - s
    | .mul => r * s
    | .div => r / s
    | _ => if r < s then 1 else 0
  function f _ r :=
    match f with
    | .abs => |r|
    | .sign => signOf r
    | .fract => Int.fract r
    | .floor => ⌊r⌋
    | _ => r
  power r _ := r

/-- A machine that computes with rational numbers, lane by lane. -/
def Machine.rationals : Machine ℚ where
  undefined := 0
  literal
    | .float v => v.value
    | .int v => v
    | .uint v => v
    | .bool b => if b then 1 else 0
  truth r := r != 0
  truth_literal := by decide
  integer r := ⌊r⌋
  convert _ target r := if target = .bool then (if r = 0 then 0 else 1) else r
  unary op _ rs := rs.map fun r =>
    match op with
    | .neg => -r
    | .not | .complement => -r - 1
    | .preIncrement | .postIncrement => r + 1
    | .preDecrement | .postDecrement => r - 1
  binary op _ rs t ss := List.zipWith (ScalarOps.rational.binary op t.componentKind)
    (spread (max rs.length ss.length) rs) (spread (max rs.length ss.length) ss)
  intrinsic f args :=
    match args with
    | [(t, rs)] => rs.map (ScalarOps.rational.function f t.componentKind)
    | [(_, rs), (_, ss)] => List.zipWith ScalarOps.rational.power rs ss
    | _ => args.flatMap Prod.snd
  matrix _ args := args.flatMap Prod.snd
  call _ args shared := some ⟨some (args.flatMap Prod.snd), shared, []⟩

/-- The value of a half. -/
theorem Binary64.value_half : Binary64.half.value = 1 / 2 := by
  have hnegative : Binary64.half.isNegative = false := by decide
  have hsignificand : Binary64.half.significand = 2 ^ 52 := by decide
  have hexponent : Binary64.half.exponent = -53 := by decide
  rw [Binary64.value, hnegative, hsignificand, hexponent]
  norm_num

/-- The value of zero. -/
theorem Binary64.value_zero : Binary64.zero.value = 0 := by
  have hsignificand : Binary64.zero.significand = 0 := by decide
  rw [Binary64.value, hsignificand]
  norm_num

/-- The value of minus one. -/
theorem Binary64.value_minusOne : Binary64.minusOne.value = -1 := by
  have hnegative : Binary64.minusOne.isNegative = true := by decide
  have hsignificand : Binary64.minusOne.significand = 2 ^ 52 := by decide
  have hexponent : Binary64.minusOne.exponent = -52 := by decide
  rw [Binary64.value, hnegative, hsignificand, hexponent]
  norm_num

/-- The rationals compute exactly. -/
theorem Machine.exact_rationals : Machine.rationals.Exact .rational where
  toLanewise := by
    -- Lane by lane, the machine computes with these functions.
    have hlanewise := rationals.lanewise_withOps .rational
    exact ⟨hlanewise.negate, hlanewise.lanes, hlanewise.scaled, hlanewise.function, hlanewise.power⟩
  half := Binary64.value_half
  sub _ _ := rfl
  mul _ _ := rfl
  abs _ := rfl
  sign _ := rfl
  fract _ := rfl

/-! ### What takes the place of a fraction -/

namespace Legalize.Fract

open ShaderGen.Expr

variable {m : Machine ℚ} {ops : ScalarOps ℚ}

/-- The guard, of exact operations, is the function above. -/
theorem guard_eq (hm : m.Exact ops) :
    ops.guard (m.literal (.float .half)) = guardedFraction := by
  funext r
  rw [ScalarOps.guard, hm.half, hm.sub, hm.mul, hm.sub, hm.sign, hm.fract, hm.abs]
  exact guardedFraction_eq r

/-- What takes the place of a fraction of `x` has the value that the guarded fraction has in every
    lane, with a temporary or without one, so it has the value of the fraction if and only if no
    lane of `x` is zero or a negative integer. -/
theorem guarded_value (hm : m.Exact ops) (ty : Ty) (x : Expr) (hx : x.ty.isLanes .float = true)
    (hty : ty.shape = x.ty.shape) {σ τ : State ℚ} {rs : List ℚ}
    (hrun : x.run m σ = some (.ok rs, τ)) (temps : List Decl) (sc : Scratch)
    (htemp : (σ.locals (Stem.fractTemp.nth (sc.counters.get .fractTemp))).isSome = true) :
    let e := call ty (.intrinsic .fract) [x]
    e.run m σ = some (.ok (rs.map Int.fract), τ) ∧
      (∃ τ', (((guardNode e).run temps).run sc).1.1.run m σ =
        some (.ok (rs.map guardedFraction), τ')) ∧
      (x.hasSideEffects = false →
        (guardPure e).run m σ = some (.ok (rs.map guardedFraction), τ)) ∧
      (rs.map guardedFraction = rs.map Int.fract ↔
        ∀ r ∈ rs, r ≠ 0 ∧ ∀ n : ℕ, r ≠ -(n + 1)) := by
  intro e
  have hfloat : ty.isFloat = true := by
    rw [Ty.isFloat, Ty.scalarKind?, hty]
    obtain hx | ⟨n, -, -, hx⟩ := Ty.isLanes_iff.mp hx <;> rw [hx] <;> rfl
  have hoperand : operand? e = some x := if_pos hfloat
  have hfract : Maps m x e Int.fract :=
    ⟨hty, by rw [← funext hm.fract]; exact values_function hm.toLanewise rfl hx hty⟩
  -- An operand without effects may be evaluated twice.
  have hpure (hquiet : x.hasSideEffects = false) :
      (guarded x ty).run m σ = some (.ok (rs.map guardedFraction), τ) := by
    have hread := (isReadOnly_eval m x hquiet).map (f := Lane.values)
    rw [← guard_eq hm]
    exact (maps_guarded hm.toLanewise hx hty hread).run_eq hrun
  refine ⟨hfract.run_eq hrun, ?_, fun hquiet => ?_, ?_⟩
  · -- A value with side effects goes through the temporary, which is in scope; another is repeated.
    by_cases hacts : x.hasSideEffects = true
    · have hnode : (((guardNode e).run temps).run sc).1.1 = .ofBinary .comma
          (.assign (.var x.ty (Stem.fractTemp.nth (sc.counters.get .fractTemp))) x)
          (guarded (.var x.ty (Stem.fractTemp.nth (sc.counters.get .fractTemp))) ty) := by
        simp only [guardNode, hoperand, hacts]
        rfl
      rw [hnode, ← guard_eq hm]
      exact run_captured hm.toLanewise hx hty hrun htemp
    · have hnode : guardNode e = pure (guarded x ty) := by
        simp only [guardNode, hoperand, hacts]
        rfl
      rw [hnode]
      exact ⟨τ, hpure (by simpa using hacts)⟩
  · have hnode : guardPure e = guarded x ty := by
      simp only [guardPure, hoperand]
      rfl
    rw [hnode]
    exact hpure hquiet
  · -- The two agree lane by lane.
    rw [List.map_inj_left]
    exact forall₂_congr fun r _ => guardedFraction_eq_fract_iff r

/-- The fraction of zero becomes a half, and that of minus one becomes one. -/
theorem zero_and_minus_one_change :
    let zero : Expr := .ofCall .fract [.float .zero]
    let minusOne : Expr := .ofCall .fract [.float .minusOne]
    ∀ σ, zero.run .rationals σ = some (.ok [0], σ) ∧
      (guardPure zero).run .rationals σ = some (.ok [1 / 2], σ) ∧
      minusOne.run .rationals σ = some (.ok [0], σ) ∧
      (guardPure minusOne).run .rationals σ = some (.ok [1], σ) := by
  intro zero minusOne σ
  -- Literals are read without effects, so they can be guarded as they are.
  have hm := Machine.exact_rationals
  have hliteral (v : Binary64) : (Expr.float v).run .rationals σ = some (.ok [v.value], σ) := by
    rw [run, values_float]
    rfl
  have hlanes (v : Binary64) : (Expr.float v).ty.isLanes .float = true := rfl
  have hread (v : Binary64) : Eval.IsReadOnly ((Expr.float v).values Machine.rationals) := by
    rw [values_float]
    exact Eval.isReadOnly_pure _
  have hfract (v : Binary64) : (ofCall .fract [.float v]).run .rationals σ =
      some (.ok [Int.fract v.value], σ) :=
    ((Maps.self _ (.float v)).ofCall hm.toLanewise (hlanes v) (g := .fract) rfl).run_eq (hliteral v)
  have hguarded (v : Binary64) : (guardPure (ofCall .fract [.float v])).run .rationals σ =
      some (.ok [guardedFraction v.value], σ) := by
    have hmaps : Maps .rationals (.float v) (guarded (.float v) .half) _ :=
      maps_guarded hm.toLanewise (hlanes v) rfl (hread v)
    rw [guard_eq hm] at hmaps
    -- All that is left are the values of the two literals.
    exact hmaps.run_eq (hliteral v)
  have hzero : guardedFraction 0 = 1 / 2 := if_pos rfl
  have hminusOne : guardedFraction (-1) = 1 := by
    norm_num [guardedFraction]
  rw [hfract, hguarded, hfract, hguarded, Binary64.value_zero, Binary64.value_minusOne, hzero,
    hminusOne]
  norm_num

/-- A vector with a zero lane, read as it is and counted up, which takes a temporary. -/
theorem zero_lane_changes :
    let v : Expr := .ofVar "v" (.vec 2)
    let counted : Expr := .ofUnary .postIncrement v
    let σ : State ℚ := ⟨fun _ _ => 0, fun name =>
      if name = "v" then some fun i => if i = 0 then 0 else -5 / 4
      else if name = "fractHackVar0" then some fun _ => 0 else none, []⟩
    ((guardPure (.ofCall .fract [v])).run .rationals σ = some (.ok [1 / 2, 3 / 4], σ)) ∧
      ∃ τ τ', (Expr.ofCall .fract [counted]).run .rationals σ = some (.ok [0, 3 / 4], τ) ∧
        (((guardNode (.ofCall .fract [counted])).run []).run {}).1.1.run .rationals σ =
          some (.ok [1 / 2, 3 / 4], τ') := by
  intro v counted σ
  -- The counter of the example is at zero, so this is the temporary.
  have hlocal : (σ.locals (Stem.fractTemp.nth 0)).isSome = true := by decide
  have hplain : v.run .rationals σ = some (.ok [0, -5 / 4], σ) := rfl
  obtain ⟨τ, hcounted⟩ : ∃ τ, counted.run .rationals σ = some (.ok [0, -5 / 4], τ) := ⟨_, rfl⟩
  have hfract : [0, -5 / 4].map Int.fract = [0, (3 / 4 : ℚ)] := by
    norm_num
  have hguarded : [0, -5 / 4].map guardedFraction = [1 / 2, (3 / 4 : ℚ)] := by
    norm_num [guardedFraction]
  obtain ⟨-, -, hpure, -⟩ :=
    guarded_value Machine.exact_rationals (.vec 2) v rfl rfl hplain [] {} hlocal
  obtain ⟨hvalue, ⟨τ', hcaptured⟩, -, -⟩ :=
    guarded_value Machine.exact_rationals (.vec 2) counted rfl rfl hcounted [] {} hlocal
  rw [hguarded] at hpure hcaptured
  rw [hfract] at hvalue
  exact ⟨hpure rfl, τ, τ', hvalue, hcaptured⟩

end Legalize.Fract

end ShaderGen
