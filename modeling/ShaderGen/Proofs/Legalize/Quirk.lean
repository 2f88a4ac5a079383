import ShaderGen.Proofs.Legalize.Watched

/-!
# Calls that a target gets wrong

Three workarounds remove a call over an argument of a certain shape: `pow` of a constant exponent,
`min` of an absolute value, and `atan` of a negation. Each of them runs once, and rules that run
later rewrite what it leaves, so that its work is only done if none of them brings the shape back.
All but one do not. The last rule removes swizzles that select what is already there, and with them
what stood between the call and an argument of the shape: an argument like `(-x).x` passes the
workaround and becomes `-x` afterwards (`swizzled_constant_is_left`). Where no argument is
disguised like that, no call with the quirk is left.

## Key results

- `legalize_leaves_no_quirk`: without disguised arguments, no call that a target gets wrong is left
-/

namespace ShaderGen.Legalize

open ShaderGen.Expr

/-- Kind of call that some targets get wrong. -/
inductive Quirk where
  | constantExponent
  | absOperand
  | negatedOperand

namespace Quirk

/-- The workaround that removes the calls. -/
def workaround : Quirk → Workaround
  | .constantExponent => .expandConstantPow
  | .absOperand => .splitMinAbs
  | .negatedOperand => .multiplyAtanSign

/-- Whether a node is a call that a target gets wrong: a `pow` with a constant as its second
    argument, a `min` of two arguments the first of which is an `abs`, or an `atan` of two arguments
    the second of which is a negation of floats. -/
def isQuirky : Quirk → Expr → Bool
  | .constantExponent, .call _ (.intrinsic .pow) (_ :: exponent :: _) => exponent.isConstant
  | .absOperand, .call _ (.intrinsic .min) [.call _ (.intrinsic .abs) _, _] => true
  | .negatedOperand, .call _ (.intrinsic .atan) [_, .unary ty .neg _] => ty.isFloat
  | _, _ => false

/-- Where the argument of the call stands, and its shape. -/
def watch : Quirk → Watch
  | .constantExponent => .constantExponent
  | .absOperand => .absOperand
  | .negatedOperand => .negatedOperand true

/-- Whether a node is a call over an argument that is not of the shape, but that would be without
    its swizzles: a swizzle of something of the shape, or an exponent put together of such and of
    constants, among them what a mask selects. A derivative along `y` counts as a negation, since
    flipping a program negates it. -/
def isDisguised (q : Quirk) (e : Expr) : Bool := q.watch.hits 1 e

end Quirk

namespace Watch

variable {w : Watch} {e : Expr}

/-- Whether an expression is of the shape that is watched for. -/
def isShape : Watch → Expr → Bool
  | .constantExponent, e => e.isConstant
  | .absOperand, .call _ (.intrinsic .abs) _ => true
  | .negatedOperand _, .unary ty .neg _ => ty.isFloat
  | .choiceTarget, .ternary _ _ _ _ => true
  | _, _ => false

/-- Constants are what is judged to be one. -/
theorem look_eq_one_iff_isConstant (e : Expr) :
    look .constantExponent e = 1 ↔ e.isConstant = true := by
  induction e with
  | unary ty op operand ih =>
    rw [look_eq]
    cases op with
    | neg => exact ih
    | _ => simp [head, judge, isConstant]
  | construct ty args ih =>
    have hone : (∀ e ∈ args, look .constantExponent e = 1) ↔ ∀ e ∈ args, e.isConstant = true :=
      forall₂_congr ih
    -- A constructor is judged by all of its arguments: one that is no constant decides.
    have hlook : look .constantExponent (.construct ty args) =
        if args.any (look .constantExponent · == 0) then 0
        else if args.any (1 < look .constantExponent ·) then 2 else 1 := by
      rw [look_eq]
      simp [head, children, judge, Function.comp_def]
    rw [hlook, isConstant, allConstant_eq_all, List.all_eq_true, ← hone]
    -- All arguments are constants iff none has no degree and none a higher one.
    constructor
    · intro h e he
      split at h
      · exact absurd h (by omega)
      · split at h
        · exact absurd h (by omega)
        · simp_all
          grind
    · intro h
      rw [if_neg (by simpa using fun e he => by simp [h e he]),
        if_neg (by simpa using fun e he => by simp [h e he])]
  | group ty inner ih =>
    rw [look_eq]
    exact ih
  | swizzle ty base mask ih =>
    rw [look_swizzle]
    split <;> simp [isConstant]
  | _ => simp [look_eq, head, judge, isConstant]

/-- What is judged to be of the shape is; a flip that is pending makes negations of other nodes. -/
theorem isShape_of_look (hw : w ≠ .negatedOperand true) (h : w.look e = 1) :
    w.isShape e = true := by
  -- Each watch has its own shape, and a node of any other kind is never judged to be one.
  cases w with
  | constantExponent => exact (look_eq_one_iff_isConstant e).mp h
  | absOperand =>
    cases e with
    -- A call is the shape only if it is a call of the watched function.
    | call ty callee args =>
      rw [look_eq] at h
      unfold judge at h
      split at h <;> simp_all [head, isShape]
    | swizzle ty base mask =>
      rw [look_swizzle] at h
      split at h <;> omega
    | _ => exact absurd h (by simp [look_eq, head, judge])
  -- Only the operator itself is the shape, not a call that hides it.
  | negatedOperand pending =>
    cases e with
    | unary ty op operand =>
      rw [look_eq] at h
      cases op <;> simp_all [head, judge, isShape]
    | call ty callee args =>
      rw [look_eq] at h
      unfold judge at h
      split at h <;> simp_all [head]
    | swizzle ty base mask =>
      rw [look_swizzle] at h
      split at h <;> omega
    | _ => exact absurd h (by simp [look_eq, head, judge])
  | choiceTarget =>
    -- A choice is the shape; what is looked through is veiled and counts for more.
    cases e with
    | ternary ty cond a b => rfl
    | swizzle ty base mask =>
      rw [look_swizzle] at h
      split at h <;> omega
    | index | group =>
      rw [look_eq] at h
      simp only [head, judge, veil] at h
      split at h <;> omega
    | binary | call =>
      rw [look_eq] at h
      unfold judge at h
      split at h <;> simp_all [head]
    | _ => exact absurd h (by simp [look_eq, head, judge])

/-- A node of the shape is seen by the watch. -/
theorem look_pos_of_isShape (h : w.isShape e = true) : 0 < w.look e := by
  -- What has the shape is seen from outside, whichever shape it is.
  unfold isShape at h
  split at h
  · have hone := (look_eq_one_iff_isConstant _).mpr h
    omega
  · rw [look_eq]
    exact Nat.one_pos
  · rw [look_eq]
    simp [head, judge, h]
  · rw [look_ternary]
    split <;> omega
  · exact absurd h (by simp)

/-- A node that does not go beyond its shape, and over no argument of that shape, has nothing of the
    shape in its place. -/
theorem hits_zero_of_isShape (hw : w ≠ .negatedOperand true) (h : w.hits 1 e = false)
    (hshape : ∀ c ∈ w.watched e, w.isShape c = false) : w.hits 0 e = false := by
  refine hits_eq_false_iff.mpr fun c hc => ?_
  have hone := hits_eq_false_iff.mp h c hc
  by_contra hpos
  have hlook : w.look c = 1 := by omega
  exact absurd (isShape_of_look hw hlook) (by simp [hshape c hc])

/-- A node that is not hit, over children that avoid the quirk, avoids it. -/
theorem avoids_zero (hw : w ≠ .negatedOperand true) (h : w.hits 1 e = false)
    (hchildren : ∀ c ∈ e.children, w.Avoids 0 c) (hshape : ∀ c ∈ w.watched e, w.isShape c = false) :
    w.Avoids 0 e :=
  avoids_iff.mpr ⟨hits_zero_of_isShape hw h hshape, hchildren⟩

/-- The shape of an absolute value. -/
theorem isShape_absOperand (h : isShape .absOperand e = true) :
    ∃ ty args, e = .call ty (.intrinsic .abs) args := by
  unfold isShape at h
  split at h <;> simp_all

/-- The shape of a negation of a float. -/
theorem isShape_negatedOperand {pending : Bool} (h : isShape (.negatedOperand pending) e = true) :
    ∃ ty x, e = .unary ty .neg x ∧ ty.isFloat = true := by
  unfold isShape at h
  split at h <;> simp_all

/-! ### Where something is watched -/

/-- An exponent is the second argument of a power. -/
theorem watched_constantExponent {c : Expr} (hc : c ∈ watched .constantExponent e) :
    ∃ ty base rest, e = .call ty (.intrinsic .pow) (base :: c :: rest) := by
  obtain ⟨i, hplace, hi⟩ := Option.bind_eq_some_iff.mp hc
  -- The watched operand is the second of a power.
  obtain ⟨⟨n, hhead⟩, rfl⟩ : (∃ n, e.head = .call (.intrinsic .pow) n) ∧ i = 1 := by
    unfold place? at hplace
    split at hplace <;> simp_all
  obtain ⟨ty, args, rfl, -⟩ := eq_call_of_head hhead
  match args, hi with
  | base :: c' :: rest, hi =>
    obtain rfl : c' = c := Option.some.inj hi
    exact ⟨ty, base, rest, rfl⟩

/-- An absolute value is watched as the first operand of a minimum. -/
theorem watched_absOperand {c : Expr} (hc : c ∈ watched .absOperand e) :
    ∃ ty other, e = .call ty (.intrinsic .min) [c, other] := by
  obtain ⟨i, hplace, hi⟩ := Option.bind_eq_some_iff.mp hc
  -- The watched operand is the first of two of a minimum.
  obtain ⟨hhead, rfl⟩ : e.head = .call (.intrinsic .min) 2 ∧ i = 0 := by
    unfold place? at hplace
    split at hplace <;> simp_all
  obtain ⟨ty, args, rfl, hlength⟩ := eq_call_of_head hhead
  obtain ⟨a, b, rfl⟩ := List.length_eq_two.mp hlength
  obtain rfl : a = c := Option.some.inj hi
  exact ⟨ty, b, rfl⟩

/-- A negation is watched as the second operand of an arc tangent. -/
theorem watched_negatedOperand {pending : Bool} {c : Expr}
    (hc : c ∈ watched (.negatedOperand pending) e) :
    ∃ ty y, e = .call ty (.intrinsic .atan) [y, c] := by
  obtain ⟨i, hplace, hi⟩ := Option.bind_eq_some_iff.mp hc
  -- The watched operand is the second of two.
  obtain ⟨hhead, rfl⟩ : e.head = .call (.intrinsic .atan) 2 ∧ i = 1 := by
    unfold place? at hplace
    split at hplace <;> simp_all
  obtain ⟨ty, args, rfl, hlength⟩ := eq_call_of_head hhead
  obtain ⟨a, b, rfl⟩ := List.length_eq_two.mp hlength
  obtain rfl : b = c := Option.some.inj hi
  exact ⟨ty, a, rfl⟩

/-! ### What the workarounds leave -/

/-- The rule for powers leaves no constant exponent, where none was disguised. -/
theorem expand_avoids (e : Expr) (he : Avoids .constantExponent 1 e) :
    Yields (Avoids .constantExponent 0) (e.bottomUpM ConstantPow.expandNode) := by
  refine lower_holds .yields (fun e => .of_forall_ok fun e' he' => ⟨?_, fun hhits hchildren => ?_⟩)
    e he
  · have hfollows : Follows .constantExponent .constantExponent 0 e e' :=
      Yields.of_ok (follows_expand e) he'
    exact hfollows.look_le
  · -- Of a power the base and the exponent are kept, and the exponent was looked at.
    unfold ConstantPow.expandNode at he'
    split at he'
    · next ty base exponent =>
      -- The exponent is no constant where the node is left.
      have hbase := hchildren base List.mem_cons_self
      have hexponent := hchildren exponent (List.mem_cons_of_mem _ List.mem_cons_self)
      split at he'
      · obtain rfl := Except.ok.inj he'
        exact avoids_expanded hbase hexponent
      · next hconstant =>
        obtain rfl := Except.ok.inj he'
        refine avoids_zero nofun hhits hchildren fun c hc => ?_
        obtain rfl : exponent = c := Option.some.inj hc
        exact eq_false_of_ne_true hconstant
    · exact absurd he' (by simp)
    · -- No other node has a watched exponent.
      next _ hpow =>
      obtain rfl := Except.ok.inj he'
      refine avoids_zero nofun hhits hchildren fun c hc => ?_
      obtain ⟨ty, base, rest, rfl⟩ := watched_constantExponent hc
      exact absurd rfl (hpow ty _)

/-- The rule for minima leaves none of an absolute value. -/
theorem split_avoids (e : Expr) (he : Avoids .absOperand 1 e) :
    unvalued.Holds (Avoids .absOperand 0) (e.bottomUpM MinAbs.splitNode) := by
  refine lower_holds unvalued (fun e => ?_) e he
  unfold MinAbs.splitNode
  split
  · next ty absTy args other =>
    refine unvalued.bind (unvalued_freshTemp _ _) fun first hfirst => ?_
    refine unvalued.bind (unvalued_freshTemp _ _) fun second hsecond => unvalued.pure ?_
    obtain ⟨a, rfl⟩ := hfirst
    obtain ⟨b, rfl⟩ := hsecond
    refine ⟨look_compareTemps_le .., fun _ hchildren => avoids_compareTemps ?_ ?_⟩
    · exact hchildren _ List.mem_cons_self
    · exact hchildren _ (List.mem_cons_of_mem _ List.mem_cons_self)
  · -- Any other minimum has a first operand that is no absolute value.
    next hmin =>
    refine unvalued.pure ⟨Nat.le_refl _, fun hhits hchildren => ?_⟩
    refine avoids_zero nofun hhits hchildren fun c hc => eq_false_of_ne_true fun hshape => ?_
    obtain ⟨ty, other, rfl⟩ := watched_absOperand hc
    obtain ⟨absTy, args, rfl⟩ := isShape_absOperand hshape
    exact hmin ty absTy args other rfl

/-- An initial value without a minimum to split has no absolute value in its place. -/
theorem avoids_of_not_isMinAbs (e : Expr) (he : Avoids .absOperand 1 e)
    (hnone : e.any MinAbs.isMinAbs = false) : Avoids .absOperand 0 e := by
  induction e using induction_children with
  | h e ih =>
    obtain ⟨hhits, hchildren⟩ := avoids_iff.mp he
    obtain ⟨hnode, hrest⟩ := any_eq_false_iff.mp hnone
    refine avoids_zero nofun hhits (fun c hc => ih c hc (hchildren c hc) (hrest c hc)) ?_
    -- An absolute value there would make the node a minimum of one.
    intro c hc
    refine eq_false_of_ne_true fun hshape => ?_
    obtain ⟨ty, other, rfl⟩ := watched_absOperand hc
    obtain ⟨absTy, args, rfl⟩ := isShape_absOperand hshape
    exact absurd hnode (by simp [MinAbs.isMinAbs])

/-- The rule for arc tangents leaves none of a negation. -/
theorem multiply_avoids (e : Expr) (he : Avoids (.negatedOperand false) 1 e) :
    Avoids (.negatedOperand false) 0 (e.bottomUp AtanOperand.multiplyNode) := by
  -- A call of `atan` with a negated second operand is the one node that loses its shape; all others
  -- keep what is known of their children.
  have hnode : ∀ e, Yields
      (fun e' => look (.negatedOperand false) e' ≤ look (.negatedOperand false) e ∧
      (hits (.negatedOperand false) 1 e = false →
        (∀ c ∈ e.children, Avoids (.negatedOperand false) 0 c) →
          Avoids (.negatedOperand false) 0 e'))
      (pure (AtanOperand.multiplyNode e) : Id Expr) := by
    intro e
    have hfollows : Follows (.negatedOperand false) (.negatedOperand false) 0 e
        (AtanOperand.multiplyNode e) := follows_multiply e
    refine .pure ⟨hfollows.look_le, fun hhits hchildren => ?_⟩
    unfold AtanOperand.multiplyNode
    split
    · next ty y xTy x =>
      have hy := hchildren y List.mem_cons_self
      have hx := (hchildren _ (List.mem_cons_of_mem _ List.mem_cons_self)).child List.mem_cons_self
      split
      · exact avoids_multiplied hy hx
      · next hfloat =>
        refine avoids_zero nofun hhits hchildren fun c hc => ?_
        obtain rfl : Expr.unary xTy .neg x = c := Option.some.inj hc
        exact eq_false_of_ne_true hfloat
    · next hatan =>
      refine avoids_zero nofun hhits hchildren fun c hc => eq_false_of_ne_true fun hshape => ?_
      obtain ⟨ty, y, rfl⟩ := watched_negatedOperand hc
      obtain ⟨xTy, x, rfl, -⟩ := isShape_negatedOperand hshape
      exact hatan ty y xTy x rfl
  exact Yields.of_id (lower_holds .yields hnode e he)

end Watch

/-! ### What the pipeline leaves -/

variable {t : Target} {p : Program}

open Watch

/-- A property of the watched place that holds before and after the program is flipped. -/
theorem legalize_avoids {w : Watch} (hw : w ≠ .negatedOperand false) {before after : List Rule}
    {own : Rule} (hpipeline : rulesAfter "frag_coord" = before ++ own :: after)
    (hown : ∀ p, p.All (w.afterFlip.Avoids 1) →
      Yields (Program.All (w.afterFlip.Avoids 0)) (own.step t p))
    (hp : p.All (w.Avoids 1)) : Yields (Program.All (w.afterFlip.Avoids 0)) (legalize t p) :=
  (kept w 1).legalize_yields (kept _ 1) (kept _ 0) avoids_afterFlip
    (fun e => (follows_flip hw e).avoids) hpipeline hown hp

/-- The workaround for a quirk removes it, and the rules after it bring none back. -/
theorem watch_avoids (q : Quirk) (hneeds : t.profile.needs q.workaround = true)
    (hp : p.All (q.watch.Avoids 1)) :
    Yields (Program.All (q.watch.afterFlip.Avoids 0)) (legalize t p) := by
  cases q with
  -- Each workaround has its rule at one place of the pipeline.
  | constantExponent =>
    have hpipeline : rulesAfter "frag_coord" =
        rulesBetween "frag_coord" "constant_exponent_pow" ++
          .workaround "constant_exponent_pow" .expandConstantPow
            (fun p => liftMalformed (ConstantPow.legalize p)) ::
              rulesAfter "constant_exponent_pow" := rfl
    refine legalize_avoids nofun hpipeline (fun p hp => step_workaround hneeds ?_) hp
    exact (Program.mapExprsM_yields expand_avoids hp).liftMalformed
  | absOperand =>
    have hpipeline : rulesAfter "frag_coord" = rulesBetween "frag_coord" "min_abs" ++
        .workaround "min_abs" .splitMinAbs MinAbs.legalize :: rulesAfter "min_abs" := rfl
    refine legalize_avoids nofun hpipeline (fun p hp => step_workaround hneeds ?_) hp
    exact (kept _ 1).minAbs split_avoids avoids_of_not_isMinAbs hp
  | negatedOperand =>
    have hpipeline : rulesAfter "frag_coord" =
        rulesBetween "frag_coord" "negated_atan_operand" ++
          .workaround "negated_atan_operand" .multiplyAtanSign
            (fun p => pure (AtanOperand.legalize p)) :: rulesAfter "negated_atan_operand" := rfl
    refine legalize_avoids nofun hpipeline (fun p hp => step_workaround hneeds ?_) hp
    exact .pure (Program.mapNodes_all multiply_avoids hp)

/-- A quirky call has something of the shape in its place. -/
theorem Quirk.hits_of_isQuirky (q : Quirk) (e : Expr) (h : q.isQuirky e = true) :
    q.watch.afterFlip.hits 0 e = true := by
  -- The argument is of the shape, so it is judged to be of a degree above 0.
  refine eq_true_of_ne_false fun hhits => ?_
  unfold isQuirky at h
  split at h
  · next ty base exponent rest =>
    have hpos := look_pos_of_isShape (w := .constantExponent) h
    exact absurd (hits_eq_false_iff.mp hhits exponent rfl) (Nat.not_le.mpr hpos)
  · next ty absTy args other =>
    have hpos := look_pos_of_isShape (w := .absOperand)
      (e := .call absTy (.intrinsic .abs) args) rfl
    exact absurd (hits_eq_false_iff.mp hhits _ rfl) (Nat.not_le.mpr hpos)
  · next ty y xTy x =>
    have hpos := look_pos_of_isShape (w := .negatedOperand false) (e := .unary xTy .neg x) h
    exact absurd (hits_eq_false_iff.mp hhits _ rfl) (Nat.not_le.mpr hpos)
  · exact absurd h (by simp)

/-- Where a target needs a workaround and no argument is disguised, no call that the workaround is
    about is in the program that the pipeline hands on. -/
theorem legalize_leaves_no_quirk (q : Quirk) (t : Target) (p p' : Program) (s s' : Scratch)
    (hneeds : t.profile.needs q.workaround = true) (hp : p.anyNode q.isDisguised = false)
    (hrun : (legalize t p).run.run s = (.ok p', s')) : p'.anyNode q.isQuirky = false := by
  have hresult : p'.All (q.watch.afterFlip.Avoids 0) :=
    Yields.of_run (watch_avoids q hneeds (Program.anyNode_eq_false_iff.mp hp)) hrun
  exact Program.anyNode_eq_false_iff.mpr (hresult.mono fun e he => any_mono q.hits_of_isQuirky he)

/-- A negated minimum of an absolute value as an exponent, over a power with a constant one. -/
theorem nested_powers_leave_no_quirk :
    let x : Expr := .ofVar "x" .float
    let y : Expr := .ofVar "y" .float
    let least : Expr := .ofCall .min [.ofCall .abs [x], y]
    let square : Expr := .ofCall .pow [x, .ofGroup (.ofUnary .neg (.float .half))]
    let power : Expr := .ofCall .pow [square, .ofUnary .neg least]
    let p : Program := ⟨.fragment, [.function (.entry [.assign y power])]⟩
    let t : Target := { profile := { workarounds := .single .expandConstantPow } }
    t.profile.needs .expandConstantPow = true ∧
      p.anyNode Quirk.constantExponent.isDisguised = false ∧
      ∃ p' s', (legalize t p).run.run {} = (.ok p', s') ∧
        p'.anyNode Quirk.constantExponent.isQuirky = false := by
  intro x y least square power p t
  have hneeds : t.profile.needs .expandConstantPow = true := by decide
  have hp : p.anyNode Quirk.constantExponent.isDisguised = false := by decide
  -- The rules do not fail on the example, as is seen by evaluation.
  obtain ⟨p', s', hrun, -⟩ := exists_ok_of_any (r := (legalize t p).run.run {})
    (q := fun _ => true) (by decide)
  exact ⟨hneeds, hp, p', s', hrun,
    legalize_leaves_no_quirk .constantExponent t p p' {} s' hneeds hp hrun⟩

/-- The exponent of `pow(x, (2.0).x)` is no constant when the workaround runs, and it is one when
    the swizzle is gone. -/
theorem swizzled_constant_is_left :
    let two : Expr := .float ⟨0x4000000000000000⟩
    let power : Expr := .ofCall .pow [.ofVar "x" .float, .ofSwizzle two [.x]]
    let p : Program := ⟨.fragment, [.function (.entry [.assign (.ofVar "y" .float) power])]⟩
    let t : Target := { profile := { workarounds := .single .expandConstantPow } }
    t.profile.needs Quirk.constantExponent.workaround = true ∧
      ∃ p' s', (legalize t p).run.run {} = (.ok p', s') ∧
        p'.anyNode Quirk.constantExponent.isQuirky = true := by
  intro two power p t
  exact ⟨by decide, exists_ok_of_any (by decide)⟩

end ShaderGen.Legalize
