import ShaderGen.Proofs.Legalize.AbsHelper
import ShaderGen.Proofs.Legalize.Fraction
import ShaderGen.Proofs.Legalize.Fractions

/-!
# Rules that rest on identities of scalars

Four rules put functions of numbers in the place of others: powers, absolute values of integers,
negated operands of `atan`, and fractions. On every machine that computes lane by lane and on which
the identity of a rule holds, the rule keeps the value of every expression, what is called and
written on the way, and what the program leaves. The rules take their names for granted: a program
that uses the name of a temporary or of the helper for something else is changed.

## Main definitions

- `ScalarOps.granted`: functions of rational numbers for which all four identities hold

## Key results

- `Legalize.retraced_of_identities`: programs are retraced by all four rules
- `Legalize.taken_names_change`: what happens to programs that use the names
-/

namespace ShaderGen

/-- Functions of rational numbers for which the identities hold: the fraction is the guarded one,
    and a power is a product. -/
def ScalarOps.granted : ScalarOps ℚ :=
  { rational with
    function := fun f kind r =>
      match f with
      | .fract => guardedFraction r
      | _ => rational.function f kind r
    power := fun b k => k * b }

/-- A machine on which the identities hold. -/
def Machine.granting : Machine ℚ := Machine.rationals.withOps .granted

namespace Legalize

open ShaderGen.Expr

/-- The machine that grants the identities computes lane by lane. -/
theorem lanewise_granting : Machine.granting.Lanewise .granted :=
  Machine.rationals.lanewise_withOps .granted

/-- It takes a power as the exponential of a product. -/
theorem identity_constantPow : ConstantPow.Identity .granted := fun _ _ => rfl

/-- It negates an integer by subtracting it from zero. -/
theorem identity_intAbs : IntAbs.Identity .granted := by
  intro r
  show |r| = r * signOf r
  unfold signOf
  rcases lt_trichotomy r 0 with hneg | rfl | hpos
  · rw [if_pos hneg, abs_of_neg hneg, mul_neg_one]
  · norm_num
  · rw [if_neg hpos.not_gt, if_neg hpos.ne', abs_of_pos hpos, mul_one]

/-- It negates by multiplying with minus one. -/
theorem identity_atanOperand :
    AtanOperand.Identity .granted (Machine.granting.literal (.float .minusOne)) := by
  intro r
  show -r = Binary64.minusOne.value * r
  rw [Binary64.value_minusOne, neg_one_mul]

/-- Its guarded fraction has the value the rewrite gives it. -/
theorem guardedFraction_guarded (r : ℚ) :
    guardedFraction r = 1 / 2 - signOf r * (1 / 2 - guardedFraction |r|) := by
  rw [← guardedFraction_eq r]
  rcases eq_or_ne r 0 with rfl | hr
  · norm_num [signOf]
  · have hpos : 0 < |r| := abs_pos.mpr hr
    have habs : guardedFraction |r| = Int.fract |r| := by
      rw [guardedFraction, if_neg hpos.ne', if_neg fun h => hpos.not_gt h.1]
    rw [habs]

/-- It grants the identity that the guard of the fractions uses. -/
theorem identity_fract :
    Fract.Identity .granted (Machine.granting.literal (.float .half)) := by
  intro r
  show guardedFraction r = Binary64.half.value -
    signOf r * (Binary64.half.value - guardedFraction |r|)
  rw [Binary64.value_half]
  exact guardedFraction_guarded r

/-! ### The four rules -/

variable {α : Type} {m : Machine α} {ops : ScalarOps α}

/-- Under its identity each of the rules retraces a program: expressions in its functions and
    initial values have the values that they had, and do the same on the way. -/
theorem retraced_of_identities (hm : m.Lanewise ops) {p : Program}
    (htyped : p.anyNode (fun n => !n.isLaneTyped) = false) :
    (ConstantPow.Identity ops → ∀ p', ConstantPow.legalize p = .ok p' →
        p.Retraced (fun _ => false) [] m p') ∧
      (IntAbs.Identity ops → p.anyNode (refersTo IntAbs.isAdded) = false →
        (∀ f, .function f ∈ p.elements → f.name ≠ IntAbs.helperName) → ∀ sc : Scratch, sc.Orderly →
          p.Retraced IntAbs.isAdded (((IntAbs.legalize p).run sc).2.helpers.map Prod.snd) m
            ((IntAbs.legalize p).run sc).1) ∧
      (AtanOperand.Identity ops (m.literal (.float .minusOne)) →
        p.Retraced (fun _ => false) [] m (AtanOperand.legalize p)) ∧
      (Fract.Identity ops (m.literal (.float .half)) →
        p.anyNode (refersTo Fract.isAdded) = false → ∀ sc p' sc',
          (Fract.legalize p).run.run sc = (.ok p', sc') → p.Retraced Fract.isAdded [] m p') := by
  have hall : p.All fun e => e.Every isLaneTyped := Program.anyNode_eq_false_iff.mp htyped
  refine ⟨fun h p' hrun => ?_, fun h hnames hfunctions sc hsc => ?_, fun h => ?_,
    fun h hnames sc p' sc' hrun => ?_⟩
  · exact ConstantPow.legalize_retraces hm h hall hrun
  · exact IntAbs.legalize_retraces hm h hnames hfunctions hall hsc
  · exact AtanOperand.legalize_retraces hm h hall
  · exact Fract.legalize_retraces hm h hnames hall hrun

/-- Functions of numbers in one another, over operands that call and write, and in an initial value
    that moves into a function. -/
theorem nested_functions_are_retraced :
    let f : Expr := .ofVar "f" .float
    let n : Expr := .ofVar "n" .int
    let next : Expr := .ofUserCall "next" [] .float
    let p : Program := ⟨.fragment,
      [.global (.plain "f" .float none), .global (.plain "n" .int none),
        .global (.plain "g" .float (some (.ofCall .fract [.ofUnary .preIncrement f]))),
        .function ⟨"next", .float, [], [.returnWith (some (.ofUnary .postIncrement f))]⟩,
        .function (.entry
          [.assign f (.ofCall .pow [.ofCall .fract [.ofCall .fract [next]], .float .half]),
            .assign f (.ofCall .atan [next, .ofUnary .neg (.ofCall .fract [.assign f next])]),
            .assign n (.ofCall .abs [.ofCall .abs [.ofUnary .preIncrement n]])])]⟩
    Machine.granting.Lanewise .granted ∧ ConstantPow.Identity .granted ∧
      IntAbs.Identity .granted ∧
      AtanOperand.Identity .granted (Machine.granting.literal (.float .minusOne)) ∧
      Fract.Identity .granted (Machine.granting.literal (.float .half)) ∧
      p.anyNode (fun n => !n.isLaneTyped) = false ∧
      p.anyNode (refersTo IntAbs.isAdded) = false ∧ p.anyNode (refersTo Fract.isAdded) = false ∧
      (∀ f, .function f ∈ p.elements → f.name ≠ IntAbs.helperName) ∧
      ∃ p₁ p₂ sc, ConstantPow.legalize p = .ok p₁ ∧
        (Fract.legalize p).run.run {} = (.ok p₂, sc) ∧
        p.Retraced (fun _ => false) [] .granting p₁ ∧
        p.Retraced IntAbs.isAdded [IntAbs.helper .int] .granting ((IntAbs.legalize p).run {}).1 ∧
        p.Retraced (fun _ => false) [] .granting (AtanOperand.legalize p) ∧
        p.Retraced Fract.isAdded [] .granting p₂ := by
  intro f n next p
  -- The four checks of the program are decided on its text.
  have htyped : p.anyNode (fun n => !n.isLaneTyped) = false := by decide
  have hhelper : p.anyNode (refersTo IntAbs.isAdded) = false := by decide
  have htemps : p.anyNode (refersTo Fract.isAdded) = false := by decide
  have hfunctions : ∀ f, .function f ∈ p.elements → f.name ≠ IntAbs.helperName := by
    intro f hf
    have hname : f.name = "next" ∨ f.name = "main" := by
      simp only [p, List.mem_cons, reduceCtorEq, false_or, List.not_mem_nil, or_false,
        Element.function.injEq] at hf
      rcases hf with rfl | rfl
      · exact .inl rfl
      · exact .inr rfl
    rcases hname with h | h <;> rw [h] <;> decide
  -- Both rules succeed on it, by computation.
  obtain ⟨p₁, hpower⟩ : ∃ p₁, ConstantPow.legalize p = .ok p₁ := ⟨_, rfl⟩
  obtain ⟨p₂, sc, hfract⟩ : ∃ p₂ sc, (Fract.legalize p).run.run {} = (.ok p₂, sc) := ⟨_, _, rfl⟩
  -- The theorem is applied to each of the four rules.
  obtain ⟨hexpanded, hhelped, hmultiplied, hguarded⟩ :=
    retraced_of_identities lanewise_granting htyped
  exact ⟨lanewise_granting, identity_constantPow, identity_intAbs, identity_atanOperand,
    identity_fract, htyped, hhelper, htemps, hfunctions, p₁, p₂, sc, hpower, hfract,
    hexpanded identity_constantPow p₁ hpower,
    hhelped identity_intAbs hhelper hfunctions {} Scratch.orderly_empty,
    hmultiplied identity_atanOperand,
    hguarded identity_fract htemps {} p₂ sc hfract⟩

/-- A call of a function of the program: its operands, and the reply. -/
theorem run_userCall {name : String} {ty : Ty} {args : List Expr} {vs : List (Ty × List α)}
    {σ τ : State α} {reply : Reply α} {ws : List α}
    (hargs : (evalArgs m args).run.run σ = some (.ok vs, τ))
    (hreply : m.call name vs τ.shared = some reply) (hresult : reply.result = some ws) :
    (call ty (.user name) args).run m σ =
      some (.ok (ws.takeD ty.laneCount m.undefined), { τ with
        shared := reply.shared
        trace := τ.trace ++ .call name vs :: reply.actions }) := by
  -- The call is noted before what the function does.
  have hcall : (Eval.call m name vs).run.run τ = some (.ok ws, { τ with
      shared := reply.shared
      trace := τ.trace ++ .call name vs :: reply.actions }) := by
    show (m.call name vs τ.shared).map _ = _
    rw [hreply, Option.map_some, hresult]
    rfl
  simp only [Expr.run, values, eval, ExceptT.run_map, ExceptT.run_bind, StateT.run_bind,
    StateT.run_map, hargs, Option.bind_eq_bind, Option.bind_some, hcall, Option.map_eq_map,
    Option.map_some, Except.map, Machine.values_temporaries]

/-- A global with the name of a temporary is no longer written, and a function with the name of the
    helper takes its calls. -/
theorem taken_names_change :
    let σ : State ℚ := ⟨fun _ _ => 3, fun _ => none, []⟩
    let taken : Expr := .ofVar "fractHackVar0" .float
    let operand : Expr := .assign taken (.float .half)
    let global : Element := .global (.plain "fractHackVar0" .float none)
    let writes : Function := .entry [.expr (.ofCall .fract [operand])]
    let writes' : Function := .entry [.decl (.plain "fractHackVar0" .float none),
      .expr (.ofBinary .comma (.assign taken operand) (Fract.guarded taken .float))]
    let k : Expr := .ofVar "k" .int
    let taking : Function := ⟨IntAbs.helperName, .int, [⟨"x", .int⟩], [.returnWith (some (.int 0))]⟩
    let size : Function := ⟨"size", .int, [], [.returnWith (some (.ofCall .abs [k]))]⟩
    let size' : Function :=
      ⟨"size", .int, [], [.returnWith (some (.ofUserCall IntAbs.helperName [k] .int))]⟩
    let linked := (Machine.granting.declare (IntAbs.helper .int)).declare taking
    let calling : Action ℚ := .call IntAbs.helperName [(.int, [3])]
    let out := (IntAbs.legalize ⟨.fragment, [.function taking, .function size]⟩).run {}
    (((Fract.legalize ⟨.fragment, [global, .function writes]⟩).run.run {}).1 =
        .ok ⟨.fragment, [global, .function writes']⟩ ∧
      ∃ τ τ', writes.Runs .granting σ .normal τ ∧ writes'.Runs .granting σ .normal τ' ∧
        τ.shared (.named "fractHackVar0") 0 = 1 / 2 ∧
        τ'.shared (.named "fractHackVar0") 0 = 3) ∧
    (out.1 = ⟨.fragment, [.function taking, .function size']⟩ ∧
        out.2.helpers.map Prod.snd = [IntAbs.helper .int]) ∧
      size.Runs (Machine.granting.declare taking) σ (.returned (some [3])) σ ∧
      size'.Runs linked σ (.returned (some [0])) (σ.act calling) := by
  intro σ taken operand global writes writes' k taking size size' linked calling out
  refine ⟨⟨rfl, ?_⟩, ⟨rfl, rfl⟩, .inr ⟨nofun, rfl, rfl⟩, ?_⟩
  · -- The declaration of the temporary hides the global, so the assignment that the operand makes
    -- does not reach it.
    let cell : Cell := ⟨.named "fractHackVar0", 0⟩
    refine ⟨σ.write cell Binary64.half.value, ((σ.setLocal "fractHackVar0" (some fun _ => 0)).write
      cell Binary64.half.value).write cell Binary64.half.value, ?_, ?_, Binary64.value_half, rfl⟩
    · exact .inl ⟨_, ⟨rfl, rfl⟩, rfl, rfl⟩
    · exact .inl ⟨_, ⟨rfl, rfl⟩, .inl ⟨_, ⟨rfl, rfl⟩, rfl, rfl⟩⟩
  · -- The last function of a name answers its calls, which is the one the program had.
    have hruns (m : Machine ℚ) (shared : Variable → Nat → ℚ) :
        taking.Runs m (taking.start m [(.int, [3])] shared) (.returned (some [m.literal (.int 0)]))
          (taking.start m [(.int, [3])] shared) :=
      Or.inr ⟨nofun, rfl, rfl⟩
    have hreply : linked.call IntAbs.helperName [(.int, [3])] σ.shared =
        some ⟨some [0], σ.shared, []⟩ :=
      Function.reply?_of_runs (hruns (Machine.granting.declare (IntAbs.helper .int)) σ.shared)
    have hvalue : ((Expr.ofUserCall IntAbs.helperName [k] .int).values linked).run.run σ =
        some (.ok [0], σ.act calling) :=
      run_userCall (τ := σ) rfl hreply rfl
    refine Or.inr ⟨nofun, ?_⟩
    show Behaviour.after (values linked _) _ _ _ _
    unfold Behaviour.after
    rw [hvalue]
    exact ⟨rfl, rfl⟩

end Legalize

end ShaderGen
