import ShaderGen.Legalize.AtanOperand
import ShaderGen.Legalize.ConstantPow
import ShaderGen.Legalize.DoWhile
import ShaderGen.Legalize.Fract
import ShaderGen.Legalize.FragCoord
import ShaderGen.Legalize.HighPrecision
import ShaderGen.Legalize.IntAbs
import ShaderGen.Legalize.Invocations
import ShaderGen.Legalize.LoopCondition
import ShaderGen.Legalize.MinAbs
import ShaderGen.Legalize.Preamble
import ShaderGen.Legalize.ShortCircuit
import ShaderGen.Legalize.TernaryTarget
import ShaderGen.Legalize.TextureLookup
import ShaderGen.Swizzle.Normalize

/-! # The pipeline of rules

A rule makes a program acceptable to a target in one respect. The rules run in a fixed order, each
on what the one before it leaves, and only if the target (or the program) calls for it. Order
matters: swizzles are normalized last because earlier rules bring in new ones, and conditions of
loops are changed after short-circuit operators so that their `&& true` stays. -/

namespace ShaderGen.Legalize

/-- A rule of the pipeline, with the condition under which it runs. -/
structure Rule where
  name : String
  enabled : Target → Program → Bool
  run : Target → Program → GenM Program

namespace Rule

/-- Rule that every program goes through. -/
def always (name : String) (run : Target → Program → GenM Program) : Rule :=
  ⟨name, fun _ _ => true, run⟩

/-- Rule that runs where a workaround is needed. -/
def workaround (name : String) (w : Workaround) (run : Program → GenM Program) : Rule :=
  ⟨name, fun t _ => t.profile.needs w, fun _ => run⟩

/-- Runs a rule, reporting that it starts, if the target and the program call for it. -/
def step (t : Target) (p : Program) (rule : Rule) : GenM Program :=
  if rule.enabled t p then do
    modify (Scratch.report (.ruleStarts rule.name))
    rule.run t p
  else pure p

end Rule

/-- All rules, in the order in which they run. -/
def pipeline : List Rule :=
  [.always "header" Preamble.legalize,
   ⟨"force_high_precision",
     fun t _ => t.profile.usesPrecision && t.profile.forcesHighPrecision,
     fun _ p => pure (HighPrecision.legalize p)⟩,
   .always "frag_coord" FragCoord.legalize,
   .always "texture_sample" fun t p => liftMalformed (TextureLookup.legalize t.profile p),
   ⟨"gs_invocations", Invocations.enabled, fun _ => Invocations.legalize⟩,
   .always "ternary_lvalue" fun t p => liftUnsupported (TernaryTarget.legalize t.profile p),
   .workaround "do_while" .replaceDoWhile fun p => liftM (DoWhile.legalize p),
   .workaround "short_circuit" .unfoldShortCircuit fun p => pure (ShortCircuit.legalize p),
   .workaround "loop_condition_and_true" .loopConditionAndTrue fun p =>
     pure (LoopCondition.legalize p),
   .workaround "constant_exponent_pow" .expandConstantPow fun p =>
     liftMalformed (ConstantPow.legalize p),
   .workaround "int_abs" .emulateIntAbs fun p => liftM (IntAbs.legalize p),
   .workaround "min_abs" .splitMinAbs MinAbs.legalize,
   .workaround "negative_fract" .guardFract Fract.legalize,
   .workaround "negated_atan_operand" .multiplyAtanSign fun p => pure (AtanOperand.legalize p),
   .always "swizzle" fun _ p => liftMalformed (p.mapNodesM Expr.normalizeSwizzle)]

/-! ### Parts of the pipeline

A part is told by the names of rules at its ends, so that it does not depend on how many rules there
are elsewhere. -/

/-- The rules before the one of a name. -/
def rulesBefore (name : String) : List Rule := pipeline.takeWhile (·.name != name)

/-- The rules after the one of a name. -/
def rulesAfter (name : String) : List Rule := (pipeline.dropWhile (·.name != name)).tail

/-- The rules between those of two names. -/
def rulesBetween (first last : String) : List Rule :=
  (rulesAfter first).takeWhile (·.name != last)

/-- The name of a rule that always runs. -/
@[simp] theorem Rule.name_always (name : String) (run : Target → Program → GenM Program) :
    (Rule.always name run).name = name := rfl

/-- The name of a rule that runs under a workaround. -/
@[simp] theorem Rule.name_workaround (name : String) (w : Workaround)
    (run : Program → GenM Program) : (Rule.workaround name w run).name = name := rfl

/-- The pipeline is cut at a rule that is found by its name. -/
theorem pipeline_eq (name : String) {own : Rule}
    (h : pipeline.find? (·.name == name) = some own) :
    pipeline = rulesBefore name ++ own :: rulesAfter name := by
  obtain ⟨hname, before, after, heq, hothers⟩ := List.find?_eq_some_iff_append.mp h
  have hbefore : ∀ r ∈ before, (r.name != name) = true := hothers
  have hown : (own.name != name) = false := by simpa using hname
  rw [rulesBefore, rulesAfter, heq, List.takeWhile_append_of_pos hbefore,
    List.dropWhile_append_of_pos hbefore, List.takeWhile_cons_of_neg (by simp [hown]),
    List.dropWhile_cons_of_neg (by simp [hown]), List.append_nil, List.tail_cons]

/-- The rules before a name are rules of the pipeline. -/
theorem rulesBefore_subset (name : String) : rulesBefore name ⊆ pipeline :=
  (List.takeWhile_sublist _).subset

/-- So are the rules after it. -/
theorem rulesAfter_subset (name : String) : rulesAfter name ⊆ pipeline :=
  ((List.tail_sublist _).trans (List.dropWhile_sublist _)).subset

/-- Runs the pipeline. -/
def legalize (t : Target) (p : Program) : GenM Program := pipeline.foldlM (Rule.step t) p

end ShaderGen.Legalize
