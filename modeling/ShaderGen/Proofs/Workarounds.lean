import ShaderGen.Proofs.Events
import ShaderGen.Proofs.Legalize.Idle

/-!
# Workarounds that a program does not need

A target that asks for a workaround more gets the same text, with the same uniforms, or the same
error, if the program has nothing of what the workaround is for. Two runs of the pipeline are
compared, for the target and for the one that asks for more: they do the same rule by rule, save for
reports in the log (`Alike`). What makes them do so is that no rule brings in what a later one is
for.

## Key results

- `Legalize.alike_rules`: rules do the same for a target that asks for more workarounds
- `generate_adding_idle`: of every program and every target
-/

namespace ShaderGen

/-- The target that asks for more workarounds. -/
def Target.adding (t : Target) (added : Workarounds) : Target :=
  { t with profile := { t.profile with workarounds := t.profile.workarounds.union added } }

/-- The added workarounds are asked for as well as the old ones. -/
theorem Target.needs_adding (t : Target) (added : Workarounds) (w : Workaround) :
    (t.adding added).profile.needs w = (t.profile.needs w || added.contains w) :=
  Workarounds.contains_union _ _ _

namespace Workaround

/-- Name of the rule that a workaround is applied by. -/
def ruleName : Workaround → String
  | .avoidFragCoord => "frag_coord"
  | .loopConditionAndTrue => "loop_condition_and_true"
  | .unfoldShortCircuit => "short_circuit"
  | .replaceDoWhile => "do_while"
  | .emulateIntAbs => "int_abs"
  | .splitMinAbs => "min_abs"
  | .guardFract => "negative_fract"
  | .multiplyAtanSign => "negated_atan_operand"
  | .expandConstantPow => "constant_exponent_pow"
  | .splitTernaryTargets => "ternary_lvalue"

/-- A program has nothing of what a workaround is for. For the one on conditions of loops, that
    includes the loop that stands for invocations. -/
def Idle (t : Target) (p : Program) : Workaround → Prop
  | .avoidFragCoord => False
  | .loopConditionAndTrue =>
    p.Free loopConditionAndTrue.construct ∧ Legalize.Invocations.enabled t p = false
  | w => p.Free w.construct

/-- The rule of a workaround comes after one of another name. -/
def Awaits (w : Workaround) (name : String) : Prop :=
  [name, w.ruleName].Sublist (Legalize.pipeline.map Legalize.Rule.name)

instance (w : Workaround) (name : String) : Decidable (w.Awaits name) :=
  inferInstanceAs (Decidable (List.Sublist _ _))

end Workaround

namespace Legalize

open Construct

variable {t : Target} {p q : Program} {added : Workarounds} {r : Rule} {rs : List Rule}

/-! ### Rules do not bring in what later ones are for -/

/-- A rule does not bring in what a later workaround is for, save for the loop that stands for
    invocations. -/
theorem tolerates_construct {w : Workaround} (hr : r ∈ pipeline) (hw : w.Awaits r.name)
    (hloops : w = .loopConditionAndTrue → r.name ≠ "gs_invocations") :
    w.construct.Tolerates r.name := by
  simp only [pipeline, List.mem_cons, List.not_mem_nil, or_false] at hr
  obtain rfl | rfl | rfl | rfl | rfl | rfl | rfl | rfl | rfl | rfl | rfl | rfl | rfl | rfl | rfl :=
    -- One case for each rule; those that write a construct stand after the rules for it.
    hr
  · trivial
  · trivial
  · trivial
  · trivial
  · cases w <;> first | rfl | exact absurd rfl (hloops rfl)
  · trivial
  · intro h
    cases w <;> first | rfl | cases h
  · cases w <;> first | exact fun _ _ _ _ => rfl | exact absurd hw (by decide)
  · cases w <;> first | exact fun _ _ _ => rfl | exact absurd hw (by decide)
  · trivial
  · trivial
  · cases w <;> first | exact fun _ _ _ _ => rfl | exact absurd hw (by decide)
  · cases w <;> first | exact ⟨fun _ _ => rfl, fun _ _ => rfl⟩ | exact absurd hw (by decide)
  · trivial
  · exact absurd hw (by cases w <;> decide)

/-- A step of a rule before that of the workaround leaves the construct out. -/
theorem free_step {w : Workaround} (hrs : r :: rs <:+ pipeline)
    (hw : w.ruleName ∈ rs.map Rule.name)
    (hloops : w = .loopConditionAndTrue → r.name = "gs_invocations" → r.enabled t q = false)
    (hq : q.Free w.construct) : Yields (Program.Free w.construct) (r.step t q) := by
  have hr := hrs.subset List.mem_cons_self
  have hawaits : w.Awaits r.name :=
    ((List.singleton_sublist.mpr hw).cons_cons r.name).trans (hrs.sublist.map Rule.name)
  refine yields_step_cases (fun henabled => ?_) fun _ => hq
  refine free_rule w.foreign_construct hr (tolerates_construct hr hawaits ?_) hq
  exact fun h hname => absurd henabled (by simp [hloops h hname])

/-! ### Two runs -/

/-- Two pieces of work return the same from states that differ in their logs, and leave such
    states. -/
def Alike {α : Type} (x y : GenM α) : Prop :=
  ∀ s s', SameButLog s s' →
    (x.run.run s).1 = (y.run.run s').1 ∧ SameButLog (x.run.run s).2 (y.run.run s').2

namespace Alike

variable {α β : Type} {x y : GenM α}

/-- Work that keeps a journal does not depend on the log. -/
theorem of_journal (hx : journal.gen.Holds (fun _ => True) x) : Alike x x :=
  fun _ _ h => h.run hx

/-- Noting an event is not seen. -/
theorem report (event : Event) :
    Alike (modify (Scratch.report event) : GenM PUnit) (modify (Scratch.report event)) := by
  intro s s' h
  obtain ⟨s₀, log, log', rfl, rfl⟩ := h.exists_withLog
  exact ⟨rfl, .of_withLog s₀ _ _⟩

/-- Computations that are alike may go on alike. -/
theorem bind {f g : α → GenM β} (h : Alike x y)
    (hf : ∀ a s s₁, y.run.run s = (.ok a, s₁) → Alike (f a) (g a)) :
    Alike (x >>= f) (y >>= g) := by
  intro s s' hs
  obtain ⟨hresult, hstate⟩ := h s s' hs
  obtain ⟨rx, sx, hx⟩ : ∃ r s₁, x.run.run s = (r, s₁) := ⟨_, _, rfl⟩
  obtain ⟨ry, sy, hy⟩ : ∃ r s₁, y.run.run s' = (r, s₁) := ⟨_, _, rfl⟩
  rw [hx, hy] at hresult hstate
  obtain rfl : rx = ry := hresult
  -- The first parts end alike, so either both failed or both go on.
  cases rx with
  | error fault =>
    rw [run_bind_of_error hx, run_bind_of_error hy]
    exact ⟨rfl, hstate⟩
  | ok a =>
    rw [run_bind_of_ok hx, run_bind_of_ok hy]
    exact hf a s' sy hy sx sy hstate

end Alike

/-- A step does not depend on the log. -/
theorem alike_step (hr : r ∈ pipeline) : Alike (r.step t q) (r.step t q) := by
  unfold Rule.step
  split
  · exact (Alike.report _).bind fun _ _ _ _ => .of_journal (journal_rule hr t q)
  · exact .of_journal (journal.gen.pure trivial)

/-- Where a rule would do nothing, it makes no difference whether it runs. -/
theorem alike_idle {t' : Target} (hrun : r.run t q = pure q) (hrun' : r.run t' q = pure q) :
    Alike (r.step t' q) (r.step t q) := by
  have hstep : ∀ {t}, r.run t q = pure q → ∀ s, ∃ log,
      (r.step t q).run.run s = (.ok q, s.withLog log) := by
    -- A rule that returns the program may still note that it starts.
    intro t hrun s
    unfold Rule.step
    split
    · rw [hrun]
      exact ⟨s.log ++ [.ruleStarts r.name], rfl⟩
    · exact ⟨s.log, rfl⟩
  intro s s' hs
  obtain ⟨s₀, log, log', rfl, rfl⟩ := hs.exists_withLog
  obtain ⟨log₁, h⟩ := hstep hrun' (s₀.withLog log)
  obtain ⟨log₂, h'⟩ := hstep hrun (s₀.withLog log')
  rw [h, h']
  exact ⟨rfl, .of_withLog s₀ log₁ log₂⟩

/-- A step for two targets that a rule does not tell apart. -/
theorem alike_congr {t' : Target} (hr : r ∈ pipeline) (henabled : r.enabled t' q = r.enabled t q)
    (hrun : r.run t' q = r.run t q) : Alike (r.step t' q) (r.step t q) := by
  have hstep : r.step t' q = r.step t q := by
    unfold Rule.step
    rw [henabled, hrun]
  exact hstep ▸ alike_step hr

/-- A rule that runs where a workaround is needed. -/
theorem alike_workaround {name : String} {w : Workaround} {run : Program → GenM Program}
    (hr : .workaround name w run ∈ pipeline)
    (hidle : added.contains w = true → run q = pure q) :
    Alike ((Rule.workaround name w run).step (t.adding added) q)
      ((Rule.workaround name w run).step t q) := by
  cases hadded : added.contains w with
  | true => exact alike_idle (hidle hadded) (hidle hadded)
  | false =>
    have hneeds : (t.adding added).profile.needs w = t.profile.needs w := by
      rw [Target.needs_adding, hadded, Bool.or_false]
    exact alike_congr hr hneeds rfl

/-- Of the workarounds only one is about the fragment coordinate. -/
theorem fragCoord_adding (hcoord : added.contains .avoidFragCoord = false) :
    FragCoord.legalize (t.adding added) q = FragCoord.legalize t q := by
  have hpolicy : (t.adding added).coordPolicy = t.coordPolicy := by
    unfold Target.coordPolicy
    rw [Target.needs_adding, hcoord, Bool.or_false]
    rfl
  unfold FragCoord.legalize
  rw [hpolicy]
  rfl

/-- Without choices, none is split. -/
theorem ternaryTarget_eq_ok (profile : Profile)
    (hq : q.Free Workaround.splitTernaryTargets.construct) :
    TernaryTarget.legalize profile q = .ok (q.mapNodes TernaryTarget.collapseNode) := by
  have hk := Workaround.splitTernaryTargets.foreign_construct
  have hfree := free_mapNodes (hk.congruence.bottomUp (avoids_collapse hk)) hq
  -- No statement assigns to a choice, so none is split.
  have hsplit : (q.mapNodes TernaryTarget.collapseNode).mapFunctions
      (Function.mapBody TernaryTarget.splitBody) = q.mapNodes TernaryTarget.collapseNode := by
    refine Program.mapFunctions_eq_self fun fn hfn => ?_
    have hbody : Stmt.expandListM (m := Id)
        (fun _ => pure fun s => [TernaryTarget.splitStmt s]) fn.body = pure fn.body := by
      -- A statement whose target is a choice would hold the construct the program is free of.
      refine Stmt.expandListM_eq_pure fun s hs => (hfree.body hfn s hs).mono fun s hspares => ?_
      refine ⟨_, rfl, ?_⟩
      unfold TernaryTarget.splitStmt
      split
      · have hassign := hspares.2 _ List.mem_cons_self
        have htarget := (Expr.any_eq_false_iff.mp hassign).2 _ List.mem_cons_self
        exact absurd (Expr.any_eq_false_iff.mp htarget).1 nofun
      · rfl
    exact congrArg (fun body => { fn with body }) (congrArg Id.run hbody)
  -- What is written to would itself be a choice.
  have hwrites : ∀ e : Expr, e.any TernaryTarget.isTernary = false →
      e.any TernaryTarget.writesTernary = false := by
    intro e
    induction e using Expr.induction_children with
    | h e ih =>
      intro he
      have hchildren := (Expr.any_eq_false_iff.mp he).2
      refine Expr.any_eq_false_iff.mpr ⟨?_, fun c hc => ih c hc (hchildren c hc)⟩
      unfold TernaryTarget.writesTernary
      split
      · -- An assignment or an increment writes to its first child, which is no choice by
        -- hypothesis.
        next left right =>
        rw [(Expr.any_eq_false_iff.mp (hchildren left List.mem_cons_self)).1, Bool.and_false]
      · next operand =>
        rw [(Expr.any_eq_false_iff.mp (hchildren operand List.mem_cons_self)).1, Bool.and_false]
      · rfl
  have hnone := Program.anyNode_eq_false_iff.mpr (hfree.all.mono hwrites)
  unfold TernaryTarget.legalize
  dsimp only
  rw [hsplit, hnone]
  split <;> rfl

/-- Splitting targets changes nothing without a chosen target. -/
theorem ternaryTarget_adding
    (hq : added.contains .splitTernaryTargets = true →
      q.Free Workaround.splitTernaryTargets.construct) :
    TernaryTarget.legalize (t.adding added).profile q = TernaryTarget.legalize t.profile q := by
  cases hadded : added.contains .splitTernaryTargets with
  | true => rw [ternaryTarget_eq_ok _ (hq hadded), ternaryTarget_eq_ok _ (hq hadded)]
  | false =>
    unfold TernaryTarget.legalize
    rw [Target.needs_adding, hadded, Bool.or_false]

/-- A step for a target that asks for more workarounds, where a program has nothing of what the rule
    would be run for. -/
theorem alike_adding (hr : r ∈ pipeline) (hcoord : added.contains .avoidFragCoord = false)
    (hq : ∀ w, added.contains w = true → w.ruleName = r.name → q.Free w.construct) :
    Alike (r.step (t.adding added) q) (r.step t q) := by
  have hmem := hr
  simp only [pipeline, List.mem_cons, List.not_mem_nil, or_false] at hr
  obtain rfl | rfl | rfl | rfl | rfl | rfl | rfl | rfl | rfl | rfl | rfl | rfl | rfl | rfl | rfl :=
    hr
  · -- Rules that are no workarounds do not look at the ones that were added.
    exact alike_congr hmem rfl rfl
  · exact alike_congr hmem rfl rfl
  · exact alike_congr hmem rfl (fragCoord_adding hcoord)
  · exact alike_congr hmem rfl rfl
  · exact alike_congr hmem rfl rfl
  · exact alike_congr hmem rfl
      (congrArg liftUnsupported (ternaryTarget_adding fun h => hq _ h rfl))
  · exact alike_workaround hmem fun h =>
      congrArg liftM (doWhile_eq_pure (k := Workaround.replaceDoWhile.construct) rfl (hq _ h rfl))
  · exact alike_workaround hmem fun h => congrArg pure (shortCircuit_eq_self (hq _ h rfl))
  · exact alike_workaround hmem fun h => congrArg pure (loopCondition_eq_self (hq _ h rfl))
  · exact alike_workaround hmem fun h => congrArg liftMalformed (constantPow_eq_ok (hq _ h rfl))
  · exact alike_workaround hmem fun h => congrArg liftM (intAbs_eq_pure (hq _ h rfl))
  · exact alike_workaround hmem fun h => minAbs_eq_pure (hq _ h rfl)
  · exact alike_workaround hmem fun h => fract_eq_pure (hq _ h rfl)
  · exact alike_workaround hmem fun h => congrArg pure (atanOperand_eq_self (hq _ h rfl))
  · exact alike_congr hmem rfl rfl

/-- Rules one after the other do the same for a target that asks for more workarounds, as long as a
    program has nothing of what those are for that are still to come. -/
theorem alike_rules (hrs : rs <:+ pipeline) (hidle : ∀ w, added.contains w = true → w.Idle t p)
    (hfree : ∀ w, added.contains w = true → w.ruleName ∈ rs.map Rule.name → q.Free w.construct)
    (hsame : "gs_invocations" ∈ rs.map Rule.name → p.SameInterface q) :
    Alike (rs.foldlM (Rule.step (t.adding added)) q) (rs.foldlM (Rule.step t) q) := by
  have hcoord : ∀ w, added.contains w = true → w ≠ .avoidFragCoord := by
    rintro w hw rfl
    exact hidle _ hw
  induction rs generalizing q with
  | nil => exact .of_journal (journal.gen.pure trivial)
  | cons r rs ih =>
    have hr : r ∈ pipeline := hrs.subset List.mem_cons_self
    have hstep := alike_adding (t := t) hr (Bool.eq_false_iff.mpr fun h => hcoord _ h rfl)
      fun w hw hname => hfree w hw (List.mem_cons.mpr (.inl hname))
    rw [List.foldlM_cons, List.foldlM_cons]
    refine hstep.bind fun q' s s₁ hrun => ?_
    refine ih ((List.suffix_cons r rs).trans hrs) (fun w hw hmem => ?_)
      (sameInterface_step hrs hsame hrun)
    refine (free_step hrs hmem ?_
      -- The step keeps the program free of what is still to be looked for.
      (hfree w hw (List.mem_cons_of_mem _ hmem))).of_run hrun
    rintro rfl hname
    have hsame := hsame (List.mem_cons.mpr (.inl hname.symm))
    rw [enabled_eq hr fun _ => hsame, enabled_eq_gate hr, hname]
    exact (hidle _ hw).2

/-- Printing depends neither on the log nor on which workarounds a target asks for. -/
theorem alike_printM : Alike (printM (t.adding added).profile p) (printM t.profile p) := by
  intro s s' hs
  obtain ⟨s₀, log, log', rfl, rfl⟩ := hs.exists_withLog
  rw [run_printM, run_printM]
  exact ⟨rfl, .of_withLog s₀ _ _⟩

end Legalize

open Legalize

/-- A target that asks for more workarounds gets the same text with the same uniforms, or the same
    error, if a program has nothing of what those are for. Bits that stand for no known workaround
    make no difference at all. -/
theorem generate_adding_idle {t : Target} {p : Program} {added : Workarounds}
    (hidle : ∀ w, added.contains w = true → w.Idle t p) :
    generate (t.adding added) p = generate t p := by
  have hfree : ∀ w, added.contains w = true → p.Free w.construct := by
    intro w hw
    have h := hidle w hw
    cases w with
    | avoidFragCoord => exact absurd h id
    | loopConditionAndTrue => exact h.1
    | _ => exact h
  have hrules : Alike (legalize (t.adding added) p) (legalize t p) :=
    alike_rules (List.suffix_refl _) hidle (fun w hw _ => hfree w hw) fun _ => .refl p
  have hcheck : Alike (checkM p) (checkM p) := by
    intro s s' hs
    -- The check does not look at the target, so both runs find the same defect, if there is one.
    unfold checkM
    cases p.defect? with
    | some defect => exact ⟨rfl, hs⟩
    | none => exact ⟨rfl, hs⟩
  have hpieces : Alike (piecesM (t.adding added) p) (piecesM t p) :=
    hcheck.bind fun _ _ _ _ => hrules.bind fun _ _ _ _ => alike_printM
  obtain ⟨hresult, hstate⟩ := hpieces {} {} rfl
  cases hrun : (piecesM t p).run.run {} with
  | mk result s =>
    -- The results are the same, and so are the inputs noted on the way.
    cases hrun' : (piecesM (t.adding added) p).run.run {} with
    | mk result' s' =>
      rw [hrun, hrun'] at hresult hstate
      obtain rfl : result' = result := hresult
      cases result' with
      | error fault => rw [generate_of_fault hrun, generate_of_fault hrun']; rfl
      | ok ps =>
        have hinputs : s'.inputs = s.inputs := (congrArg Scratch.inputs hstate).symm
        rw [generate_of_run hrun, generate_of_run hrun', hinputs]

/-- A program with a loop, a short-circuit operator and a fraction, for a target that asks for all
    workarounds but those three and the one for fragment coordinates, and for unknown ones. -/
theorem generate_adding_most :
    let shade : Expr := .ofCall .fract [.ofSwizzle (.ofBuiltin .fragCoord) [.y]]
    let p : Program := ⟨.fragment, [.function (.entry
      [.whileLoop (.ofBinary .logicalAnd (.bool true) (.bool false)) (.block []),
       .assign (.ofBuiltin .fragColor) (.ofConstruct (.vec 4) [shade])])]⟩
    let t : Target := { profile := { workarounds := .single .unfoldShortCircuit } }
    let added : Workarounds := ⟨0xffffffb8⟩
    (∀ w, added.contains w = true → w.Idle t p) ∧
      generate (t.adding added) p = generate t p := by
  intro shade p t added
  have hidle : ∀ w, added.contains w = true → w.Idle t p := by
    -- Most of the bits are of no workaround, and the others are about constructs that are absent.
    intro w hw
    cases w with
    | avoidFragCoord | loopConditionAndTrue | unfoldShortCircuit | guardFract =>
      exact absurd hw (by decide)
    | _ =>
      intro el hel
      obtain rfl := List.mem_singleton.mp hel
      refine ⟨trivial, List.forall_mem_cons.mpr ⟨?_, List.forall_mem_singleton.mpr
        (Stmt.free_expr rfl)⟩⟩
      exact .intro ⟨rfl, List.forall_mem_singleton.mpr rfl⟩
        (List.forall_mem_singleton.mpr (Stmt.free_block nofun))
  exact ⟨hidle, generate_adding_idle hidle⟩

end ShaderGen
