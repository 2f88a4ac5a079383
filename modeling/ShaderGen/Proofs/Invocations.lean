import ShaderGen.Proofs.Events
import ShaderGen.Proofs.Legalize.Idle
import ShaderGen.Proofs.Legalize.InvocationLoop
import ShaderGen.Proofs.Scopes.Emitted

/-!
# Invocations on targets without them

A target may run a geometry program once for each primitive, whatever the program asks for. A text
for such a target asks for no number of invocations, and does not read which one it is, if the
program asks for more than one. If it asks for one at most, there is nothing to run in a loop, and
its layouts are printed as they are given: one that asks for a single invocation still does so.

## Key results

- `generate_without_invocations`: of every geometry program and every target without invocations
- `single_invocation_is_left`: a program that asks for one invocation
-/

namespace ShaderGen

open Glsl

/-- A reference to the number of an invocation. -/
def Expr.isInvocationId : Expr → Bool
  | .builtin _ .invocationId => true
  | _ => false

/-- The program as it is printed, with what rules put in front of it. -/
def Scratch.printed (s : Scratch) (p : Program) : Program :=
  { p with elements := s.preamble ++ p.elements }

namespace Construct

/-- References to numbers of invocations. -/
def invocationId : Construct := { node := Expr.isInvocationId }

/-- No rule after the loop writes the number of an invocation. -/
theorem untouched_invocationId : invocationId.Untouched where
  children e cs := by unfold Expr.withChildren; split <;> rfl
  -- A reference to a built-in variable keeps which one it is.
  raised e := by
    cases e with
    | builtin ty which => cases which <;> rfl
    | _ => rfl
  made {e} h := by
    cases e with
    | builtin ty which => cases which <;> first | rfl | cases h
    | _ => rfl

/-- A program is free of the number if no node reads it. -/
theorem free_invocationId_iff {p : Program} :
    p.Free invocationId ↔ p.anyNode Expr.isInvocationId = false :=
  Legalize.free_iff_anyNode untouched_invocationId

end Construct

namespace Legalize

open Construct

variable {t : Target} {p q : Program}

/-- Running invocations in a loop leaves no number of them in a layout. -/
theorem invocationCounts_looped :
    (Invocations.looped p).elements.flatMap Element.invocationCounts = [] := by
  -- Behind the reworked elements there is only the new entry point.
  have helements : (Invocations.looped p).elements =
      (p.mapEntry fun f => { f with name := Invocations.invokeName }).elements.flatMap
        (Invocations.rework p.declaredInvocations) ++
          [.function (Invocations.runAll p.declaredInvocations)] := by
    simp only [Invocations.looped, Program.elements_mapNodes]
    rw [List.map_filterMap, List.filterMap_eq_flatMap_toList]
    rfl
  rw [helements, List.flatMap_append, List.flatMap_assoc]
  simp [Invocations.invocationCounts_rework, Element.invocationCounts]

/-- Nor does it leave a reference to them. -/
theorem free_looped : (Invocations.looped p).Free invocationId := by
  rw [free_invocationId_iff, Program.anyNode_eq_false_iff]
  have hread : ∀ e : Expr,
      (e.bottomUp Invocations.readCounter).any Expr.isInvocationId = false := by
    refine Expr.bottomUp_related (R := fun _ e' => e'.any Expr.isInvocationId = false)
      fun e cs hcs => ?_
    have hchildren : ∀ c ∈ (e.withChildren cs).children, c.any Expr.isInvocationId = false :=
      fun c hc =>
        have ⟨_, _, h⟩ := Expr.exists_related_child hcs c hc
        h
    -- Only reading the number is replaced, by a variable.
    unfold Invocations.readCounter
    split
    · rfl
    · next hother =>
      refine Expr.any_eq_false_iff.mpr ⟨?_, hchildren⟩
      generalize e.withChildren cs = node at hother
      unfold Expr.isInvocationId
      split
      · exact absurd rfl (hother _)
      · rfl
  -- The old elements do not read the number any more, and the loop reads the counter.
  refine List.forall_mem_append.mpr ⟨?_, List.forall_mem_singleton.mpr ?_⟩
  · refine Program.mapNodes_all (Q := fun _ => True) (fun e _ => hread e) ?_
    exact Program.all_iff_meets.mpr (Program.meets_anything _)
  · exact List.forall_mem_singleton.mpr
      ((Stmt.anyExpr_eq_false_iff (p := Expr.any Expr.isInvocationId) _).mp rfl)

/-- What a loop over invocations establishes, and no other rule spoils, holds in the end of a
    program that asks for more than one. -/
theorem looped_legalize {Q : Program → Prop} (hstage : p.stage = .geometry)
    (hnative : t.profile.hasInvocations = false) (hmany : 1 < p.declaredInvocations)
    (hlooped : ∀ q, Q (Invocations.looped q))
    (hkeeps : ∀ r ∈ pipeline, r.name ≠ "gs_invocations" → ∀ q, Q q → Yields Q (r.run t q)) :
    Yields Q (legalize t p) := by
  -- No other rule has the name, so the loop is made at one place.
  have hnames : ∀ r ∈ rulesBefore "gs_invocations" ++ rulesAfter "gs_invocations",
      r.name ≠ "gs_invocations" := by
    intro r hr hname
    have hmem : r.name ∈
        (rulesBefore "gs_invocations" ++ rulesAfter "gs_invocations").map Rule.name :=
      List.mem_map_of_mem hr
    exact absurd (hname ▸ hmem) (by decide)
  refine foldlM_yields_at (P := p.SameInterface) (pipeline_eq "gs_invocations" rfl) ?_
    (fun q hq => ?_) fun r hr q hq => ?_
  · exact foldlM_yields (fun r hr q hq => keepsInterface_step (rulesBefore_subset _ hr)
      (hnames r (List.mem_append_left _ hr)) hq) (.refl p)
  · -- The rules before it keep the stage and the layouts, so it is still to be made.
    have henabled : Invocations.enabled t q = true := by
      rw [Invocations.enabled, hq.stage, hstage, hq.declaredInvocations, hnative]
      simpa using hmany
    refine yields_step_cases (fun _ => ?_) fun hdisabled =>
      nomatch henabled.symm.trans hdisabled
    show Yields _ (Invocations.legalize q)
    unfold Invocations.legalize
    refine .after fun _ => ?_
    split
    · exact .after fun _ => .pure (hlooped q)
    · exact .fail _
  · exact yields_step hq
      (hkeeps r (rulesAfter_subset _ hr) (hnames r (List.mem_append_right _ hr)) q hq)

/-- A program that asks for one invocation at most keeps its layouts. -/
theorem sameInterface_legalize (hfew : p.declaredInvocations ≤ 1) :
    Yields p.SameInterface (legalize t p) := by
  refine foldlM_yields (fun r hr q hq => ?_) (.refl p)
  by_cases hname : r.name = "gs_invocations"
  · -- The only rule that changes the interface is not run.
    have hidle : r.enabled t q = false := by
      rw [enabled_eq hr fun _ => hq, enabled_eq_gate hr, hname]
      simp [gate, Nat.not_lt.mpr hfew]
    exact yields_step_cases
      (fun henabled => nomatch henabled.symm.trans hidle) fun _ => hq
  · exact keepsInterface_step hr hname hq

end Legalize

open Legalize

/-- What rules put in front of a program: a few globals, and helper functions for absolute
    values. -/
theorem preamble_elements {t : Target} {p p' : Program} {s : Scratch}
    (hrun : (legalize t p).run.run {} = (.ok p', s)) : ∀ el ∈ s.preamble,
      (∃ d : Decl, el = .global d ∧ IsAdded d) ∨ ∃ ty, el = .function (IntAbs.helper ty) := by
  intro el hel
  rcases List.mem_append.mp hel with hel | hel
  · obtain ⟨g, hg, helement⟩ := List.mem_filterMap.mp hel
    -- The empty scratch has no globals and no helpers, so all of them were added.
    rcases legalize_adds_globals hrun g hg with hnone | hadded
    · cases hnone
    · cases g with
      | upperLeftOrigin => cases helement
      | declared d => exact .inl ⟨d, (Option.some.inj helement).symm, hadded d rfl⟩
  · obtain ⟨h, hh, rfl⟩ := List.mem_map.mp hel
    rcases legalize_adds_helpers hrun h hh with hnone | ⟨ty, hhelper⟩
    · cases hnone
    · exact .inr ⟨ty, by rw [hhelper]⟩

/-- What can be seen of a printed program, if it comes out of the pipeline. -/
theorem layouts_printed {t : Target} {p p' : Program} {s : Scratch}
    (hrun : (legalize t p).run.run {} = (.ok p', s)) : (s.printed p').layouts = p'.layouts := by
  have hnone : s.preamble.filterMap Element.layout? = [] := by
    refine List.filterMap_eq_nil_iff.mpr fun el hel => ?_
    obtain ⟨d, rfl, -⟩ | ⟨ty, rfl⟩ := preamble_elements hrun el hel <;> rfl
  exact List.filterMap_append.trans (by rw [hnone]; rfl)

/-- Of nodes that helper functions do not have, a printed program has those of the program. -/
theorem anyNode_printed {q : Expr → Bool} (hq : ∀ ty, (IntAbs.helper ty).anyNode q = false)
    {t : Target} {p p' : Program} {s : Scratch}
    (hrun : (legalize t p).run.run {} = (.ok p', s)) :
    (s.printed p').anyNode q = p'.anyNode q := by
  have hnone : s.preamble.any (Element.anyNode q) = false := by
    refine List.any_eq_false.mpr fun el hel => ?_
    obtain ⟨d, rfl, hadded⟩ | ⟨ty, rfl⟩ := preamble_elements hrun el hel
    · simp [Element.anyNode, hadded.init]
    · simp [Element.anyNode, hq]
  exact List.any_append.trans (by rw [hnone]; rfl)

/-- The text of a geometry program for a target without invocations. If the program asks for more
    than one, the text asks for no number of them in an input layout, and nowhere reads which one it
    is, whatever layouts ask for them. Otherwise the layouts of the text are those of the program,
    and the text only reads which one it is if the program does. -/
theorem generate_without_invocations {t : Target} {p : Program} {out : Output}
    (hstage : p.stage = .geometry) (hnative : t.profile.hasInvocations = false)
    (h : generate t p = .ok out) :
    ∃ p' s, (legalize t p).run.run {} = (.ok p', s) ∧
      out.text = Piece.render (programPieces t.profile s p') ∧
      (1 < p.declaredInvocations →
        (s.printed p').elements.flatMap Element.invocationCounts = [] ∧
          (s.printed p').anyNode Expr.isInvocationId = false) ∧
      (p.declaredInvocations ≤ 1 →
        (s.printed p').layouts = p.layouts ∧
          (p.anyNode Expr.isInvocationId = false →
            (s.printed p').anyNode Expr.isInvocationId = false)) := by
  obtain ⟨-, p', s, hrun, -, rfl⟩ := run_of_generate h
  refine ⟨p', s, hrun, rfl, fun hmany => ⟨?_, ?_⟩, fun hfew => ⟨?_, fun hnone => ?_⟩⟩
  · -- No layout of the looped program gives a number of invocations.
    have hcounts : p'.elements.flatMap Element.invocationCounts = [] :=
      (looped_legalize hstage hnative hmany (fun _ => invocationCounts_looped)
        fun r hr hname q hq => (keepsInterface_run hr hname).mono fun _ hsame =>
          hsame.invocationCounts.trans hq).of_run hrun
    rw [Program.SameInterface.invocationCounts_eq] at hcounts ⊢
    rw [layouts_printed hrun, hcounts]
  · have hfree : p'.Free Construct.invocationId :=
      (looped_legalize hstage hnative hmany (fun _ => free_looped) fun r hr _ q hq =>
        free_rule Construct.untouched_invocationId.toForeign hr
          (tolerates_untouched Construct.untouched_invocationId _) hq).of_run hrun
    rw [anyNode_printed (fun _ => rfl) hrun, Construct.free_invocationId_iff.mp hfree]
  · -- With one invocation the rule is off, and the layouts are those of the input.
    rw [layouts_printed hrun, ((sameInterface_legalize hfew).of_run hrun).layouts]
  · have hfree := (free_legalize Construct.untouched_invocationId
      (Construct.free_invocationId_iff.mpr hnone)).of_run hrun
    rw [anyNode_printed (fun _ => rfl) hrun, Construct.free_invocationId_iff.mp hfree]

/-- A program whose layouts ask for several numbers of invocations, of which the last one counts,
    and that reads which one it is in two functions. -/
theorem three_invocations_are_looped :
    let id : Expr := .ofBuiltin .invocationId
    let p : Program := ⟨.geometry, [.layout ⟨.input, [.invocations 4, .points]⟩,
      .function ⟨"id", .int, [], [.returnWith (some id)]⟩,
      .layout ⟨.input, [.invocations 1, .invocations 3]⟩,
      .function (.entry [.whileLoop (.ofBinary .lt (.ofUserCall "id" [] .int) id) .emitVertex])]⟩
    let t : Target := { profile := { hasGeometryShaders := true, hasInvocations := false } }
    p.stage = .geometry ∧ t.profile.hasInvocations = false ∧ 1 < p.declaredInvocations ∧
      ∃ out p' s, generate t p = .ok out ∧
        out.text = Piece.render (programPieces t.profile s p') ∧
        (s.printed p').elements.flatMap Element.invocationCounts = [] ∧
          (s.printed p').anyNode Expr.isInvocationId = false := by
  intro id p t
  -- That the text is made is found by evaluation; the theorem says what it is like.
  obtain ⟨ps, s, hpieces, -⟩ := exists_ok_of_any (r := (piecesM t p).run.run {})
    (q := fun _ => true) (by decide)
  have hgenerate := generate_of_run hpieces
  have hmany : 1 < p.declaredInvocations := by decide
  obtain ⟨p', s', -, htext, hlooped, -⟩ := generate_without_invocations rfl rfl hgenerate
  exact ⟨rfl, rfl, hmany, _, p', s', hgenerate, htext, hlooped hmany⟩

/-- A program that asks for one invocation and reads which one it is. It has nothing to run in a
    loop, so its text does both. -/
theorem single_invocation_is_left :
    let p : Program := ⟨.geometry, [.layout ⟨.input, [.points, .invocations 1]⟩,
      .function (.entry [.assign (.ofVar "id" .int) (.ofBuiltin .invocationId)])]⟩
    let t : Target := { profile := { hasGeometryShaders := true, hasInvocations := false } }
    p.stage = .geometry ∧ t.profile.hasInvocations = false ∧
      ∃ out p' s, generate t p = .ok out ∧ (legalize t p).run.run {} = (.ok p', s) ∧
        out.text = Piece.render (programPieces t.profile s p') ∧
        (s.printed p').elements.flatMap Element.invocationCounts = [1] ∧
          (s.printed p').anyNode Expr.isInvocationId = true := by
  intro p t
  obtain ⟨ps, s, hpieces, -⟩ := exists_ok_of_any (r := (piecesM t p).run.run {})
    (q := fun _ => true) (by decide)
  have hgenerate := generate_of_run hpieces
  obtain ⟨-, p', s', hrun, -, hout⟩ := run_of_generate hgenerate
  obtain ⟨q, s₁, hrun', hq⟩ := exists_ok_of_any (r := (legalize t p).run.run {})
    (q := fun q => q.elements.flatMap Element.invocationCounts == [1] &&
      q.anyNode Expr.isInvocationId) (by decide)
  -- Both evaluations are of the same run.
  obtain ⟨⟨rfl⟩, rfl⟩ := Prod.mk.inj (hrun'.symm.trans hrun)
  obtain ⟨hcounts, hid⟩ := Bool.and_eq_true_iff.mp hq
  refine ⟨rfl, rfl, _, _, _, hgenerate, hrun, congrArg Output.text hout, ?_, ?_⟩
  · rw [Program.SameInterface.invocationCounts_eq, layouts_printed hrun,
      ← Program.SameInterface.invocationCounts_eq]
    exact eq_of_beq hcounts
  · rw [anyNode_printed (fun _ => rfl) hrun, hid]

end ShaderGen
