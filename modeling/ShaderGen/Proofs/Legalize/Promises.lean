import ShaderGen.Proofs.Legalize.Confined
import ShaderGen.Proofs.Legalize.Helpers
import ShaderGen.Proofs.Legalize.Unfolded
import ShaderGen.Proofs.Typing.Headers

/-!
# What workarounds promise

A target names what it cannot have, and a rule for each takes it out of the program. Rules that run
later must not bring it back. What they bring in on purpose stands at certain places, and nowhere
else (`Program.Honors`); this goes for the helper functions that are written in front of the program
as well.

## Key results

- `honors_workarounds`: of every program that comes out of the pipeline
- `guarded_integer_is_left`: an absolute value of an integer that a later rule brings in
-/

namespace ShaderGen

open List (Forall₂)

/-- A loop that tests at its end. -/
def Stmt.isDoWhile : Stmt → Bool
  | .doWhile _ _ => true
  | _ => false

/-- Every loop of a statement tests at its start. -/
def Stmt.TestsFirst (s : Stmt) : Prop := s.Everywhere fun s => s.isDoWhile = false

/-- A statement with none inside tests first, as it is no loop. -/
theorem Stmt.testsFirst_of_leaf {s : Stmt} (hnested : s.nested = []) : s.TestsFirst := by
  refine .intro ?_ (by simp [hnested])
  cases s with
  | doWhile => cases hnested
  | _ => rfl

/-- A block tests first if its members do. -/
theorem Stmt.testsFirst_block {ss : List Stmt} (h : ∀ s ∈ ss, s.TestsFirst) :
    (Stmt.block ss).TestsFirst :=
  .intro rfl h

namespace Outline

/-- Every loop tests at its start. -/
def testsFirst : Outline where
  stmts := Stmt.TestsFirst
  globals _ := True

/-- Loops are told apart from expressions, so any rewrite of expressions is fine. -/
theorem turns_testsFirst (R : Expr → Expr → Prop) : Turns R testsFirst testsFirst where
  stmts h := h.everywhere fun s s' hmirror hs => by
    cases hmirror with
    | doWhile => exact hs
    | _ => rfl
  globals _ := id
  header := id
  temp _ := Stmt.testsFirst_of_leaf rfl

/-- A moved initial value brings no loop. -/
theorem hoists_testsFirst : Hoists testsFirst where
  header _ _ := trivial
  value _ _ := Stmt.testsFirst_of_leaf rfl
  call _ _ := id

end Outline

/-- Constructs that a target cannot have are not in a program, save where rules bring them in on
    purpose: `&&` where conditions of loops are conjoined with `true`, and an absolute value of
    integers as the operand of a guarded `fract`. -/
structure Program.Honors (t : Target) (p : Program) : Prop where
  doWhile : t.profile.needs .replaceDoWhile = true → p.Shows .testsFirst
  shortCircuit : t.profile.needs .unfoldShortCircuit = true →
    p.Shows (.unfolded (t.profile.needs .loopConditionAndTrue))
  intAbs : t.profile.needs .emulateIntAbs = true →
    p.All (Expr.Confines Expr.isIntAbs (Expr.isHome (t.profile.needs .guardFract)))
  fract : t.profile.needs .guardFract = true → p.All fun e => e.any Expr.isBareFract = false

namespace Legalize

open Outline Stmt

variable {t : Target} {p p' : Program} {s' : Scratch}

/-! ### Loops that test at their end -/

/-- Being a loop that tests at the end is told by the statement. -/
theorem shallow_isDoWhile : Shallow fun s => s.isDoWhile = false where
  block _ := rfl
  ifElse _ := rfl
  forLoop _ := rfl
  whileLoop _ := rfl
  doWhile h := h
  switchOn _ := rfl

/-- The loop that stands for one that tests at its end tests at its start. -/
theorem replace_testsFirst (name : String) {s : Stmt} (hnested : ∀ u ∈ s.nested, u.TestsFirst) :
    ∀ u ∈ DoWhile.replace name s, u.TestsFirst := by
  unfold DoWhile.replace
  split
  · next body cond =>
    -- The body goes into the new loop, next to the check and the flag.
    have hbody : body.toBlock.TestsFirst := by
      have hbody := hnested body List.mem_cons_self
      unfold toBlock
      split
      · exact hbody
      · exact testsFirst_block (List.forall_mem_singleton.mpr hbody)
    -- The check is two conditionals around a `break`.
    have hexit : ∀ flag, (DoWhile.exitCheck flag cond).TestsFirst := by
      have hif : ∀ {cond s}, TestsFirst s → (Stmt.ifElse cond (.block [s]) none).TestsFirst :=
        fun hs => .intro rfl (List.forall_mem_singleton.mpr
          (testsFirst_block (List.forall_mem_singleton.mpr hs)))
      exact fun flag => hif (hif (testsFirst_of_leaf rfl))
    refine List.forall_mem_cons.mpr
      ⟨testsFirst_of_leaf rfl, List.forall_mem_singleton.mpr (.intro rfl ?_)⟩
    refine List.forall_mem_singleton.mpr (testsFirst_block ?_)
    exact List.forall_mem_cons.mpr ⟨hexit _, List.forall_mem_cons.mpr
      ⟨testsFirst_of_leaf rfl, List.forall_mem_singleton.mpr hbody⟩⟩
  · next hother =>
    -- Any other statement stays, and it is none of the loops in question.
    refine List.forall_mem_singleton.mpr (.intro ?_ hnested)
    cases s with
    | doWhile body cond => exact absurd rfl (hother body cond)
    | _ => rfl

/-- In a program whose loops start plainly, every loop tests at its start once the rule has run. -/
theorem shows_doWhile (hp : p.Plain) :
    Yields (Program.Shows testsFirst) (liftM (DoWhile.legalize p) : GenM Program) := by
  have hplain : p.Shows { stmts := Stmt.Plain, globals := fun _ => True } := by
    intro el hel
    have h := hp el hel
    cases el with
    | function fn => exact ⟨trivial, h⟩
    | _ => trivial
  have hvisit : ∀ s : Stmt, s.StartsPlainly → Yields (fun replace => ∀ t, s.Recasts t →
      (∀ u ∈ t.nested, u.TestsFirst) → ∀ u ∈ replace t, u.TestsFirst) (DoWhile.visit s) := by
    -- A loop that tests at the end is replaced, and every other statement stays of its kind.
    intro s _
    unfold DoWhile.visit
    split
    · exact .after fun name => .pure fun t _ hnested => replace_testsFirst name hnested
    · next hother =>
      have hs : s.isDoWhile = false := by
        cases s with
        | doWhile body cond => exact absurd rfl (hother body cond)
        | _ => rfl
      exact .pure fun t ht hnested =>
        List.forall_mem_singleton.mpr (.intro (ht _ shallow_isDoWhile hs) hnested)
  -- The initializer of a `for` is not visited, but it is no loop.
  have hinit : ∀ {init cond step body}, StartsPlainly (.forLoop init cond step body) →
      ∀ s ∈ init, s.Everywhere StartsPlainly → s.TestsFirst := by
    rintro _ cond step body h s rfl -
    have hinitializer : s.isLoopInitializer = true := h
    cases s with
    | decl | expr => exact testsFirst_of_leaf rfl
    | _ => cases hinitializer
  refine (Replaces.shows_mapFunctionsM (fun _ _ => trivial) (fun fn hfn => ?_) hplain).lift
  exact (expandListM_rebuilds .yields (fun _ => rfl) hinit hvisit hfn.2).bind fun _ h =>
    .pure ⟨trivial, h⟩

/-- Conditions of loops are changed, and the loops stay what they are. -/
theorem testsFirst_loopCondition (hp : p.Shows testsFirst) :
    (LoopCondition.legalize p).Shows testsFirst := by
  refine Replaces.shows_mapFunctions (fun _ => id) (fun fn hfn => ?_) hp
  exact ⟨trivial, Replaces.shows_body (turns_testsFirst fun _ _ => True) (bottomUpList_mirrors
    (fun _ => trivial) (fun _ _ => andTrueInLoop_mirrors (fun _ _ _ => trivial)
      fun _ _ _ _ => trivial) fn.body) hfn.2⟩

/-- With the workaround no loop tests at its end. -/
theorem legalize_testsFirst (hneeds : t.profile.needs .replaceDoWhile = true)
    (hp : p.Plain) : Yields (Program.Shows testsFirst) (legalize t p) := by
  have hbefore : Yields Program.Plain ((rulesBefore "do_while").foldlM (Rule.step t) p) :=
    plain_rules (fun _ hr => rulesBefore_subset _ hr) hp
  refine foldlM_yields_at (pipeline_eq "do_while" rfl) hbefore
    (fun p hp => step_workaround hneeds (shows_doWhile hp)) fun r hr p hp => ?_
  have hany : Refits true Expr.isRefitted fun _ _ => True :=
    ⟨⟨fun _ _ => trivial, fun _ => trivial⟩, fun _ => trivial, fun _ _ _ => trivial⟩
  have hsplit : rulesAfter "do_while" = rulesBetween "do_while" "constant_exponent_pow" ++
      rulesAfter "loop_condition_and_true" := rfl
  rw [hsplit, List.mem_append] at hr
  -- The two rules after it rewrite expressions and conditions, and the later ones no statement.
  rcases hr with hr | hr
  · refine yields_step hp ?_
    simp only [rulesBetween, rulesAfter, pipeline, List.dropWhile, List.takeWhile, Rule.name_always,
      Rule.name_workaround, String.reduceBNe, List.tail_cons, List.mem_cons, List.not_mem_nil,
      or_false] at hr
    obtain rfl | rfl := hr
    · exact Replaces.mapNodes (R := fun _ _ => True) (fun _ => trivial) (turns_testsFirst _)
        hoists_testsFirst hp
    · exact .pure (testsFirst_loopCondition hp)
  · exact shows_late hany (turns_testsFirst _) hoists_testsFirst hr hp

/-! ### Helper functions -/

/-- What is written in front of a program is as asked if the helpers for absolute values of integers
    are. -/
theorem shows_withHelpers {o : Outline} (hrun : (legalize t p).run.run {} = (.ok p', s'))
    (hhelper : ∀ ty, (IntAbs.helper ty).Shows o) (hp : p'.Shows o) :
    (s'.withHelpers p').Shows o := by
  refine List.forall_mem_append.mpr ⟨fun el hel => ?_, hp⟩
  obtain ⟨h, hmem, rfl⟩ := List.mem_map.mp hel
  rcases legalize_adds_helpers hrun h hmem with hnone | ⟨ty, heq⟩
  · cases hnone
  · show h.2.Shows o
    rw [heq]
    exact hhelper ty

/-- What holds of the expressions of a program holds with the helpers in front of it. -/
theorem all_withHelpers {Q : Expr → Prop} (hrun : (legalize t p).run.run {} = (.ok p', s'))
    (hhelper : ∀ ty, Q (.ofBinary .mul (.ofVar "x" ty) (.ofCall .sign [.ofVar "x" ty])))
    (hp : p'.All Q) : (s'.withHelpers p').All Q := by
  refine shows_ofExprs.mp (shows_withHelpers hrun (fun ty => ?_) (shows_ofExprs.mpr hp))
  refine ⟨trivial, List.forall_mem_singleton.mpr (all_returnWith.mpr fun e he => ?_)⟩
  exact Option.mem_some.mp he ▸ hhelper ty

end Legalize

/-! ### Generated programs -/

section

open Legalize

variable {t : Target} {p p' : Program} {s' : Scratch}

/-- In every program that comes out of the pipeline, with the helper functions in front of it, there
    is no construct that a rule has taken out because the target cannot have it, save where rules
    bring it in on purpose. -/
theorem honors_workarounds (hp : p.defect? = none)
    (hrun : (legalize t p).run.run {} = (.ok p', s')) : (s'.withHelpers p').Honors t where
  doWhile hneeds :=
    shows_withHelpers hrun
      (fun _ => ⟨trivial, List.forall_mem_singleton.mpr (Stmt.testsFirst_of_leaf rfl)⟩)
      ((legalize_testsFirst hneeds (plain_of_defect? hp)).of_run hrun)
  -- The helper returns a product, in which nothing is left to unfold.
  shortCircuit hneeds := by
    have hbody : ∀ ty, Stmt.All Expr.Unfolded (.returnWith (some (.ofBinary .mul (.ofVar "x" ty)
        (.ofCall .sign [.ofVar "x" ty])))) := fun ty =>
      Stmt.all_returnWith.mpr fun e he => Option.mem_some.mp he ▸ rfl
    exact shows_withHelpers hrun
      (fun ty => ⟨trivial, List.forall_mem_singleton.mpr (hbody ty).unfolded⟩)
      ((legalize_unfolds hneeds).of_run hrun)
  intAbs hneeds :=
    all_withHelpers hrun (fun _ => Expr.confines_of_any rfl)
      ((legalize_confines_abs hneeds).of_run hrun)
  fract hneeds :=
    all_withHelpers hrun (fun _ => rfl) ((legalize_guards_fract hneeds).of_run hrun)

end

/-- A loop that tests at its end, with an absolute value of integers in it and a fraction of one. -/
theorem loop_honors_workarounds :
    let t : Target := { profile := { workarounds := Workarounds.unions [.single .replaceDoWhile,
      .single .unfoldShortCircuit, .single .loopConditionAndTrue, .single .emulateIntAbs,
      .single .guardFract] } }
    let k : Expr := .ofVar "k" .int
    let x : Expr := .ofVar "x" .float
    let loop : Stmt := .doWhile
      (.block [.assign k (.ofCall .abs [k]), .assign x (.ofCall .fract [.ofBinary .mul x k])])
      (.ofBinary .logicalAnd (.ofBinary .lt k (.int 9)) (.ofBinary .lt x (.float .one)))
    let p : Program := ⟨.fragment,
      [.global (.plain "k" .int none), .global (.plain "x" .float none), .function (.entry [loop])]⟩
    p.defect? = none ∧ ∃ p' s', (Legalize.legalize t p).run.run {} = (.ok p', s') ∧
      (s'.withHelpers p').Honors t := by
  intro t k x loop p
  -- The check and the run are found by evaluation.
  have hp : p.defect? = none := by decide
  obtain ⟨p', s', hrun, -⟩ := exists_ok_of_any (r := (Legalize.legalize t p).run.run {})
    (q := fun _ => true) (by decide +kernel)
  exact ⟨hp, p', s', hrun, honors_workarounds hp hrun⟩

/-- In `fract(i)` of an integer that is said to be a float, the guard takes the absolute value of
    the integer once the rule for those has run. -/
theorem guarded_integer_is_left :
    let t : Target := { profile :=
      { workarounds := Workarounds.unions [.single .emulateIntAbs, .single .guardFract] } }
    let fraction : Expr := .call .float (.intrinsic .fract) [.ofVar "i" .int]
    let p : Program := ⟨.fragment, [.function (.entry [.assign (.ofVar "x" .float) fraction])]⟩
    p.defect? = none ∧ t.profile.needs .emulateIntAbs = true ∧
      ∃ p' s', (Legalize.legalize t p).run.run {} = (.ok p', s') ∧
        (s'.withHelpers p').anyNode Expr.isIntAbs = true := by
  intro t fraction p
  -- The operand of the fraction stays an integer, so the guard asks for its absolute value.
  obtain ⟨p', s', hrun, hany⟩ := exists_ok_of_any (r := (Legalize.legalize t p).run.run {})
    (q := fun p' => p'.anyNode Expr.isIntAbs) (by decide)
  refine ⟨by decide, by decide, p', s', hrun, ?_⟩
  rw [Program.anyNode, Scratch.withHelpers, List.any_append]
  exact Bool.or_eq_true_iff.mpr (.inr hany)

end ShaderGen
