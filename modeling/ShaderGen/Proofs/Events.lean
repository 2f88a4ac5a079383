import ShaderGen.Proofs.Generation
import ShaderGen.Proofs.Glsl.Declared
import ShaderGen.Proofs.Legalize.Journal
import ShaderGen.Proofs.Legalize.Layouts

/-!
# Events of a generation

What a generation reports agrees with what it does. The rules that are reported to start are the
enabled ones, up to the one that fails if any does; the globals and helper functions that are
reported are those in front of the text; and a text comes with one last event that repeats its
length and its note of uniforms.

## Main definitions

- `Legalize.ruleNames`, `Legalize.gate`: which rules there are, and what enables them
- `Legalize.Started`: the rules that are reported to start
- `Legalize.DeclaresReported`: how the reports agree with the text

## Key results

- `Legalize.enabled_eq_gate`: what enables a rule
- `Legalize.run_rules`: the events of the pipeline, from any state
- `Legalize.declaredNames_legalize`: what is reported is what the text declares
- `events_tell_generation`: the events of every generation
-/

namespace ShaderGen

namespace Legalize

/-! ### Which rules start -/

/-- Whether a rule is enabled for a profile, and for a program of a stage that asks for a number of
    invocations. -/
def gate (profile : Profile) (stage : Stage) (invocations : Nat) : String → Bool
  | "force_high_precision" => profile.usesPrecision && profile.forcesHighPrecision
  | "gs_invocations" => stage == .geometry && 1 < invocations && !profile.hasInvocations
  | "do_while" => profile.needs .replaceDoWhile
  | "short_circuit" => profile.needs .unfoldShortCircuit
  | "loop_condition_and_true" => profile.needs .loopConditionAndTrue
  | "constant_exponent_pow" => profile.needs .expandConstantPow
  | "int_abs" => profile.needs .emulateIntAbs
  | "min_abs" => profile.needs .splitMinAbs
  | "negative_fract" => profile.needs .guardFract
  | "negated_atan_operand" => profile.needs .multiplyAtanSign
  | _ => true

/-- The rules in the order in which they run. -/
def ruleNames : List String :=
  ["header", "force_high_precision", "frag_coord", "texture_sample", "gs_invocations",
    "ternary_lvalue", "do_while", "short_circuit", "loop_condition_and_true",
    "constant_exponent_pow", "int_abs", "min_abs", "negative_fract", "negated_atan_operand",
    "swizzle"]

/-- Names of the enabled rules among some, for the program as it is given. -/
def enabledNames (t : Target) (p : Program) (rs : List Rule) : List String :=
  (rs.map Rule.name).filter (gate t.profile p.stage p.declaredInvocations)

/-- The rules of a list that have started, if they ran from a program in a scratch state: all that
    are enabled, or those up to the one that failed. -/
def Started (t : Target) (p q : Program) (s : Scratch) (rs : List Rule)
    (result : Except Fault Program) (started : List String) : Prop :=
  match result with
  | .ok _ => started = enabledNames t p rs
  | .error fault => ∃ before r after q' s₁, rs = before ++ r :: after ∧
      (before.foldlM (Rule.step t) q).run.run s = (.ok q', s₁) ∧
      ((r.step t q').run.run s₁).1 = .error fault ∧
      started = enabledNames t p (before ++ [r])

variable {t : Target} {p q : Program} {s s' : Scratch} {r : Rule} {rs : List Rule}

/-- What enables a rule is told by the profile and by the stage and the invocations of a program. -/
theorem enabled_eq_gate (hr : r ∈ pipeline) :
    r.enabled t p = gate t.profile p.stage p.declaredInvocations r.name := by
  simp only [pipeline, List.mem_cons, List.not_mem_nil, or_false] at hr
  obtain rfl | rfl | rfl | rfl | rfl | rfl | rfl | rfl | rfl | rfl | rfl | rfl | rfl | rfl | rfl :=
    hr
  all_goals rfl

/-- A rule reports that it starts if it is enabled, and then what it puts in front of the
    program. -/
theorem run_step (hr : r ∈ pipeline) (q : Program) (s : Scratch) :
    ∃ result s' events, (r.step t q).run.run s = (result, s') ∧ s'.log = s.log ++ events ∧
      s.Tells events s' ∧
      events.filterMap Event.startedRule? = (if r.enabled t q then [r.name] else []) := by
  unfold Rule.step
  split
  · -- A rule that is on notes that it starts, and then what it notes itself.
    obtain ⟨result, s', events, -, htells, hquiet, hrun⟩ := journal_rule hr t q s
    have hstart : (modify (Scratch.report (.ruleStarts r.name)) : GenM PUnit).run.run s =
        (.ok ⟨⟩, s.withLog (s.log ++ [.ruleStarts r.name])) := rfl
    refine ⟨result, s'.withLog (s.log ++ [.ruleStarts r.name] ++ events),
      .ruleStarts r.name :: events, ?_, ?_, ?_, ?_⟩
    · rw [run_bind_of_ok hstart]
      exact hrun _
    · exact List.append_assoc _ _ _
    · exact ⟨htells.globals, htells.helpers,
        List.forall_mem_cons.mpr ⟨rfl, htells.unfinished⟩⟩
    · exact congrArg (r.name :: ·) hquiet
  · exact ⟨.ok q, s, [], rfl, (List.append_nil _).symm, .refl s, rfl⟩

/-- No two rules have the same name. -/
theorem nodup_names : (pipeline.map Rule.name).Nodup := by decide

/-- As long as the rule for invocations has not run, the layouts of a program are those that it was
    given with. -/
theorem sameInterface_step (hrs : r :: rs <:+ pipeline)
    (hq : "gs_invocations" ∈ (r :: rs).map Rule.name → p.SameInterface q) {q' : Program}
    (hrun : (r.step t q).run.run s = (.ok q', s')) :
    "gs_invocations" ∈ rs.map Rule.name → p.SameInterface q' := by
  intro hmem
  have hsame := hq (List.mem_cons_of_mem _ hmem)
  have hname : r.name ≠ "gs_invocations" := by
    rintro heq
    have hnodup := nodup_names.sublist (hrs.sublist.map Rule.name)
    exact (List.nodup_cons.mp hnodup).1 (heq ▸ hmem)
  exact (keepsInterface_step (hrs.subset List.mem_cons_self) hname hsame).of_run hrun

/-- The events of rules one after the other. -/
theorem run_rules (hrs : rs <:+ pipeline)
    (hq : "gs_invocations" ∈ rs.map Rule.name → p.SameInterface q) (s : Scratch) :
    ∃ result s' events, (rs.foldlM (Rule.step t) q).run.run s = (result, s') ∧
      s'.log = s.log ++ events ∧ s.Tells events s' ∧
      Started t p q s rs result (events.filterMap Event.startedRule?) := by
  -- By induction on the rules that are left. That they end the pipeline is what says which program
  -- interface the gates of the later rules see.
  induction rs generalizing q s with
  | nil => exact ⟨.ok q, s, [], rfl, (List.append_nil _).symm, .refl s, rfl⟩
  | cons r rs ih =>
    have hr : r ∈ pipeline := hrs.subset List.mem_cons_self
    have hgate : r.enabled t q = gate t.profile p.stage p.declaredInvocations r.name :=
      (enabled_eq hr fun hname => hq (List.mem_cons.mpr (.inl hname.symm))).trans
        (enabled_eq_gate hr)
    have hnames : ∀ rs, enabledNames t p (r :: rs) =
        (if r.enabled t q then [r.name] else []) ++ enabledNames t p rs := by
      intro rs
      rw [hgate, enabledNames, List.map_cons, List.filter_cons]
      split <;> rfl
    obtain ⟨result, s₁, events, hrun, hlog, htells, hstarted⟩ := run_step (t := t) hr q s
    cases result with
    -- The rule fails: the run ends here, and nothing was started after it.
    | error fault =>
      refine ⟨.error fault, s₁, events, run_bind_of_error hrun, hlog, htells,
        [], r, rs, q, s, rfl, rfl, congrArg Prod.fst hrun, ?_⟩
      exact hstarted.trans ((hnames []).trans (List.append_nil _)).symm
    -- The rule succeeds: the rest runs on its result, with its events behind those of the rule.
    | ok q' =>
      obtain ⟨result, s₂, events', hrun', hlog', htells', hstarted'⟩ :=
        ih ((List.suffix_cons r rs).trans hrs) (sameInterface_step hrs hq hrun) s₁
      refine ⟨result, s₂, events ++ events', (run_bind_of_ok hrun).trans hrun', ?_,
        htells.trans htells', ?_⟩
      · rw [hlog', hlog, List.append_assoc]
      rw [List.filterMap_append, hstarted]
      cases result with
      | ok p' =>
        have hrest : events'.filterMap Event.startedRule? = enabledNames t p rs := hstarted'
        rw [hrest]
        exact (hnames rs).symm
      -- A later rule fails: the rules before it are this one and those that succeeded.
      | error fault =>
        obtain ⟨before, r', after, q'', s₃, rfl, hbefore, hfails, hrest⟩ := hstarted'
        refine ⟨r :: before, r', after, q'', s₃, rfl, (run_bind_of_ok hrun).trans hbefore, hfails,
          ?_⟩
        rw [hrest]
        exact (hnames (before ++ [r'])).symm

/-- No variable is declared twice in front of a program. -/
theorem aboutPreamble_nodup : AboutPreamble fun s => s.globalNames.Nodup where
  congr s s' hs _ hglobals := by rwa [Scratch.globalNames, hglobals]
  helper s hs ty := by
    unfold Scratch.addHelper
    split <;> exact hs
  global s hs d _ := by
    unfold Scratch.declareGlobal
    split
    · exact hs
    · next hnew =>
      -- The name is declared by no global so far, or nothing would have been added.
      have hname : d.name ∉ s.globalNames := by
        intro hmem
        obtain ⟨g, hg, hname⟩ := List.mem_filterMap.mp hmem
        refine hnew (List.any_eq_true.mpr ⟨g, hg, ?_⟩)
        cases g with
        | declared d' => exact beq_iff_eq.mpr (Option.some.inj hname)
        | upperLeftOrigin => cases hname
      show ((s.globals ++ [AddedGlobal.declared d]).filterMap AddedGlobal.name?).Nodup
      rw [List.filterMap_append]
      refine List.nodup_append.mpr ⟨hs, List.pairwise_singleton _ _, fun a ha b hb heq => hname ?_⟩
      exact List.mem_singleton.mp (heq ▸ hb) ▸ ha
  -- The origin has no name of its own.
  origin s hs := by
    unfold Scratch.declareUpperLeftOrigin
    split
    · exact hs
    · show ((s.globals ++ [AddedGlobal.upperLeftOrigin]).filterMap AddedGlobal.name?).Nodup
      rw [List.filterMap_append]
      exact (List.append_nil _).symm ▸ hs

/-! ### What the text declares -/

section

open Glsl

variable {p' : Program}

/-- A helper function starts its loops plainly, of which it has none, and declares its own name and
    that of its parameter. -/
theorem names_helper (hrun : (legalize t p).run.run {} = (.ok p', s)) :
    ∀ h ∈ s.helpers, h.2.Plain ∧ h.2.name = IntAbs.helperName ∧
      (Element.function h.2).names = [h.2.name, "x"] := by
  intro h hh
  obtain ⟨ty, hty⟩ := (legalize_adds_helpers hrun h hh).resolve_left List.not_mem_nil
  rw [hty]
  exact ⟨List.forall_mem_singleton.mpr (Stmt.plain_of_leaf rfl), rfl, rfl⟩

/-- Variables that rules added are declared where they stand, under their names. -/
theorem names_added {gs : List AddedGlobal} (hgs : ∀ g ∈ gs, ∀ d, g = .declared d → IsAdded d) :
    (gs.map AddedGlobal.declaredName).filter (· != "gl_FragCoord") =
        gs.filterMap AddedGlobal.name? ∧
      (gs.map AddedGlobal.declaredName).filter isDeclarable = gs.map AddedGlobal.declaredName := by
  -- The names of the globals are fixed, so they are looked at one by one.
  have hnames : ([TargetSize.heightName, TargetSize.widthName, Invocations.counterName,
      FragCoord.varyingName].all fun x => x != "gl_FragCoord" && isDeclarable x) = true := by decide
  have hcoord : isDeclarable "gl_FragCoord" = true := by decide
  induction gs with
  | nil => exact ⟨rfl, rfl⟩
  | cons g gs ih =>
    obtain ⟨hg, hrest⟩ := List.forall_mem_cons.mp hgs
    obtain ⟨ihown, ihall⟩ := ih hrest
    cases g with
    | declared d =>
      have hname := List.all_eq_true.mp hnames _ (hg d rfl).name
      obtain ⟨hother, hdeclarable⟩ := Bool.and_eq_true_iff.mp hname
      have hcons : (AddedGlobal.declared d :: gs).map AddedGlobal.declaredName =
          d.name :: gs.map AddedGlobal.declaredName := rfl
      rw [hcons, List.filter_cons_of_pos (by exact hother), ihown,
        List.filter_cons_of_pos hdeclarable, ihall]
      exact ⟨rfl, rfl⟩
    | upperLeftOrigin =>
      exact ⟨ihown, (List.filter_cons_of_pos hcoord).trans (congrArg ("gl_FragCoord" :: ·) ihall)⟩

/-- The variables that rules add have one of a few names. -/
theorem globalNames_subset (hrun : (legalize t p).run.run {} = (.ok p', s)) :
    s.globalNames ⊆ [TargetSize.heightName, TargetSize.widthName, Invocations.counterName,
      FragCoord.varyingName] := by
  intro x hx
  obtain ⟨g, hg, hname⟩ := List.mem_filterMap.mp hx
  cases g with
  | declared d =>
    have hadded := (legalize_adds_globals hrun _ hg).resolve_left List.not_mem_nil d rfl
    exact Option.some.inj hname ▸ hadded.name
  | upperLeftOrigin => cases hname

/-- What the text of a program declares behind the fragment color: the variables that rules added,
    among which the coordinate of fragments may be declared anew, the helper functions with their
    parameter, each as they are reported, and then the names of the program. -/
def DeclaresReported (t : Target) (s : Scratch) (p : Program) : Prop :=
  ∃ globals, globals.filter (· != "gl_FragCoord") = s.globalNames ∧
    Piece.declaredNames (programPieces t.profile s p) =
      (if s.declaresFragOutput then ["sk_FragColor"] else []) ++ globals ++
        s.helperNames.flatMap (fun name => [name, "x"]) ++ p.names.filter isDeclarable

/-- The text of a program declares what was reported. -/
theorem declaredNames_legalize (hp : p.defect? = none)
    (hrun : (legalize t p).run.run {} = (.ok p', s)) : DeclaresReported t s p' := by
  have hplain : p'.Plain := (plain_rules (fun _ => id) (plain_of_defect? hp)).of_run hrun
  have hhelpers := names_helper hrun
  -- Every global and every helper was added by a rule, as nothing was there before.
  have hglobals : ∀ g ∈ s.globals, ∀ d, g = .declared d → IsAdded d := fun g hg =>
    (legalize_adds_globals hrun g hg).resolve_left List.not_mem_nil
  obtain ⟨hown, hall⟩ := names_added hglobals
  have hadded : (s.helpers.flatMap fun h => (Element.function h.2).names) =
      s.helperNames.flatMap fun name => [name, "x"] := by
    rw [Scratch.helperNames, List.flatMap_map]
    exact List.flatMap_congr fun h hh => (hhelpers h hh).2.2
  have hdeclarable : ∀ x ∈ s.helperNames.flatMap fun name => [name, "x"],
      isDeclarable x = true := by
    intro x hx
    obtain ⟨name, hname, hx⟩ := List.mem_flatMap.mp hx
    obtain ⟨h, hh, rfl⟩ := List.mem_map.mp hname
    have hboth : [IntAbs.helperName, "x"].all isDeclarable = true := by decide
    exact List.all_eq_true.mp hboth x ((hhelpers h hh).2.1 ▸ hx)
  refine ⟨s.globals.map AddedGlobal.declaredName, hown, ?_⟩
  rw [declaredNames_programPieces (fun h hh => (hhelpers h hh).1) hplain, hadded,
    List.filter_append, List.filter_append, hall, List.filter_eq_self.mpr hdeclarable,
    List.append_assoc, List.append_assoc, List.append_assoc]

end

end Legalize

/-! ### Whole generations -/

open Glsl Legalize

variable {t : Target} {p : Program}

/-- The events of a generation of which the text, or the fault, is known. -/
theorem events_of_run {ps : List Piece} {s : Scratch} (h : (piecesM t p).run.run {} = (.ok ps, s)) :
    (generateWithEvents t p).2 = s.log ++
      [.generated t.profile.name p.stage (Piece.render ps).utf8ByteSize s.inputs] := by
  rw [generateWithEvents, generateM, run_bind_of_ok h]
  rfl

/-- A run that fails reports what it noted up to the fault. -/
theorem events_of_fault {fault : Fault} {s : Scratch}
    (h : (piecesM t p).run.run {} = (.error fault, s)) : (generateWithEvents t p).2 = s.log := by
  have hrun : (generateM t p).run.run {} = (.error fault, s) := run_bind_of_error h
  rw [generateWithEvents, hrun]

/-- A program with a defect is refused without an event. Of any other program the events tell, in
    order, which rules started: all that the profile and the stage and the invocations of the
    program enable, up to the one that failed, if any did. They tell which variables and which
    helper functions stand in front of the text, all variables of different names, and if there is a
    text then it declares these, and one last event gives its length and the note that it comes
    with. Without a text there is no such event. -/
theorem events_tell_generation (t : Target) (p : Program) :
    (∀ defect, p.defect? = some defect →
      generateWithEvents t p = (.error (Fault.toError t.profile (.malformed defect)), [])) ∧
    (p.defect? = none → ∃ result s, (legalize t p).run.run {} = (result, s) ∧
      Started t p p {} pipeline result (s.log.filterMap Event.startedRule?) ∧
      s.log.filterMap Event.addedGlobal? = s.globalNames ∧ s.globalNames.Nodup ∧
      s.log.filterMap Event.addedHelper? = s.helperNames ∧
      (∀ e ∈ s.log, e.isGenerated = false) ∧
      match generate t p with
      | .ok out => (∃ p', result = .ok p' ∧
            out = ⟨Piece.render (programPieces t.profile s p'), s.inputs⟩ ∧
            DeclaresReported t s p') ∧
          s.log.filterMap Event.startedRule? =
            ruleNames.filter (gate t.profile p.stage p.declaredInvocations) ∧
          (generateWithEvents t p).2 = s.log ++
            [.generated t.profile.name p.stage out.text.utf8ByteSize out.inputs]
      | .error e => (∀ fault, result = .error fault → e = fault.toError t.profile) ∧
          (generateWithEvents t p).2 = s.log) := by
  -- A defect is found before any rule starts. Otherwise the run of the rules decides, and then the
  -- printer.
  refine ⟨fun defect hdefect => ?_, fun hp => ?_⟩
  · have hrun : (generateM t p).run.run {} = (.error (.malformed defect), {}) := by
      rw [generateM, piecesM, checkM, hdefect]
      rfl
    rw [generateWithEvents, hrun]
    rfl
  · obtain ⟨result, s, events, hrun, hlog, htells, hstarted⟩ :=
      run_rules (t := t) (p := p) (List.suffix_refl pipeline) (fun _ => .refl p) {}
    obtain rfl : s.log = events := hlog
    have hnodup := (aboutPreamble_nodup.legalize (t := t) (p := p) {} List.nodup_nil).2
    rw [show (legalize t p).run.run {} = (result, s) from hrun] at hnodup
    refine ⟨result, s, hrun, hstarted, htells.globals.symm, hnodup, htells.helpers.symm,
      htells.unfinished, ?_⟩
    cases result with
    | error fault =>
      have hpieces := run_piecesM_of_fault hp hrun
      rw [generate_of_fault hpieces]
      exact ⟨fun _ h => Except.error.inj h ▸ rfl, events_of_fault hpieces⟩
    | ok p' =>
      have hpieces := (run_piecesM hp hrun).trans (run_printM t.profile p' s)
      cases hobstacle : programObstacle? t.profile s p' with
      | some fault =>
        rw [hobstacle] at hpieces
        rw [generate_of_fault hpieces]
        refine ⟨?_, events_of_fault hpieces⟩
        rintro _ ⟨⟩
      | none =>
        rw [hobstacle] at hpieces
        rw [generate_of_run hpieces]
        exact ⟨⟨p', rfl, rfl, declaredNames_legalize hp hrun⟩, hstarted, events_of_run hpieces⟩

end ShaderGen
