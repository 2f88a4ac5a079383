import ShaderGen.Legalize.Pipeline
import ShaderGen.Proofs.Rewriting

/-!
# What rules do to the scratch state

Rules change the scratch state by a few operations only: they take names, name extensions, declare
globals, add helper functions and report what they do. A judgement that holds of each of these
(`Operations`) holds of every rule. Most rules make do with fewer of them (`Amendments`); the rest
is what the first rule (`Additions`) and the rule for fragment coordinates need.

## Key results

- `Amendments.rule`: every rule after the one for fragment coordinates
- `Additions.rule`: every rule but the one for fragment coordinates
- `Operations.rule`: every rule
-/

namespace ShaderGen

/-! ### Judgements on work with temporaries and on work that can fail -/

namespace Judgement

variable (J : Judgement ScratchM)

/-- The judgement on work that declares temporaries, whatever they are. -/
def temp : Judgement Legalize.TempM where
  Holds {α} Q x := ∀ temps, J.Holds (fun r : α × List Decl => Q r.1) (x.run temps)
  pure h _ := J.pure h
  bind h hf temps := J.bind (h temps) fun r hr => hf r.1 hr r.2

/-- The judgement on work that can fail: nothing is said of what a failure returns. -/
def gen : Judgement GenM where
  Holds {α} Q x := J.Holds (fun r : Except Fault α => ∀ a, r = .ok a → Q a) x.run
  pure h := J.pure fun _ ha => Except.ok.inj ha ▸ h
  bind {_ _ _ _ x f} h hf := by
    rw [ExceptT.run_bind]
    refine J.bind h fun r hr => ?_
    cases r with
    | error fault => exact J.pure nofun
    | ok a => exact hf a (hr a rfl)

variable {J : Judgement ScratchM} {α : Type} {Q : α → Prop}

/-- A computation that cannot fail is one of a kind that may. -/
theorem gen_lift {x : ScratchM α} (h : J.Holds Q x) : J.gen.Holds Q (liftM x) :=
  J.bind h fun _ ha => J.pure fun _ heq => Except.ok.inj heq ▸ ha

/-- A failure has no result to judge. -/
theorem gen_fail (fault : Fault) : J.gen.Holds Q (throw fault) := J.pure nofun

/-- Work that only looks at what it is given. -/
theorem gen_liftMalformed (x : Except Malformation α) :
    J.gen.Holds (fun _ => True) (liftMalformed x) := by
  cases x with
  | ok a => exact J.gen.pure trivial
  | error cause => exact gen_fail _

/-- What is unsupported fails, and changes nothing. -/
theorem gen_liftUnsupported (x : Except Unsupported α) :
    J.gen.Holds (fun _ => True) (liftUnsupported x) := by
  cases x with
  | ok a => exact J.gen.pure trivial
  | error cause => exact gen_fail _

end Judgement

namespace Legalize

/-! ### Operations on the scratch state -/

/-- A judgement holds of the operations of all rules after the one for fragment coordinates. -/
structure Amendments (J : Judgement ScratchM) : Prop where
  fresh (stem : Stem) : J.Holds (fun _ => True) (freshName stem)
  emulates (count : Nat) :
    J.Holds (fun _ => True) (modify (Scratch.report (.emulatesInvocations count)) : ScratchM PUnit)
  helper (ty : Ty) :
    J.Holds (fun _ => True) (modify (Scratch.addHelper ty.shape (IntAbs.helper ty)) :
      ScratchM PUnit)
  counter : J.Holds (fun _ => True)
    (modify (Scratch.declareGlobal (.uninitialized .auto Invocations.counterName .int)) :
      ScratchM PUnit)

/-- A judgement holds of the operations of all rules but the one for fragment coordinates. -/
structure Additions (J : Judgement ScratchM) : Prop extends Amendments J where
  preamble (names : List String) (declaresFragOutput : Bool) :
    J.Holds (fun _ => True) (modify fun s =>
      { names.foldl (fun s name => s.requireExtension name) s with declaresFragOutput } :
        ScratchM PUnit)

/-- A judgement holds of the operations of all rules. -/
structure Operations (J : Judgement ScratchM) : Prop extends Additions J where
  height : J.Holds (fun _ => True) (modify TargetSize.declareHeight : ScratchM PUnit)
  width : J.Holds (fun _ => True) (modify TargetSize.declareWidth : ScratchM PUnit)
  policy (policy : CoordPolicy) (usesCoord : Bool) : J.Holds (fun _ => True)
    (modify (Scratch.report (.coordPolicy policy usesCoord)) : ScratchM PUnit)
  varying (storage : Storage) : J.Holds (fun _ => True)
    (modify (Scratch.declareGlobal (.uninitialized storage FragCoord.varyingName (.vec 4))) :
      ScratchM PUnit)
  origin : J.Holds (fun _ => True) (modify Scratch.declareUpperLeftOrigin : ScratchM PUnit)
  legacyOrigin : J.Holds (fun _ => True) (modify fun s =>
    (s.requireExtensionFirst FragCoord.conventionsExtension).declareUpperLeftOrigin :
      ScratchM PUnit)

/-! ### Walks -/

section

variable {m : Type → Type} [Monad m] [LawfulMonad m] (J : Judgement m)

/-- Whatever the nodes of a program are replaced by. -/
theorem mapNodesM_holds {f : Expr → m Expr} (hf : ∀ e, J.Holds (fun _ => True) (f e))
    (p : Program) : J.Holds (fun _ => True) (p.mapNodesM f) := by
  have hnodes : J.Holds (Program.Meets .anything) (p.mapNodesM f) :=
    Program.mapExprsM_meets J
      (fun e _ => Expr.bottomUpM_holds J (R := fun _ _ => True) (fun e cs _ => hf _) e) rfl
      p.meets_anything
  exact J.mono hnodes fun _ _ => trivial

/-- Whatever the functions of a program are replaced by. -/
theorem mapFunctionsM_holds {f : Function → m Function}
    (hf : ∀ fn, J.Holds (fun _ => True) (f fn)) (p : Program) :
    J.Holds (fun _ => True) (p.mapFunctionsM f) := by
  have hfunctions : J.Holds (Program.Meets .anything) (p.mapFunctionsM f) :=
    Program.mapFunctionsM_meets J (fun fn _ => J.mono (hf fn) fun fn' _ => fn'.meets_anything)
      p.meets_anything fun d _ => ⟨trivial, fun _ _ => trivial⟩
  exact J.mono hfunctions fun _ _ => trivial

end

/-! ### Rule by rule -/

namespace Amendments

open Judgement

variable {J : Judgement ScratchM} {t : Target} {p : Program}

/-- A fresh temporary takes a name. -/
theorem freshTemp (hJ : Amendments J) (stem : Stem) (ty : Ty) :
    J.temp.Holds (fun _ => True) (Legalize.freshTemp stem ty) := by
  intro temps
  have hrun : (Legalize.freshTemp stem ty).run temps =
      freshName stem >>= fun name => pure (.ofVar name ty, temps ++ [.plain name ty none]) := rfl
  rw [hrun]
  exact J.bind (hJ.fresh stem) fun _ _ => J.pure trivial

/-- The loop over the invocations declares a counter. -/
theorem invocations (hJ : Amendments J) :
    J.gen.Holds (fun _ => True) (Invocations.legalize p) := by
  unfold Invocations.legalize
  refine J.gen.bind (gen_lift (hJ.emulates _)) fun _ _ => ?_
  split
  · exact J.gen.bind (gen_lift hJ.counter) fun _ _ => J.gen.pure trivial
  · exact gen_fail _

/-- Loops that are replaced take names. -/
theorem doWhile (hJ : Amendments J) : J.Holds (fun _ => True) (DoWhile.legalize p) := by
  refine mapFunctionsM_holds J (fun fn => ?_) p
  refine J.bind (Q := fun _ => True) ?_ fun _ _ => J.pure trivial
  refine J.mono (Stmt.expandListM_fits (N := fun _ => True) (Q := fun _ => True) J
    (fun s => ?_) fun s _ => s.fits_of_forall (fun _ => trivial) fun _ => trivial)
    fun _ _ => trivial
  have hfits : ∀ replace : Stmt → List Stmt, ∀ t : Stmt, t.Fits (fun _ => True) (fun _ => True) →
      ∀ u ∈ replace t, u.Fits (fun _ => True) fun _ => True :=
    fun _ _ _ u _ => u.fits_of_forall (fun _ => trivial) fun _ => trivial
  -- A name is drawn for a loop that tests at the end, and for nothing else.
  unfold DoWhile.visit
  split
  · exact J.bind (hJ.fresh _) fun _ _ => J.pure (hfits _)
  · exact J.pure (hfits _)

/-- An emulated absolute value adds a helper. -/
theorem emulate (hJ : Amendments J) (e : Expr) :
    J.Holds (fun _ => True) (IntAbs.emulateNode e) :=
  IntAbs.emulateNode_holds (P := J.Holds fun _ => True) (J.pure trivial) fun ty _ _ _ =>
    J.bind (hJ.helper (ty.withPrecision .full)) fun _ _ => J.pure trivial

/-- A moved initial value takes a name. -/
theorem hoist (hJ : Amendments J) (stem : Stem) (needsFunction : Expr → Bool) :
    J.gen.Holds (fun _ => True) (HoistInit.hoist stem needsFunction p) := by
  refine J.gen.bind (Q := fun _ => True)
    (J.gen.mono (J.gen.mapM_forall (R := fun _ => True) fun el _ => ?_)
      fun _ _ => trivial) fun _ _ => J.gen.pure trivial
  -- What is hoisted draws a name, anything else leaves the state alone or fails.
  obtain ⟨heq, -⟩ | ⟨d, value, rfl, -, -, ⟨-, heq⟩ | ⟨-, heq⟩⟩ :=
    HoistInit.hoistElement_cases stem needsFunction el <;> rw [heq]
  · exact J.gen.pure trivial
  · exact J.gen.bind (gen_lift (hJ.fresh stem)) fun _ _ => J.gen.pure trivial
  · exact gen_fail _

/-- A function whose nodes are replaced, with temporaries declared at the start of its body. -/
theorem withTemporaries {f : Expr → TempM Expr} (hf : ∀ e, J.temp.Holds (fun _ => True) (f e))
    (fn : Function) : J.Holds (fun _ => True) (Legalize.withTemporaries f fn) := by
  have hbody : J.temp.Holds (Function.Meets .anything) (fn.mapExprsM (Expr.bottomUpM f)) :=
    Function.mapExprsM_meets J.temp
      (fun e _ => Expr.bottomUpM_holds J.temp (R := fun _ _ => True) (fun e cs _ => hf _) e)
      rfl fn.meets_anything
  exact J.bind (hbody []) fun _ _ => J.pure trivial

/-- The rule for minima takes names for temporaries and moved values. -/
theorem minAbs (hJ : Amendments J) : J.gen.Holds (fun _ => True) (MinAbs.legalize p) := by
  refine J.gen.bind (hJ.hoist _ _) fun p _ => mapFunctionsM_holds _ (fun fn => ?_) p
  refine gen_lift (withTemporaries (fun e => ?_) fn)
  unfold MinAbs.splitNode
  split
  · exact J.temp.bind (hJ.freshTemp _ _) fun _ _ =>
      J.temp.bind (hJ.freshTemp _ _) fun _ _ => J.temp.pure trivial
  · exact J.temp.pure trivial

/-- So does the rule for fractions. -/
theorem fract (hJ : Amendments J) : J.gen.Holds (fun _ => True) (Fract.legalize p) := by
  have hguard : ∀ e, J.temp.Holds (fun _ => True) (Fract.guardNode e) := by
    intro e
    -- A fraction whose operand acts asks for a temporary.
    unfold Fract.guardNode
    split
    · split
      · exact J.temp.bind (hJ.freshTemp _ _) fun _ _ => J.temp.pure trivial
      · exact J.temp.pure trivial
    · exact J.temp.pure trivial
  have helement : ∀ el, J.Holds (fun _ => True) (Fract.guardElement el) := by
    intro el
    cases el with
    | function fn => exact J.bind (withTemporaries hguard fn) fun _ _ => J.pure trivial
    | _ => exact J.pure trivial
  refine J.gen.bind (hJ.hoist _ _) fun p _ => ?_
  refine J.gen.bind (Q := fun _ => True) (gen_lift ?_) fun _ _ => J.gen.pure trivial
  exact J.mono (J.mapM_forall fun el _ => helement el) fun _ _ => trivial

/-- No rule after the one for fragment coordinates does anything else. -/
theorem rule (hJ : Amendments J) {r : Rule} (hr : r ∈ rulesAfter "frag_coord") (t : Target)
    (p : Program) :
    J.gen.Holds (fun _ => True) (r.run t p) := by
  simp only [rulesAfter, pipeline, List.dropWhile, Rule.name_always, String.reduceBNe,
    List.tail_cons, List.mem_cons, List.not_mem_nil, or_false] at hr
  -- One case for each rule after the one about the fragment coordinate, in their order.
  obtain rfl | rfl | rfl | rfl | rfl | rfl | rfl | rfl | rfl | rfl | rfl | rfl := hr
  · exact gen_liftMalformed _
  · exact hJ.invocations
  · exact gen_liftUnsupported _
  · exact gen_lift hJ.doWhile
  · exact J.gen.pure trivial
  · exact J.gen.pure trivial
  · exact gen_liftMalformed _
  · exact gen_lift (mapNodesM_holds _ hJ.emulate p)
  · exact hJ.minAbs
  · exact hJ.fract
  · exact J.gen.pure trivial
  · exact gen_liftMalformed _

end Amendments

namespace Additions

open Judgement

variable {J : Judgement ScratchM} {t : Target} {p : Program}

/-- The header asks for extensions and the output. -/
theorem header (hJ : Additions J) : J.gen.Holds (fun _ => True) (Preamble.legalize t p) := by
  have hnote := gen_lift (hJ.preamble (Preamble.extensions t.profile p)
    (Preamble.declaresFragOutput t.profile p))
  unfold Preamble.legalize
  split
  · exact J.gen.bind (gen_fail _ : J.gen.Holds (fun _ => True) _) fun _ _ =>
      J.gen.bind hnote fun _ _ => J.gen.pure trivial
  · exact J.gen.bind hnote fun _ _ => J.gen.pure trivial

/-- No rule but the one for fragment coordinates does anything else. -/
theorem rule (hJ : Additions J) {r : Rule}
    (hr : r ∈ rulesBefore "frag_coord" ++ rulesAfter "frag_coord")
    (t : Target) (p : Program) : J.gen.Holds (fun _ => True) (r.run t p) := by
  rcases List.mem_append.mp hr with hr | hr
  · simp only [rulesBefore, pipeline, List.takeWhile, Rule.name_always, String.reduceBNe,
      List.mem_cons, List.not_mem_nil, or_false] at hr
    obtain rfl | rfl := hr
    · exact hJ.header
    · exact J.gen.pure trivial
  · exact hJ.toAmendments.rule hr t p

end Additions

namespace Operations

open Judgement

variable {J : Judgement ScratchM} {t : Target} {p : Program}

/-- The rule about sizes declares uniforms. -/
theorem targetSize (hJ : Operations J) : J.Holds (fun _ => True) (TargetSize.legalize p) := by
  unfold TargetSize.legalize
  dsimp only
  -- Each size that is used is declared, the width first.
  split
  · split
    · exact J.bind hJ.width fun _ _ => J.bind hJ.height fun _ _ => J.pure trivial
    · exact J.bind hJ.width fun _ _ => J.pure trivial
  · split
    · exact J.bind hJ.height fun _ _ => J.pure trivial
    · exact J.pure trivial

/-- A policy may declare a uniform, a varying or the origin. -/
theorem applyPolicy (hJ : Operations J) (policy : CoordPolicy) (usesCoord : Bool) (p : Program) :
    J.Holds (fun _ => True) (FragCoord.applyPolicy policy usesCoord p) := by
  unfold FragCoord.applyPolicy
  cases policy with
  | direct upperLeft =>
    dsimp only
    split
    · exact J.bind hJ.origin fun _ _ => J.pure trivial
    · exact J.pure trivial
  | legacyExtension =>
    dsimp only
    split
    · exact J.bind hJ.legacyOrigin fun _ _ => J.pure trivial
    · exact J.pure trivial
  | fromHeight =>
    dsimp only
    split
    · exact J.bind hJ.height fun _ _ => J.pure trivial
    · exact J.pure trivial
  -- The varying is declared in a vertex or fragment program, and nothing elsewhere.
  | fromVarying =>
    dsimp only
    split
    · exact J.bind (hJ.varying _) fun _ _ => J.pure trivial
    · exact J.bind (hJ.varying _) fun _ _ => J.pure trivial
    · exact J.pure trivial

/-- The rule about the coordinate does no more than these. -/
theorem fragCoord (hJ : Operations J) :
    J.gen.Holds (fun _ => True) (FragCoord.legalize t p) := by
  unfold FragCoord.legalize
  refine J.gen.bind (gen_lift hJ.targetSize) fun p _ => ?_
  have hrest : J.gen.Holds (fun _ => True) (do
      modify (Scratch.report (.coordPolicy t.coordPolicy (p.anyNode FragCoord.isFragCoord)))
      let p ← liftM (FragCoord.applyPolicy t.coordPolicy (p.anyNode FragCoord.isFragCoord) p)
      pure (if t.flipsY then FlipY.legalize p else p) : GenM Program) :=
    J.gen.bind (gen_lift (hJ.policy _ _)) fun _ _ =>
      J.gen.bind (gen_lift (hJ.applyPolicy _ _ p)) fun _ _ => J.gen.pure trivial
  -- A program of another stage that reads the coordinate is refused.
  dsimp only
  split
  · exact J.gen.bind (Q := fun _ => True) (gen_fail _) fun _ _ => hrest
  · exact hrest

/-- No rule does anything else. -/
theorem rule (hJ : Operations J) {r : Rule} (hr : r ∈ pipeline) (t : Target) (p : Program) :
    J.gen.Holds (fun _ => True) (r.run t p) := by
  rw [pipeline_eq "frag_coord" rfl, List.mem_append, List.mem_cons] at hr
  rcases hr with hr | rfl | hr
  · exact hJ.toAdditions.rule (List.mem_append_left _ hr) t p
  · exact hJ.fragCoord
  · exact hJ.toAdditions.rule (List.mem_append_right _ hr) t p

end Operations

/-! ### Rules one after the other -/

/-- A rule is as told if it is where it is enabled, and if it may report that it starts. -/
theorem holds_step {J : Judgement ScratchM} {r : Rule} {t : Target} {p : Program}
    (hstart : J.Holds (fun _ => True)
      (modify (Scratch.report (.ruleStarts r.name)) : ScratchM PUnit))
    (hrun : J.gen.Holds (fun _ => True) (r.run t p)) :
    J.gen.Holds (fun _ => True) (r.step t p) := by
  unfold Rule.step
  split
  · exact J.gen.bind (Judgement.gen_lift hstart) fun _ _ => hrun
  · exact J.gen.pure trivial

/-- What each rule does, several of them do. -/
theorem foldlM_holds (J : Judgement GenM) {t : Target} {rs : List Rule}
    (hrs : ∀ r ∈ rs, ∀ p, J.Holds (fun _ => True) (r.step t p)) (p : Program) :
    J.Holds (fun _ => True) (rs.foldlM (Rule.step t) p) := by
  induction rs generalizing p with
  | nil => exact J.pure trivial
  | cons r rs ih =>
    rw [List.foldlM_cons]
    exact J.bind (hrs r List.mem_cons_self p) fun p _ =>
      ih (fun r' hr' => hrs r' (List.mem_cons_of_mem _ hr')) p

end Legalize

end ShaderGen
