import ShaderGen.Proofs.Legalize.Carried

/-!
# Properties that rules keep

`Legalize.Kept Q` says what a property of expressions has to satisfy for the rules to keep it: each
rewriting of nodes keeps it, and the few expressions that rules bring in have it. The rules then
keep it in whole programs (`Kept.rule`), with the exception of the rule that flips a program, which
may turn it into another property (`Kept.fragCoord`), and whatever rule the property is about.

## Key results

- `Kept.legalize_yields`: a property that holds before a rule and one that holds after it
-/

namespace ShaderGen.Legalize

/-- The judgement on work that declares temporaries: none of them has an initial value. -/
def unvalued : Judgement TempM where
  Holds Q x := ∀ temps : List Decl, (∀ d ∈ temps, d.init = none) →
    Yields (fun r => Q r.1 ∧ ∀ d ∈ r.2, d.init = none) (x.run temps)
  pure h temps htemps := .pure ⟨h, htemps⟩
  bind hx hf temps htemps := by
    rw [StateT.run_bind]
    exact (hx temps htemps).bind fun r hr => hf r.1 hr.1 r.2 hr.2

/-- A fresh temporary is a variable of the type it was asked for. -/
theorem unvalued_freshTemp (stem : Stem) (ty : Ty) :
    unvalued.Holds (fun e => ∃ name, e = .ofVar name ty) (freshTemp stem ty) := by
  intro temps htemps
  have hrun : (freshTemp stem ty).run temps =
      freshName stem >>= fun name => pure (.ofVar name ty, temps ++ [.plain name ty none]) := rfl
  rw [hrun]
  refine .after fun name => .pure ⟨⟨name, rfl⟩, ?_⟩
  exact List.forall_mem_append.mpr ⟨htemps, by simp [Decl.plain]⟩

/-- What rules do to single expressions keeps a property. -/
structure Kept (Q : Expr → Prop) : Prop where
  raise : ∀ e, Q e → Q (e.bottomUp HighPrecision.raiseNode)
  substitute : ∀ e, Q e → Q (e.bottomUp TargetSize.substituteNode)
  readLocal : ∀ prologue e, Q e → Q (e.bottomUp (FragCoord.readLocal prologue))
  forward : ∀ e, Q e → Q (e.bottomUp FragCoord.forwardNode)
  resolve : ∀ profile e, Q e → Yields Q (e.bottomUpM (TextureLookup.resolveNode profile))
  readCounter : ∀ e, Q e → Q (e.bottomUp Invocations.readCounter)
  collapse : ∀ e, Q e → Q (e.bottomUp TernaryTarget.collapseNode)
  unfold : ∀ e, Q e → Q (e.bottomUp ShortCircuit.unfoldNode)
  expand : ∀ e, Q e → Yields Q (e.bottomUpM ConstantPow.expandNode)
  emulate : ∀ e, Q e → Yields Q (e.bottomUpM IntAbs.emulateNode)
  split : ∀ e, Q e → unvalued.Holds Q (e.bottomUpM MinAbs.splitNode)
  guard : ∀ e, Q e → unvalued.Holds Q (e.bottomUpM Fract.guardNode)
  guardPure : ∀ e, Q e → Q (e.bottomUp Fract.guardPure)
  multiply : ∀ e, Q e → Q (e.bottomUp AtanOperand.multiplyNode)
  normalize : ∀ e, Q e → Yields Q (e.bottomUpM Expr.normalizeSwizzle)
  /-- assignments to the arms of a choice -/
  arms : ∀ ty choiceTy op cond a b value, op.isAssignment = true →
    Q (.binary ty op (.ternary choiceTy cond a b) value) →
      Q cond ∧ ∀ ty, Q (.binary ty op a value) ∧ Q (.binary ty op b value)
  negated : ∀ ty e, Q (.unary ty .not e) ↔ Q e
  andTrue : ∀ e, Q e → Q (LoopCondition.andTrue e)
  bool : ∀ value, Q (.bool value)
  flag : ∀ name, Q (.ofVar name .bool) ∧ Q (.assign (.ofVar name .bool) (.bool true))
  userCall : ∀ name ty, Q (.ofUserCall name [] ty)
  flipped : ∀ s ∈ FragCoord.flipped.statements, s.All Q
  resolved : ∀ s ∈ FragCoord.resolved.statements, s.All Q
  negatePosition : FlipY.negatePosition.All Q
  runAll : ∀ count, (Invocations.runAll count).All Q

/-- Raising the types that an element declares leaves its names and its expressions alone. -/
theorem meets_raiseElement {c : Demand} (hc : c.prologue = []) {el : Element} (h : el.Meets c) :
    (HighPrecision.raiseElement el).Meets c := by
  cases el with
  -- Only the type of a declaration is raised, so its name and its initializer stay.
  | global d => exact h
  | function fn =>
    have hraise : ∀ s : Stmt, s.Fits c.names c.exprs →
        (HighPrecision.raiseStmt s).Fits c.names c.exprs := by
      intro s hs
      cases s with
      | decl d =>
        obtain ⟨hname, hinit⟩ := Stmt.fits_decl.mp hs
        exact Stmt.fits_decl.mpr ⟨hname, hinit⟩
      | _ => exact hs
    have hbody := (Demand.body_iff_of_prologue_eq_nil hc).mp h.body
    exact ⟨h.name, List.forall_mem_map.mpr h.params,
      (Demand.body_iff_of_prologue_eq_nil hc).mpr (Stmt.bottomUpList_fits hraise hbody)⟩
  | layout l => trivial

/-- So does raising those of a program, if raising the type of a node does. -/
theorem meets_highPrecision {c : Demand} {Q : Expr → Prop} (hc : c.prologue = [])
    (hraise : ∀ e, c.exprs e → Q (e.bottomUp HighPrecision.raiseNode)) {p : Program}
    (hp : p.Meets c) : (HighPrecision.legalize p).Meets (c.withExprs Q) := by
  refine Program.mapNodes_meets hraise (by rw [hc]; rfl) fun el hel => ?_
  obtain ⟨el, hmem, rfl⟩ := List.mem_map.mp hel
  exact meets_raiseElement hc (hp el hmem)

/-- A prologue turns a demand into one that its statements satisfy, if reading its variable does. -/
theorem meets_reconstruct {c : Demand} (hc : c.prologue = []) {Q : Expr → Prop}
    (hmono : ∀ e, c.exprs e → Q e) {prologue : FragCoord.Prologue}
    (hstatements : ∀ s ∈ prologue.statements, s.Fits c.names Q)
    (hread : ∀ e, c.exprs e → Q (e.bottomUp (FragCoord.readLocal prologue))) {fn : Function}
    (hfn : fn.Meets c) : (FragCoord.reconstruct prologue fn).Meets (c.withExprs Q) := by
  unfold FragCoord.reconstruct
  split
  · have hread' : ∀ e, c.exprs e →
        Yields Q (pure (e.bottomUp (FragCoord.readLocal prologue)) : Id Expr) :=
      fun e he => .pure (hread e he)
    -- The walked body fits, and so do the statements that are put in front of it.
    have hbody := Yields.of_id
      (Function.mapExprsM_meets .yields hread' (by rw [hc, Stmt.mapExprsListM_nil]) hfn)
    exact ⟨hbody.name, hbody.params, hbody.body.append_left hstatements⟩
  · exact ⟨hfn.name, hfn.params, hfn.body.mono hmono⟩

/-- The same where it is only expressions that count. -/
theorem all_reconstruct {Q Q' : Expr → Prop} (hmono : ∀ e, Q e → Q' e)
    {prologue : FragCoord.Prologue} (hstatements : ∀ s ∈ prologue.statements, s.All Q')
    (hread : ∀ e, Q e → Q' (e.bottomUp (FragCoord.readLocal prologue))) {fn : Function}
    (hfn : fn.All Q) : (FragCoord.reconstruct prologue fn).All Q' :=
  Function.all_iff_meets.mpr (meets_reconstruct rfl hmono
    (fun s hs => Stmt.all_iff_fits.mp (hstatements s hs)) hread (Function.all_iff_meets.mp hfn))

/-- A policy turns a property into one that the expressions of the prologues have, if reading their
    variables and passing on clip positions does. -/
theorem all_applyPolicy {Q Q' : Expr → Prop} (hmono : ∀ e, Q e → Q' e)
    (hflipped : ∀ s ∈ FragCoord.flipped.statements, s.All Q')
    (hresolved : ∀ s ∈ FragCoord.resolved.statements, s.All Q')
    (hread : ∀ prologue e, Q e → Q' (e.bottomUp (FragCoord.readLocal prologue)))
    (hforward : ∀ e, Q e → Q' (e.bottomUp FragCoord.forwardNode)) {p : Program} (hp : p.All Q)
    (policy : CoordPolicy) (usesCoord : Bool) :
    Yields (Program.All Q') (FragCoord.applyPolicy policy usesCoord p) := by
  refine FragCoord.yields_applyPolicy (hp.mono hmono) ?_ ?_ (Program.mapNodes_all hforward hp) _ _
  · exact Program.mapFunctions_all hmono
      (fun fn => all_reconstruct hmono hflipped (hread FragCoord.flipped)) hp
  · exact Program.mapFunctions_all hmono
      (fun fn => all_reconstruct hmono hresolved (hread FragCoord.resolved)) hp

/-- What holds without the new variables being given values holds when they are declared. -/
theorem declaring_of_unvalued {Q : Expr → Prop} {x : TempM Expr} (h : unvalued.Holds Q x) :
    (declaring fun _ => True).Holds Q x := by
  intro temps htemps
  refine (h temps fun d hd => (htemps d hd).1).mono fun r hr => ⟨hr.1, fun d hd => ?_⟩
  exact ⟨hr.2 d hd, trivial⟩

/-- A rule that runs where a workaround is needed, on a target that needs it. -/
theorem step_workaround {t : Target} {p : Program} {name : String} {workaround : Workaround}
    {run : Program → GenM Program} {Q : Program → Prop}
    (hneeds : t.profile.needs workaround = true) (h : Yields Q (run p)) :
    Yields Q (Rule.step t p (.workaround name workaround run)) :=
  yields_step_cases (fun _ => h) fun hdisabled =>
    nomatch hneeds.symm.trans hdisabled

namespace Kept

variable {Q Q' : Expr → Prop} {t : Target} {p : Program}

theorem carried (hQ : Kept Q) : Carried { exprs := Q } where
  prologue := by simp
  fresh _ _ := trivial
  resolve := hQ.resolve
  readCounter := hQ.readCounter
  collapse := hQ.collapse
  unfold := hQ.unfold
  expand := hQ.expand
  emulate := hQ.emulate
  -- The temporaries are not asked for anything.
  split e he := declaring_of_unvalued (hQ.split e he)
  guard e he := declaring_of_unvalued (hQ.guard e he)
  guardPure := hQ.guardPure
  multiply := hQ.multiply
  normalize := hQ.normalize
  arms := hQ.arms
  negated := hQ.negated
  andTrue := hQ.andTrue
  bool := hQ.bool
  flag n := hQ.flag _
  userCall stem n ty := hQ.userCall (stem.nth n) ty
  runAll count s hs := Stmt.all_iff_fits.mp (hQ.runAll count s hs)

/-! ### Rule by rule -/

/-- Raising the precision keeps what holds of every expression. -/
theorem highPrecision (hQ : Kept Q) (hp : p.All Q) : (HighPrecision.legalize p).All Q :=
  Program.all_iff_meets.mpr (meets_highPrecision rfl hQ.raise (Program.all_iff_meets.mp hp))

/-- Any policy for the coordinate keeps it. -/
theorem applyPolicy (hQ : Kept Q) (policy : CoordPolicy) (usesCoord : Bool) (hp : p.All Q) :
    Yields (Program.All Q) (FragCoord.applyPolicy policy usesCoord p) :=
  all_applyPolicy (fun _ => id) hQ.flipped hQ.resolved hQ.readLocal hQ.forward hp policy usesCoord

/-- Flipping turns a property into one that flipped derivatives have. -/
theorem flip (hQ : Kept Q) (hQ' : Kept Q') (hmono : ∀ e, Q e → Q' e)
    (hflip : ∀ e, Q e → Q' (e.bottomUp FlipY.negateDerivative)) (hp : p.All Q) :
    (FlipY.legalize p).All Q' := by
  rw [Program.all_iff_meets] at hp ⊢
  exact hQ.carried.flip hmono hflip (Stmt.all_iff_fits.mp hQ'.negatePosition) hQ'.carried hp

/-- The rule that flips programs turns a property into one that flipped derivatives have. -/
theorem fragCoord (hQ : Kept Q) (hQ' : Kept Q') (hmono : ∀ e, Q e → Q' e)
    (hflip : ∀ e, Q e → Q' (e.bottomUp FlipY.negateDerivative)) (hp : p.All Q) :
    Yields (Program.All Q') (FragCoord.legalize t p) := by
  refine FragCoord.yields_legalize (Program.mapNodes_all hQ.substitute hp)
    (fun p hp _ => hQ.applyPolicy _ _ hp) fun q hq => ?_
  split
  · exact hQ.flip hQ' hmono hflip hq
  · exact hq.mono hmono

/-- Where choices cannot be written to, none is left that is. -/
theorem ternaryTarget (hQ : Kept Q) (hp : p.All Q) :
    Yields (fun p' => p'.All Q ∧ (t.profile.needs .splitTernaryTargets = true →
        p'.anyNode TernaryTarget.writesTernary = false))
      (TernaryTarget.legalize t.profile p) :=
  (hQ.carried.ternaryTarget (Program.all_iff_meets.mp hp)).mono fun _ h =>
    ⟨Program.all_iff_meets.mpr h.1, h.2⟩

/-- Splitting minima turns a property into another one, which initial values without a minimum to
    split need to have already. -/
theorem minAbs (hQ : Kept Q) (hsplit : ∀ e, Q e → unvalued.Holds Q' (e.bottomUpM MinAbs.splitNode))
    (hrest : ∀ e, Q e → e.any MinAbs.isMinAbs = false → Q' e) (hp : p.All Q) :
    Yields (Program.All Q') (MinAbs.legalize p) :=
  (hQ.carried.minAbs (fun e he => declaring_of_unvalued (hsplit e he)) hrest
    (Program.all_iff_meets.mp hp)).mono fun _ => Program.all_iff_meets.mpr

/-! ### The pipeline -/

/-- Every rule but the one that flips programs keeps the property. -/
theorem rule (hQ : Kept Q) {r : Rule}
    (hr : r ∈ rulesBefore "frag_coord" ++ rulesAfter "frag_coord") (hp : p.All Q) :
    Yields (Program.All Q) (r.step t p) := by
  rw [List.mem_append] at hr
  rcases hr with hr | hr
  · -- Of the two rules before, the first changes nothing and the second raises precisions.
    refine yields_step_cases (fun _ => ?_) fun _ => hp
    simp only [rulesBefore, pipeline, List.takeWhile, Rule.name_always, String.reduceBNe,
      List.mem_cons, List.not_mem_nil, or_false] at hr
    obtain rfl | rfl := hr
    · exact header_same.mono fun p' hp' => hp' ▸ hp
    · exact .pure (hQ.highPrecision hp)
  · exact (hQ.carried.rule hr (Program.all_iff_meets.mp hp)).mono fun _ =>
      Program.all_iff_meets.mpr

/-- Any part of the pipeline after the header keeps it. -/
theorem rules (hQ : Kept Q) {rs : List Rule}
    (hrs : ∀ r ∈ rs, r ∈ rulesBefore "frag_coord" ++ rulesAfter "frag_coord")
    (hp : p.All Q) : Yields (Program.All Q) (rs.foldlM (Rule.step t) p) := by
  induction rs generalizing p with
  | nil => exact .pure hp
  | cons r rs ih =>
    rw [List.foldlM_cons]
    exact (hQ.rule (hrs r List.mem_cons_self) hp).bind fun p hp =>
      ih (fun r' hr' => hrs r' (List.mem_cons_of_mem _ hr')) hp

/-- A property that holds before a program is flipped, one that holds until some rule has run, and
    one that this rule makes out of it. -/
theorem legalize_yields {Q'' : Expr → Prop} (hQ : Kept Q) (hQ' : Kept Q') (hQ'' : Kept Q'')
    (hmono : ∀ e, Q e → Q' e) (hflip : ∀ e, Q e → Q' (e.bottomUp FlipY.negateDerivative))
    {before after : List Rule} {own : Rule}
    (hpipeline : rulesAfter "frag_coord" = before ++ own :: after)
    (hown : ∀ p, p.All Q' → Yields (Program.All Q'') (own.step t p)) (hp : p.All Q) :
    Yields (Program.All Q'') (legalize t p) := by
  -- Two rules run before the flip.
  have hmem : ∀ r ∈ before ++ own :: after,
      r ∈ rulesBefore "frag_coord" ++ rulesAfter "frag_coord" :=
    fun r hr => List.mem_append_right _ (hpipeline ▸ hr)
  rw [legalize, pipeline_eq "frag_coord" rfl, hpipeline, List.foldlM_append]
  have hfirst : ∀ r ∈ rulesBefore "frag_coord",
      r ∈ rulesBefore "frag_coord" ++ rulesAfter "frag_coord" := fun r hr =>
    List.mem_append_left _ hr
  refine (hQ.rules hfirst hp).bind fun p hp => ?_
  rw [List.foldlM_cons]
  have hcoord : Yields (Program.All Q') (Rule.step t p (.always "frag_coord" FragCoord.legalize)) :=
    .after fun _ => hQ.fragCoord hQ' hmono hflip hp
  refine hcoord.bind fun p hp => ?_
  rw [List.foldlM_append]
  refine (hQ'.rules (fun r hr => hmem r (List.mem_append_left _ hr)) hp).bind fun p hp => ?_
  rw [List.foldlM_cons]
  refine (hown p hp).bind fun p hp => ?_
  exact hQ''.rules (fun r hr => hmem r (List.mem_append_right _ (List.mem_cons_of_mem _ hr))) hp

end Kept

end ShaderGen.Legalize
