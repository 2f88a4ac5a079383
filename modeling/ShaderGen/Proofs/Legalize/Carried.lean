import ShaderGen.Legalize.Pipeline
import ShaderGen.Proofs.Rewriting

/-!
# Demands that the rules carry on

`Carried c` says what a demand has to satisfy for the rules that run after fragment coordinates are
settled to carry it on: each rewriting of nodes keeps what is asked of expressions, the few
expressions and names that rules bring in are as asked, and the prologue is left alone. Whole
programs then satisfy the demand after each of these rules if they did before (`Carried.rule`).

Names of temporaries, flags and functions are generated, so a demand only has to allow the names
that the stems give out.

## Key results

- `Carried.rules`: what the rules after fragment coordinates carry on
-/

namespace ShaderGen.Legalize

open Stmt

/-- The judgement on work that declares temporaries: they have no initial values, and names of a
    certain kind. -/
def declaring (N : String → Prop) : Judgement TempM where
  Holds Q x := ∀ temps : List Decl, (∀ d ∈ temps, d.init = none ∧ N d.name) →
    Yields (fun r => Q r.1 ∧ ∀ d ∈ r.2, d.init = none ∧ N d.name) (x.run temps)
  pure h temps htemps := .pure ⟨h, htemps⟩
  bind hx hf temps htemps := by
    rw [StateT.run_bind]
    exact (hx temps htemps).bind fun r hr => hf r.1 hr.1 r.2 hr.2

/-- A fresh temporary is a variable with a numbered name. -/
theorem declaring_freshTemp {N : String → Prop} {stem : Stem} (hN : ∀ n, N (stem.nth n)) (ty : Ty) :
    (declaring N).Holds (fun e => ∃ n, e = .ofVar (stem.nth n) ty) (freshTemp stem ty) := by
  intro temps htemps
  have hrun : (freshTemp stem ty).run temps =
      freshName stem >>= fun name => pure (.ofVar name ty, temps ++ [.plain name ty none]) := rfl
  rw [hrun]
  -- The temporary is declared under the name that is drawn.
  refine (yields_freshName stem).bind ?_
  rintro _ ⟨n, rfl⟩
  refine .pure ⟨⟨n, rfl⟩, List.forall_mem_append.mpr ⟨htemps, ?_⟩⟩
  simpa [Decl.plain] using hN n

/-- The operand of a fraction that is guarded. -/
theorem Fract.eq_of_operand? {e x : Expr} (h : Fract.operand? e = some x) :
    ∃ ty, ty.isFloat = true ∧ e = .call ty (.intrinsic .fract) [x] := by
  unfold Fract.operand? at h
  split at h
  · next ty y =>
    rw [Option.ite_none_right_eq_some] at h
    obtain ⟨hfloat, ⟨rfl⟩⟩ := h
    exact ⟨ty, hfloat, rfl⟩
  · cases h

/-! ### What a rule makes of a program -/

/-- What holds after the step of a rule, if it holds of what the rule makes of the program where it
    runs, and of the program where it does not. -/
theorem yields_step_cases {t : Target} {p : Program} {P : Program → Prop} {r : Rule}
    (hrun : r.enabled t p = true → Yields P (r.run t p)) (hskip : r.enabled t p = false → P p) :
    Yields P (r.step t p) := by
  unfold Rule.step
  split
  · next henabled => exact .after fun _ => hrun henabled
  · next hdisabled => exact .pure (hskip (eq_false_of_ne_true hdisabled))

/-- Choices that are written to may stay, or are split. The rule looks itself for what it could not
    split, and refuses the program then. -/
theorem TernaryTarget.yields_legalize {profile : Profile} {p : Program} {P : Program → Prop}
    (hkept : profile.needs .splitTernaryTargets = false → P (p.mapNodes collapseNode))
    (hsplit : let q := (p.mapNodes collapseNode).mapFunctions (Function.mapBody splitBody)
      q.anyNode writesTernary = false → P q) : Yields P (legalize profile p) := by
  unfold legalize
  dsimp only
  split
  · -- What the rule cannot split it reports.
    split
    · exact .error _
    · next hnone => exact .pure (hsplit (eq_false_of_ne_true hnone))
  · next hneeds => exact .pure (hkept (eq_false_of_ne_true hneeds))

/-- What the loop over the invocations is put together from: the entry function under its new name,
    the scaled layouts, the counter in place of the number, and the new entry function. -/
theorem Invocations.yields_legalize {p : Program} {P : Program → Prop}
    (hrename : P (p.mapEntry fun f => { f with name := invokeName }))
    (hscale : ∀ q, P q →
      P { q with elements := q.elements.filterMap (scaleElement p.declaredInvocations) })
    (hread : ∀ q, P q → P (q.mapNodes readCounter))
    (hloop : ∀ q, P q →
      P { q with elements := q.elements ++ [.function (runAll p.declaredInvocations)] }) :
    Yields P (legalize p) := by
  unfold legalize
  refine .after fun _ => ?_
  -- Without an entry point there is nothing to call for each invocation.
  split
  · exact .after fun _ => .pure (hloop _ (hread _ (hscale _ hrename)))
  · exact .fail _

/-! ### What is asked of expressions -/

/-- What no rewriting of nodes changes. -/
structure Inert (e : Expr) : Prop where
  negateDerivative : e.bottomUp FlipY.negateDerivative = e
  resolve : ∀ profile, e.bottomUpM (TextureLookup.resolveNode profile) = pure e
  readCounter : e.bottomUp Invocations.readCounter = e
  collapse : e.bottomUp TernaryTarget.collapseNode = e
  unfold : e.bottomUp ShortCircuit.unfoldNode = e
  expand : e.bottomUpM ConstantPow.expandNode = pure e
  emulate : e.bottomUpM IntAbs.emulateNode = pure e
  split : e.bottomUpM MinAbs.splitNode = pure e
  guard : e.bottomUpM Fract.guardNode = pure e
  multiply : e.bottomUp AtanOperand.multiplyNode = e
  normalize : e.bottomUpM Expr.normalizeSwizzle = pure e

/-- What rules do to single expressions keeps a demand. -/
structure Carried (c : Demand) : Prop where
  /-- the prologue only declares what no rule changes -/
  prologue : ∀ s ∈ c.prologue, ∃ d, s = .decl d ∧ ∀ e ∈ d.init, Inert e
  fresh : ∀ stem n, c.names (Stem.nth stem n)
  /-- functions that initial values move into, the former entry function, and the new one -/
  freshFunction : ∀ stem n, c.functions (Stem.nth stem n) := by intros; trivial
  invoked : c.functions Invocations.invokeName := by trivial
  entry : c.functions Function.entryName := by trivial
  resolve : ∀ profile e, c.exprs e →
    Yields c.exprs (e.bottomUpM (TextureLookup.resolveNode profile))
  readCounter : ∀ e, c.exprs e → c.exprs (e.bottomUp Invocations.readCounter)
  collapse : ∀ e, c.exprs e → c.exprs (e.bottomUp TernaryTarget.collapseNode)
  unfold : ∀ e, c.exprs e → c.exprs (e.bottomUp ShortCircuit.unfoldNode)
  expand : ∀ e, c.exprs e → Yields c.exprs (e.bottomUpM ConstantPow.expandNode)
  emulate : ∀ e, c.exprs e → Yields c.exprs (e.bottomUpM IntAbs.emulateNode)
  split : ∀ e, c.exprs e → (declaring c.names).Holds c.exprs (e.bottomUpM MinAbs.splitNode)
  guard : ∀ e, c.exprs e → (declaring c.names).Holds c.exprs (e.bottomUpM Fract.guardNode)
  guardPure : ∀ e, c.exprs e → c.exprs (e.bottomUp Fract.guardPure)
  multiply : ∀ e, c.exprs e → c.exprs (e.bottomUp AtanOperand.multiplyNode)
  normalize : ∀ e, c.exprs e → Yields c.exprs (e.bottomUpM Expr.normalizeSwizzle)
  /-- assignments to the arms of a choice -/
  arms : ∀ ty choiceTy op cond a b value, op.isAssignment = true →
    c.exprs (.binary ty op (.ternary choiceTy cond a b) value) →
      c.exprs cond ∧ ∀ ty, c.exprs (.binary ty op a value) ∧ c.exprs (.binary ty op b value)
  negated : ∀ ty e, c.exprs (.unary ty .not e) ↔ c.exprs e
  andTrue : ∀ e, c.exprs e → c.exprs (LoopCondition.andTrue e)
  bool : ∀ value, c.exprs (.bool value)
  flag : ∀ n, c.exprs (.ofVar (Stem.loopFlag.nth n) .bool) ∧
    c.exprs (.assign (.ofVar (Stem.loopFlag.nth n) .bool) (.bool true))
  userCall : ∀ stem n ty, c.exprs (.ofUserCall (Stem.nth stem n) [] ty)
  runAll : ∀ count, ∀ s ∈ (Invocations.runAll count).body, s.Fits c.names c.exprs

namespace Carried

variable {c : Demand} {t : Target} {p : Program}

/-! ### The prologue -/

section

variable {m : Type → Type} [Monad m] [LawfulMonad m]

/-- A prologue is left alone where its initial values are. -/
theorem mapExprsListM_prologue {f : Expr → m Expr} (hf : ∀ e, Inert e → f e = pure e)
    {ss : List Stmt} (h : ∀ s ∈ ss, ∃ d, s = .decl d ∧ ∀ e ∈ d.init, Inert e) :
    mapExprsListM f ss = pure ss := by
  induction ss with
  | nil => rfl
  | cons s ss ih =>
    obtain ⟨d, rfl, hd⟩ := h s List.mem_cons_self
    -- The initial values in the prologue are not changed.
    have hinit : d.init.mapM f = pure d.init := by
      cases hinit : d.init with
      | none => rfl
      | some e => rw [Option.mapM_some, hf e (hd e hinit), map_pure]
    rw [mapExprsListM, mapExprsM, Decl.mapInitM, hinit,
      ih fun s hs => h s (List.mem_cons_of_mem _ hs)]
    simp only [pure_bind]

/-- A prologue is left alone where declarations are. -/
theorem expandListM_prologue {visit : Stmt → m (Stmt → List Stmt)}
    (hvisit : ∀ d, (do let replace ← visit (.decl d); pure (replace (.decl d))) = pure [.decl d])
    {ss : List Stmt} (h : ∀ s ∈ ss, ∃ d, s = .decl d ∧ ∀ e ∈ d.init, Inert e) :
    expandListM visit ss = pure ss := by
  induction ss with
  | nil => rfl
  | cons s ss ih =>
    obtain ⟨d, rfl, -⟩ := h s List.mem_cons_self
    have hdecl : (Stmt.decl d).expandM visit = pure [.decl d] := hvisit d
    rw [expandListM, hdecl, ih fun s hs => h s (List.mem_cons_of_mem _ hs)]
    simp only [pure_bind, List.singleton_append]

/-- Expanding the statements of a body. -/
theorem expandListM (hc : Carried c) (J : Judgement m) {visit : Stmt → m (Stmt → List Stmt)}
    (hdecl : ∀ d, (do let replace ← visit (.decl d); pure (replace (.decl d))) = pure [.decl d])
    (hvisit : ∀ s, J.Holds (fun replace => ∀ t : Stmt, t.Fits c.names c.exprs →
      ∀ u ∈ replace t, u.Fits c.names c.exprs) (visit s))
    {body : List Stmt} (h : c.Body body) : J.Holds c.Body (Stmt.expandListM visit body) :=
  h.walk J c rfl _ (expandListM_append visit) (expandListM_prologue hdecl hc.prologue)
    fun _ => expandListM_fits J hvisit

end

/-- A body is replaced statement by statement, if declarations stay. -/
theorem expandList (hc : Carried c) {f : Stmt → List Stmt} (hdecl : ∀ d, f (.decl d) = [.decl d])
    (hf : ∀ s : Stmt, s.Fits c.names c.exprs → ∀ u ∈ f s, u.Fits c.names c.exprs)
    {body : List Stmt} (h : c.Body body) : c.Body (Stmt.expandList f body) :=
  (hc.expandListM (m := Id) .yields (fun d => congrArg pure (hdecl d)) (fun _ => .pure hf) h).of_id

/-- Rebuilding the statements of a body. -/
theorem bottomUpList (hc : Carried c) {f : Stmt → Stmt} (hdecl : ∀ d, f (.decl d) = .decl d)
    (hf : ∀ s, s.Fits c.names c.exprs → (f s).Fits c.names c.exprs) {body : List Stmt}
    (h : c.Body body) : c.Body (Stmt.bottomUpList f body) := by
  -- The prologue holds declarations only, so it stays where it is.
  have hprologue : Stmt.bottomUpList f c.prologue = c.prologue := by
    rw [bottomUpList_eq_map]
    refine (List.map_congr_left fun s hs => ?_).trans (List.map_id _)
    obtain ⟨d, rfl, -⟩ := hc.prologue s hs
    exact hdecl d
  have hbody : Yields c.Body (pure (Stmt.bottomUpList f body) : Id (List Stmt)) := by
    refine h.walk .yields c rfl (fun body => pure (Stmt.bottomUpList f body)) (fun a b => ?_)
      (congrArg pure hprologue) fun _ hbody => .pure (bottomUpList_fits hf hbody)
    simp [bottomUpList_eq_map]
  exact hbody.of_id

/-- Rebuilding the nodes of a program. -/
theorem mapNodes (hc : Carried c) {f : Expr → Expr} (hinert : ∀ e, Inert e → e.bottomUp f = e)
    {Q : Expr → Prop} (hf : ∀ e, c.exprs e → Q (e.bottomUp f)) (hp : p.Meets c) :
    (p.mapNodes f).Meets (c.withExprs Q) :=
  Program.mapNodes_meets hf
    (mapExprsListM_prologue (fun e he => congrArg pure (hinert e he)) hc.prologue) hp

/-! ### Rule by rule -/

/-- Flipping a program turns a demand on expressions into one that flipped derivatives satisfy. -/
theorem flip (hc : Carried c) {Q : Expr → Prop} (hmono : ∀ e, c.exprs e → Q e)
    (hflip : ∀ e, c.exprs e → Q (e.bottomUp FlipY.negateDerivative))
    (hnegate : FlipY.negatePosition.Fits c.names Q) (hc' : Carried (c.withExprs Q))
    (hp : p.Meets c) : (FlipY.legalize p).Meets (c.withExprs Q) := by
  have hp' : p.Meets (c.withExprs Q) := hp.mono hmono
  have hreturn : ∀ s : Stmt, s.Fits c.names Q → ∀ u ∈ FlipY.beforeReturn s, u.Fits c.names Q :=
    fun _ hs => FlipY.forall_mem_beforeReturn hnegate hs
  have hemit : ∀ s : Stmt, s.Fits c.names Q → ∀ u ∈ FlipY.beforeEmit s, u.Fits c.names Q :=
    fun _ hs => FlipY.forall_mem_beforeEmit hnegate hs
  refine FlipY.legalize_holds hp' (hc.mapNodes (fun _ => Inert.negateDerivative) hflip hp)
    (Program.mapEntry_meets (fun _ => Function.mapBody_meets fun body hbody => ?_) hp')
    (Program.mapFunctions_meets (fun _ => Function.mapBody_meets fun _ hbody =>
      hc'.expandList (fun _ => rfl) hemit hbody) hp')
  replace hbody := hc'.expandList (fun _ => rfl) hreturn hbody
  -- The statement at the end is only added if the function does not return there.
  rcases FlipY.flipEntryBody_cases body with heq | heq <;> rw [heq]
  · exact hbody
  · exact hbody.append_right (List.forall_mem_singleton.mpr hnegate)

/-- The loop over the invocations calls the old entry point by its new name. -/
theorem invocations (hc : Carried c) (hp : p.Meets c) :
    Yields (Program.Meets c) (Invocations.legalize p) := by
  -- What runs all invocations is a function like those that rules may add.
  have hentry : Element.Meets c (.function (Invocations.runAll p.declaredInvocations)) :=
    ⟨hc.entry, by simp [Invocations.runAll, Function.entry], .inl (hc.runAll _)⟩
  have hrenamed : (p.mapEntry fun f => { f with name := Invocations.invokeName }).Meets c :=
    Program.mapEntry_meets (f := fun f => { f with name := Invocations.invokeName })
      (fun _ hfn => ⟨hc.invoked, hfn.params, hfn.body⟩) hp
  exact Invocations.yields_legalize hrenamed
    (fun _ hq => Invocations.forall_mem_scaled (fun _ => trivial) hq)
    (fun _ hq => hc.mapNodes (fun _ => Inert.readCounter) hc.readCounter hq)
    fun _ hq => List.forall_mem_append.mpr ⟨hq, List.forall_mem_singleton.mpr hentry⟩

/-- Assignments to the arms of a choice keep what the assignment to the choice has. -/
theorem assignArms (hc : Carried c) {op : BinaryOp} (hop : op.isAssignment = true) {value : Expr}
    (target : Expr) (h : ∀ ty, c.exprs (.binary ty op target value)) :
    (TernaryTarget.assignArms op value target).Fits c.names c.exprs := by
  induction target with
  | ternary choiceTy cond a b ihc iha ihb =>
    obtain ⟨hcond, harms⟩ := hc.arms choiceTy choiceTy op cond a b value hop (h choiceTy)
    refine fits_ifElse.mpr ⟨hcond, ?_, ?_⟩
    · exact fits_block.mpr (by simpa using iha fun ty => (harms ty).1)
    · simpa [fits_block] using ihb fun ty => (harms ty).2
  | _ => exact fits_expr.mpr (h _)

/-- A split assignment has the condition and the two assignments in it. -/
theorem splitStmt (hc : Carried c) {s : Stmt} (hs : s.Fits c.names c.exprs) :
    (TernaryTarget.splitStmt s).Fits c.names c.exprs := by
  unfold TernaryTarget.splitStmt
  split
  · next ty op choiceTy cond a b value =>
    split
    · next hop =>
      -- Both arms are assigned to, each on its own, by the operator that assigned to the choice.
      obtain ⟨hcond, harms⟩ := hc.arms ty choiceTy op cond a b value hop (fits_expr.mp hs)
      refine fits_ifElse.mpr ⟨hcond, ?_, ?_⟩
      · exact fits_block.mpr (by simpa using hc.assignArms hop a fun ty => (harms ty).1)
      · simpa [fits_block] using hc.assignArms hop b fun ty => (harms ty).2
    · exact hs
  · exact hs

/-- Where choices cannot be written to, none is left that is. -/
theorem ternaryTarget (hc : Carried c) (hp : p.Meets c) :
    Yields (fun p' => p'.Meets c ∧ (t.profile.needs .splitTernaryTargets = true →
        p'.anyNode TernaryTarget.writesTernary = false))
      (TernaryTarget.legalize t.profile p) := by
  -- What is written to is collapsed for every target, and only some have assignments split.
  have hcollapsed : (p.mapNodes TernaryTarget.collapseNode).Meets c :=
    hc.mapNodes (fun _ => Inert.collapse) hc.collapse hp
  have hsplit := Program.mapFunctions_meets (f := Function.mapBody TernaryTarget.splitBody)
    (fun _ => Function.mapBody_meets fun _ hbody =>
      hc.expandList (fun _ => rfl) (fun s hs => by simpa using hc.splitStmt hs) hbody) hcollapsed
  refine TernaryTarget.yields_legalize (fun hneeds => ⟨hcollapsed, fun h => ?_⟩)
    fun hnone => ⟨hsplit, fun _ => hnone⟩
  exact absurd (hneeds.symm.trans h) Bool.false_ne_true

/-- The statements that a loop is replaced by have the old condition, negated, and the old body;
    the rest is about the flag. -/
theorem replaceLoop (hc : Carried c) (n : Nat) {u : Stmt} (hu : u.Fits c.names c.exprs) :
    ∀ v ∈ DoWhile.replace (Stem.loopFlag.nth n) u, v.Fits c.names c.exprs := by
  unfold DoWhile.replace
  split
  · next body cond =>
    obtain ⟨hcond, hbody⟩ := fits_doWhile.mp hu
    obtain ⟨hflag, hset⟩ := hc.flag n
    -- The exit check holds the condition under a negation, and a `break`.
    have hcheck : (DoWhile.exitCheck (.ofVar (Stem.loopFlag.nth n) .bool) cond).Fits
        c.names c.exprs := by
      refine fits_ifElse.mpr ⟨hflag, fits_block.mpr ?_, by simp⟩
      have hbreak : Stmt.breakOut.Fits c.names c.exprs :=
        fits_iff.mpr (by simp [Stmt.own, Stmt.nested])
      have hinner : (Stmt.ifElse (.ofUnary .not cond) (.block [.breakOut]) none).Fits
          c.names c.exprs :=
        fits_ifElse.mpr
          ⟨(hc.negated _ _).mpr hcond, fits_block.mpr (by simpa using hbreak), by simp⟩
      simpa using hinner
    -- Next to the check there are the flag, its assignment and the body as it was.
    have hdecl : (Stmt.decl (.plain (Stem.loopFlag.nth n) .bool (some (.bool false)))).Fits
        c.names c.exprs :=
      fits_decl.mpr ⟨hc.fresh _ n, fun e he => Option.some.inj he ▸ hc.bool false⟩
    have hloop : ∀ s ∈ [DoWhile.exitCheck (.ofVar (Stem.loopFlag.nth n) .bool) cond,
        .assign (.ofVar (Stem.loopFlag.nth n) .bool) (.bool true), body.toBlock],
          s.Fits c.names c.exprs :=
      List.forall_mem_cons.mpr ⟨hcheck, List.forall_mem_cons.mpr
        ⟨fits_expr.mpr hset, by simpa using fits_toBlock hbody⟩⟩
    refine List.forall_mem_cons.mpr ⟨hdecl, ?_⟩
    simpa using fits_whileLoop.mpr ⟨hc.bool true, fits_block.mpr hloop⟩
  · simpa using hu

/-- A loop that is replaced holds its old condition, a flag and the old body. -/
theorem doWhile (hc : Carried c) (hp : p.Meets c) :
    Yields (Program.Meets c) (DoWhile.legalize p) := by
  refine Program.mapFunctionsM_meets .yields (fun fn hfn => ?_) hp fun d hd => hp _ hd
  -- A name is drawn for each loop that is replaced, and every other statement stays.
  have hvisit : ∀ s, Yields (fun replace => ∀ t : Stmt, t.Fits c.names c.exprs →
      ∀ u ∈ replace t, u.Fits c.names c.exprs) (DoWhile.visit s) := by
    intro s
    unfold DoWhile.visit
    split
    · refine (yields_freshName _).bind ?_
      rintro _ ⟨n, rfl⟩
      exact .pure fun u hu => hc.replaceLoop n hu
    · exact .pure fun u hu => by simpa using hu
  have hbody : Yields c.Body (Stmt.expandListM DoWhile.visit fn.body) :=
    hc.expandListM .yields (fun d => rfl) hvisit hfn.body
  exact hbody.bind fun body hbody => .pure ⟨hfn.name, hfn.params, hbody⟩

/-- The conditions of loops get a constant, and so do their exit checks. -/
theorem loopCondition (hc : Carried c) (hp : p.Meets c) : (LoopCondition.legalize p).Meets c := by
  -- The condition stands in the loop and, after the other rule, in its exit check.
  have hcheck : ∀ s : Stmt, s.Fits c.names c.exprs →
      (LoopCondition.andTrueInExitCheck s).Fits c.names c.exprs := by
    intro s hs
    unfold LoopCondition.andTrueInExitCheck
    split
    · split
      -- The condition of the loop stands negated in the check that starts the body.
      · obtain ⟨hfirst, hrest⟩ := List.forall_mem_cons.mp (fits_block.mp hs)
        obtain ⟨hflag, hthen, -⟩ := fits_ifElse.mp hfirst
        have hexit := fits_block.mp hthen _ List.mem_cons_self
        obtain ⟨hcond, hexit, hother⟩ := fits_ifElse.mp hexit
        have hcond' := hc.andTrue _ ((hc.negated _ _).mp hcond)
        refine fits_block.mpr (List.forall_mem_cons.mpr ⟨?_, hrest⟩)
        refine fits_ifElse.mpr ⟨hflag, fits_block.mpr ?_, by simp⟩
        simpa using fits_ifElse.mpr ⟨(hc.negated _ _).mpr hcond', hexit, hother⟩
      · exact hs
    · exact hs
  have hloop : ∀ s : Stmt, s.Fits c.names c.exprs →
      (LoopCondition.andTrueInLoop s).Fits c.names c.exprs := by
    intro s hs
    unfold LoopCondition.andTrueInLoop
    split
    · obtain ⟨hcond, hbody⟩ := fits_whileLoop.mp hs
      exact fits_whileLoop.mpr ⟨hc.andTrue _ hcond, hcheck _ hbody⟩
    · obtain ⟨hinit, hcond, hstep, hbody⟩ := fits_forLoop.mp hs
      exact fits_forLoop.mpr ⟨hinit, by simpa using hc.andTrue _ (hcond _ rfl), hstep, hbody⟩
    · obtain ⟨hcond, hbody⟩ := fits_doWhile.mp hs
      exact fits_doWhile.mpr ⟨hc.andTrue _ hcond, hbody⟩
    · exact hs
  exact Program.mapFunctions_meets (fun _ => Function.mapBody_meets fun _ hbody =>
    hc.bottomUpList (fun _ => rfl) hloop hbody) hp

/-- Initial values that move into functions stay as they are; those that do not had no reason to
    move. -/
theorem hoist (hc : Carried c) (stem : Stem) {needsFunction : Expr → Bool}
    (hcall : ∀ name ty, (Expr.ofUserCall name [] ty).any needsFunction = false) (hp : p.Meets c) :
    Yields (fun p' => p'.Meets c ∧
        ∀ d, .global d ∈ p'.elements → ∀ e ∈ d.init, e.any needsFunction = false)
      (HoistInit.hoist stem needsFunction p) := by
  have helement : ∀ el ∈ p.elements,
      Yields (fun els => (∀ el ∈ els, el.Meets c) ∧
          ∀ d, .global d ∈ els → ∀ e ∈ d.init, e.any needsFunction = false)
        (HoistInit.hoistElement stem needsFunction el) := by
    intro el hel
    have h := hp el hel
    obtain ⟨heq, hnone⟩ | ⟨d, value, rfl, hvalue, -, ⟨-, heq⟩ | ⟨-, heq⟩⟩ :=
      HoistInit.hoistElement_cases stem needsFunction el <;> rw [heq]
    · -- The element is kept as it is.
      exact .pure ⟨List.forall_mem_singleton.mpr h,
        fun d hd => hnone d (List.mem_singleton.mp hd).symm⟩
    · -- The value goes into a function, and the global is left with a call of it.
      refine (yields_freshName stem).lift.bind ?_
      rintro _ ⟨n, rfl⟩
      have hreturn : (Stmt.returnWith (some value)).Fits c.names c.exprs :=
        fits_returnWith.mpr (by simpa using h.2 value hvalue)
      have hfn : Element.Meets c (.function (HoistInit.initializer (stem.nth n) d.ty value)) :=
        ⟨hc.freshFunction stem n, by simp [HoistInit.initializer],
          .inl fun s hs => List.mem_singleton.mp hs ▸ hreturn⟩
      have hglobal : Element.Meets c
          (.global { d with init := some (.ofUserCall (stem.nth n) [] d.ty) }) :=
        ⟨h.1, by simpa using hc.userCall stem n d.ty⟩
      refine .pure ⟨List.forall_mem_cons.mpr ⟨hfn, List.forall_mem_singleton.mpr hglobal⟩,
        fun d' hd' e he => ?_⟩
      obtain rfl : d' = { d with init := some (.ofUserCall (stem.nth n) [] d.ty) } := by
        simpa using hd'
      obtain rfl := Option.some.inj he
      exact hcall (stem.nth n) d.ty
    · exact .fail _
  -- Both facts are about the elements that come out, wherever they came from.
  refine (Yields.mapM_forall helement).bind fun elements helements => .pure ⟨?_, ?_⟩
  · intro el hel
    obtain ⟨els, hels, hel⟩ := List.mem_flatten.mp hel
    exact (helements els hels).1 el hel
  · intro d hd
    obtain ⟨els, hels, hd⟩ := List.mem_flatten.mp hd
    exact (helements els hels).2 d hd

/-- Temporaries are declared without values. -/
theorem withTemporaries (hc : Carried c) {f : Expr → TempM Expr} {Q : Expr → Prop}
    (hinert : ∀ e, Inert e → e.bottomUpM f = pure e)
    (hf : ∀ e, c.exprs e → (declaring c.names).Holds Q (e.bottomUpM f)) {fn : Function}
    (hfn : fn.Meets c) :
    Yields (Function.Meets (c.withExprs Q)) (Legalize.withTemporaries f fn) := by
  have hbody := Function.mapExprsM_meets (declaring c.names) hf
    (mapExprsListM_prologue hinert hc.prologue) hfn [] (by simp)
  refine hbody.bind fun r hr => .pure ⟨hr.1.name, hr.1.params, hr.1.body.append_left fun s hs => ?_⟩
  obtain ⟨d, hd, rfl⟩ := List.mem_map.mp hs
  obtain ⟨hinit, hname⟩ := hr.2 d hd
  exact fits_decl.mpr ⟨hname, by simp [hinit]⟩

/-- Splitting minima turns what is asked of expressions into something else, which initial values
    without a minimum to split need to satisfy already. -/
theorem minAbs (hc : Carried c) {Q : Expr → Prop}
    (hsplit : ∀ e, c.exprs e → (declaring c.names).Holds Q (e.bottomUpM MinAbs.splitNode))
    (hrest : ∀ e, c.exprs e → e.any MinAbs.isMinAbs = false → Q e) (hp : p.Meets c) :
    Yields (Program.Meets (c.withExprs Q)) (MinAbs.legalize p) := by
  refine (hc.hoist _ (fun _ _ => rfl) hp).bind fun p hp => ?_
  refine Program.mapFunctionsM_meets .yields
    (fun fn hfn => (hc.withTemporaries (fun _ => Inert.split) hsplit hfn).lift) hp.1 fun d hd => ?_
  have hglobal : Element.Meets c (.global d) := hp.1 _ hd
  exact ⟨hglobal.1, fun e he => hrest e (hglobal.2 e he) (hp.2 d hd e he)⟩

/-- Fractions in globals are guarded without temporaries, those in functions with them. -/
theorem fract (hc : Carried c) (hp : p.Meets c) : Yields (Program.Meets c) (Fract.legalize p) := by
  refine (hc.hoist _ (fun _ _ => rfl) hp).bind fun p hp => ?_
  have helement : ∀ el ∈ p.elements, Yields (Element.Meets c) (Fract.guardElement el) := by
    intro el hel
    have h := hp.1 el hel
    -- A global is rewritten in place, as nothing of its initializer needs a statement any more.
    cases el with
    | global d =>
      have hguard : ∀ e, c.exprs e → Yields c.exprs (pure (e.bottomUp Fract.guardPure) : Id Expr) :=
        fun e he => .pure (hc.guardPure e he)
      have hd := Yields.of_id (Decl.mapInitM_holds .yields hguard h)
      exact .pure hd
    | function fn =>
      exact (hc.withTemporaries (fun _ => Inert.guard) hc.guard h).bind fun fn' hfn' => .pure hfn'
    | layout l => exact .pure trivial
  exact (Yields.mapM_forall helement).lift.bind fun elements helements => .pure helements

/-! ### The rules after fragment coordinates -/

/-- Each rule after the one about the fragment coordinate carries the demand. -/
theorem rule (hc : Carried c) {r : Rule} (hr : r ∈ rulesAfter "frag_coord") (hp : p.Meets c) :
    Yields (Program.Meets c) (r.step t p) := by
  refine yields_step_cases (fun _ => ?_) fun _ => hp
  have hleaves : ∀ {m : Type → Type} [Monad m] [LawfulMonad m] {f : Expr → m Expr},
      (∀ e, Inert e → f e = pure e) → mapExprsListM f c.prologue = pure c.prologue :=
    fun hf => mapExprsListM_prologue hf hc.prologue
  -- One case for each rule, in the order of the pipeline.
  simp only [rulesAfter, pipeline, List.dropWhile, Rule.name_always, String.reduceBNe,
    List.tail_cons, List.mem_cons, List.not_mem_nil, or_false] at hr
  obtain rfl | rfl | rfl | rfl | rfl | rfl | rfl | rfl | rfl | rfl | rfl | rfl := hr
  · exact (Program.mapExprsM_meets .yields (hc.resolve t.profile)
      (hleaves fun e he => he.resolve t.profile) hp).liftMalformed
  · exact hc.invocations hp
  · exact ((hc.ternaryTarget hp).mono fun _ h => h.1).liftUnsupported
  · exact (hc.doWhile hp).lift
  · exact .pure (hc.mapNodes (fun _ => Inert.unfold) hc.unfold hp)
  · exact .pure (hc.loopCondition hp)
  · exact (Program.mapExprsM_meets .yields hc.expand (hleaves fun _ => Inert.expand)
      hp).liftMalformed
  · exact (Program.mapExprsM_meets .yields hc.emulate (hleaves fun _ => Inert.emulate) hp).lift
  · exact hc.minAbs hc.split (fun _ he _ => he) hp
  · exact hc.fract hp
  · exact .pure (hc.mapNodes (fun _ => Inert.multiply) hc.multiply hp)
  · exact (Program.mapExprsM_meets .yields hc.normalize (hleaves fun _ => Inert.normalize)
      hp).liftMalformed

/-- So do several of these rules in a row. -/
theorem rules (hc : Carried c) {rs : List Rule} (hrs : ∀ r ∈ rs, r ∈ rulesAfter "frag_coord")
    (hp : p.Meets c) : Yields (Program.Meets c) (rs.foldlM (Rule.step t) p) := by
  induction rs generalizing p with
  | nil => exact .pure hp
  | cons r rs ih =>
    rw [List.foldlM_cons]
    exact (hc.rule (hrs r List.mem_cons_self) hp).bind fun p hp =>
      ih (fun r' hr' => hrs r' (List.mem_cons_of_mem _ hr')) hp

end Carried

/-! ### The pipeline -/

/-- The first rule only notes what the preamble needs. -/
theorem header_same {t : Target} {p : Program} : Yields (· = p) (Preamble.legalize t p) := by
  unfold Preamble.legalize
  split
  · exact .after fun _ => .after fun _ => .pure rfl
  · exact .after fun _ => .pure rfl

/-- What a policy makes of a program: it stays as it is, its functions compute the coordinate anew,
    or it passes on its clip position. -/
theorem FragCoord.yields_applyPolicy {p : Program} {R : Program → Prop} (hsame : R p)
    (hflipped : R (p.mapFunctions (reconstruct flipped)))
    (hresolved : R (p.mapFunctions (reconstruct resolved))) (hforward : R (p.mapNodes forwardNode))
    (policy : CoordPolicy) (usesCoord : Bool) : Yields R (applyPolicy policy usesCoord p) := by
  unfold applyPolicy
  -- Each policy leaves the program, or rewrites it in one of three ways.
  cases policy with
  | direct | legacyExtension =>
    dsimp only
    split
    · exact .after fun _ => .pure hsame
    · exact .pure hsame
  | fromHeight =>
    dsimp only
    split
    · exact .after fun _ => .pure hflipped
    · exact .pure hsame
  | fromVarying =>
    dsimp only
    split
    · exact .after fun _ => .pure hforward
    · refine .after fun _ => .pure ?_
      split
      · exact hresolved
      · exact hsame
    · exact .pure hsame

/-- What the rule for fragment coordinates makes of a program, step by step. -/
theorem FragCoord.yields_legalize {t : Target} {p : Program} {P Q R : Program → Prop}
    (hsize : P (p.mapNodes TargetSize.substituteNode))
    (hpolicy : ∀ p, P p → (p.anyNode FragCoord.isFragCoord = true → p.stage = .fragment) →
      Yields Q (FragCoord.applyPolicy t.coordPolicy (p.anyNode FragCoord.isFragCoord) p))
    (hflip : ∀ q, Q q → R (if t.flipsY then FlipY.legalize q else q)) :
    Yields R (FragCoord.legalize t p) := by
  have hsubstituted : Yields P (TargetSize.legalize p) :=
    .of_forall_run fun s => by rwa [TargetSize.run_legalize]
  unfold FragCoord.legalize
  refine Yields.bind hsubstituted.lift fun p hp => ?_
  have hrest : (p.anyNode FragCoord.isFragCoord = true → p.stage = .fragment) →
      Yields R (do
        modify (Scratch.report (.coordPolicy t.coordPolicy (p.anyNode FragCoord.isFragCoord)))
        let p ← liftM
          (FragCoord.applyPolicy t.coordPolicy (p.anyNode FragCoord.isFragCoord) p)
        pure (if t.flipsY then FlipY.legalize p else p) : GenM Program) := fun hstage =>
    .after fun _ => (hpolicy p hp hstage).lift.bind fun q hq => .pure (hflip q hq)
  dsimp only
  split
  · -- The coordinate in a stage without one is refused.
    exact .bind (.fail (Q := fun _ => False) _) fun _ h => h.elim
  · next hstage =>
    refine hrest fun huses => ?_
    simpa [huses] using hstage

/-- The rules up to the one for fragment coordinates. -/
def opening : List Rule := rulesBefore "texture_sample"

/-- The opening ends with the rule for fragment coordinates. -/
theorem opening_eq :
    opening = rulesBefore "frag_coord" ++ [.always "frag_coord" FragCoord.legalize] := rfl

/-- Before the rule for fragment coordinates, precisions may be raised. -/
theorem yields_beforeCoords {t : Target} {p : Program} {P : Program → Prop}
    (hraise : ∀ p, P p → P (HighPrecision.legalize p)) (hp : P p) :
    Yields P ((rulesBefore "frag_coord").foldlM (Rule.step t) p) := by
  have hheader : Yields P (Rule.step t p (.always "header" Preamble.legalize)) :=
    .after fun _ => header_same.mono fun p' hp' => hp' ▸ hp
  -- The second rule is run for some targets only.
  refine hheader.bind fun p hp => ?_
  have hprecision : Yields P (Rule.step t p ⟨"force_high_precision",
      fun t _ => t.profile.usesPrecision && t.profile.forcesHighPrecision,
      fun _ p => pure (HighPrecision.legalize p)⟩) :=
    yields_step_cases (fun _ => .pure (hraise p hp)) fun _ => hp
  exact hprecision.bind fun p hp => .pure hp

/-- What the rule for fragment coordinates makes of a property that raising precisions keeps, if the
    rules after it carry that on. -/
theorem Carried.fromOpening {c : Demand} (hc : Carried c) {t : Target} {p : Program}
    {P : Program → Prop} (hraise : ∀ p, P p → P (HighPrecision.legalize p))
    (hcoord : ∀ p, P p → Yields (Program.Meets c) (FragCoord.legalize t p)) (hp : P p)
    {rs : List Rule} (hrs : ∀ r ∈ rs, r ∈ rulesAfter "frag_coord") :
    Yields (Program.Meets c) ((opening ++ rs).foldlM (Rule.step t) p) := by
  rw [opening_eq, List.append_assoc, List.singleton_append, List.foldlM_append]
  refine (yields_beforeCoords hraise hp).bind fun p hp => ?_
  rw [List.foldlM_cons]
  have hrule : Yields (Program.Meets c)
      (Rule.step t p (.always "frag_coord" FragCoord.legalize)) := .after fun _ => hcoord p hp
  exact hrule.bind fun p hp => hc.rules hrs hp

/-- The same for all rules. -/
theorem Carried.legalize {c : Demand} (hc : Carried c) {t : Target} {p : Program}
    {P : Program → Prop} (hraise : ∀ p, P p → P (HighPrecision.legalize p))
    (hcoord : ∀ p, P p → Yields (Program.Meets c) (FragCoord.legalize t p)) (hp : P p) :
    Yields (Program.Meets c) (Legalize.legalize t p) := by
  rw [Legalize.legalize, pipeline_eq "frag_coord" rfl, List.append_cons, ← opening_eq]
  exact hc.fromOpening hraise hcoord hp fun _ => id

end ShaderGen.Legalize
