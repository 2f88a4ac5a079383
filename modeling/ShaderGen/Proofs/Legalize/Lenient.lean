import ShaderGen.Proofs.Legalize.Outline

/-!
# Outlines that all rules keep

Rules move statements around and bring in new ones. A declaration that they bring in has no storage
class, and a `for` starts with an assignment. A property of single statements that allows for that
(`Stmt.Lenient`) is kept by the rules that change statements, and by those that only replace
expressions if it is kept where an expression is replaced by a related one (`Rewrites`).

## Key results

- `shows_early`: what the rules up to the one for constant exponents keep
- `shows_all`: what all rules keep
-/

namespace ShaderGen

open List (Forall₂)
open Stmt (Mirrors)

namespace Stmt

/-- A declaration or a `for`. -/
def initializes : Stmt → Bool
  | .decl _ | .forLoop _ _ _ _ => true
  | _ => false

/-- A property asks nothing of the statements that rules bring in, and looks at no more of a `for`
    than whether it starts as it should. -/
structure Lenient (P : Stmt → Prop) : Prop where
  other {s : Stmt} : s.initializes = false → P s
  plain (name : String) (ty : Ty) (value : Option Expr) : P (.decl (.plain name ty value))
  starts {e : Expr} {cond step : Option Expr} {body : Stmt} :
    P (.forLoop (some (.expr e)) cond step body)
  loop {init init' : Option Stmt} {cond cond' step step' : Option Expr} {body body' : Stmt} :
    init'.map Stmt.isLoopInitializer = init.map Stmt.isLoopInitializer →
      P (.forLoop init cond step body) → P (.forLoop init' cond' step' body')

namespace Lenient

variable {P : Stmt → Prop} (hP : Lenient P)

include hP

/-- A lenient demand looks at single statements. -/
theorem shallow : Shallow P where
  block _ := hP.other rfl
  ifElse _ := hP.other rfl
  forLoop := hP.loop rfl
  whileLoop _ := hP.other rfl
  doWhile _ := hP.other rfl
  switchOn _ := hP.other rfl

/-- A statement that initializes nothing and holds no other meets the demand. -/
theorem leaf {s : Stmt} (hs : s.initializes = false) (hnested : s.nested = []) :
    s.Everywhere P :=
  .intro (hP.other hs) (by simp [hnested])

/-- An expression as a statement meets it. -/
theorem expr (e : Expr) : (Stmt.expr e).Everywhere P := hP.leaf rfl rfl

/-- A plain declaration meets it. -/
theorem decl (name : String) (ty : Ty) (value : Option Expr) :
    (Stmt.decl (.plain name ty value)).Everywhere P :=
  .intro (hP.plain name ty value) nofun

/-- A block meets it if its members do. -/
theorem block {ss : List Stmt} (h : ∀ s ∈ ss, s.Everywhere P) : (Stmt.block ss).Everywhere P :=
  .intro (hP.other rfl) h

/-- A choice meets it if its branches do. -/
theorem ifElse {cond : Expr} {s : Stmt} {otherwise : Option Stmt} (hs : s.Everywhere P)
    (ho : ∀ s ∈ otherwise, s.Everywhere P) : (Stmt.ifElse cond s otherwise).Everywhere P :=
  .intro (hP.other rfl)
    (List.forall_mem_cons.mpr ⟨hs, fun t ht => ho t (Option.mem_toList.mp ht)⟩)

/-- A body meets it, wrapped or not. -/
theorem toBlock {s : Stmt} (hs : s.Everywhere P) : s.toBlock.Everywhere P := by
  unfold Stmt.toBlock
  split
  · exact hs
  · exact hP.block (List.forall_mem_singleton.mpr hs)

/-- Every statement is rebuilt over what stands inside it by then. -/
theorem bottomUp {f : Stmt → Stmt} (hf : ∀ t : Stmt, t.Everywhere P → (f t).Everywhere P)
    (hstart : ∀ s : Stmt, (s.bottomUp f).isLoopInitializer = s.isLoopInitializer) {s : Stmt}
    (hs : s.Everywhere P) : (s.bottomUp f).Everywhere P := by
  have hlist : ∀ {ss : List Stmt}, (∀ s ∈ ss, s.Everywhere P → (s.bottomUp f).Everywhere P) →
      (∀ s ∈ ss, s.Everywhere P) → ∀ s ∈ bottomUpList f ss, s.Everywhere P := by
    intro ss ih h s hs
    rw [bottomUpList_eq_map] at hs
    obtain ⟨t, ht, rfl⟩ := List.mem_map.mp hs
    exact ih t ht (h t ht)
  have hoption : ∀ {o : Option Stmt}, (∀ s ∈ o, s.Everywhere P → (s.bottomUp f).Everywhere P) →
      (∀ s ∈ o.toList, s.Everywhere P) → ∀ s ∈ (bottomUpOption f o).toList, s.Everywhere P := by
    intro o ih h
    cases o with
    | none => simp [bottomUpOption]
    | some s => simpa [bottomUpOption] using ih s rfl (h s (by simp))
  -- A loop also asks of its initializer that it stays one, which the predicate cannot say of the
  -- initializer alone.
  induction s with
  -- The children have been rewritten before, so what is left is the statement over them.
  | block body ih => exact hf _ (hP.block (hlist ih hs.nested))
  | ifElse cond thenBranch elseBranch iht ihe =>
    obtain ⟨hthen, helse⟩ := List.forall_mem_cons.mp hs.nested
    exact hf _ (.intro (hP.other rfl) (List.forall_mem_cons.mpr ⟨iht hthen, hoption ihe helse⟩))
  | forLoop init cond step body ihi ihb =>
    obtain ⟨hinit, hbody⟩ := List.forall_mem_append.mp hs.nested
    have hkind : (bottomUpOption f init).map isLoopInitializer = init.map isLoopInitializer := by
      cases init with
      | none => rfl
      | some s => exact congrArg some (hstart s)
    refine hf _ (.intro (hP.loop hkind hs.here) (List.forall_mem_append.mpr
      ⟨hoption ihi hinit, List.forall_mem_singleton.mpr (ihb (hbody _ List.mem_cons_self))⟩))
  | whileLoop cond body ih | doWhile body cond ih =>
    exact hf _ (.intro (hP.other rfl)
      (List.forall_mem_singleton.mpr (ih (hs.nested _ List.mem_cons_self))))
  | switchOn value cases ih =>
    have hcases := List.forall_mem_flatMap.mp hs.nested
    refine hf _ (.intro (hP.other rfl) (List.forall_mem_flatMap.mpr ?_))
    clear hs hoption
    induction cases with
    | nil => simp [bottomUpCases]
    -- The cases are gone through in turn, each body as a list.
    | cons c cases ihc =>
      obtain ⟨label, body⟩ := c
      rw [bottomUpCases, List.forall_mem_cons]
      exact ⟨hlist (ih label body List.mem_cons_self) (hcases _ List.mem_cons_self),
        ihc (fun label body hmem => ih label body (List.mem_cons_of_mem _ hmem))
          fun c hc => hcases c (List.mem_cons_of_mem _ hc)⟩
  | _ => exact hf _ hs

/-- A body that is replaced by statements that meet it meets it. -/
theorem expandList {f : Stmt → List Stmt}
    (hf : ∀ s : Stmt, s.Everywhere P → ∀ u ∈ f s, u.Everywhere P) {body : List Stmt}
    (h : ∀ s ∈ body, s.Everywhere P) : ∀ s ∈ Stmt.expandList f body, s.Everywhere P :=
  (expandListM_everywhere (m := Id) .yields hP.shallow (fun _ => .pure hf) h).of_id

end Lenient

end Stmt

namespace Outline

/-- The outline that asks something of every statement, at whatever depth, and of globals. -/
def everywhere (P : Stmt → Prop) (G : Decl → Prop) : Outline where
  stmts := Stmt.Everywhere P
  globals := G

section

variable {R : Expr → Expr → Prop} {P P' : Stmt → Prop} {G G' : Decl → Prop}

/-- Rewritten expressions keep the demand, if mirrors of statements do. -/
theorem turns_everywhere (hP : ∀ {s s' : Stmt}, s.Mirrors R s' → P s → P' s')
    (hG : ∀ {d d' : Decl}, d.Mirrors R d' → G d → G' d')
    (htemp : ∀ {d : Decl}, d.init = none → P' (.decl d)) :
    Turns R (everywhere P G) (everywhere P' G') where
  stmts h := h.everywhere fun _ _ => hP
  globals := hG
  header := id
  temp h := .intro (htemp h) nofun

end

end Outline

namespace Legalize

open Outline Stmt

/-- A relation between expressions that allows what the rules up to the one for constant exponents
    do to a node. -/
structure Rewrites (R : Expr → Expr → Prop) : Prop extends Expr.IsCongruence R where
  refl : ∀ e, R e e
  raise : ∀ e, R e (HighPrecision.raiseNode e)
  substitute : ∀ e, R e (TargetSize.substituteNode e)
  readLocal : ∀ prologue e, R e (FragCoord.readLocal prologue e)
  forward : ∀ e, R e (FragCoord.forwardNode e)
  negateDerivative : ∀ e, R e (FlipY.negateDerivative e)
  resolve : ∀ profile e, Yields (R e) (TextureLookup.resolveNode profile e)
  readCounter : ∀ e, R e (Invocations.readCounter e)
  collapse : ∀ e, R e (TernaryTarget.collapseNode e)
  unfold : ∀ e, R e (ShortCircuit.unfoldNode e)
  expand : ∀ e, Yields (R e) (ConstantPow.expandNode e)

variable {o : Outline} {p : Program} {t : Target}

theorem shows_mapEntry {f : Function → Function} (hf : ∀ fn, fn.Shows o → (f fn).Shows o)
    (hp : p.Shows o) : (p.mapEntry f).Shows o := by
  -- The function is changed where it stands, and the rest stays.
  have helements : ∀ els : List Element, (∀ el ∈ els, el.Shows o) →
      ∀ el ∈ Element.mapFirstEntry f els, el.Shows o := by
    intro els hels
    induction els with
    | nil => exact hels
    | cons el els ih =>
      obtain ⟨hfirst, hrest⟩ := List.forall_mem_cons.mp hels
      cases el with
      | function fn =>
        rw [Element.mapFirstEntry]
        split
        · exact List.forall_mem_cons.mpr ⟨hf fn hfirst, hrest⟩
        · exact List.forall_mem_cons.mpr ⟨hfirst, ih hrest⟩
      | global d => exact List.forall_mem_cons.mpr ⟨hfirst, ih hrest⟩
      | layout l => exact List.forall_mem_cons.mpr ⟨hfirst, ih hrest⟩
  exact helements p.elements hp

section

variable {P : Stmt → Prop} {G : Decl → Prop} {R : Expr → Expr → Prop}
  (hP : Lenient P) (hR : Rewrites R) (ho : Turns R (everywhere P G) (everywhere P G))

include hR ho in
/-- Raising precisions keeps the demand. -/
theorem shows_highPrecision (hp : p.Shows (everywhere P G)) :
    (HighPrecision.legalize p).Shows (everywhere P G) := by
  refine Replaces.shows_mapNodes ho (hR.bottomUp hR.raise) fun el hel => ?_
  obtain ⟨el, hmem, rfl⟩ := List.mem_map.mp hel
  have h := hp el hmem
  cases el with
  | global d =>
    -- A raised declaration keeps its name and its initializer.
    have hmirror : d.Mirrors R (HighPrecision.raiseDecl d) :=
      ⟨rfl, rfl, Option.rel_refl fun e _ => hR.refl e⟩
    exact ho.globals hmirror h
  | function fn =>
    exact ⟨trivial, Replaces.shows_body ho
      (bottomUpList_mirrors hR.refl (fun _ _ => raiseStmt_mirrors) fn.body) h.2⟩
  | layout l => trivial

/-- The body of each function is replaced. -/
theorem shows_mapBodies {f : List Stmt → List Stmt}
    (hf : ∀ body, (∀ s ∈ body, s.Everywhere P) → ∀ s ∈ f body, s.Everywhere P)
    (hp : p.Shows (everywhere P G)) :
    (p.mapFunctions (Function.mapBody f)).Shows (everywhere P G) :=
  Replaces.shows_mapFunctions (fun _ => id) (fun fn hfn => ⟨trivial, hf fn.body hfn.2⟩) hp

include hP hR ho in
/-- Flipping the height keeps it. -/
theorem shows_flip (hp : p.Shows (everywhere P G)) : (FlipY.legalize p).Shows (everywhere P G) := by
  have hnegate : FlipY.negatePosition.Everywhere P := hP.expr _
  have hreturn : ∀ s : Stmt, s.Everywhere P → ∀ u ∈ FlipY.beforeReturn s, u.Everywhere P :=
    fun _ hs => FlipY.forall_mem_beforeReturn hnegate hs
  have hemit : ∀ s : Stmt, s.Everywhere P → ∀ u ∈ FlipY.beforeEmit s, u.Everywhere P :=
    fun _ hs => FlipY.forall_mem_beforeEmit hnegate hs
  refine FlipY.legalize_holds hp (Replaces.shows_mapNodes ho (hR.bottomUp hR.negateDerivative) hp)
    (shows_mapEntry (fun fn hfn => ⟨trivial, ?_⟩) hp)
    (shows_mapBodies (fun body hbody => hP.expandList hemit hbody) hp)
  have hbody := hP.expandList hreturn hfn.2
  unfold Function.mapBody
  -- The entry point may get a statement at its end.
  rcases FlipY.flipEntryBody_cases fn.body with heq | heq <;> rw [heq]
  · exact hbody
  · exact List.forall_mem_append.mpr ⟨hbody, List.forall_mem_singleton.mpr hnegate⟩

include hP hR ho in
/-- The rule about the fragment coordinate keeps it. -/
theorem shows_fragCoord (hp : p.Shows (everywhere P G)) :
    Yields (Program.Shows (everywhere P G)) (FragCoord.legalize t p) := by
  -- A prologue is put before a body whose expressions have been replaced.
  have hreconstruct : ∀ {prologue : FragCoord.Prologue} {p : Program},
      (∀ s ∈ prologue.statements, s.Everywhere P) → p.Shows (everywhere P G) →
        (p.mapFunctions (FragCoord.reconstruct prologue)).Shows (everywhere P G) := by
    intro prologue p hprologue hp
    refine Replaces.shows_mapFunctions (fun _ => id) (fun fn hfn => ?_) hp
    unfold FragCoord.reconstruct
    split
    · have hbody : Yields (Forall₂ (Mirrors R) fn.body) (Stmt.mapExprsListM
          (fun e => (pure (e.bottomUp (FragCoord.readLocal prologue)) : Id Expr)) fn.body) :=
        Replaces.mirrors_mapExprsListM Judgement.yields.verdict
          (fun e => .pure (hR.bottomUp (hR.readLocal prologue) e)) fn.body
      exact ⟨trivial, List.forall_mem_append.mpr
        ⟨hprologue, Replaces.shows_body ho hbody.of_id hfn.2⟩⟩
    · exact hfn
  refine FragCoord.yields_legalize (P := Program.Shows (everywhere P G))
    (Q := Program.Shows (everywhere P G))
    (Replaces.shows_mapNodes ho (hR.bottomUp hR.substitute) hp) (fun p hp _ => ?_) fun q hq => ?_
  · -- Either prologue is made of declarations and one expression statement.
    refine FragCoord.yields_applyPolicy hp (hreconstruct ?_ hp) (hreconstruct ?_ hp)
      (Replaces.shows_mapNodes ho (hR.bottomUp hR.forward) hp) _ _
    · exact List.forall_mem_singleton.mpr (hP.decl _ _ _)
    · refine List.forall_mem_cons.mpr ⟨hP.decl _ _ _, List.forall_mem_cons.mpr ⟨hP.decl _ _ _, ?_⟩⟩
      exact List.forall_mem_singleton.mpr (hP.expr _)
  · split
    · exact shows_flip hP hR ho hq
    · exact hq

include hP hR ho in
/-- The loop over the invocations meets it. -/
theorem shows_invocations (hp : p.Shows (everywhere P G)) :
    Yields (Program.Shows (everywhere P G)) (Invocations.legalize p) := by
  have hrenamed := shows_mapEntry (f := fun f => { f with name := Invocations.invokeName })
    (fun _ hfn => ⟨trivial, hfn.2⟩) hp
  refine Invocations.yields_legalize hrenamed
    (fun q hq => Invocations.forall_mem_scaled (fun _ => trivial) hq)
    (fun q hq => Replaces.shows_mapNodes ho (hR.bottomUp hR.readCounter) hq) fun q hq => ?_
  refine List.forall_mem_append.mpr ⟨hq, List.forall_mem_singleton.mpr ⟨trivial, ?_⟩⟩
  -- The new entry point holds one loop, with a call and an end of the primitive in it.
  refine List.forall_mem_singleton.mpr (.intro hP.starts (List.forall_mem_cons.mpr
    ⟨hP.expr _, List.forall_mem_singleton.mpr (hP.block ?_)⟩))
  exact List.forall_mem_cons.mpr ⟨hP.expr _, List.forall_mem_singleton.mpr (hP.leaf rfl rfl)⟩

include hP in
/-- The arms of a choice are assigned to in branches. -/
theorem everywhere_assignArms (op : BinaryOp) (value target : Expr) :
    (TernaryTarget.assignArms op value target).Everywhere P := by
  induction target with
  | ternary ty cond a b _ iha ihb =>
    refine hP.ifElse (hP.block (List.forall_mem_singleton.mpr iha)) fun s hs => ?_
    exact Option.mem_some.mp hs ▸ hP.block (List.forall_mem_singleton.mpr ihb)
  | _ => exact hP.expr _

include hP hR ho in
/-- Split assignments meet it. -/
theorem shows_ternaryTarget (hp : p.Shows (everywhere P G)) :
    Yields (Program.Shows (everywhere P G)) (TernaryTarget.legalize t.profile p) := by
  have hsplit : ∀ s : Stmt, s.Everywhere P →
      ∀ u ∈ [TernaryTarget.splitStmt s], u.Everywhere P := by
    -- What is split is an assignment; it becomes a choice between two of them.
    intro s hs
    refine List.forall_mem_singleton.mpr ?_
    unfold TernaryTarget.splitStmt
    split
    · split
      · exact everywhere_assignArms hP _ _ _
      · exact hs
    · exact hs
  have hcollapsed := Replaces.shows_mapNodes ho (hR.bottomUp hR.collapse) hp
  exact TernaryTarget.yields_legalize (fun _ => hcollapsed) fun _ =>
    shows_mapBodies (fun body hbody => hP.expandList hsplit hbody) hcollapsed

include hP in
/-- A replaced loop meets it. -/
theorem everywhere_replace (name : String) {s : Stmt} (hs : s.Everywhere P) :
    ∀ u ∈ DoWhile.replace name s, u.Everywhere P := by
  unfold DoWhile.replace
  split
  · next body cond =>
    -- The body of the loop is a block in the new loop, behind the exit check and the flag.
    have hbody : body.toBlock.Everywhere P := hP.toBlock (hs.nested body List.mem_cons_self)
    have hif : ∀ {cond s}, s.Everywhere P → (Stmt.ifElse cond (.block [s]) none).Everywhere P :=
      fun hs => hP.ifElse (hP.block (List.forall_mem_singleton.mpr hs)) nofun
    refine List.forall_mem_cons.mpr ⟨hP.decl _ _ _, List.forall_mem_singleton.mpr ?_⟩
    refine .intro (hP.other rfl) (List.forall_mem_singleton.mpr (hP.block ?_))
    refine List.forall_mem_cons.mpr ⟨hif (hif (hP.leaf rfl rfl)), ?_⟩
    exact List.forall_mem_cons.mpr ⟨hP.expr _, List.forall_mem_singleton.mpr hbody⟩
  · exact List.forall_mem_singleton.mpr hs

include hP in
/-- So does a program whose loops are replaced. -/
theorem shows_replaceLoops (hp : p.Shows (everywhere P G)) :
    Yields (Program.Shows (everywhere P G)) (DoWhile.legalize p) := by
  have hvisit : ∀ s, Yields (fun replace => ∀ t : Stmt, t.Everywhere P →
      ∀ u ∈ replace t, u.Everywhere P) (DoWhile.visit s) := by
    intro s
    unfold DoWhile.visit
    split
    · -- Only a loop that tests at its end is replaced.
      exact .after fun name => .pure fun t => everywhere_replace hP name
    · exact .pure fun t ht => List.forall_mem_singleton.mpr ht
  refine Replaces.shows_mapFunctionsM (fun _ => id) (fun fn hfn => ?_) hp
  exact (expandListM_everywhere .yields hP.shallow hvisit hfn.2).bind fun _ hbody =>
    .pure ⟨trivial, hbody⟩

include hP in
/-- An exit check with a constant meets it. -/
theorem everywhere_andTrueInExitCheck {s : Stmt} (hs : s.Everywhere P) :
    (LoopCondition.andTrueInExitCheck s).Everywhere P := by
  unfold LoopCondition.andTrueInExitCheck
  split
  · split
    · -- The exit check is the first statement, and its condition is all that changes.
      obtain ⟨hcheck, hrest⟩ := List.forall_mem_cons.mp hs.nested
      obtain ⟨hblock, -⟩ := List.forall_mem_cons.mp hcheck.nested
      have hexit := (hblock.nested _ List.mem_cons_self).nested
      refine hP.block (List.forall_mem_cons.mpr ⟨hP.ifElse (hP.block ?_) nofun, hrest⟩)
      exact List.forall_mem_singleton.mpr (.intro (hP.other rfl) hexit)
    · exact hs
  · exact hs

include hP in
/-- Conditions of loops may be anything. -/
theorem shows_andTrue (hp : p.Shows (everywhere P G)) :
    (LoopCondition.legalize p).Shows (everywhere P G) := by
  have hloop : ∀ t : Stmt, t.Everywhere P → (LoopCondition.andTrueInLoop t).Everywhere P := by
    intro t ht
    unfold LoopCondition.andTrueInLoop
    split
    · -- Only the condition of a loop is changed, and the exit check of a former `do` loop.
      refine .intro (hP.other rfl) (List.forall_mem_singleton.mpr ?_)
      exact everywhere_andTrueInExitCheck hP (ht.nested _ List.mem_cons_self)
    · exact .intro (hP.loop rfl ht.here) ht.nested
    · exact .intro (hP.other rfl) ht.nested
    · exact ht
  refine shows_mapBodies (fun body hbody s hs => ?_) hp
  rw [bottomUpList_eq_map] at hs
  obtain ⟨t, ht, rfl⟩ := List.mem_map.mp hs
  refine hP.bottomUp hloop (fun s => ?_) (hbody t ht)
  cases s with
  | forLoop init cond step body => cases cond <;> rfl
  | _ => rfl

include hP hR ho in
/-- The rules up to the one for constant exponents keep such an outline. -/
theorem shows_early {r : Rule} (hr : r ∈ rulesBefore "int_abs") (hp : p.Shows (everywhere P G)) :
    Yields (Program.Shows (everywhere P G)) (r.step t p) := by
  refine yields_step hp ?_
  simp only [rulesBefore, pipeline, List.takeWhile, Rule.name_always, Rule.name_workaround,
    String.reduceBNe, List.mem_cons, List.not_mem_nil, or_false] at hr
  -- One case for each rule before the absolute values, in the order of the pipeline.
  obtain rfl | rfl | rfl | rfl | rfl | rfl | rfl | rfl | rfl | rfl := hr
  · exact header_same.mono fun p' hp' => hp' ▸ hp
  · exact .pure (shows_highPrecision hR ho hp)
  · exact shows_fragCoord hP hR ho hp
  · exact (Replaces.shows_mapExprsM ho
      (hR.bottomUpM_holds .yields (hR.resolve t.profile)) hp).liftMalformed
  · exact shows_invocations hP hR ho hp
  · exact (shows_ternaryTarget hP hR ho hp).liftUnsupported
  · exact (shows_replaceLoops hP hp).lift
  · exact .pure (Replaces.shows_mapNodes ho (hR.bottomUp hR.unfold) hp)
  · exact .pure (shows_andTrue hP hp)
  · exact (Replaces.shows_mapExprsM ho (hR.bottomUpM_holds .yields hR.expand) hp).liftMalformed

include hP hR ho in
/-- All rules keep it, if initial values may move into functions. -/
theorem shows_all (hlate : Refits true Expr.isRefitted R) (hhoists : Hoists (everywhere P G))
    {r : Rule} (hr : r ∈ pipeline) (hp : p.Shows (everywhere P G)) :
    Yields (Program.Shows (everywhere P G)) (r.step t p) := by
  -- The rules after the loops are among those that come later.
  have hlater : rulesAfter "loop_condition_and_true" =
      rulesBetween "loop_condition_and_true" "int_abs" ++
        .workaround "int_abs" .emulateIntAbs (fun p => liftM (IntAbs.legalize p)) ::
          rulesAfter "int_abs" := rfl
  rw [pipeline_eq "int_abs" rfl, List.mem_append] at hr
  rcases hr with hr | hr
  · exact shows_early hP hR ho hr hp
  · exact shows_late hlate ho hhoists (hlater ▸ List.mem_append_right _ hr) hp

end

end Legalize

end ShaderGen
