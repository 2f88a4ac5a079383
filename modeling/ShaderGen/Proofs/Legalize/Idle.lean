import ShaderGen.Proofs.Legalize.Absence

/-!
# Rules with nothing to do

A walk that meets nothing it is for puts back what it took apart, and has no effect on the way: it
is the computation that returns what it is given (`pure`). So a rule for a workaround does nothing
to a program without the construct that the workaround is for (`Workaround.construct`), not even to
the numbering of generated names.

## Key results

- `Program.mapExprsM_eq_pure`, `Stmt.expandListM_eq_pure`: walks that replace nothing
- `doWhile_eq_pure`, `shortCircuit_eq_self` and so on: rules for workarounds without their construct
-/

namespace ShaderGen

/-! ### Walks -/

section

variable {m : Type → Type} [Monad m] [LawfulMonad m]

/-- Computations one after the other that return what they can tell beforehand. -/
theorem mapM_eq_pure {α β : Type} {f : α → m β} {g : α → β} {as : List α}
    (h : ∀ a ∈ as, f a = pure (g a)) : as.mapM f = pure (as.map g) := by
  induction as with
  | nil => exact List.mapM_nil
  | cons a as ih =>
    rw [List.mapM_cons, h a List.mem_cons_self, pure_bind,
      ih fun b hb => h b (List.mem_cons_of_mem a hb), pure_bind, List.map_cons]

namespace Expr

/-- A walk that puts back every node without a property does nothing to an expression without such
    nodes. -/
theorem bottomUpM_eq_pure {f : Expr → m Expr} {k : Expr → Bool}
    (hf : ∀ e, k e = false → f e = pure e) {e : Expr} (he : e.any k = false) :
    e.bottomUpM f = pure e := by
  induction e using induction_children with
  | h e ih =>
    obtain ⟨hnode, hchildren⟩ := any_eq_false_iff.mp he
    -- The children stay by induction, so the node is put together as it was.
    have hall : e.children.mapM (bottomUpM f) = pure e.children :=
      (mapM_eq_pure (g := id) fun c hc => ih c hc (hchildren c hc)).trans
        (by rw [List.map_id])
    rw [bottomUpM_eq, hall, pure_bind, withChildren_children]
    exact hf e hnode

end Expr

namespace Stmt

variable {f : Expr → m Expr} {visit : Stmt → m (Stmt → List Stmt)}

/-- An optional expression is left as it is if it is there and left. -/
private theorem option_mapM_eq_pure {o : Option Expr} (h : ∀ e ∈ o, f e = pure e) :
    o.mapM f = pure o := by
  cases o with
  | none => rfl
  | some e => rw [Option.mapM_some, h e rfl, map_pure]

/-- A list is left as it is if its statements are. -/
private theorem mapExprsListM_idle {ss : List Stmt} (h : ∀ s ∈ ss, s.mapExprsM f = pure s) :
    mapExprsListM f ss = pure ss := by
  induction ss with
  | nil => rfl
  | cons s ss ih =>
    rw [mapExprsListM, h s List.mem_cons_self, pure_bind,
      ih fun t ht => h t (List.mem_cons_of_mem s ht), pure_bind]

/-- So is an optional statement. -/
private theorem mapExprsOptionM_idle {o : Option Stmt} (h : ∀ s ∈ o, s.mapExprsM f = pure s) :
    mapExprsOptionM f o = pure o := by
  cases o with
  | none => rfl
  | some s => rw [mapExprsOptionM, h s rfl, pure_bind]

/-- So are cases. -/
private theorem mapExprsCasesM_idle {cases : List Case}
    (h : ∀ label body, .mk label body ∈ cases → ∀ s ∈ body, s.mapExprsM f = pure s) :
    mapExprsCasesM f cases = pure cases := by
  induction cases with
  | nil => rfl
  | cons c cases ih =>
    obtain ⟨label, body⟩ := c
    have hrest := ih fun label body hc => h label body (List.mem_cons_of_mem _ hc)
    rw [mapExprsCasesM, mapExprsListM_idle (h label body List.mem_cons_self), pure_bind, hrest,
      pure_bind]

/-- Putting back every expression of a statement does nothing to it. -/
theorem mapExprsM_eq_pure {s : Stmt} (hs : s.All fun e => f e = pure e) :
    s.mapExprsM f = pure s := by
  -- The visit may have effects, so each kind of statement is put back in the order of its visits,
  -- and the lists inside it by the lemma on that list.
  induction s with
  | block body ih =>
    rw [mapExprsM, mapExprsListM_idle fun s hmem => ih s hmem (all_block.mp hs s hmem), pure_bind]
  | decl d =>
    rw [mapExprsM, Decl.mapInitM, option_mapM_eq_pure (all_decl.mp hs), pure_bind, pure_bind]
  | ifElse cond thenBranch elseBranch iht ihe =>
    obtain ⟨hcond, hthen, helse⟩ := all_ifElse.mp hs
    rw [mapExprsM, hcond, pure_bind, iht hthen, pure_bind,
      mapExprsOptionM_idle fun s hmem => ihe s hmem (helse s hmem), pure_bind]
  | forLoop init cond step body ihi ihb =>
    obtain ⟨hinit, hcond, hstep, hbody⟩ := all_forLoop.mp hs
    rw [mapExprsM, option_mapM_eq_pure hcond, pure_bind, option_mapM_eq_pure hstep, pure_bind,
      mapExprsOptionM_idle fun s hmem => ihi s hmem (hinit s hmem), pure_bind, ihb hbody, pure_bind]
  | whileLoop cond body ih =>
    obtain ⟨hcond, hbody⟩ := all_whileLoop.mp hs
    rw [mapExprsM, hcond, pure_bind, ih hbody, pure_bind]
  | doWhile body cond ih =>
    obtain ⟨hcond, hbody⟩ := all_doWhile.mp hs
    rw [mapExprsM, hcond, pure_bind, ih hbody, pure_bind]
  | switchOn value cases ih =>
    obtain ⟨hvalue, hcases⟩ := all_switchOn.mp hs
    have hrest := mapExprsCasesM_idle fun label body hc s hmem =>
      ih label body hc s hmem (hcases _ hc s hmem)
    rw [mapExprsM, hvalue, pure_bind, hrest, pure_bind]
  | expr e => rw [mapExprsM, all_expr.mp hs, pure_bind]
  | returnWith value =>
    rw [mapExprsM, option_mapM_eq_pure (all_returnWith.mp hs), pure_bind]
  | _ => rfl

/-- The same for the statements of a body. -/
theorem mapExprsListM_eq_pure {ss : List Stmt} (h : ∀ s ∈ ss, s.All fun e => f e = pure e) :
    mapExprsListM f ss = pure ss :=
  mapExprsListM_idle fun s hs => mapExprsM_eq_pure (h s hs)

/-- A statement is visited without effect, and replaced by itself. -/
def Stays (visit : Stmt → m (Stmt → List Stmt)) (s : Stmt) : Prop :=
  ∃ replace, visit s = pure replace ∧ replace s = [s]

/-- A list that no visit expands is left as it is. -/
private theorem expandListM_idle {ss : List Stmt} (h : ∀ s ∈ ss, s.expandM visit = pure [s]) :
    expandListM visit ss = pure ss := by
  induction ss with
  | nil => rfl
  | cons s ss ih =>
    rw [expandListM, h s List.mem_cons_self, pure_bind,
      ih fun t ht => h t (List.mem_cons_of_mem s ht), pure_bind]
    rfl

/-- So is an optional statement. -/
private theorem expandOptionM_idle {o : Option Stmt} (h : ∀ s ∈ o, s.expandM visit = pure [s]) :
    expandOptionM visit o = pure o := by
  cases o with
  | none => rfl
  | some s =>
    rw [expandOptionM, h s rfl, pure_bind]
    rfl

/-- So are cases. -/
private theorem expandCasesM_idle {cases : List Case}
    (h : ∀ label body, .mk label body ∈ cases → ∀ s ∈ body, s.expandM visit = pure [s]) :
    expandCasesM visit cases = pure cases := by
  induction cases with
  | nil => rfl
  | cons c cases ih =>
    obtain ⟨label, body⟩ := c
    have hrest := ih fun label body hc => h label body (List.mem_cons_of_mem _ hc)
    rw [expandCasesM, expandListM_idle (h label body List.mem_cons_self), pure_bind, hrest,
      pure_bind]

/-- Replacing every statement inside a statement by itself does nothing to it. -/
theorem expandM_eq_pure {s : Stmt} (hs : s.Everywhere (Stays visit)) :
    s.expandM visit = pure [s] := by
  -- `hs.here` says that the statement stays as it is around what stands inside it, `hs.nested` that
  -- this holds of each statement in there.
  induction s with
  | block body ih =>
    obtain ⟨replace, hvisit, hreplace⟩ := hs.here
    rw [expandM, hvisit, pure_bind, expandListM_idle fun s hmem => ih s hmem (hs.nested s hmem),
      pure_bind, hreplace]
  | ifElse cond thenBranch elseBranch iht ihe =>
    obtain ⟨replace, hvisit, hreplace⟩ := hs.here
    obtain ⟨hthen, helse⟩ := List.forall_mem_cons.mp hs.nested
    have hother := expandOptionM_idle fun s hmem =>
      ihe s hmem (helse s (Option.mem_toList.mpr hmem))
    rw [expandM, hvisit, pure_bind, iht hthen, pure_bind, hother, pure_bind]
    exact congrArg pure hreplace
  | forLoop init cond step body ihi ihb =>
    obtain ⟨replace, hvisit, hreplace⟩ := hs.here
    -- The initializer of the loop is not visited.
    obtain ⟨-, hbody⟩ := List.forall_mem_append.mp hs.nested
    rw [expandM, hvisit, pure_bind, ihb (hbody body List.mem_cons_self), pure_bind]
    exact congrArg pure hreplace
  | whileLoop cond body ih | doWhile body cond ih =>
    obtain ⟨replace, hvisit, hreplace⟩ := hs.here
    rw [expandM, hvisit, pure_bind, ih (hs.nested body List.mem_cons_self), pure_bind]
    exact congrArg pure hreplace
  | switchOn value cases ih =>
    obtain ⟨replace, hvisit, hreplace⟩ := hs.here
    have hcases := List.forall_mem_flatMap.mp hs.nested
    have hrest := expandCasesM_idle fun label body hc s hmem =>
      ih label body hc s hmem (hcases _ hc s hmem)
    rw [expandM, hvisit, pure_bind, hrest, pure_bind, hreplace]
  | _ =>
    obtain ⟨replace, hvisit, hreplace⟩ := hs.here
    simp only [expandM, hvisit, pure_bind, hreplace]

/-- The same for the statements of a body. -/
theorem expandListM_eq_pure {ss : List Stmt} (h : ∀ s ∈ ss, s.Everywhere (Stays visit)) :
    expandListM visit ss = pure ss :=
  expandListM_idle fun s hs => expandM_eq_pure (h s hs)

/-- Replacing every statement inside a statement by itself does nothing to it. -/
theorem bottomUp_eq_self {g : Stmt → Stmt} {s : Stmt} (hs : s.Everywhere fun s => g s = s) :
    s.bottomUp g = s := by
  have hlist : ∀ {ss : List Stmt}, (∀ s ∈ ss, s.bottomUp g = s) → bottomUpList g ss = ss :=
    fun h => (bottomUpList_eq_map g _).trans ((List.map_congr_left h).trans (List.map_id' _))
  have hoption : ∀ {o : Option Stmt}, (∀ s ∈ o, s.bottomUp g = s) → bottomUpOption g o = o := by
    intro o h
    cases o with
    | none => rfl
    | some s => exact congrArg some (h s rfl)
  induction s with
  | block body ih =>
    rw [bottomUp, hlist fun s hmem => ih s hmem (hs.nested s hmem), hs.here]
  | ifElse cond thenBranch elseBranch iht ihe =>
    obtain ⟨hthen, helse⟩ := List.forall_mem_cons.mp hs.nested
    rw [bottomUp, iht hthen,
      hoption fun s hmem => ihe s hmem (helse s (Option.mem_toList.mpr hmem)), hs.here]
  | forLoop init cond step body ihi ihb =>
    obtain ⟨hinit, hbody⟩ := List.forall_mem_append.mp hs.nested
    rw [bottomUp, hoption fun s hmem => ihi s hmem (hinit s (Option.mem_toList.mpr hmem)),
      ihb (hbody body List.mem_cons_self), hs.here]
  | whileLoop cond body ih | doWhile body cond ih =>
    rw [bottomUp, ih (hs.nested body List.mem_cons_self), hs.here]
  | switchOn value cases ih =>
    have hcases := List.forall_mem_flatMap.mp hs.nested
    -- The cases of a switch are walked by a function of their own, so it takes an induction on
    -- them.
    have hrest : bottomUpCases g cases = cases := by
      clear hs
      induction cases with
      | nil => rfl
      | cons c cases ihc =>
        obtain ⟨label, body⟩ := c
        rw [bottomUpCases, hlist fun s hmem => ih label body List.mem_cons_self s hmem
          (hcases _ List.mem_cons_self s hmem)]
        rw [ihc (fun label body hc => ih label body (List.mem_cons_of_mem _ hc))
          fun c hc => hcases c (List.mem_cons_of_mem _ hc)]
    rw [bottomUp, hrest, hs.here]
  | _ => simp only [bottomUp, hs.here]

end Stmt

namespace Program

variable {p : Program}

/-- A program is left as it is if its elements are. -/
private theorem mapM_elements_eq_pure {f : Element → m Element}
    (h : ∀ el ∈ p.elements, f el = pure el) :
    (do let elements ← p.elements.mapM f; pure { p with elements } : m Program) = pure p := by
  rw [mapM_eq_pure (g := id) h, List.map_id, pure_bind]

/-- Putting back every expression of a program does nothing to it. -/
theorem mapExprsM_eq_pure {f : Expr → m Expr} (hp : p.All fun e => f e = pure e) :
    p.mapExprsM f = pure p := by
  refine mapM_elements_eq_pure fun el hel => ?_
  have h := hp el hel
  -- A global has its initial value walked, a function its body, and a layout nothing.
  cases el with
  | global d =>
    rw [Element.mapExprsM, Decl.mapInitM, Stmt.option_mapM_eq_pure h, pure_bind, pure_bind]
  | function fn =>
    rw [Element.mapExprsM, Function.mapExprsM, Stmt.mapExprsListM_eq_pure h, pure_bind, pure_bind]
  | layout l => rfl

/-- Putting back the functions of a program does nothing to it. -/
theorem mapFunctionsM_eq_pure {f : Function → m Function}
    (h : ∀ fn, .function fn ∈ p.elements → f fn = pure fn) : p.mapFunctionsM f = pure p := by
  refine mapM_elements_eq_pure fun el hel => ?_
  cases el with
  | function fn => rw [Element.mapFunctionM, h fn hel, pure_bind]
  | _ => rfl

end Program

end

namespace Program

variable {p : Program} {k : Construct}

/-- The same for a function that has no effects. -/
theorem mapNodes_eq_self {f : Expr → Expr} {k : Expr → Bool} (hf : ∀ e, k e = false → f e = e)
    (hp : p.All fun e => e.any k = false) : p.mapNodes f = p := by
  have hpure : p.mapNodesM (m := Id) (fun e => pure (f e)) = pure p :=
    mapExprsM_eq_pure (hp.mono fun e he =>
      Expr.bottomUpM_eq_pure (fun e he => congrArg pure (hf e he)) he)
  exact congrArg Id.run hpure

/-- It is left by a map of functions that leaves each function. -/
theorem mapFunctions_eq_self {f : Function → Function}
    (h : ∀ fn, .function fn ∈ p.elements → f fn = fn) : p.mapFunctions f = p := by
  have hall : p.elements.map (Element.mapFunction f) = p.elements := by
    refine (List.map_congr_left fun el hel => ?_).trans (List.map_id _)
    cases el with
    | function fn => exact congrArg Element.function (h fn hel)
    | _ => rfl
  rw [mapFunctions, hall]

/-- Nothing of the construct is in the body of a function. -/
theorem Free.body {fn : Function} (hp : p.Free k) (h : .function fn ∈ p.elements) :
    ∀ s ∈ fn.body, s.Free k :=
  (hp _ h).2

end Program

/-! ### What workarounds are for -/

/-- A call of an intrinsic function with a result of some types. -/
def Expr.calls (f : Intrinsic) (result : Ty → Bool) : Expr → Bool
  | .call ty (.intrinsic g) _ => g == f && result ty
  | _ => false

/-- Whether a node calls a function is told by the node. -/
theorem Expr.calls_withChildren (f : Intrinsic) (result : Ty → Bool) (e : Expr)
    (cs : List Expr) : (e.withChildren cs).calls f result = e.calls f result := by
  unfold withChildren
  split
  case h_4 callee _ => cases callee <;> rfl
  all_goals rfl

namespace Construct

open Legalize

/-- Kinds of loops have no nodes, so no rule writes one as a matter of course. -/
theorem foreign_loops (loop : Loop → Bool) : Foreign { loop } where
  children _ _ := rfl
  raised _ := rfl
  made _ := rfl

/-- Short-circuit operators are told by the node, and not among what rules write. -/
theorem foreign_shortCircuit : Foreign { node := Expr.isShortCircuit } where
  children := Expr.isShortCircuit_withChildren
  raised e := by
    -- The operator alone decides.
    cases e with
    | binary ty op left right => cases op <;> rfl
    | _ => rfl
  made {e} h := by
    cases e with
    | binary ty op left right => cases op <;> first | rfl | cases h
    | _ => rfl

/-- Neither are choices. -/
theorem foreign_ternary : Foreign { node := TernaryTarget.isTernary } where
  children e cs := by unfold Expr.withChildren; split <;> rfl
  raised e := by cases e <;> rfl
  made {e} h := by
    cases e with
    | ternary => cases h
    | _ => rfl

/-- Calls of a function that rules do not bring in, whatever the precision of the result is. -/
theorem foreign_calls {f : Intrinsic} {result : Ty → Bool}
    (hf : [.pow, .atan, .min, .abs, .fract, .dFdx, .dFdy].contains f = true)
    (hresult : ∀ ty, result (HighPrecision.raiseTy ty) = result ty) :
    Foreign { node := Expr.calls f result } where
  children := Expr.calls_withChildren f result
  raised e := by
    cases e with
    | call ty callee args =>
      cases callee with
      | intrinsic g => exact congrArg (g == f && ·) (hresult ty)
      | user => rfl
    | _ => rfl
  made {e} h := by
    cases e with
    | call ty callee args =>
      cases callee with
      | user => rfl
      -- The functions in the list are written by no rule, so the one written is another.
      | intrinsic g =>
        have hne : (g == f) = false := by
          refine beq_eq_false_iff_ne.mpr ?_
          rintro rfl
          exact absurd hf (by simpa [Expr.isMade] using h)
        exact congrArg (· && result ty) hne
    | _ => rfl

end Construct

namespace Workaround

/-- The kind of nodes or of loops that a workaround is for. There is none for fragment coordinates:
    a vertex program that reads none passes them on. -/
def construct : Workaround → Construct
  | .avoidFragCoord => {}
  | .loopConditionAndTrue => { loop := fun _ => true }
  | .unfoldShortCircuit => { node := Expr.isShortCircuit }
  | .replaceDoWhile => { loop := (· == .doWhile) }
  | .emulateIntAbs => { node := Expr.calls .abs fun ty => ty.scalarKind? == some .int }
  | .splitMinAbs => { node := Expr.calls .min fun _ => true }
  | .guardFract => { node := Expr.calls .fract Ty.isFloat }
  | .multiplyAtanSign => { node := Expr.calls .atan fun _ => true }
  | .expandConstantPow => { node := Expr.calls .pow fun _ => true }
  | .splitTernaryTargets => { node := Legalize.TernaryTarget.isTernary }

/-- Rules do not bring in what workarounds are for as a matter of course. -/
theorem foreign_construct (w : Workaround) : w.construct.Foreign := by
  cases w with
  | avoidFragCoord | loopConditionAndTrue | replaceDoWhile => exact Construct.foreign_loops _
  | unfoldShortCircuit => exact Construct.foreign_shortCircuit
  | splitTernaryTargets => exact Construct.foreign_ternary
  | emulateIntAbs | splitMinAbs | guardFract | multiplyAtanSign | expandConstantPow =>
    exact Construct.foreign_calls (by decide) fun _ => rfl

end Workaround

/-! ### Rules -/

namespace Legalize

variable {p : Program}

/-- A node that calls no minimum is not split. -/
theorem splitNode_eq_pure {e : Expr} (h : e.calls .min (fun _ => true) = false) :
    MinAbs.splitNode e = pure e := by
  unfold MinAbs.splitNode
  split
  · cases h
  · rfl

/-- A node that calls no fraction of floats has no operand to guard. -/
theorem operand?_eq_none {e : Expr} (h : e.calls .fract Ty.isFloat = false) :
    Fract.operand? e = none := by
  unfold Fract.operand?
  split
  · next ty x =>
    have hty : ty.isFloat = false := h
    rw [hty]
    rfl
  · rfl

/-- No initial value moves into a function. -/
theorem hoist_eq_pure (stem : Stem) {needsFunction : Expr → Bool}
    (hp : p.All fun e => e.any needsFunction = false) :
    HoistInit.hoist stem needsFunction p = pure p := by
  have hall : p.elements.mapM (HoistInit.hoistElement stem needsFunction) =
      pure (p.elements.map fun el => [el]) := by
    -- No global needs a function, so each element becomes the list of itself.
    refine mapM_eq_pure fun el hel => ?_
    obtain ⟨heq, -⟩ | ⟨d, value, rfl, hvalue, hneeds, -⟩ :=
      HoistInit.hoistElement_cases stem needsFunction el
    · exact heq
    · have hspares : value.any needsFunction = false := hp _ hel value hvalue
      exact nomatch hneeds.symm.trans hspares
  have hflatten : (p.elements.map fun el => [el]).flatten = p.elements :=
    (List.flatMap_def ..).symm.trans (List.flatMap_singleton' _)
  rw [HoistInit.hoist, hall, pure_bind, hflatten]

/-- No temporary is declared. -/
theorem withTemporaries_eq_pure {f : Expr → TempM Expr} {fn : Function}
    (h : fn.All fun e => e.bottomUpM f = pure e) : withTemporaries f fn = pure fn := by
  rw [withTemporaries, Function.mapExprsM, Stmt.mapExprsListM_eq_pure h, pure_bind,
    StateT.run_pure, pure_bind]
  rfl

/-- Loops that all test at their start stay. -/
theorem doWhile_eq_pure {k : Construct} (hk : k.loop .doWhile = true) (hp : p.Free k) :
    DoWhile.legalize p = pure p := by
  refine Program.mapFunctionsM_eq_pure fun fn hfn => ?_
  have hbody : Stmt.expandListM DoWhile.visit fn.body = pure fn.body := by
    -- A statement that is spared is no such loop, and any other stays.
    refine Stmt.expandListM_eq_pure fun s hs => (hp.body hfn s hs).mono fun s hspares => ?_
    unfold Stmt.Stays DoWhile.visit
    split
    · exact absurd hspares.1 (by simp [Stmt.loop?, hk])
    · exact ⟨_, rfl, rfl⟩
  rw [DoWhile.replaceIn, hbody, pure_bind]

/-- Without a short-circuit operator nothing is unfolded. -/
theorem shortCircuit_eq_self (hp : p.Free Workaround.unfoldShortCircuit.construct) :
    ShortCircuit.legalize p = p :=
  Program.mapNodes_eq_self (fun _ he => Expr.unfoldNode_eq_self he) hp.all

/-- Without a loop no condition is changed. -/
theorem loopCondition_eq_self (hp : p.Free Workaround.loopConditionAndTrue.construct) :
    LoopCondition.legalize p = p := by
  refine Program.mapFunctions_eq_self fun fn hfn => ?_
  have hbody : Stmt.bottomUpList LoopCondition.andTrueInLoop fn.body = fn.body := by
    rw [Stmt.bottomUpList_eq_map]
    refine (List.map_congr_left fun s hs => ?_).trans (List.map_id' _)
    refine Stmt.bottomUp_eq_self ((hp.body hfn s hs).mono fun s hspares => ?_)
    unfold LoopCondition.andTrueInLoop
    -- Every kind of loop that the rule rewrites is excluded.
    split
    · cases hspares.1
    · cases hspares.1
    · cases hspares.1
    · rfl
  rw [Function.mapBody, hbody]

/-- Without a power nothing is expanded. -/
theorem constantPow_eq_ok (hp : p.Free Workaround.expandConstantPow.construct) :
    ConstantPow.legalize p = .ok p := by
  refine Program.mapExprsM_eq_pure (hp.all.mono fun e he =>
    Expr.bottomUpM_eq_pure (fun e he => ?_) he)
  unfold ConstantPow.expandNode
  split
  · cases he
  · cases he
  · rfl

/-- Without an integer absolute value nothing is emulated. -/
theorem intAbs_eq_pure (hp : p.Free Workaround.emulateIntAbs.construct) :
    IntAbs.legalize p = pure p := by
  refine Program.mapExprsM_eq_pure (hp.all.mono fun e he =>
    Expr.bottomUpM_eq_pure (fun e he => ?_) he)
  refine IntAbs.emulateNode_holds (P := (· = pure e)) rfl ?_
  -- An `abs` of integers is what the program is free of.
  rintro ty args rfl hint
  exact absurd hint (by simpa [Workaround.construct, Expr.calls] using he)

/-- Without a minimum nothing is split, and no initial value is moved. -/
theorem minAbs_eq_pure (hp : p.Free Workaround.splitMinAbs.construct) :
    MinAbs.legalize p = pure p := by
  have hkind : ∀ e, MinAbs.isMinAbs e = true → e.calls .min (fun _ => true) = true := by
    intro e h
    unfold MinAbs.isMinAbs at h
    split at h
    · rfl
    · cases h
  -- With nothing to split, nothing is hoisted and no temporary is drawn.
  have hhoist : HoistInit.hoist .minAbsInit MinAbs.isMinAbs p = pure p :=
    hoist_eq_pure _ (hp.all.mono fun e => Expr.any_mono hkind)
  have hexprs : p.All fun e => e.bottomUpM MinAbs.splitNode = pure e :=
    hp.all.mono fun e => Expr.bottomUpM_eq_pure fun _ => splitNode_eq_pure
  rw [MinAbs.legalize, hhoist, pure_bind]
  refine Program.mapFunctionsM_eq_pure fun fn hfn => ?_
  rw [withTemporaries_eq_pure (hexprs _ hfn)]
  rfl

/-- Without a fraction nothing is guarded, and no initial value is moved. -/
theorem fract_eq_pure (hp : p.Free Workaround.guardFract.construct) :
    Fract.legalize p = pure p := by
  -- Only a fraction needs a temporary, and there is none: nothing moves out of the globals, and no
  -- node of a function is replaced.
  have hkind : ∀ e, Fract.needsTemporary e = true → e.calls .fract Ty.isFloat = true := by
    intro e h
    cases hcalls : e.calls .fract Ty.isFloat with
    | true => rfl
    | false => exact absurd h (by simp [Fract.needsTemporary, operand?_eq_none hcalls])
  have hhoist : HoistInit.hoist .fractInit Fract.needsTemporary p = pure p :=
    hoist_eq_pure _ (hp.all.mono fun e => Expr.any_mono hkind)
  have helements : p.elements.mapM Fract.guardElement = pure p.elements := by
    refine (mapM_eq_pure (g := id) fun el hel => ?_).trans (by rw [List.map_id])
    cases el with
    | global d =>
      have hinit : ∀ e ∈ d.init, (pure (e.bottomUp Fract.guardPure) : Id Expr) = pure e := by
        intro e he
        refine Expr.bottomUpM_eq_pure (m := Id) (fun e hnode => ?_) (hp.all _ hel e he)
        rw [Fract.guardPure, operand?_eq_none hnode]
      rw [Fract.guardElement, Decl.mapInitM, Stmt.option_mapM_eq_pure hinit]
      rfl
    | function fn =>
      have hexprs : p.All fun e => e.bottomUpM Fract.guardNode = pure e :=
        hp.all.mono fun e => Expr.bottomUpM_eq_pure fun e hnode => by
          rw [Fract.guardNode, operand?_eq_none hnode]
      rw [Fract.guardElement, withTemporaries_eq_pure (hexprs _ hel), pure_bind]
      rfl
    | layout l => rfl
  rw [Fract.legalize, hhoist, pure_bind, helements]
  rfl

/-- Without an arc tangent nothing is multiplied. -/
theorem atanOperand_eq_self (hp : p.Free Workaround.multiplyAtanSign.construct) :
    AtanOperand.legalize p = p := by
  refine Program.mapNodes_eq_self (fun e he => ?_) hp.all
  refine AtanOperand.multiplyNode_holds (P := (· = e)) rfl ?_
  rintro ty y xTy x rfl -
  cases he

end Legalize

end ShaderGen
