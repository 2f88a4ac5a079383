import ShaderGen.Legalize.DoWhile
import ShaderGen.Legalize.LoopCondition
import ShaderGen.Legalize.ShortCircuit
import ShaderGen.Proofs.Precision.TwinPrograms

/-!
# What becomes of loops

Loops that test at their end may be replaced, and short-circuit operators may be spelled as choices,
before the conditions of loops are changed. A `Plan` says what all of this makes of a program: what
becomes of an expression, whether loops that test at their end are replaced, and what becomes of the
condition of a loop in the end. It goes over the program once, as it was before any of the rules, so
it sees which loops are replaced, and it gives names to their flags in the same order.

The first two rules follow a plan that leaves conditions alone (`prepare_eq_program`).

## Main definitions

- `Plan`, `Plan.program`
- `prepare`: the first two rules, if they run
-/

namespace ShaderGen.Legalize.LoopCondition

open Stmt

/-- What becomes of expressions and of loops. -/
structure Plan where
  /-- what becomes of an expression -/
  expr : Expr → Expr
  /-- whether loops that test at their end are replaced -/
  replaces : Bool
  /-- what becomes of the condition of a loop in the end -/
  condition : Expr → Expr

namespace Plan

variable (plan : Plan)

/-- The loop with another condition, the loops inside it left alone. -/
def atLoop : Stmt → Stmt
  | .whileLoop cond body => .whileLoop (plan.condition cond) body
  | .forLoop init cond step body => .forLoop init (cond.map plan.condition) step body
  | .doWhile body cond => .doWhile body (plan.condition cond)
  | s => s

/-- The initializer of a `for`. Loops in it are not replaced, but keep their place. -/
def header (s : Stmt) : Stmt := (s.mapExprs plan.expr).bottomUp plan.atLoop

/-- What replaces a loop that tests `cond` at its end: the condition is in the exit check, and the
    loop itself has a condition that always holds. -/
def replacement (flagName : String) (cond : Expr) (body : Stmt) : List Stmt :=
  let flag := Expr.ofVar flagName .bool
  [.decl (.plain flagName .bool (some (.bool false))),
   .whileLoop (plan.condition (.bool true))
    (.block [
      .ifElse flag
        (.block [.ifElse (.ofUnary .not (plan.condition cond)) (.block [.breakOut]) none]) none,
      .assign flag (.bool true), body.toBlock])]

mutual
/-- The statements that a statement becomes. -/
def stmt : Stmt → ScratchM (List Stmt)
  | .block body => do
    let body ← list body
    pure [.block body]
  | .decl d => pure [.decl { d with init := d.init.map plan.expr }]
  | .ifElse cond thenBranch elseBranch => do
    let thenBranch ← stmt thenBranch
    let elseBranch ← option elseBranch
    pure [.ifElse (plan.expr cond) (ofList thenBranch) elseBranch]
  | .forLoop init cond step body => do
    let body ← stmt body
    pure [.forLoop (init.map plan.header) (cond.map fun c => plan.condition (plan.expr c))
      (step.map plan.expr) (ofList body)]
  | .whileLoop cond body => do
    let body ← stmt body
    pure [.whileLoop (plan.condition (plan.expr cond)) (ofList body)]
  | .doWhile body cond =>
    if plan.replaces then do
      let flagName ← freshName .loopFlag
      let body ← stmt body
      pure (plan.replacement flagName (plan.expr cond) (ofList body))
    else do
      let body ← stmt body
      pure [.doWhile (ofList body) (plan.condition (plan.expr cond))]
  | .switchOn value cases => do
    let cases ← caseList cases
    pure [.switchOn (plan.expr value) cases]
  | .expr e => pure [.expr (plan.expr e)]
  | .returnWith value => pure [.returnWith (value.map plan.expr)]
  | .breakOut => pure [.breakOut]
  | .continueLoop => pure [.continueLoop]
  | .discard => pure [.discard]
  | .emitVertex => pure [.emitVertex]
  | .endPrimitive => pure [.endPrimitive]

/-- What a statement becomes that need not be there; it stays a single one. -/
def option : Option Stmt → ScratchM (Option Stmt)
  | none => pure none
  | some s => do
    let ss ← stmt s
    pure (some (ofList ss))

/-- What several statements become. -/
def list : List Stmt → ScratchM (List Stmt)
  | [] => pure []
  | s :: ss => do
    let s ← stmt s
    let ss ← list ss
    pure (s ++ ss)

/-- What the cases of a `switch` become. -/
def caseList : List Case → ScratchM (List Case)
  | [] => pure []
  | .mk label body :: cases => do
    let body ← list body
    let cases ← caseList cases
    pure (.mk label body :: cases)
end

/-- What an element becomes. -/
def element : Element → ScratchM Element
  | .global d => pure (.global { d with init := d.init.map plan.expr })
  | .function f => do
    let body ← plan.list f.body
    pure (.function { f with body })
  | .layout l => pure (.layout l)

/-- What a program becomes. -/
def program (p : Program) : ScratchM Program := do
  let elements ← p.elements.mapM plan.element
  pure { p with elements }

end Plan

/-- What spelling short-circuit operators as choices makes of an expression, if that is done. -/
def spelled (unfolds : Bool) (e : Expr) : Expr :=
  if unfolds then e.bottomUp ShortCircuit.unfoldNode else e

/-- The plan of the rules before. -/
def Plan.before (replaces unfolds : Bool) : Plan := ⟨spelled unfolds, replaces, id⟩

/-- The plan of all three rules: every condition `c` of a loop is `c && true` in the end. -/
def Plan.after (replaces unfolds : Bool) : Plan :=
  ⟨spelled unfolds, replaces, fun cond => .ofBinary .logicalAnd cond (.bool true)⟩

section

variable (replaces unfolds : Bool)

@[simp] theorem Plan.before_expr : (before replaces unfolds).expr = spelled unfolds := rfl

@[simp] theorem Plan.before_replaces : (before replaces unfolds).replaces = replaces := rfl

@[simp] theorem Plan.before_condition : (before replaces unfolds).condition = id := rfl

@[simp] theorem Plan.after_expr : (after replaces unfolds).expr = spelled unfolds := rfl

@[simp] theorem Plan.after_replaces : (after replaces unfolds).replaces = replaces := rfl

/-- The rule builds the conditions that the plan asks for. -/
@[simp] theorem Plan.after_condition : (after replaces unfolds).condition = andTrue := rfl

end

/-- What the two rules before leave, if they run. -/
def prepare (replaces unfolds : Bool) (p : Program) : ScratchM Program := do
  let p ← if replaces then DoWhile.legalize p else pure p
  pure (if unfolds then ShortCircuit.legalize p else p)

/-! ### Single statements and blocks -/

/-- Rewriting the expressions of a statement made of several rewrites each of them. -/
theorem mapExprs_ofList (g : Expr → Expr) (ss : List Stmt) :
    (ofList ss).mapExprs g = ofList (ss.map (mapExprs g)) := by
  match ss with
  | [] => exact mapExprs_block g []
  | [s] => rfl
  | s :: s' :: ss => exact mapExprs_block g (s :: s' :: ss)

/-- Rewriting the expressions commutes with wrapping in a block. -/
theorem mapExprs_toBlock (g : Expr → Expr) (s : Stmt) :
    s.toBlock.mapExprs g = (s.mapExprs g).toBlock := by
  cases s with
  | block body => rw [toBlock, mapExprs_block, toBlock]
  | _ => exact mapExprs_block g [_]

/-! ### Spelling expressions -/

section

variable (unfolds : Bool)

/-- Without unfolding, an expression is spelled as it is. -/
theorem spelled_false : spelled false = id := rfl

/-- A truth value is spelled as it is. -/
theorem spelled_bool (b : Bool) : spelled unfolds (.bool b) = .bool b := by
  cases unfolds <;> rfl

/-- So is a variable. -/
theorem spelled_var (name : String) (ty : Ty) :
    spelled unfolds (.ofVar name ty) = .ofVar name ty := by
  cases unfolds <;> rfl

/-- A negation is spelled by spelling its operand. -/
theorem spelled_not (cond : Expr) :
    spelled unfolds (.ofUnary .not cond) = .ofUnary .not (spelled unfolds cond) := by
  cases unfolds with
  | false => rfl
  | true => exact Expr.bottomUp_unary _ _ _ _

end

namespace Plan

variable {plan : Plan}

/-! ### Loops that are not replaced -/

/-- A list whose statements are only given new headers is mapped. -/
theorem list_eq_pure {ss : List Stmt} (h : ∀ s ∈ ss, plan.stmt s = pure [plan.header s]) :
    plan.list ss = pure (ss.map plan.header) := by
  induction ss with
  | nil => rfl
  | cons s ss ih =>
    obtain ⟨hs, hss⟩ := List.forall_mem_cons.mp h
    rw [list, hs, ih hss]
    rfl

/-- If no loop is replaced, every statement stays a single one. -/
theorem stmt_eq_pure (hplan : plan.replaces = false) (s : Stmt) :
    plan.stmt s = pure [plan.header s] := by
  -- Only a loop with its test at the end could become several statements, so each kind of statement
  -- is rebuilt over its own children.
  induction s with
  | block body ih =>
    rw [stmt, list_eq_pure ih, header, mapExprs_block, bottomUp, bottomUpList_eq_map, List.map_map]
    rfl
  | decl d => rw [stmt, header, mapExprs_decl]; rfl
  | ifElse cond thenBranch elseBranch iht ihe =>
    have helse : plan.option elseBranch = pure (elseBranch.map plan.header) := by
      cases elseBranch with
      | none => rfl
      | some s => rw [option, ihe s rfl]; rfl
    have hheader : plan.header (.ifElse cond thenBranch elseBranch) = .ifElse (plan.expr cond)
        (plan.header thenBranch) (elseBranch.map plan.header) := by
      rw [header, mapExprs_ifElse, bottomUp]
      cases elseBranch <;> rfl
    rw [stmt, iht, helse, hheader]
    rfl
  -- The first part is a statement, and the other three are expressions.
  | forLoop init cond step body ihi ihb =>
    have hheader : plan.header (.forLoop init cond step body) = .forLoop (init.map plan.header)
        (cond.map fun c => plan.condition (plan.expr c)) (step.map plan.expr)
        (plan.header body) := by
      rw [header, mapExprs_forLoop, bottomUp]
      cases init <;> cases cond <;> rfl
    rw [stmt, ihb, hheader]
    rfl
  | whileLoop cond body ih => rw [stmt, ih]; rfl
  | doWhile body cond ih => rw [stmt, hplan, ih]; rfl
  -- The cases are gone through in turn, as they are rebuilt together.
  | switchOn value cases ih =>
    have hcases : plan.caseList cases =
        pure (bottomUpCases plan.atLoop (cases.map (mapExprsCase plan.expr))) := by
      induction cases with
      | nil => rfl
      | cons c cases ihcs =>
        obtain ⟨label, body⟩ := c
        rw [caseList, list_eq_pure (ih label body List.mem_cons_self),
          ihcs fun label' body' hc => ih label' body' (List.mem_cons_of_mem _ hc), List.map_cons,
          mapExprsCase, bottomUpCases, bottomUpList_eq_map, List.map_map]
        rfl
    rw [stmt, hcases, header, mapExprs_switchOn, bottomUp]
    rfl
  | returnWith value => rw [stmt, header, mapExprs_returnWith]; rfl
  | expr | breakOut | continueLoop | discard | emitVertex | endPrimitive => rfl

/-! ### Conditions that are left alone -/

/-- Before the condition rule, only the spelling of the expressions differs. -/
theorem header_before (replaces unfolds : Bool) (s : Stmt) :
    (before replaces unfolds).header s = s.mapExprs (spelled unfolds) := by
  have hid : (before replaces unfolds).atLoop = id := by
    funext s
    cases s with
    | forLoop init cond step body => simp [atLoop, before]
    | _ => rfl
  rw [header, hid, bottomUp_id]
  rfl

/-- What the replacement of a loop is, once expressions are spelled differently. -/
theorem mapExprs_replace (unfolds : Bool) (flagName : String) (body : Stmt) (cond : Expr) :
    (DoWhile.replace flagName (.doWhile body cond)).map (mapExprs (spelled unfolds)) =
      (before true unfolds).replacement flagName (spelled unfolds cond)
        (body.mapExprs (spelled unfolds)) := by
  have hraise : (Stmt.assign (.ofVar flagName .bool) (.bool true)).mapExprs (spelled unfolds) =
      .assign (.ofVar flagName .bool) (.bool true) :=
    congrArg Stmt.expr (by cases unfolds <;> rfl)
  simp only [DoWhile.replace, DoWhile.exitCheck, replacement, Decl.plain, List.map, mapExprs_decl,
    mapExprs_whileLoop, mapExprs_block, mapExprs_ifElse, Option.map, hraise, mapExprs_toBlock,
    spelled_bool, spelled_var, spelled_not]
  rfl

/-- What holds of each statement of a list holds of the list. -/
theorem list_of_stmt {unfolds : Bool} {ss : List Stmt}
    (h : ∀ s ∈ ss, (before true unfolds).stmt s =
      List.map (mapExprs (spelled unfolds)) <$> s.expandM DoWhile.visit) :
    (before true unfolds).list ss =
      List.map (mapExprs (spelled unfolds)) <$> expandListM DoWhile.visit ss := by
  induction ss with
  | nil => rfl
  | cons s ss ih =>
    obtain ⟨hs, hss⟩ := List.forall_mem_cons.mp h
    rw [list, expandListM, hs, ih hss]
    simp

/-- The first two rules follow the plan that leaves conditions alone. -/
theorem stmt_expandM (unfolds : Bool) (s : Stmt) :
    (before true unfolds).stmt s =
      List.map (mapExprs (spelled unfolds)) <$> s.expandM DoWhile.visit := by
  have hheader (init : Option Stmt) : init.map (before true unfolds).header =
      init.map (mapExprs (spelled unfolds)) := by
    cases init with
    | none => rfl
    | some s => exact congrArg some (header_before true unfolds s)
  -- Both walks visit the children in the same order, so what is left at each kind of statement is
  -- that the expressions may be spelled afterwards.
  induction s with
  | block body ih =>
    rw [stmt, list_of_stmt ih]
    simp [expandM, DoWhile.visit, mapExprs_block]
  | decl d => simp [stmt, expandM, DoWhile.visit, mapExprs_decl]
  | ifElse cond thenBranch elseBranch iht ihe =>
    have helse : (before true unfolds).option elseBranch =
        Option.map (mapExprs (spelled unfolds)) <$> expandOptionM DoWhile.visit elseBranch := by
      cases elseBranch with
      | none => rfl
      | some s => simp [option, expandOptionM, ihe s rfl, mapExprs_ofList]
    rw [stmt, iht, helse]
    simp [expandM, DoWhile.visit, mapExprs_ifElse, mapExprs_ofList]
  -- The first part of a loop is only spelled: no loop can stand there.
  | forLoop init cond step body ihi ihb =>
    rw [stmt, ihb, hheader]
    simp [expandM, DoWhile.visit, mapExprs_forLoop, mapExprs_ofList]
  | whileLoop cond body ih =>
    rw [stmt, ih]
    simp [expandM, DoWhile.visit, mapExprs_whileLoop, mapExprs_ofList]
  -- The name of the flag is drawn before the body is walked, in both walks.
  | doWhile body cond ih =>
    simp only [stmt, before_replaces, before_expr, ih, if_true, expandM, DoWhile.visit, bind_assoc,
      pure_bind, map_bind, bind_map_left, map_pure, mapExprs_replace, mapExprs_ofList]
  | switchOn value cases ih =>
    have hcases : (before true unfolds).caseList cases =
        List.map (mapExprsCase (spelled unfolds)) <$> expandCasesM DoWhile.visit cases := by
      induction cases with
      | nil => rfl
      | cons c cases ihcs =>
        obtain ⟨label, body⟩ := c
        rw [caseList, expandCasesM, list_of_stmt (ih label body List.mem_cons_self),
          ihcs fun label' body' hc => ih label' body' (List.mem_cons_of_mem _ hc)]
        simp [mapExprsCase]
    rw [stmt, hcases]
    simp [expandM, DoWhile.visit, mapExprs_switchOn]
  | returnWith value => simp [stmt, expandM, DoWhile.visit, mapExprs_returnWith]
  | expr | breakOut | continueLoop | discard | emitVertex | endPrimitive => rfl

end Plan

/-! ### Programs -/

namespace Plan

/-- The plan does to a list what replacing the loops and then unfolding does. -/
theorem list_expandListM (unfolds : Bool) (ss : List Stmt) :
    (before true unfolds).list ss =
      List.map (mapExprs (spelled unfolds)) <$> expandListM DoWhile.visit ss :=
  list_of_stmt fun s _ => stmt_expandM unfolds s

/-- What the first two rules make of an element. -/
theorem element_before (replaces unfolds : Bool) (el : Element) :
    (before replaces unfolds).element el = Element.mapExprs (spelled unfolds) <$>
      if replaces then el.mapFunctionM DoWhile.replaceIn else pure el := by
  -- Only functions hold loops, so the other elements are only spelled.
  cases el with
  | global d => cases replaces <;> rfl
  | layout l => cases replaces <;> rfl
  | function f =>
    cases replaces with
    | false =>
      have hbody : (before false unfolds).list f.body =
          pure (f.body.map (mapExprs (spelled unfolds))) := by
        rw [list_eq_pure fun s _ => stmt_eq_pure rfl s]
        exact congrArg pure (List.map_congr_left fun s _ => header_before false unfolds s)
      rw [element, hbody]
      rfl
    | true =>
      rw [element, list_expandListM]
      simp [Element.mapFunctionM, DoWhile.replaceIn, Element.mapExprs, Function.mapBody]

end Plan

/-- Spelling every element is the rule on short circuits, where it is on. -/
theorem mapExprs_spelled (unfolds : Bool) (els : List Element) (stage : Stage) :
    Program.mk stage (els.map (Element.mapExprs (spelled unfolds))) =
      if unfolds then ShortCircuit.legalize ⟨stage, els⟩ else ⟨stage, els⟩ := by
  cases unfolds with
  | false =>
    -- The map by the identity does nothing to any element.
    have hid (el : Element) : el.mapExprs id = el := by
      cases el with
      | global d => simp [Element.mapExprs]
      | function f =>
        have hbody : f.body.map (mapExprs id) = f.body := by
          rw [List.map_congr_left fun s _ => mapExprs_id s, List.map_id']
        exact congrArg (fun body => Element.function { f with body }) hbody
      | layout l => rfl
    rw [spelled_false, List.map_congr_left fun el _ => hid el, List.map_id']
    rfl
  | true =>
    exact congrArg (Program.mk stage)
      (Program.elements_mapNodes ShortCircuit.unfoldNode ⟨stage, els⟩).symm

/-- The first two rules follow the plan that leaves conditions alone. -/
theorem prepare_eq_program (replaces unfolds : Bool) (p : Program) :
    prepare replaces unfolds p = (Plan.before replaces unfolds).program p := by
  have helements : p.elements.mapM (Plan.before replaces unfolds).element =
      List.map (Element.mapExprs (spelled unfolds)) <$>
        if replaces then p.elements.mapM (Element.mapFunctionM DoWhile.replaceIn)
        else pure p.elements := by
    -- The names are drawn element by element, in the order of the program.
    induction p.elements with
    | nil => cases replaces <;> rfl
    | cons el els ih =>
      rw [List.mapM_cons, Plan.element_before, ih]
      cases replaces <;> simp
  rw [Plan.program, helements, prepare]
  cases replaces with
  | false => simp [mapExprs_spelled]
  | true => simp [mapExprs_spelled, DoWhile.legalize, Program.mapFunctionsM]

end ShaderGen.Legalize.LoopCondition
