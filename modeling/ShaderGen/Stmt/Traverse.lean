import ShaderGen.Stmt.Basic

/-! # Walking over statements

Three ways to rebuild a statement and one to search it.

* `Stmt.mapExprsM` replaces the expressions that statements hold. A statement's own expressions
  come before those of the statements inside it; in particular the condition and the step of a
  `for` come before its initializer.
* `Stmt.bottomUp` replaces every statement, inner ones first.
* `Stmt.expandM` replaces a statement by any number of statements. Where one statement stands
  alone (a branch, the body of a loop) several are put into a block. The initializer of a `for`
  is left alone, since it has to stay a single declaration or expression.
* `Stmt.anyExpr` looks for an expression that satisfies a predicate. -/

namespace ShaderGen

/-- The declaration with its initial value replaced. -/
def Decl.mapInitM {m : Type → Type} [Monad m] (f : Expr → m Expr) (d : Decl) : m Decl := do
  let init ← d.init.mapM f
  pure { d with init }

namespace Stmt

mutual
/-- Replaces the expressions of a statement, its own before those of inner statements. -/
def mapExprsM {m : Type → Type} [Monad m] (f : Expr → m Expr) : Stmt → m Stmt
  | .block body => do
    let body ← mapExprsListM f body
    pure (.block body)
  | .decl d => do
    let d ← d.mapInitM f
    pure (.decl d)
  | .ifElse cond thenBranch elseBranch => do
    let cond ← f cond
    let thenBranch ← thenBranch.mapExprsM f
    let elseBranch ← mapExprsOptionM f elseBranch
    pure (.ifElse cond thenBranch elseBranch)
  | .forLoop init cond step body => do
    let cond ← cond.mapM f
    let step ← step.mapM f
    let init ← mapExprsOptionM f init
    let body ← body.mapExprsM f
    pure (.forLoop init cond step body)
  | .whileLoop cond body => do
    let cond ← f cond
    let body ← body.mapExprsM f
    pure (.whileLoop cond body)
  | .doWhile body cond => do
    let cond ← f cond
    let body ← body.mapExprsM f
    pure (.doWhile body cond)
  | .switchOn value cases => do
    let value ← f value
    let cases ← mapExprsCasesM f cases
    pure (.switchOn value cases)
  | .expr e => do
    let e ← f e
    pure (.expr e)
  | .returnWith value => do
    let value ← value.mapM f
    pure (.returnWith value)
  | .breakOut => pure .breakOut
  | .continueLoop => pure .continueLoop
  | .discard => pure .discard
  | .emitVertex => pure .emitVertex
  | .endPrimitive => pure .endPrimitive

/-- Replaces the expressions of a statement that need not be there. -/
def mapExprsOptionM {m : Type → Type} [Monad m] (f : Expr → m Expr) :
    Option Stmt → m (Option Stmt)
  | none => pure none
  | some s => do
    let s ← s.mapExprsM f
    pure (some s)

/-- Replaces the expressions of several statements, in order. -/
def mapExprsListM {m : Type → Type} [Monad m] (f : Expr → m Expr) :
    List Stmt → m (List Stmt)
  | [] => pure []
  | s :: ss => do
    let s ← s.mapExprsM f
    let ss ← mapExprsListM f ss
    pure (s :: ss)

/-- Replaces the expressions of the cases of a `switch`, in order. -/
def mapExprsCasesM {m : Type → Type} [Monad m] (f : Expr → m Expr) :
    List Case → m (List Case)
  | [] => pure []
  | .mk label body :: cases => do
    let body ← mapExprsListM f body
    let cases ← mapExprsCasesM f cases
    pure (.mk label body :: cases)
end

mutual
/-- Replaces every statement, inner ones before the one that holds them. -/
def bottomUp (f : Stmt → Stmt) : Stmt → Stmt
  | .block body => f (.block (bottomUpList f body))
  | .ifElse cond thenBranch elseBranch =>
    f (.ifElse cond (thenBranch.bottomUp f) (bottomUpOption f elseBranch))
  | .forLoop init cond step body =>
    f (.forLoop (bottomUpOption f init) cond step (body.bottomUp f))
  | .whileLoop cond body => f (.whileLoop cond (body.bottomUp f))
  | .doWhile body cond => f (.doWhile (body.bottomUp f) cond)
  | .switchOn value cases => f (.switchOn value (bottomUpCases f cases))
  | s => f s

/-- Replaces the statements of a statement that need not be there. -/
def bottomUpOption (f : Stmt → Stmt) : Option Stmt → Option Stmt
  | none => none
  | some s => some (s.bottomUp f)

/-- Replaces the statements of several statements. -/
def bottomUpList (f : Stmt → Stmt) : List Stmt → List Stmt
  | [] => []
  | s :: ss => s.bottomUp f :: bottomUpList f ss

/-- Replaces the statements of the cases of a `switch`. -/
def bottomUpCases (f : Stmt → Stmt) : List Case → List Case
  | [] => []
  | .mk label body :: cases => .mk label (bottomUpList f body) :: bottomUpCases f cases
end

mutual
/-- Replaces a statement by any number of statements. `visit` sees a statement before the
    statements inside it, and what it returns makes the replacement once those are replaced. -/
def expandM {m : Type → Type} [Monad m] (visit : Stmt → m (Stmt → List Stmt)) :
    Stmt → m (List Stmt)
  | .block body => do
    let replace ← visit (.block body)
    let body ← expandListM visit body
    pure (replace (.block body))
  | .ifElse cond thenBranch elseBranch => do
    let replace ← visit (.ifElse cond thenBranch elseBranch)
    let thenBranch ← thenBranch.expandM visit
    let elseBranch ← expandOptionM visit elseBranch
    pure (replace (.ifElse cond (ofList thenBranch) elseBranch))
  | .forLoop init cond step body => do
    let replace ← visit (.forLoop init cond step body)
    let body ← body.expandM visit
    pure (replace (.forLoop init cond step (ofList body)))
  | .whileLoop cond body => do
    let replace ← visit (.whileLoop cond body)
    let body ← body.expandM visit
    pure (replace (.whileLoop cond (ofList body)))
  | .doWhile body cond => do
    let replace ← visit (.doWhile body cond)
    let body ← body.expandM visit
    pure (replace (.doWhile (ofList body) cond))
  | .switchOn value cases => do
    let replace ← visit (.switchOn value cases)
    let cases ← expandCasesM visit cases
    pure (replace (.switchOn value cases))
  | s => do
    let replace ← visit s
    pure (replace s)

/-- Replaces a statement that need not be there. It stays a single one. -/
def expandOptionM {m : Type → Type} [Monad m] (visit : Stmt → m (Stmt → List Stmt)) :
    Option Stmt → m (Option Stmt)
  | none => pure none
  | some s => do
    let ss ← s.expandM visit
    pure (some (ofList ss))

/-- Replaces several statements, in order. -/
def expandListM {m : Type → Type} [Monad m] (visit : Stmt → m (Stmt → List Stmt)) :
    List Stmt → m (List Stmt)
  | [] => pure []
  | s :: ss => do
    let s ← s.expandM visit
    let ss ← expandListM visit ss
    pure (s ++ ss)

/-- Replaces the statements of the cases of a `switch`, in order. -/
def expandCasesM {m : Type → Type} [Monad m] (visit : Stmt → m (Stmt → List Stmt)) :
    List Case → m (List Case)
  | [] => pure []
  | .mk label body :: cases => do
    let body ← expandListM visit body
    let cases ← expandCasesM visit cases
    pure (.mk label body :: cases)
end

/-- Replaces statements with a function that has no effects. -/
def expandList (f : Stmt → List Stmt) (body : List Stmt) : List Stmt :=
  Id.run (expandListM (fun _ => pure f) body)

mutual
/-- Whether some expression of a statement satisfies a predicate. -/
def anyExpr (p : Expr → Bool) : Stmt → Bool
  | .block body => anyExprList p body
  | .decl d => d.init.any p
  | .ifElse cond thenBranch elseBranch =>
    p cond || thenBranch.anyExpr p || anyExprOption p elseBranch
  | .forLoop init cond step body =>
    cond.any p || step.any p || anyExprOption p init || body.anyExpr p
  | .whileLoop cond body | .doWhile body cond => p cond || body.anyExpr p
  | .switchOn value cases => p value || anyExprCases p cases
  | .expr e => p e
  | .returnWith value => value.any p
  | .breakOut | .continueLoop | .discard | .emitVertex | .endPrimitive => false

/-- Whether some expression of a statement that need not be there satisfies a predicate. -/
def anyExprOption (p : Expr → Bool) : Option Stmt → Bool
  | none => false
  | some s => s.anyExpr p

/-- Whether some expression of several statements satisfies a predicate. -/
def anyExprList (p : Expr → Bool) : List Stmt → Bool
  | [] => false
  | s :: ss => s.anyExpr p || anyExprList p ss

/-- Whether some expression of the cases of a `switch` satisfies a predicate. -/
def anyExprCases (p : Expr → Bool) : List Case → Bool
  | [] => false
  | .mk _ body :: cases => anyExprList p body || anyExprCases p cases
end

/-- There is nothing to rewrite in no statements. -/
@[simp] theorem mapExprsListM_nil {m : Type → Type} [Monad m] (f : Expr → m Expr) :
    mapExprsListM f [] = pure [] := rfl

/-- Statements of a list are rewritten one by one. -/
theorem bottomUpList_eq_map (f : Stmt → Stmt) (body : List Stmt) :
    bottomUpList f body = body.map (bottomUp f) := by
  induction body with
  | nil => rfl
  | cons s ss ih => simp [bottomUpList, ih]

/-- Statements of a list are searched one by one. -/
theorem anyExprList_eq_any (p : Expr → Bool) (body : List Stmt) :
    anyExprList p body = body.any (anyExpr p) := by
  induction body with
  | nil => rfl
  | cons s ss ih => simp [anyExprList, ih]

end Stmt

end ShaderGen
