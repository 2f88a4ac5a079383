import ShaderGen.Error
import ShaderGen.Expr.Effect
import ShaderGen.Program.Traverse

/-! # Choices that are assigned to

A choice can stand where something is written: `c ? a : b = v`. If its condition is a boolean
literal, the arm that is meant stands there instead. On a target that cannot write through a
choice, an assignment that is a statement becomes an `if` over two assignments; a choice that is
written to within a larger expression is refused. -/

namespace ShaderGen.Legalize.TernaryTarget

/-- The arm that a literal condition selects, followed down to where a choice is left open. -/
def collapse : Expr → Expr
  | .ternary ty cond ifTrue ifFalse =>
    match cond.boolLiteral? with
    | some true => collapse ifTrue
    | some false => collapse ifFalse
    | none => .ternary ty cond ifTrue ifFalse
  | e => e

/-- What holds of an expression, and of each arm of a choice of which it holds, holds of what is
    left of the expression. -/
theorem collapse_holds {P : Expr → Prop} {e : Expr} (he : P e)
    (hfirst : ∀ {ty cond ifTrue ifFalse}, P (.ternary ty cond ifTrue ifFalse) → P ifTrue)
    (hsecond : ∀ {ty cond ifTrue ifFalse}, P (.ternary ty cond ifTrue ifFalse) → P ifFalse) :
    P (collapse e) := by
  fun_induction collapse e with
  | case1 ty cond ifTrue ifFalse hcond ih => exact ih (hfirst he)
  | case2 ty cond ifTrue ifFalse hcond ih => exact ih (hsecond he)
  | case3 => exact he
  | case4 => exact he

/-- Collapses what a node writes. -/
def collapseNode : Expr → Expr
  | e@(.binary ty op left right) =>
    if op.isAssignment then .binary ty op (collapse left) right else e
  | e@(.unary ty op operand) =>
    if op.writesOperand then .unary ty op (collapse operand) else e
  | e => e

/-- A node stays as it is, or writes to what is left of its target. -/
theorem collapseNode_holds {P : Expr → Prop} {e : Expr} (hself : P e)
    (hbinary : ∀ ty op left right, e = .binary ty op left right → op.isAssignment = true →
      P (.binary ty op (collapse left) right))
    (hunary : ∀ ty op operand, e = .unary ty op operand → op.writesOperand = true →
      P (.unary ty op (collapse operand))) : P (collapseNode e) := by
  unfold collapseNode
  split
  · next ty op left right =>
    split
    · next hop => exact hbinary ty op left right rfl hop
    · exact hself
  · next ty op operand =>
    split
    · next hop => exact hunary ty op operand rfl hop
    · exact hself
  · exact hself

/-- Assignment of a value to a target, with one assignment for each arm of a choice. -/
def assignArms (op : BinaryOp) (value : Expr) : Expr → Stmt
  | .ternary _ cond ifTrue ifFalse =>
    .ifElse cond (.block [assignArms op value ifTrue])
      (some (.block [assignArms op value ifFalse]))
  | target => .expr (.ofBinary op target value)

/-- Splits a statement that assigns to a choice. -/
def splitStmt : Stmt → Stmt
  | s@(.expr (.binary _ op target@(.ternary _ _ _ _) value)) =>
    if op.isAssignment then assignArms op value target else s
  | s => s

/-- Splits the statements of a body. -/
def splitBody (body : List Stmt) : List Stmt := Stmt.expandList (fun s => [splitStmt s]) body

/-- Whether an expression is a choice. -/
def isTernary : Expr → Bool
  | .ternary _ _ _ _ => true
  | _ => false

/-- Whether a node writes a choice. -/
def writesTernary : Expr → Bool
  | .binary _ op left _ => op.isAssignment && isTernary left
  | .unary _ op operand => op.writesOperand && isTernary operand
  | _ => false

/-- Removes choices that are written to as far as the target requires. -/
def legalize (profile : Profile) (p : Program) : Except Unsupported Program :=
  let p := p.mapNodes collapseNode
  if profile.needs .splitTernaryTargets then
    let p := p.mapFunctions (Function.mapBody splitBody)
    if p.anyNode writesTernary then .error .ternaryTarget else .ok p
  else .ok p

end ShaderGen.Legalize.TernaryTarget
