import ShaderGen.Expr.Basic

/-! # What evaluating an expression can do

`Expr.hasSideEffects` tells whether evaluation can write state, and `Expr.isConstant` whether the
value is known before the program runs. Functions of the program are taken to write state. -/

namespace ShaderGen.Expr

mutual
/-- Whether evaluation can write state: it assigns, increments or calls a function of the
    program. -/
def hasSideEffects : Expr → Bool
  | .literal _ _ | .var _ _ | .builtin _ _ => false
  | .unary _ op operand => op.writesOperand || operand.hasSideEffects
  | .binary _ op left right =>
    op.isAssignment || left.hasSideEffects || right.hasSideEffects
  | .ternary _ cond ifTrue ifFalse =>
    cond.hasSideEffects || ifTrue.hasSideEffects || ifFalse.hasSideEffects
  | .call _ (.user _) _ => true
  | .call _ (.intrinsic _) args => anySideEffects args
  | .swizzle _ base _ => base.hasSideEffects
  | .index _ base position => base.hasSideEffects || position.hasSideEffects
  | .construct _ args => anySideEffects args
  | .group _ inner => inner.hasSideEffects

/-- Whether evaluating one of several expressions can write state. -/
def anySideEffects : List Expr → Bool
  | [] => false
  | e :: es => e.hasSideEffects || anySideEffects es
end

mutual
/-- Whether the value is a literal, a negated constant, or constructed from constants. -/
def isConstant : Expr → Bool
  | .literal _ _ => true
  | .unary _ .neg operand => operand.isConstant
  | .construct _ args => allConstant args
  | .group _ inner => inner.isConstant
  | _ => false

/-- Whether all of several expressions are constants. -/
def allConstant : List Expr → Bool
  | [] => true
  | e :: es => e.isConstant && allConstant es
end

/-- Value of a boolean literal. -/
def boolLiteral? : Expr → Option Bool
  | .literal _ (.bool value) => some value
  | _ => none

/-- Several expressions have side effects if one of them has. -/
theorem anySideEffects_eq_any (es : List Expr) : anySideEffects es = es.any hasSideEffects := by
  induction es with
  | nil => rfl
  | cons e es ih => simp [anySideEffects, ih]

/-- Several expressions are constant if each of them is. -/
theorem allConstant_eq_all (es : List Expr) : allConstant es = es.all isConstant := by
  induction es with
  | nil => rfl
  | cons e es ih => simp [allConstant, ih]

end ShaderGen.Expr
