import ShaderGen.Program.Traverse

/-! # Negated operands of `atan`

`atan(y, -x)` of floats becomes `atan(y, -1.0 * x)`. -/

namespace ShaderGen.Legalize.AtanOperand

/-- Spells a negation as a product; its type is kept. -/
def multiply (ty : Ty) (operand : Expr) : Expr :=
  (Expr.ofBinary .mul (.float .minusOne) operand).withTy ty

/-- Spells a negated second operand as a product. -/
def multiplyNode : Expr → Expr
  | e@(.call ty (.intrinsic .atan) [y, .unary xTy .neg x]) =>
    if xTy.isFloat then .call ty (.intrinsic .atan) [y, multiply xTy x] else e
  | e => e

/-- A node stays as it is, or is an arc tangent with a product in the place of a negation of
    floats. -/
theorem multiplyNode_holds {P : Expr → Prop} {e : Expr} (hself : P e)
    (hproduct : ∀ ty y xTy x, e = .call ty (.intrinsic .atan) [y, .unary xTy .neg x] →
      xTy.isFloat = true → P (.call ty (.intrinsic .atan) [y, multiply xTy x])) :
    P (multiplyNode e) := by
  unfold multiplyNode
  split
  · next ty y xTy x =>
    split
    · next hfloat => exact hproduct ty y xTy x rfl hfloat
    · exact hself
  · exact hself

/-- Spells every negated second operand of `atan` as a product. -/
def legalize (p : Program) : Program := p.mapNodes multiplyNode

end ShaderGen.Legalize.AtanOperand
