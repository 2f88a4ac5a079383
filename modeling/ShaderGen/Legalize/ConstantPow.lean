import ShaderGen.Expr.Effect
import ShaderGen.Program.Traverse
import ShaderGen.Program.WellFormed

/-! # Constant exponents

`pow(b, k)` with a constant `k` becomes `exp2(k * log2(b))`. -/

namespace ShaderGen.Legalize.ConstantPow

/-- Expands a power with a constant exponent; its type is kept. -/
def expandNode : Expr → Except Malformation Expr
  | .call ty (.intrinsic .pow) [base, exponent] =>
    if exponent.isConstant then
      let product := Expr.ofBinary .mul exponent (.ofCall .log2 [base])
      .ok ((Expr.ofCall .exp2 [product]).withTy ty)
    else .ok (.call ty (.intrinsic .pow) [base, exponent])
  | .call _ (.intrinsic .pow) args => .error (.powArguments args.length)
  | e => .ok e

/-- Expands every power with a constant exponent. -/
def legalize (p : Program) : Except Malformation Program := p.mapNodesM expandNode

end ShaderGen.Legalize.ConstantPow
