import ShaderGen.Program.Traverse

/-! # Short-circuit operators

`a && b` becomes `a ? b : false`, and `a || b` becomes `a ? true : b`. -/

namespace ShaderGen.Legalize.ShortCircuit

/-- Spells a short-circuit operator as a choice. -/
def unfoldNode : Expr → Expr
  | .binary _ .logicalAnd left right => .ofTernary left right (.bool false)
  | .binary _ .logicalOr left right => .ofTernary left (.bool true) right
  | e => e

/-- Spells every short-circuit operator as a choice. -/
def legalize (p : Program) : Program := p.mapNodes unfoldNode

end ShaderGen.Legalize.ShortCircuit
