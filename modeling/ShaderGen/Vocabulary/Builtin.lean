import ShaderGen.Ty

/-! # Built-in variables

Variables that a stage provides. The size of the render target counts among them although no
dialect has such a variable: a program that uses it gets a uniform instead. -/

namespace ShaderGen

/-- Built-in variable. -/
inductive Builtin where
  | fragColor
  | fragCoord
  | position
  | invocationId
  /-- width of the render target in pixels -/
  | width
  /-- height of the render target in pixels -/
  | height
  /-- position of one input vertex of a geometry program -/
  | inPosition (vertex : Nat)
deriving DecidableEq, Repr

/-- Type of a built-in variable. -/
def Builtin.ty : Builtin → Ty
  | .fragColor => .halfVec 4
  | .fragCoord | .position | .inPosition _ => .vec 4
  | .invocationId => .int
  | .width | .height => .float

end ShaderGen
