import ShaderGen.Vocabulary.Operator

/-! # Precedence

How tightly the forms of an expression bind. An operand is parenthesized unless it binds more
tightly than the place where it stands. -/

namespace ShaderGen.Glsl

/-- Binding strength, the tightest first. -/
inductive Precedence where
  /-- indexing, swizzles, increments after the operand -/
  | trailing
  /-- operators before the operand -/
  | leading
  | multiplicative
  | additive
  | shift
  | relational
  | equality
  | bitAnd
  | bitXor
  | bitOr
  | logicalAnd
  | logicalXor
  | logicalOr
  | ternary
  | assignment
  | sequence
  /-- place where anything can stand -/
  | top
deriving DecidableEq, Repr

namespace Precedence

/-- Position in the order, from zero for the tightest. -/
def rank : Precedence → Nat
  | .trailing => 0
  | .leading => 1
  | .multiplicative => 2
  | .additive => 3
  | .shift => 4
  | .relational => 5
  | .equality => 6
  | .bitAnd => 7
  | .bitXor => 8
  | .bitOr => 9
  | .logicalAnd => 10
  | .logicalXor => 11
  | .logicalOr => 12
  | .ternary => 13
  | .assignment => 14
  | .sequence => 15
  | .top => 16

/-- Whether the first binds more tightly than the second. -/
def tighter (a b : Precedence) : Bool := a.rank < b.rank

/-- Strength of a binary operator. -/
def ofBinary : BinaryOp → Precedence
  | .mul | .div | .mod => .multiplicative
  | .add | .sub => .additive
  | .shl | .shr => .shift
  | .lt | .le | .gt | .ge => .relational
  | .eq | .ne => .equality
  | .bitAnd => .bitAnd
  | .bitXor => .bitXor
  | .bitOr => .bitOr
  | .logicalAnd => .logicalAnd
  | .logicalXor => .logicalXor
  | .logicalOr => .logicalOr
  | .assign | .addAssign | .subAssign | .mulAssign | .divAssign => .assignment
  | .comma => .sequence

/-- Strength of a unary operator, which depends on its side of the operand. -/
def ofUnary (op : UnaryOp) : Precedence := if op.followsOperand then .trailing else .leading

/-- Place of the left operand. On the left of an assignment a choice needs parentheses, since
    `c ? a : b = v` reads as `c ? a : (b = v)`. -/
def leftPlace (op : BinaryOp) : Precedence :=
  if op.isAssignment then .ternary else ofBinary op

end Precedence

end ShaderGen.Glsl
