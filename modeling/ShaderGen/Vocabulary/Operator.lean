/-! # Operators

The unary and binary operators of the shading language, assignments and the comma included. -/

namespace ShaderGen

/-- Unary operator. Increments and decrements come in two forms, before and after the operand. -/
inductive UnaryOp where
  | neg
  | not
  | complement
  | preIncrement
  | preDecrement
  | postIncrement
  | postDecrement
deriving DecidableEq, Repr

namespace UnaryOp

/-- How the operator is written. -/
def symbol : UnaryOp → String
  | .neg => "-"
  | .not => "!"
  | .complement => "~"
  | .preIncrement | .postIncrement => "++"
  | .preDecrement | .postDecrement => "--"

/-- Whether the operator is written after its operand. -/
def followsOperand : UnaryOp → Bool
  | .postIncrement | .postDecrement => true
  | _ => false

/-- Whether applying the operator writes its operand. -/
def writesOperand : UnaryOp → Bool
  | .preIncrement | .preDecrement | .postIncrement | .postDecrement => true
  | _ => false

end UnaryOp

/-- Binary operator. -/
inductive BinaryOp where
  | add
  | sub
  | mul
  | div
  | mod
  | shl
  | shr
  | lt
  | le
  | gt
  | ge
  | eq
  | ne
  | bitAnd
  | bitXor
  | bitOr
  | logicalAnd
  | logicalXor
  | logicalOr
  | assign
  | addAssign
  | subAssign
  | mulAssign
  | divAssign
  | comma
deriving DecidableEq, Repr

namespace BinaryOp

/-- How the operator is written. -/
def symbol : BinaryOp → String
  | .add => "+"
  | .sub => "-"
  | .mul => "*"
  | .div => "/"
  | .mod => "%"
  | .shl => "<<"
  | .shr => ">>"
  | .lt => "<"
  | .le => "<="
  | .gt => ">"
  | .ge => ">="
  | .eq => "=="
  | .ne => "!="
  | .bitAnd => "&"
  | .bitXor => "^"
  | .bitOr => "|"
  | .logicalAnd => "&&"
  | .logicalXor => "^^"
  | .logicalOr => "||"
  | .assign => "="
  | .addAssign => "+="
  | .subAssign => "-="
  | .mulAssign => "*="
  | .divAssign => "/="
  | .comma => ","

/-- Whether applying the operator writes its left operand. -/
def isAssignment : BinaryOp → Bool
  | .assign | .addAssign | .subAssign | .mulAssign | .divAssign => true
  | _ => false

/-- Whether the result is a truth value whatever the operands are. -/
def yieldsBool : BinaryOp → Bool
  | .lt | .le | .gt | .ge | .eq | .ne | .logicalAnd | .logicalXor | .logicalOr => true
  | _ => false

end BinaryOp

end ShaderGen
