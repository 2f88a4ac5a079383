import ShaderGen.Expr.Basic
import ShaderGen.Proofs.Binary64.Nearest

/-!
# Trees that texts are read as

A text shows less than an expression holds: it has no types but the shapes of constructors, it does
not tell a group from other parentheses, and a numeral has no sign of its own. `Expr.skeleton` is
what remains of an expression.
-/

namespace ShaderGen

/-- What an expression is read as. -/
inductive Tree where
  | literal (value : Literal)
  | var (name : String)
  | builtin (which : Builtin)
  | unary (op : UnaryOp) (operand : Tree)
  | binary (op : BinaryOp) (left right : Tree)
  | ternary (cond ifTrue ifFalse : Tree)
  | call (callee : Callee) (args : List Tree)
  | swizzle (base : Tree) (mask : Mask)
  | index (base position : Tree)
  /-- constructor or cast, by the shape of what it constructs -/
  | construct (shape : Shape) (args : List Tree)
deriving Repr

/-- Negation of a literal, if it is to be negated at all. -/
def Tree.signed (negative : Bool) (magnitude : Literal) : Tree :=
  if negative then .unary .neg (.literal magnitude) else .literal magnitude

/-- What a literal is read as: a negative one is the negation of its absolute value. -/
def Literal.skeleton : Literal → Tree
  | .float v => .signed v.isNegative (.float v.magnitude)
  | .int n => .signed (n < 0) (.int n.natAbs)
  | .uint n => .literal (.uint n)
  | .bool b => .literal (.bool b)

namespace Expr

mutual
/-- What is left of an expression without its groups and its types. -/
def skeleton : Expr → Tree
  | .literal _ value => value.skeleton
  | .var _ name => .var name
  | .builtin _ which => .builtin which
  | .unary _ op operand => .unary op operand.skeleton
  | .binary _ op left right => .binary op left.skeleton right.skeleton
  | .ternary _ cond ifTrue ifFalse => .ternary cond.skeleton ifTrue.skeleton ifFalse.skeleton
  | .call _ callee args => .call callee (listSkeleton args)
  | .swizzle _ base mask => .swizzle base.skeleton mask
  | .index _ base position => .index base.skeleton position.skeleton
  | .construct ty args => .construct ty.shape (listSkeleton args)
  | .group _ inner => inner.skeleton

/-- What is left of each of several expressions. -/
def listSkeleton : List Expr → List Tree
  | [] => []
  | e :: es => e.skeleton :: listSkeleton es
end

end Expr

end ShaderGen
