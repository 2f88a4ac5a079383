import ShaderGen.Binary64.Basic
import ShaderGen.Swizzle.Mask
import ShaderGen.Vocabulary.Builtin
import ShaderGen.Vocabulary.Intrinsic
import ShaderGen.Vocabulary.Operator

/-! # Expressions

An expression tree whose nodes all carry their type. Nothing forces the type of a node to fit its
children: the builders in `ShaderGen.Expr.Build` derive it, and whoever makes a tree by hand may
annotate it as it likes. -/

namespace ShaderGen

/-- Value that is written out in a program. -/
inductive Literal where
  | float (value : Binary64)
  | int (value : Int)
  | uint (value : Nat)
  | bool (value : Bool)
deriving DecidableEq, Repr

/-- What a call names: a built-in function, or a function of the program. -/
inductive Callee where
  | intrinsic (function : Intrinsic)
  | user (name : String)
deriving DecidableEq, Repr

/-- An expression. The first argument of every node is its type. -/
inductive Expr where
  | literal (ty : Ty) (value : Literal)
  | var (ty : Ty) (name : String)
  | builtin (ty : Ty) (which : Builtin)
  | unary (ty : Ty) (op : UnaryOp) (operand : Expr)
  | binary (ty : Ty) (op : BinaryOp) (left right : Expr)
  | ternary (ty : Ty) (cond ifTrue ifFalse : Expr)
  | call (ty : Ty) (callee : Callee) (args : List Expr)
  | swizzle (ty : Ty) (base : Expr) (mask : Mask)
  | index (ty : Ty) (base position : Expr)
  /-- constructor or cast; what it constructs is the type of the node -/
  | construct (ty : Ty) (args : List Expr)
  /-- parentheses that are written wherever the expression stands -/
  | group (ty : Ty) (inner : Expr)
deriving Repr

namespace Expr

/-- Type that a node carries. -/
def ty : Expr → Ty
  | .literal ty _ | .var ty _ | .builtin ty _ | .unary ty _ _ | .binary ty _ _ _
  | .ternary ty _ _ _ | .call ty _ _ | .swizzle ty _ _ | .index ty _ _ | .construct ty _
  | .group ty _ => ty

/-- The same node with another type on it. -/
def withTy (ty : Ty) : Expr → Expr
  | .literal _ value => .literal ty value
  | .var _ name => .var ty name
  | .builtin _ which => .builtin ty which
  | .unary _ op operand => .unary ty op operand
  | .binary _ op left right => .binary ty op left right
  | .ternary _ cond ifTrue ifFalse => .ternary ty cond ifTrue ifFalse
  | .call _ callee args => .call ty callee args
  | .swizzle _ base mask => .swizzle ty base mask
  | .index _ base position => .index ty base position
  | .construct _ args => .construct ty args
  | .group _ inner => .group ty inner

/-- The type is the one that was set. -/
@[simp] theorem ty_withTy (ty : Ty) (e : Expr) : (e.withTy ty).ty = ty := by
  cases e <;> rfl

/-- Setting the type it has changes nothing. -/
@[simp] theorem withTy_ty (e : Expr) : e.withTy e.ty = e := by
  cases e <;> rfl

/-- The last type that is set counts. -/
@[simp] theorem withTy_withTy (s t : Ty) (e : Expr) : (e.withTy s).withTy t = e.withTy t := by
  cases e <;> rfl

end Expr

end ShaderGen
