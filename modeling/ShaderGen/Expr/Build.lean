import ShaderGen.Expr.Basic

/-! # Builders for expressions

One builder per kind of node, each deriving the type of the node from its operands. Literals are
reduced, so that they never raise the precision of what they appear in. -/

namespace ShaderGen

/-- Result type of a binary operator. Comparisons and logic give a boolean, an assignment has the
    type of what it writes, a comma that of its right operand. Arithmetic takes the shape of the
    operand that is not a scalar, save that a product of a matrix and a vector is a vector. -/
def BinaryOp.resultTy (op : BinaryOp) (left right : Ty) : Ty :=
  if op.yieldsBool then .bool
  else if op.isAssignment then left
  else if op = .comma then right
  else
    let precision := left.precision.join right.precision
    match op, left.shape, right.shape with
    | .mul, .matrix _ rows, .vector kind _ => ⟨.vector kind rows, precision⟩
    | .mul, .vector kind _, .matrix columns _ => ⟨.vector kind columns, precision⟩
    | _, .scalar _, shape => ⟨shape, precision⟩
    | _, shape, _ => ⟨shape, precision⟩

namespace Ty

/-- Greatest precision class of a list of types, reduced for none. -/
def joinPrecision (tys : List Ty) : Precision :=
  tys.foldr (fun ty p => ty.precision.join p) .reduced

/-- The type with the most components; of several, the last. -/
def widest? : List Ty → Option Ty
  | [] => none
  | ty :: tys =>
    match widest? tys with
    | some best => some (if best.componentCount < ty.componentCount then ty else best)
    | none => some ty

end Ty

/-- Result type of an intrinsic call. A texture lookup gives a reduced four-component vector,
    `dot` and `length` a scalar, any other function the type of its widest argument in the
    greatest precision class of all of them. -/
def Intrinsic.resultTy (function : Intrinsic) (args : List Ty) : Ty :=
  let precision := Ty.joinPrecision args
  if function.isLookup then .halfVec 4
  else match function with
    | .dot | .length =>
      .scalar (((args.head?).bind Ty.scalarKind?).getD .float) precision
    | _ =>
      match Ty.widest? args with
      | some ty => ty.withPrecision precision
      | none => .void

namespace Expr

/-- Float literal. -/
def float (value : Binary64) : Expr := .literal .half (.float value)

/-- Signed integer literal. -/
def int (value : Int) : Expr := .literal (.scalar .int .reduced) (.int value)

/-- Unsigned integer literal. -/
def uint (value : Nat) : Expr := .literal (.scalar .uint .reduced) (.uint value)

/-- Boolean literal. -/
def bool (value : Bool) : Expr := .literal .bool (.bool value)

/-- Zero or one of a given kind. -/
def unit (kind : ScalarKind) (one : Bool) : Expr :=
  match kind with
  | .float => float (if one then .one else .zero)
  | .int => int (if one then 1 else 0)
  | .uint => uint (if one then 1 else 0)
  | .bool => bool one

/-- Reference to a variable. -/
def ofVar (name : String) (ty : Ty) : Expr := .var ty name

/-- Reference to a built-in variable. -/
def ofBuiltin (which : Builtin) : Expr := .builtin which.ty which

/-- Unary operation: `!` gives a boolean, the rest keep the type of the operand. -/
def ofUnary (op : UnaryOp) (operand : Expr) : Expr :=
  .unary (if op = .not then .bool else operand.ty) op operand

/-- Binary operation. -/
def ofBinary (op : BinaryOp) (left right : Expr) : Expr :=
  .binary (op.resultTy left.ty right.ty) op left right

/-- Plain assignment. -/
def assign (target value : Expr) : Expr := ofBinary .assign target value

/-- Choice: the type of the first arm, in the greater precision class of the two. -/
def ofTernary (cond ifTrue ifFalse : Expr) : Expr :=
  .ternary (ifTrue.ty.withPrecision (ifTrue.ty.precision.join ifFalse.ty.precision))
    cond ifTrue ifFalse

/-- Call of an intrinsic function. -/
def ofCall (function : Intrinsic) (args : List Expr) : Expr :=
  .call (function.resultTy (args.map ty)) (.intrinsic function) args

/-- Call of a function of the program. -/
def ofUserCall (name : String) (args : List Expr) (result : Ty) : Expr :=
  .call result (.user name) args

/-- Swizzle: as many components as the mask has selectors, of the kind of the base. -/
def ofSwizzle (base : Expr) (mask : Mask) : Expr :=
  .swizzle (.withComponents base.ty.componentKind mask.length base.ty.precision) base mask

/-- Component of a vector, or column of a matrix. -/
def ofIndex (base position : Expr) : Expr :=
  let ty := match base.ty.shape with
    | .vector kind _ => .scalar kind base.ty.precision
    | .matrix _ rows => .vector .float rows base.ty.precision
    | _ => base.ty
  .index ty base position

/-- Constructor or cast. -/
def ofConstruct (ty : Ty) (args : List Expr) : Expr := .construct ty args

/-- Parenthesized expression. -/
def ofGroup (inner : Expr) : Expr := .group inner.ty inner

end Expr

end ShaderGen
