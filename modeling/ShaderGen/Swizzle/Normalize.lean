import ShaderGen.Expr.Effect
import ShaderGen.Expr.Traverse
import ShaderGen.Program.WellFormed

/-! # Normal form of swizzles

`Expr.normalizeSwizzles` brings every swizzle of an expression into normal form, innermost first:
no swizzle stands directly on another, none has a constant selector, and none selects what is
already there. A constant selector becomes an argument of a constructor, with at most one swizzle
on top that puts the components in order. -/

namespace ShaderGen

namespace Expr

/-- Applies a mask without constant selectors. A mask that selects the value as it is disappears,
    and a scalar is spread by a constructor. -/
def select (base : Expr) (mask : Mask) : Expr :=
  if base.ty.isScalar then
    if mask.length = 1 then base
    else
      .ofConstruct (.withComponents base.ty.componentKind mask.length base.ty.precision) [base]
  else if base.ty.swizzleWidth?.any mask.isIdentity then base
  else .ofSwizzle base mask

/-- What is selected is the base itself, a constructor that spreads it, or a swizzle of it. -/
theorem select_holds {P : Expr → Prop} {base : Expr} {mask : Mask} (hself : P base)
    (hspread : ∀ ty, P (.ofConstruct ty [base])) (hswizzle : P (.ofSwizzle base mask)) :
    P (base.select mask) := by
  unfold select
  split
  · split
    · exact hself
    · exact hspread _
  · split
    · exact hself
    · exact hswizzle

/-- Constants that the constant selectors of a mask stand for, in order. -/
def literalArgs (kind : ScalarKind) (mask : Mask) : List Expr :=
  (mask.filter Selector.isLiteral).map fun s => unit kind (s == .one)

end Expr

/-- Where the components of a mask end up if the selected lanes are put first and the constants
    after them: the mask that restores their order. `lanes` and `literals` are the places of the
    next lane and the next constant. -/
def Mask.restoring (mask : Mask) (lanes literals : Nat) : Mask :=
  match mask with
  | [] => []
  | s :: rest =>
    if s.isLiteral then .ofLane literals :: Mask.restoring rest lanes (literals + 1)
    else .ofLane lanes :: Mask.restoring rest (lanes + 1) literals

namespace Expr

/-- Applies a mask that may have constant selectors, giving a value of type `ty`. A mask of
    constants alone still evaluates a base with side effects. -/
def selectWithLiterals (base : Expr) (mask : Mask) (ty : Ty) : Expr :=
  if !mask.any Selector.isLiteral then base.select mask
  else
    let lanes := mask.filter fun s => !s.isLiteral
    let constants := literalArgs base.ty.componentKind mask
    if lanes.isEmpty then
      let constant := ofConstruct ty constants
      if base.hasSideEffects then ofBinary .comma base constant else constant
    else
      ((ofConstruct ty (base.select lanes :: constants)).select
        (mask.restoring 0 lanes.length)).withTy ty

/-- Base and mask of a swizzle, with a swizzle directly under it taken into the mask. A mask that
    reaches past the inner one is left as it is. -/
def flattenSwizzle (base : Expr) (mask : Mask) : Expr × Mask :=
  match base with
  | .swizzle _ inner innerMask =>
    match innerMask.compose? mask with
    | some composed => (inner, composed)
    | none => (base, mask)
  | _ => (base, mask)

/-- What is wrong with a mask over a value of type `base`. -/
def maskDefect? (base : Ty) (mask : Mask) : Option Malformation :=
  match base.swizzleWidth? with
  | none => some .normalizedNonVector
  | some width =>
    if mask.isEmpty || Mask.maxLength < mask.length then some (.maskLength mask.length)
    else (mask.firstPast? width).map fun s => .selectorOutOfRange s width

/-- Normal form of one swizzle whose base is in normal form. -/
def normalizeSwizzle : Expr → Except Malformation Expr
  | .swizzle ty base mask =>
    let (base, mask) := flattenSwizzle base mask
    match maskDefect? base.ty mask with
    | some defect => .error defect
    | none => .ok (base.selectWithLiterals mask ty)
  | e => .ok e

/-- Brings every swizzle into normal form. -/
def normalizeSwizzles (e : Expr) : Except Malformation Expr := e.bottomUpM normalizeSwizzle

end Expr

end ShaderGen
