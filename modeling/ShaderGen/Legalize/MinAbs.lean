import ShaderGen.Legalize.HoistInit
import ShaderGen.Legalize.Temporary

/-! # Absolute values in minima

`min(abs(x), y)` becomes `((t = abs(x)) < (u = y) ? t : u)` with two temporaries, so that each
operand is evaluated once and in the same order. Vectors are compared lane by lane:
`((t = abs(x), u = y), vec2(t.x < u.x ? t.x : u.x, t.y < u.y ? t.y : u.y))`. -/

namespace ShaderGen.Legalize.MinAbs

/-- Minimum of two values of which the first is an absolute value. -/
def isMinAbs : Expr → Bool
  | .call _ (.intrinsic .min) [.call _ (.intrinsic .abs) _, _] => true
  | _ => false

/-- One lane of a value. A scalar has the same value in all lanes. -/
def lane (value : Expr) (n : Nat) : Expr :=
  if value.ty.isScalar then value else .ofSwizzle value [.ofLane n]

/-- The lesser of two values in one lane. -/
def lesser (a b : Expr) : Expr := .ofTernary (.ofBinary .lt a b) a b

/-- Minimum of two values, each put into a temporary first. -/
def compareTemps (ty : Ty) (first second firstValue secondValue : Expr) : Expr :=
  let writeFirst := Expr.assign first firstValue
  let writeSecond := Expr.assign second secondValue
  if ty.isScalar then
    .ofGroup (.ofTernary (.ofBinary .lt writeFirst writeSecond) first second)
  else
    let lanes := (List.range ty.componentCount).map fun n =>
      lesser (lane first n) (lane second n)
    .ofGroup (.ofBinary .comma (.ofBinary .comma writeFirst writeSecond)
      (.ofConstruct ty lanes))

/-- Splits a minimum of an absolute value. -/
def splitNode : Expr → TempM Expr
  | .call ty (.intrinsic .min) [.call absTy (.intrinsic .abs) args, other] => do
    let abs := Expr.call absTy (.intrinsic .abs) args
    let first ← freshTemp .minAbsTemp abs.ty
    let second ← freshTemp .minAbsTemp other.ty
    pure (compareTemps ty first second abs other)
  | e => pure e

/-- Splits every minimum of an absolute value, after moving those in initial values into
    functions. -/
def legalize (p : Program) : GenM Program := do
  let p ← HoistInit.hoist .minAbsInit isMinAbs p
  p.mapFunctionsM fun f => liftM (withTemporaries splitNode f)

end ShaderGen.Legalize.MinAbs
