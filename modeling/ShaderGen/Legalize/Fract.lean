import ShaderGen.Expr.Effect
import ShaderGen.Legalize.HoistInit
import ShaderGen.Legalize.Temporary

/-! # Fractions of negative numbers

`fract(x)` of floats becomes `(0.5 - sign(x) * (0.5 - fract(abs(x))))`. The operand stands there
twice, so one with side effects goes into a temporary first: `(t = x, (0.5 - sign(t) * ...))`. -/

namespace ShaderGen.Legalize.Fract

/-- Operand of a float `fract`. -/
def operand? : Expr → Option Expr
  | .call ty (.intrinsic .fract) [x] => if ty.isFloat then some x else none
  | _ => none

/-- Whether a node is a float `fract` whose operand has side effects. -/
def needsTemporary (e : Expr) : Bool := (operand? e).any Expr.hasSideEffects

/-- Fraction of an operand that is safe for negative numbers, at a given type. -/
def guarded (x : Expr) (ty : Ty) : Expr :=
  let sign := Expr.ofCall .sign [x]
  let distance := Expr.ofBinary .sub (.float .half) (.ofCall .fract [.ofCall .abs [x]])
  .ofGroup ((Expr.ofBinary .sub (.float .half) (.ofBinary .mul sign distance)).withTy ty)

/-- Guards a `fract` whose operand is known to have no side effects. -/
def guardPure (e : Expr) : Expr :=
  match operand? e with
  | some x => guarded x e.ty
  | none => e

/-- Guards a `fract`, with a temporary for an operand with side effects. -/
def guardNode (e : Expr) : TempM Expr :=
  match operand? e with
  | some x =>
    if x.hasSideEffects then do
      let temp ← freshTemp .fractTemp x.ty
      pure (.ofBinary .comma (.assign temp x) (guarded temp e.ty))
    else pure (guarded x e.ty)
  | none => pure e

/-- Guards every `fract` of an element. Initial values hold none that needs a temporary, since
    those have moved into functions. -/
def guardElement : Element → ScratchM Element
  | .global d => pure (.global (Id.run (d.mapInitM fun e => pure (e.bottomUp guardPure))))
  | .function f => do
    let f ← withTemporaries guardNode f
    pure (.function f)
  | .layout l => pure (.layout l)

/-- Guards every `fract` of the program. -/
def legalize (p : Program) : GenM Program := do
  let p ← HoistInit.hoist .fractInit needsTemporary p
  let elements ← liftM (p.elements.mapM guardElement)
  pure { p with elements }

end ShaderGen.Legalize.Fract
