import ShaderGen.Program.Traverse
import ShaderGen.Scratch

/-! # Absolute values of integers

`abs(x)` of integers calls a helper function that returns `x * sign(x)`. There is one helper for
each integer type in use. -/

namespace ShaderGen.Legalize.IntAbs

/-- Name that all helpers share; they are told apart by their parameter. -/
def helperName : String := "_absemulation"

/-- Helper function for a type. -/
def helper (ty : Ty) : Function :=
  let x := Expr.ofVar "x" ty
  { name := helperName
    result := ty
    params := [⟨"x", ty⟩]
    body := [.returnWith (some (.ofBinary .mul x (.ofCall .sign [x])))] }

/-- Calls the helper in place of an integer `abs`, adding it if it is not there yet. -/
def emulateNode : Expr → ScratchM Expr
  | .call ty (.intrinsic .abs) args => do
    if ty.scalarKind? = some .int then
      modify (Scratch.addHelper ty.shape (helper (ty.withPrecision .full)))
      pure (.call ty (.user helperName) args)
    else pure (.call ty (.intrinsic .abs) args)
  | e => pure e

/-- A node stays as it is, or is an `abs` of integers and becomes a call of a helper that is
    added. -/
theorem emulateNode_holds {P : ScratchM Expr → Prop} {e : Expr} (hself : P (pure e))
    (hcall : ∀ ty args, e = .call ty (.intrinsic .abs) args → ty.scalarKind? = some .int →
      P (modify (Scratch.addHelper ty.shape (helper (ty.withPrecision .full))) >>= fun _ =>
        pure (.call ty (.user helperName) args))) : P (emulateNode e) := by
  unfold emulateNode
  split
  · next ty args =>
    split
    · next hint => exact hcall ty args rfl hint
    · exact hself
  · exact hself

/-- Emulates every integer `abs`. -/
def legalize (p : Program) : ScratchM Program := p.mapNodesM emulateNode

end ShaderGen.Legalize.IntAbs
