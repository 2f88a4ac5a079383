import ShaderGen.Program.Traverse
import ShaderGen.Scratch

/-! # Temporaries

Rules that need to hold a value for a moment declare a temporary. The declarations, in the order
in which they were asked for, start the body of the function. -/

namespace ShaderGen.Legalize

/-- Work that declares temporaries of one function. -/
abbrev TempM := StateT (List Decl) ScratchM

/-- A new temporary. -/
def freshTemp (stem : Stem) (ty : Ty) : TempM Expr := do
  let name ← liftM (freshName stem)
  modify (· ++ [Decl.plain name ty none])
  pure (.ofVar name ty)

/-- Rebuilds every node of a function, and declares the temporaries that were asked for. -/
def withTemporaries (f : Expr → TempM Expr) (fn : Function) : ScratchM Function := do
  let (fn, temps) ← (fn.mapExprsM (Expr.bottomUpM f)).run []
  pure { fn with body := temps.map Stmt.decl ++ fn.body }

end ShaderGen.Legalize
