import ShaderGen.Program.Traverse

/-! # Full precision throughout

Every declared type and every type of an expression becomes full. The rule runs before any that
adds declarations, so that temporaries get the type of what they hold. -/

namespace ShaderGen.Legalize.HighPrecision

def raiseTy (ty : Ty) : Ty := ty.withPrecision .full

def raiseNode (e : Expr) : Expr := e.withTy (raiseTy e.ty)

def raiseDecl (d : Decl) : Decl := { d with ty := raiseTy d.ty }

/-- Raises the type of a local declaration. -/
def raiseStmt : Stmt → Stmt
  | .decl d => .decl (raiseDecl d)
  | s => s

def raiseParam (p : Param) : Param := { p with ty := raiseTy p.ty }

/-- Raises the types that a function declares. -/
def raiseFunction (f : Function) : Function :=
  { f with
    result := raiseTy f.result
    params := f.params.map raiseParam
    body := Stmt.bottomUpList raiseStmt f.body }

/-- Raises what an element declares. -/
def raiseElement : Element → Element
  | .global d => .global (raiseDecl d)
  | .function f => .function (raiseFunction f)
  | .layout l => .layout l

/-- Raises every declared type and every type of an expression. -/
def legalize (p : Program) : Program :=
  { p with elements := p.elements.map raiseElement }.mapNodes raiseNode

end ShaderGen.Legalize.HighPrecision
