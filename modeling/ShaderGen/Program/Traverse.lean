import ShaderGen.Expr.Traverse
import ShaderGen.Program.Basic
import ShaderGen.Stmt.Traverse

/-! # Walking over a program

The expressions of a program are the initial values of its globals and the expressions of its
function bodies, in the order of the program's elements. Layouts hold none. -/

namespace ShaderGen

namespace Function

/-- Replaces the body. -/
def mapBody (f : List Stmt → List Stmt) (fn : Function) : Function :=
  { fn with body := f fn.body }

/-- Replaces the expressions of the body. -/
def mapExprsM {m : Type → Type} [Monad m] (f : Expr → m Expr) (fn : Function) : m Function := do
  let body ← Stmt.mapExprsListM f fn.body
  pure { fn with body }

/-- Whether some node of an expression of the body satisfies a predicate. -/
def anyNode (p : Expr → Bool) (fn : Function) : Bool := Stmt.anyExprList (Expr.any p) fn.body

end Function

namespace Element

/-- Replaces an element that is a function. -/
def mapFunction (f : Function → Function) : Element → Element
  | .function fn => .function (f fn)
  | e => e

/-- Replaces an element that is a function. -/
def mapFunctionM {m : Type → Type} [Monad m] (f : Function → m Function) : Element → m Element
  | .function fn => do
    let fn ← f fn
    pure (.function fn)
  | e => pure e

/-- Replaces the expressions of an element. -/
def mapExprsM {m : Type → Type} [Monad m] (f : Expr → m Expr) : Element → m Element
  | .global d => do
    let d ← d.mapInitM f
    pure (.global d)
  | .function fn => do
    let fn ← fn.mapExprsM f
    pure (.function fn)
  | .layout l => pure (.layout l)

/-- Replaces the first function that a program can start at. -/
def mapFirstEntry (f : Function → Function) : List Element → List Element
  | [] => []
  | .function fn :: rest =>
    if fn.isEntry then .function (f fn) :: rest else .function fn :: mapFirstEntry f rest
  | e :: rest => e :: mapFirstEntry f rest

/-- Whether some node of an expression of the element satisfies a predicate. -/
def anyNode (p : Expr → Bool) : Element → Bool
  | .global d => d.init.any (Expr.any p)
  | .function fn => fn.anyNode p
  | .layout _ => false

end Element

namespace Program

/-- Replaces the expressions of the program as wholes. -/
def mapExprsM {m : Type → Type} [Monad m] (f : Expr → m Expr) (p : Program) : m Program := do
  let elements ← p.elements.mapM (Element.mapExprsM f)
  pure { p with elements }

/-- Rebuilds every node of every expression of the program, children before parents. -/
def mapNodesM {m : Type → Type} [Monad m] (f : Expr → m Expr) (p : Program) : m Program :=
  p.mapExprsM (Expr.bottomUpM f)

/-- Rebuilds every node with a function that has no effects. -/
def mapNodes (f : Expr → Expr) (p : Program) : Program :=
  Id.run (p.mapNodesM fun node => pure (f node))

/-- Replaces the functions of the program, in order. -/
def mapFunctionsM {m : Type → Type} [Monad m] (f : Function → m Function) (p : Program) :
    m Program := do
  let elements ← p.elements.mapM (Element.mapFunctionM f)
  pure { p with elements }

/-- Replaces the functions of the program with a function that has no effects. -/
def mapFunctions (f : Function → Function) (p : Program) : Program :=
  { p with elements := p.elements.map (Element.mapFunction f) }

/-- Replaces the first function that a program can start at; the program is left as it is if it
    has none. -/
def mapEntry (f : Function → Function) (p : Program) : Program :=
  { p with elements := Element.mapFirstEntry f p.elements }

/-- Whether some node of an expression of the program satisfies a predicate. -/
def anyNode (p : Program) (q : Expr → Bool) : Bool := p.elements.any (Element.anyNode q)

end Program

end ShaderGen
