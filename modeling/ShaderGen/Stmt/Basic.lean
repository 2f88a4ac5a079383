import ShaderGen.Expr.Build

/-! # Declarations and statements -/

namespace ShaderGen

/-- Storage class of a declaration. -/
inductive Storage where
  /-- plain variable -/
  | auto
  | const
  | uniform
  | input
  | output
  /-- value passed from the vertex stage to the fragment stage -/
  | varying
deriving DecidableEq, Repr

/-- Declaration of a variable, global or local. -/
structure Decl where
  storage : Storage
  name : String
  ty : Ty
  init : Option Expr
deriving Repr

/-- Declaration of a plain variable. -/
def Decl.plain (name : String) (ty : Ty) (init : Option Expr) : Decl := ⟨.auto, name, ty, init⟩

/-- Declaration without an initial value. -/
def Decl.uninitialized (storage : Storage) (name : String) (ty : Ty) : Decl :=
  ⟨storage, name, ty, none⟩

mutual
/-- A statement. The header of a `for` may hold any statement here; only a declaration or an
    expression is well formed there. -/
inductive Stmt where
  | block (body : List Stmt)
  | decl (d : Decl)
  | ifElse (cond : Expr) (thenBranch : Stmt) (elseBranch : Option Stmt)
  | forLoop (init : Option Stmt) (cond step : Option Expr) (body : Stmt)
  | whileLoop (cond : Expr) (body : Stmt)
  | doWhile (body : Stmt) (cond : Expr)
  | switchOn (value : Expr) (cases : List Case)
  | expr (e : Expr)
  | returnWith (value : Option Expr)
  | breakOut
  | continueLoop
  | discard
  | emitVertex
  | endPrimitive

/-- One case of a `switch`; no label stands for the default case. -/
inductive Case where
  | mk (label : Option Int) (body : List Stmt)
end

namespace Stmt

/-- Assignment as a statement. -/
def assign (target value : Expr) : Stmt := .expr (Expr.assign target value)

/-- Several statements where a single one stands: one statement stays as it is, any other number
    of them is put into a block. -/
def ofList : List Stmt → Stmt
  | [s] => s
  | ss => .block ss

/-- The statement as a block. -/
def toBlock : Stmt → Stmt
  | s@(.block _) => s
  | s => .block [s]

/-- Whether a statement is a return. -/
def isReturn : Stmt → Bool
  | .returnWith _ => true
  | _ => false

end Stmt

end ShaderGen
