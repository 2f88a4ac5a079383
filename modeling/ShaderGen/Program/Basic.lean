import ShaderGen.Stmt.Basic

/-! # Programs

A program for one stage of the pipeline: global declarations, functions and interface layouts, in
the order in which they are written. -/

namespace ShaderGen

/-- Stage of the graphics pipeline that a program runs in. -/
inductive Stage where
  | vertex
  | fragment
  | geometry
deriving DecidableEq, Repr

/-- Parameter of a function. -/
structure Param where
  name : String
  ty : Ty
deriving DecidableEq, Repr

/-- Function of a program. -/
structure Function where
  name : String
  result : Ty
  params : List Param
  body : List Stmt

namespace Function

/-- Name of the function that a program starts at. -/
def entryName : String := "main"

/-- Function that a program starts at. -/
def entry (body : List Stmt) : Function := ⟨entryName, .void, [], body⟩

/-- Whether the program can start at the function. -/
def isEntry (f : Function) : Bool := f.name == entryName

end Function

/-- Item of an interface layout of a geometry program. -/
inductive LayoutItem where
  | points
  | lines
  | linesAdjacency
  | triangles
  | trianglesAdjacency
  | lineStrip
  | triangleStrip
  | invocations (count : Nat)
  | maxVertices (count : Nat)
deriving DecidableEq, Repr

/-- Number of invocations that a layout item asks for. -/
def LayoutItem.invocations? : LayoutItem → Option Nat
  | .invocations count => some count
  | _ => none

/-- Side of the stage that a layout describes. -/
inductive Direction where
  | input
  | output
deriving DecidableEq, Repr

/-- Interface layout, such as `layout(points, invocations = 2) in;`. -/
structure Layout where
  direction : Direction
  items : List LayoutItem
deriving DecidableEq, Repr

/-- Invocation counts that an input layout names, in order; output layouts name none. -/
def Layout.invocationCounts (l : Layout) : List Nat :=
  match l.direction with
  | .input => l.items.filterMap LayoutItem.invocations?
  | .output => []

/-- Top-level element of a program. -/
inductive Element where
  | global (d : Decl)
  | function (f : Function)
  | layout (l : Layout)

namespace Element

/-- The function that an element is. -/
def function? : Element → Option Function
  | .function f => some f
  | _ => none

/-- Invocation counts that an element names. -/
def invocationCounts : Element → List Nat
  | .layout l => l.invocationCounts
  | _ => []

end Element

/-- A program for one stage. -/
structure Program where
  stage : Stage
  elements : List Element

namespace Program

/-- Functions of the program, in order. -/
def functions (p : Program) : List Function := p.elements.filterMap Element.function?

/-- Number of times that a geometry program runs for each primitive: the last count that an input
    layout names, or once if none does. -/
def declaredInvocations (p : Program) : Nat :=
  (p.elements.flatMap Element.invocationCounts).getLast?.getD 1

end Program

end ShaderGen
