import ShaderGen.Program.Traverse
import ShaderGen.Scratch

/-! # Size of the render target

The width and the height of the render target become uniforms that the user of the text has to
set. -/

namespace ShaderGen.Legalize.TargetSize

/-- Uniform that holds the height. -/
def heightName : String := "u_skRTHeight"
/-- Uniform that holds the width. -/
def widthName : String := "u_skRTWidth"

/-- Reference to the uniform that holds the height. -/
def height : Expr := .ofVar heightName .float

/-- Reference to the uniform that holds the width. -/
def width : Expr := .ofVar widthName .float

/-- Reference to the width of the render target. -/
def isWidth : Expr → Bool
  | .builtin _ .width => true
  | _ => false

/-- Reference to the height of the render target. -/
def isHeight : Expr → Bool
  | .builtin _ .height => true
  | _ => false

/-- Refers to a uniform in place of the size. -/
def substituteNode (e : Expr) : Expr :=
  if isWidth e then width else if isHeight e then height else e

/-- Declares the uniform for the height and notes that it has to be set. -/
def declareHeight (s : Scratch) : Scratch :=
  let s := s.declareGlobal (.uninitialized .uniform heightName .float)
  { s with inputs := { s.inputs with height := true } }

/-- Declares the uniform for the width and notes that it has to be set. -/
def declareWidth (s : Scratch) : Scratch :=
  let s := s.declareGlobal (.uninitialized .uniform widthName .float)
  { s with inputs := { s.inputs with width := true } }

/-- Refers to the uniforms wherever the size is used, and declares those that are used. -/
def legalize (p : Program) : ScratchM Program := do
  if p.anyNode isWidth then modify declareWidth
  if p.anyNode isHeight then modify declareHeight
  pure (p.mapNodes substituteNode)

/-- The size is substituted from every state; the uniforms go into the state. -/
theorem run_legalize (p : Program) (s : Scratch) :
    (legalize p).run s = (p.mapNodes substituteNode,
      let s := if p.anyNode isWidth then declareWidth s else s
      if p.anyNode isHeight then declareHeight s else s) := by
  unfold legalize
  cases p.anyNode isWidth <;> cases p.anyNode isHeight <;> rfl

end ShaderGen.Legalize.TargetSize
