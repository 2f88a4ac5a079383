import ShaderGen.Legalize.FlipY
import ShaderGen.Legalize.TargetSize

/-! # Fragment coordinates

One `CoordPolicy` applies to a target. Two of them compute the coordinate anew: a function that
reads it starts with a prologue that puts it into a local variable, and reads that instead. The
size of the render target is substituted before, and the program flipped after, so that the flip
sees how positions are written in the end. -/

namespace ShaderGen.Legalize.FragCoord

/-- Local variable that holds the coordinate measured from the other side. -/
def flippedName : String := "sk_FragCoord"

/-- Variable that passes the clip position from the vertex stage to the fragment stage. -/
def varyingName : String := "sk_FragCoord_Workaround"

/-- Local variable that holds the inverse of the clip `w`. -/
def inverseWName : String := "sk_FragCoord_InvW"

/-- Local variable that holds the coordinate computed from the clip position. -/
def resolvedName : String := "sk_FragCoord_Resolved"

/-- Extension that brings the layout qualifier for the origin. -/
def conventionsExtension : String := "GL_ARB_fragment_coord_conventions"

/-- Reference to the fragment coordinate. -/
def isFragCoord : Expr → Bool
  | .builtin _ .fragCoord => true
  | _ => false

/-- Plain or compound assignment of the whole clip position. -/
def assignsPosition : Expr → Bool
  | .binary _ op (.builtin _ .position) _ => op.isAssignment
  | _ => false

/-- A local variable for the coordinate, and the statements that compute it. -/
structure Prologue where
  holder : String
  statements : List Stmt

/-- `vec4 c = vec4(coord.x, height - coord.y, coord.z, coord.w);` -/
def flipped : Prologue :=
  let coord (s : Selector) : Expr := .ofSwizzle (.ofBuiltin .fragCoord) [s]
  { holder := flippedName
    statements :=
      [.decl (.plain flippedName (.vec 4) (some (.ofConstruct (.vec 4)
        [coord .x, .ofBinary .sub TargetSize.height (coord .y), coord .z, coord .w])))] }

/-- Divides the clip position by its `w` and moves the result to the center of its pixel. -/
def resolved : Prologue :=
  let clip (mask : Mask) : Expr := .ofSwizzle (.ofVar varyingName (.vec 4)) mask
  let inverseW : Expr := .ofVar inverseWName .float
  let pixel : Expr := .ofSwizzle (.ofVar resolvedName (.vec 4)) [.x, .y]
  { holder := resolvedName
    statements :=
      [.decl (.plain inverseWName .float (some (.ofBinary .div (.float .one) (clip [.w])))),
       .decl (.plain resolvedName (.vec 4) (some (.ofConstruct (.vec 4)
        [.ofBinary .mul (clip [.x, .y, .z]) inverseW, inverseW]))),
       .assign pixel (.ofBinary .add (.ofCall .floor [pixel])
        (.ofConstruct (.vec 2) [.float .half]))] }

/-- Reads the local variable of a prologue in place of the coordinate. -/
def readLocal (prologue : Prologue) (e : Expr) : Expr :=
  if isFragCoord e then .ofVar prologue.holder (.vec 4) else e

/-- Puts a prologue before a function that reads the coordinate; other functions stay as they
    are. -/
def reconstruct (prologue : Prologue) (f : Function) : Function :=
  if f.anyNode isFragCoord then
    let f := Id.run (f.mapExprsM fun e => pure (e.bottomUp (readLocal prologue)))
    { f with body := prologue.statements ++ f.body }
  else f

/-- Passes on what is assigned to the clip position: `p = e` becomes `v = (p = e)`. -/
def forwardNode (e : Expr) : Expr :=
  if assignsPosition e then .assign (.ofVar varyingName (.vec 4)) e else e

/-- Applies a policy to a program of which it is known whether it reads the coordinate. -/
def applyPolicy (policy : CoordPolicy) (usesCoord : Bool) (p : Program) : ScratchM Program := do
  match policy with
  | .direct upperLeft =>
    if usesCoord && upperLeft then modify Scratch.declareUpperLeftOrigin
    pure p
  | .legacyExtension =>
    if usesCoord then
      modify fun s => (s.requireExtensionFirst conventionsExtension).declareUpperLeftOrigin
    pure p
  | .fromHeight =>
    if usesCoord then
      modify TargetSize.declareHeight
      pure (p.mapFunctions (reconstruct flipped))
    else pure p
  | .fromVarying =>
    match p.stage with
    | .vertex =>
      modify (Scratch.declareGlobal (.uninitialized .output varyingName (.vec 4)))
      pure (p.mapNodes forwardNode)
    | .fragment =>
      modify (Scratch.declareGlobal (.uninitialized .input varyingName (.vec 4)))
      pure (if usesCoord then p.mapFunctions (reconstruct resolved) else p)
    | .geometry => pure p

/-- Substitutes the size of the render target, applies the policy of the target, and flips the
    program if the target is flipped. Only fragment programs have fragment coordinates. -/
def legalize (t : Target) (p : Program) : GenM Program := do
  let p ← TargetSize.legalize p
  let usesCoord := p.anyNode isFragCoord
  if usesCoord && p.stage != .fragment then
    throw (.malformed .coordinateOutsideFragment)
  modify (Scratch.report (.coordPolicy t.coordPolicy usesCoord))
  let p ← applyPolicy t.coordPolicy usesCoord p
  pure (if t.flipsY then FlipY.legalize p else p)

end ShaderGen.Legalize.FragCoord
