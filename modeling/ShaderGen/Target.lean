import ShaderGen.Profile.Basic

/-! # Targets

What a program is generated for: a profile, and whether the render target has its origin at the
top. Together they decide how fragment coordinates are read. -/

namespace ShaderGen

/-- A profile, with what is known of the render target. -/
structure Target where
  profile : Profile
  /-- the render target has its origin at the top, so `y` runs the other way -/
  flipsY : Bool := false
deriving DecidableEq, Repr

/-- How a program reads fragment coordinates. -/
inductive CoordPolicy where
  /-- from the built-in variable, whose origin may have to be moved to the upper left -/
  | direct (upperLeft : Bool)
  /-- from the built-in variable, with its origin moved by an extension -/
  | legacyExtension
  /-- computed from the built-in variable and the height of the render target -/
  | fromHeight
  /-- computed from the clip position that the vertex stage passes on -/
  | fromVarying
deriving DecidableEq, Repr

/-- The one policy that applies to a target. -/
def Target.coordPolicy (t : Target) : CoordPolicy :=
  if t.profile.needs .avoidFragCoord then .fromVarying
  else if !t.flipsY then .direct false
  else
    match t.profile.coordConvention with
    | .none => .fromHeight
    | .legacyExtension => .legacyExtension
    | .modernLayout => .direct true

/-- Uniforms that a generated program declares on its own, and that its user has to set. -/
structure Inputs where
  height : Bool := false
  width : Bool := false
deriving DecidableEq, Repr

end ShaderGen
