import ShaderGen.Program.Traverse
import ShaderGen.Scratch

/-! # What the preamble has to say

The extensions that a program needs on a target, and whether the fragment color has to be declared
as an output. Geometry programs are refused where there is no geometry stage. -/

namespace ShaderGen.Legalize.Preamble

/-- Call of a function that takes a screen-space derivative. -/
def isDerivativeCall : Expr → Bool
  | .call _ (.intrinsic f) _ => f.isDerivative
  | _ => false

/-- Reference to the fragment color. -/
def isFragColor : Expr → Bool
  | .builtin _ .fragColor => true
  | _ => false

/-- Extensions that a geometry program needs: one for the stage and, if the program runs several
    times for each primitive, one for that. -/
def geometryExtensions (profile : Profile) (p : Program) : List String :=
  profile.geometryExtension.toList ++
    if 1 < p.declaredInvocations && profile.hasInvocations then
      profile.invocationsExtension.toList
    else []

/-- Extensions that a program needs, in the order in which they are named. -/
def extensions (profile : Profile) (p : Program) : List String :=
  (if p.stage = .geometry then geometryExtensions profile p else []) ++
    if p.anyNode isDerivativeCall then profile.derivativesExtension.toList else []

/-- Whether the fragment color is declared as an output. Legacy generations have a built-in
    variable for it. -/
def declaresFragOutput (profile : Profile) (p : Program) : Bool :=
  p.stage == .fragment && !profile.isLegacy && p.anyNode isFragColor

/-- Refuses geometry programs where they cannot run, and notes what the preamble needs. -/
def legalize (t : Target) (p : Program) : GenM Program := do
  if p.stage = .geometry && !t.profile.hasGeometryShaders then
    throw (.unsupported .geometryShaders)
  modify fun s =>
    { (extensions t.profile p).foldl (fun s name => s.requireExtension name) s with
      declaresFragOutput := declaresFragOutput t.profile p }
  pure p

end ShaderGen.Legalize.Preamble
