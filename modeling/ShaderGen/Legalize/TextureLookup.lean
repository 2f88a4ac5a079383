import ShaderGen.Profile.Basic
import ShaderGen.Program.Traverse
import ShaderGen.Program.WellFormed

/-! # Texture lookups

A `sample` call names a sampler and a coordinate. It becomes a call of the function that the
dialect has for it: for each dimensionality one of its own in legacy generations, one for all
elsewhere, and a projective one if the coordinate has one component too many. -/

namespace ShaderGen.Legalize.TextureLookup

/-- Bias that selects a finer level of the texture. -/
def sharpenBias : Expr := .float .minusHalf

/-- Dimensionality of the sampler of a lookup, and whether the lookup is projective. -/
def classify (args : List Expr) : Except Malformation (SamplerDim × Bool) :=
  match args with
  | sampler :: coord :: _ =>
    match sampler.ty.shape with
    | .sampler dim =>
      let width := coord.ty.swizzleWidth?.getD 0
      if width = dim.coordinateCount then .ok (dim, false)
      else if width = dim.coordinateCount + 1 then .ok (dim, true)
      else .error (.lookupCoordinate width dim)
    | _ => .error .lookupSampler
  | _ => .error .lookupArguments

/-- Function that a dialect has for a lookup. -/
def entryPoint (legacy : Bool) (dim : SamplerDim) (projective : Bool) : Intrinsic :=
  match legacy, dim, projective with
  | false, _, false => .texture
  | false, _, true => .textureProj
  | true, .d1, false => .texture1D
  | true, .d1, true => .texture1DProj
  | true, .d2, false => .texture2D
  | true, .d2, true => .texture2DProj
  | true, .rect, false => .texture2DRect
  | true, .rect, true => .texture2DRectProj

/-- Arguments of a lookup, with a bias on a sharpening target. Rectangular textures have no levels
    to choose from, and a lookup with further arguments has its own. -/
def biased (sharpens : Bool) (dim : SamplerDim) (args : List Expr) : List Expr :=
  if sharpens && dim != .rect && args.length == 2 then args ++ [sharpenBias] else args

/-- Resolves a `sample` call; its type is kept. -/
def resolveNode (profile : Profile) : Expr → Except Malformation Expr
  | .call ty (.intrinsic .sample) args => do
    let (dim, projective) ← classify args
    pure (.call ty (.intrinsic (entryPoint profile.isLegacy dim projective))
      (biased profile.sharpensMipmaps dim args))
  | e => pure e

/-- Resolves every `sample` call. -/
def legalize (profile : Profile) (p : Program) : Except Malformation Program :=
  p.mapNodesM (resolveNode profile)

end ShaderGen.Legalize.TextureLookup
