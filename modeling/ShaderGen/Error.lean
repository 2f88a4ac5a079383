import ShaderGen.Binary64.Shortest
import ShaderGen.Profile.Basic
import ShaderGen.Program.WellFormed

/-! # Errors

Why no text is generated: the program is malformed, or the target cannot express it even with
every workaround. -/

namespace ShaderGen

/-- What a target cannot express. -/
inductive Unsupported where
  | geometryShaders
  /-- a choice that is assigned to within a larger expression -/
  | ternaryTarget
  /-- an initial value that needs a workaround where only constants may stand -/
  | initializer (name : String)
  | unsignedType
  | unsignedLiteral
  | nonFiniteLiteral (value : Binary64)
  | fragmentOutput
deriving DecidableEq, Repr

/-- Why generation stops. -/
inductive Fault where
  | malformed (cause : Malformation)
  | unsupported (cause : Unsupported)
deriving DecidableEq, Repr

/-- Error of a generation; what is unsupported is so for the profile of that name. -/
inductive GenError where
  | malformed (cause : Malformation)
  | unsupported (profile : String) (cause : Unsupported)
deriving DecidableEq, Repr

/-- Name of a sampler's dimensionality in messages. -/
def SamplerDim.label : SamplerDim → String
  | .d1 => "D1"
  | .d2 => "D2"
  | .rect => "Rect"

/-- Name of a built-in variable in messages. -/
def Builtin.label : Builtin → String
  | .fragColor => "FragColor"
  | .fragCoord => "FragCoord"
  | .position => "Position"
  | .invocationId => "InvocationId"
  | .width => "Width"
  | .height => "Height"
  | .inPosition vertex => "InPosition(" ++ toString vertex ++ ")"

/-- Description of a malformation. -/
def Malformation.detail : Malformation → String
  | .nestsTooDeep => "IR nesting exceeds the maximum depth of " ++ toString maxDepth
  | .loopInitializer => "for-loop initializer must be a declaration or an expression"
  | .maskLength length => "swizzle mask has " ++ toString length ++ " components"
  | .literalTarget => "assignment target is a swizzle containing a literal selector"
  | .swizzledNonVector => "swizzle applied to a non-vector expression"
  | .selectorOutOfRange selector width =>
    "swizzle selector `" ++ selector.toChar.toString ++ "` is out of range for a " ++
      toString width ++ "-component value"
  | .normalizedNonVector => "swizzle of a non-vector expression"
  | .coordinateOutsideFragment => "fragment coordinate referenced outside the fragment stage"
  | .lookupArguments => "sample call needs a sampler and a coordinate"
  | .lookupSampler => "first argument of a sample call is not a sampler"
  | .lookupCoordinate width dim =>
    toString width ++ "-component coordinate cannot sample a " ++ dim.label ++ " sampler"
  | .missingEntry => "geometry program has no main function"
  | .powArguments count => "pow takes 2 arguments, got " ++ toString count
  | .literalSelectorLeft => "constant selector left in a swizzle"
  | .sizeLeft which => "render-target size built-in " ++ which.label ++ " survived rewriting"

/-- Description of what is unsupported. -/
def Unsupported.detail : Unsupported → String
  | .geometryShaders => "geometry shaders are not available"
  | .ternaryTarget => "ternary assignment target inside a larger expression"
  | .initializer name =>
    "initializer of `" ++ name ++ "` needs a workaround that is not a constant expression"
  | .unsignedType => "unsigned integer types"
  | .unsignedLiteral => "unsigned integer literals"
  | .nonFiniteLiteral value => "non-finite float literal " ++ value.text
  | .fragmentOutput => "user-declared fragment outputs need `in`/`out` storage qualifiers"

/-- The error that a fault is for a profile. -/
def Fault.toError (profile : Profile) : Fault → GenError
  | .malformed cause => .malformed cause
  | .unsupported cause => .unsupported profile.name cause

namespace GenError

/-- Description of the cause alone. -/
def detail : GenError → String
  | .malformed cause => cause.detail
  | .unsupported _ cause => cause.detail

/-- The whole message. -/
def message (e : GenError) : String :=
  match e with
  | .malformed _ => "malformed IR: " ++ e.detail
  | .unsupported profile _ =>
    "unsupported construct for profile `" ++ profile ++ "`: " ++ e.detail

end GenError

end ShaderGen
