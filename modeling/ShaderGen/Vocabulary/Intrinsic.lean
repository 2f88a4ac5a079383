/-! # Intrinsic functions

The built-in functions a program can call. `sample` is the one lookup that says nothing about
the dialect; it stands for one of the texture functions below it. -/

namespace ShaderGen

/-- Intrinsic function. -/
inductive Intrinsic where
  | abs
  | sign
  | floor
  | ceil
  | fract
  | min
  | max
  | clamp
  | mix
  | pow
  | exp
  | exp2
  | log
  | log2
  | sqrt
  | inverseSqrt
  | sin
  | cos
  | tan
  | atan
  | dot
  | length
  | normalize
  | dFdx
  | dFdy
  | sample
  | texture
  | textureProj
  | texture1D
  | texture1DProj
  | texture2D
  | texture2DProj
  | texture2DRect
  | texture2DRectProj
deriving DecidableEq, Repr

namespace Intrinsic

/-- Name under which the function is called. -/
def name : Intrinsic → String
  | .abs => "abs"
  | .sign => "sign"
  | .floor => "floor"
  | .ceil => "ceil"
  | .fract => "fract"
  | .min => "min"
  | .max => "max"
  | .clamp => "clamp"
  | .mix => "mix"
  | .pow => "pow"
  | .exp => "exp"
  | .exp2 => "exp2"
  | .log => "log"
  | .log2 => "log2"
  | .sqrt => "sqrt"
  | .inverseSqrt => "inversesqrt"
  | .sin => "sin"
  | .cos => "cos"
  | .tan => "tan"
  | .atan => "atan"
  | .dot => "dot"
  | .length => "length"
  | .normalize => "normalize"
  | .dFdx => "dFdx"
  | .dFdy => "dFdy"
  | .sample => "sample"
  | .texture => "texture"
  | .textureProj => "textureProj"
  | .texture1D => "texture1D"
  | .texture1DProj => "texture1DProj"
  | .texture2D => "texture2D"
  | .texture2DProj => "texture2DProj"
  | .texture2DRect => "texture2DRect"
  | .texture2DRectProj => "texture2DRectProj"

/-- Whether the function reads a texture. -/
def isLookup : Intrinsic → Bool
  | .sample | .texture | .textureProj | .texture1D | .texture1DProj | .texture2D
  | .texture2DProj | .texture2DRect | .texture2DRectProj => true
  | _ => false

/-- Whether the function takes a screen-space derivative. -/
def isDerivative : Intrinsic → Bool
  | .dFdx | .dFdy => true
  | _ => false

end Intrinsic

end ShaderGen
