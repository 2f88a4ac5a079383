import ShaderGen.Binary64.Shortest
import ShaderGen.Glsl.Dialect
import ShaderGen.Glsl.Piece
import ShaderGen.Glsl.Precedence

/-! # Spelling of types, literals and variables

The smallest parts of a program as pieces. All functions are total; what a dialect has no spelling
for gets some text here and is refused by `ShaderGen.Glsl.Obstacle`. -/

namespace ShaderGen

/-- Name of the scalar type of a kind. -/
def ScalarKind.spelling : ScalarKind → String
  | .float => "float"
  | .int => "int"
  | .uint => "uint"
  | .bool => "bool"

/-- Name of a vector type of a kind, without the number of components. -/
def ScalarKind.vectorSpelling : ScalarKind → String
  | .float => "vec"
  | .int => "ivec"
  | .uint => "uvec"
  | .bool => "bvec"

/-- Name of a sampler type. -/
def SamplerDim.spelling : SamplerDim → String
  | .d1 => "sampler1D"
  | .d2 => "sampler2D"
  | .rect => "sampler2DRect"

/-- Name of a type, which does not show its precision. -/
def Shape.spelling : Shape → String
  | .void => "void"
  | .scalar kind => kind.spelling
  | .vector kind size => kind.vectorSpelling ++ toString size
  | .matrix columns rows =>
    if columns = rows then "mat" ++ toString columns
    else "mat" ++ toString columns ++ "x" ++ toString rows
  | .sampler dim => dim.spelling

namespace Glsl

/-- Pieces that bind with a strength, parenthesized where that is not enough. -/
def wrap (own place : Precedence) (ps : List Piece) : List Piece :=
  if own.tighter place then ps else Piece.parenthesized ps

/-- Name of a type. -/
def typePiece (ty : Ty) : Piece := .word ty.shape.spelling

/-- Name of a type with its precision qualifier in front. -/
def qualifiedType (q : Qualifying) (ty : Ty) : List Piece :=
  (q.qualifier? ty).toList.map Piece.qualifier ++ [typePiece ty]

/-- Whole number, with a minus sign for a negative one. -/
def intPieces (n : Int) : List Piece :=
  if n < 0 then [.mark "-", .word (toString n.natAbs)] else [.word (toString n.natAbs)]

/-- Float numeral, with a minus sign if the sign bit is set. -/
def floatPieces (v : Binary64) : List Piece :=
  if v.isNegative then [.mark "-", .word v.magnitudeText] else [.word v.magnitudeText]

/-- Literal. A minus sign binds like the operator. -/
def literalPieces (place : Precedence) : Literal → List Piece
  | .float v => if v.isNegative then wrap .leading place (floatPieces v) else floatPieces v
  | .int n => if n < 0 then wrap .leading place (intPieces n) else intPieces n
  | .uint n => [.word (toString n ++ "u")]
  | .bool b => [.word (toString b)]

/-- Built-in variable. -/
def builtinPieces (legacy : Bool) : Builtin → List Piece
  | .fragColor => [.word (if legacy then "gl_FragColor" else "sk_FragColor")]
  | .fragCoord => [.word "gl_FragCoord"]
  | .position => [.word "gl_Position"]
  | .invocationId => [.word "gl_InvocationID"]
  | .inPosition vertex =>
    [.word "gl_in", .mark "[", .word (toString vertex), .mark "]", .mark ".",
     .word "gl_Position"]
  | .width => [.word "Width"]
  | .height => [.word "Height"]

/-- Item of an interface layout. -/
def layoutItemPieces : LayoutItem → List Piece
  | .points => [.word "points"]
  | .lines => [.word "lines"]
  | .linesAdjacency => [.word "lines_adjacency"]
  | .triangles => [.word "triangles"]
  | .trianglesAdjacency => [.word "triangles_adjacency"]
  | .lineStrip => [.word "line_strip"]
  | .triangleStrip => [.word "triangle_strip"]
  | .invocations count => .word "invocations" :: Piece.spaced "=" ++ [.word (toString count)]
  | .maxVertices count => .word "max_vertices" :: Piece.spaced "=" ++ [.word (toString count)]

end Glsl

end ShaderGen
