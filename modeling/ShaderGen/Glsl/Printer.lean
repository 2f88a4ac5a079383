import ShaderGen.Glsl.Spelling
import ShaderGen.Scratch

/-! # Printing programs

A program as pieces of text. An expression is parenthesized where its precedence asks for it and
nowhere else; groups always are. Statements are indented by four blanks for each level of nesting.
-/

namespace ShaderGen

open Glsl

namespace Expr

mutual
/-- Pieces of an expression that stands at a place. -/
def pieces (legacy : Bool) (place : Precedence) : Expr → List Piece
  | .literal _ value => literalPieces place value
  | .var _ name => [.word name]
  | .builtin _ which => builtinPieces legacy which
  | .unary _ op operand =>
    if op.followsOperand then
      wrap .trailing place (operand.pieces legacy .trailing ++ [.mark op.symbol])
    else wrap .leading place (.mark op.symbol :: operand.pieces legacy .leading)
  | .binary _ op left right =>
    let own := Precedence.ofBinary op
    let mark := if op = .comma then [.mark op.symbol, .blank] else Piece.spaced op.symbol
    wrap own place
      (left.pieces legacy (Precedence.leftPlace op) ++ mark ++ right.pieces legacy own)
  | .ternary _ cond ifTrue ifFalse =>
    wrap .ternary place
      (cond.pieces legacy .ternary ++ Piece.spaced "?" ++ ifTrue.pieces legacy .ternary ++
        Piece.spaced ":" ++ ifFalse.pieces legacy .ternary)
  | .call _ callee args =>
    let name := match callee with
      | .intrinsic function => function.name
      | .user name => name
    .word name :: Piece.parenthesized (Piece.commaSeparated (argPieces legacy args))
  | .swizzle _ base mask =>
    base.pieces legacy .trailing ++ [.mark ".", .word mask.text]
  | .index _ base position =>
    base.pieces legacy .trailing ++ .mark "[" :: position.pieces legacy .top ++ [.mark "]"]
  | .construct ty args =>
    typePiece ty :: Piece.parenthesized (Piece.commaSeparated (argPieces legacy args))
  | .group _ inner => Piece.parenthesized (inner.pieces legacy .top)

/-- Pieces of each of several arguments. -/
def argPieces (legacy : Bool) : List Expr → List (List Piece)
  | [] => []
  | e :: es => e.pieces legacy .sequence :: argPieces legacy es
end

end Expr

/-- Pieces of a declaration, without the semicolon. -/
def Decl.pieces (d : Dialect) (decl : Decl) : List Piece :=
  ((d.storageKeyword? decl.storage).toList.flatMap fun keyword => [.word keyword, .blank]) ++
    qualifiedType d.qualifying decl.ty ++ [.blank, .word decl.name] ++
    match decl.init with
    | some value => Piece.spaced "=" ++ value.pieces d.legacy .assignment
    | none => []

namespace Stmt

/-- End of a statement. -/
def semicolon : Piece := .mark ";"

/-- Pieces of what stands in parentheses after a keyword, with a blank before and after. -/
def headPieces (ps : List Piece) : List Piece :=
  .blank :: Piece.parenthesized ps ++ [.blank]

/-- Pieces of the lines between braces. -/
def bracedPieces (level : Nat) (lines : List Piece) : List Piece :=
  [.mark "\x7b", .lineBreak] ++ lines ++ [.indent level, .mark "\x7d"]

/-- Pieces of the initializer of a `for`. -/
def initPieces (d : Dialect) : Option Stmt → List Piece
  | some (.decl declared) => declared.pieces d
  | some (.expr e) => e.pieces d.legacy .top
  | _ => []

/-- Pieces of an optional part of the header of a `for`. -/
def headerPart (d : Dialect) : Option Expr → List Piece
  | some e => .blank :: e.pieces d.legacy .top
  | none => []

/-- Pieces of a label, up to the end of its line. -/
def labelPieces : Option Int → List Piece
  | some n => [.word "case", .blank] ++ intPieces n ++ [.mark ":", .lineBreak]
  | none => [.word "default", .mark ":", .lineBreak]

mutual
/-- Pieces of a statement at a nesting level, without the indentation of its first line and
    without its last line break. -/
def pieces (d : Dialect) (level : Nat) : Stmt → List Piece
  | .block body => bracedPieces level (linePieces d (level + 1) body)
  | .decl declared => declared.pieces d ++ [semicolon]
  | .ifElse cond thenBranch elseBranch =>
    .word "if" :: headPieces (cond.pieces d.legacy .top) ++ thenBranch.pieces d level ++
      elsePieces d level elseBranch
  | .forLoop init cond step body =>
    .word "for" ::
      headPieces
        (initPieces d init ++ semicolon :: headerPart d cond ++ semicolon :: headerPart d step) ++
      body.pieces d level
  | .whileLoop cond body =>
    .word "while" :: headPieces (cond.pieces d.legacy .top) ++ body.pieces d level
  | .doWhile body cond =>
    [.word "do", .blank] ++ body.pieces d level ++
      [.blank, .word "while", .blank] ++ Piece.parenthesized (cond.pieces d.legacy .top) ++
      [semicolon]
  | .switchOn value cases =>
    .word "switch" :: headPieces (value.pieces d.legacy .top) ++
      bracedPieces level (casePieces d (level + 1) cases)
  | .expr e => e.pieces d.legacy .top ++ [semicolon]
  | .returnWith none => [.word "return", semicolon]
  | .returnWith (some value) =>
    [.word "return", .blank] ++ value.pieces d.legacy .top ++ [semicolon]
  | .breakOut => [.word "break", semicolon]
  | .continueLoop => [.word "continue", semicolon]
  | .discard => [.word "discard", semicolon]
  | .emitVertex => .word "EmitVertex" :: Piece.parenthesized [] ++ [semicolon]
  | .endPrimitive => .word "EndPrimitive" :: Piece.parenthesized [] ++ [semicolon]

/-- Pieces of an `else` with its branch. -/
def elsePieces (d : Dialect) (level : Nat) : Option Stmt → List Piece
  | none => []
  | some s => [.blank, .word "else", .blank] ++ s.pieces d level

/-- Pieces of statements, each on lines of its own. -/
def linePieces (d : Dialect) (level : Nat) : List Stmt → List Piece
  | [] => []
  | s :: ss => .indent level :: s.pieces d level ++ .lineBreak :: linePieces d level ss

/-- Pieces of the cases of a `switch`. -/
def casePieces (d : Dialect) (level : Nat) : List Case → List Piece
  | [] => []
  | .mk label body :: cases =>
    .indent level :: labelPieces label ++ linePieces d (level + 1) body ++
      casePieces d level cases
end

end Stmt

/-- Pieces of a parameter. -/
def Param.pieces (d : Dialect) (p : Param) : List Piece :=
  qualifiedType d.qualifying p.ty ++ [.blank, .word p.name]

/-- Pieces of a function, up to the end of its last line. -/
def Function.pieces (d : Dialect) (f : Function) : List Piece :=
  qualifiedType d.qualifying f.result ++ [.blank, .word f.name] ++
    Piece.parenthesized (Piece.commaSeparated (f.params.map (Param.pieces d))) ++ [.blank] ++
    (Stmt.block f.body).pieces d 0 ++ [.lineBreak]

/-- Pieces of a declaration that stands on a line of its own. -/
def Decl.line (d : Dialect) (decl : Decl) : List Piece :=
  decl.pieces d ++ [.mark ";", .lineBreak]

/-- Keyword of a direction. -/
def Direction.keyword : Direction → String
  | .input => "in"
  | .output => "out"

/-- Pieces of an interface layout, up to the end of its line. -/
def Layout.pieces (l : Layout) : List Piece :=
  .word "layout" :: Piece.parenthesized (Piece.commaSeparated (l.items.map layoutItemPieces)) ++
    [.blank, .word l.direction.keyword, .mark ";", .lineBreak]

/-- Pieces of an element, up to the end of its last line. -/
def Element.pieces (d : Dialect) : Element → List Piece
  | .global decl => decl.line d
  | .function f => f.pieces d
  | .layout l => l.pieces

/-- Pieces of a global of the preamble, up to the end of its line. -/
def AddedGlobal.pieces (d : Dialect) : AddedGlobal → List Piece
  | .declared decl => decl.line d
  | .upperLeftOrigin =>
    .word "layout" :: Piece.parenthesized [.word "origin_upper_left"] ++
      [.blank, .word "in", .blank, .word "vec4", .blank, .word "gl_FragCoord", .mark ";",
       .lineBreak]

namespace Glsl

/-- Line that names an extension. -/
def extensionLine (name : String) : Piece := .line ("#extension " ++ name ++ " : require")

/-- Declaration of the fragment color. It keeps medium precision even where everything else has
    the highest. -/
def fragOutputPieces (usesPrecision : Bool) : List Piece :=
  [.word "out", .blank] ++ (if usesPrecision then [.qualifier .reduced] else []) ++
    [.word "vec4", .blank, .word "sk_FragColor", .mark ";", .lineBreak]

/-- Pieces of a program with what the scratch state adds in front of it. -/
def programPieces (profile : Profile) (s : Scratch) (p : Program) : List Piece :=
  let d := Dialect.ofProfile profile p.stage
  .line profile.versionLine :: s.extensions.map extensionLine ++
    (if profile.usesPrecision then
      [.defaultPrecision "float", .defaultPrecision "sampler2D"] else []) ++
    (if s.declaresFragOutput then fragOutputPieces profile.usesPrecision else []) ++
    s.globals.flatMap (AddedGlobal.pieces d) ++
    s.helpers.flatMap (fun h => h.2.pieces d) ++
    p.elements.flatMap (Element.pieces d)

end Glsl

end ShaderGen
