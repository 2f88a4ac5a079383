import ShaderGen.Ty

/-! # Pieces of a text

A text is put together from pieces that keep apart what is spelled and what merely separates it:
words (names, keywords and numerals), marks (operators and punctuation) and gaps between them.
Precision qualifiers and whole lines that are written as they are have pieces of their own. -/

namespace ShaderGen.Glsl

/-- A piece of text, by the part it plays. -/
inductive Piece where
  /-- name, keyword or numeral -/
  | word (text : String)
  /-- operator or punctuation -/
  | mark (text : String)
  /-- blanks and line breaks -/
  | gap (text : String)
  /-- precision qualifier of a declaration, with the blank after it -/
  | qualifier (precision : Precision)
  /-- line that sets the default precision of a type -/
  | defaultPrecision (typeName : String)
  /-- line that is written as it is -/
  | line (text : String)
deriving DecidableEq, Repr

namespace Piece

/-- The characters of a piece. -/
def text : Piece → String
  | .word text | .mark text | .gap text => text
  | .qualifier .reduced => "mediump "
  | .qualifier .full => "highp "
  | .defaultPrecision typeName => "precision mediump " ++ typeName ++ ";\n"
  | .line text => text ++ "\n"

/-- A single blank. -/
def blank : Piece := .gap " "
/-- End of a line. -/
def lineBreak : Piece := .gap "\n"

/-- Start of a line at a nesting level, four blanks for each. -/
def indent (level : Nat) : Piece := .gap ("".pushn ' ' (4 * level))

/-- Operator with blanks around it. -/
def spaced (symbol : String) : List Piece := [blank, .mark symbol, blank]

/-- Lists of pieces with a comma and a blank between them. -/
def commaSeparated : List (List Piece) → List Piece
  | [] => []
  | [ps] => ps
  | ps :: rest => ps ++ .mark "," :: blank :: commaSeparated rest

/-- Pieces in parentheses. -/
def parenthesized (ps : List Piece) : List Piece := .mark "(" :: ps ++ [.mark ")"]

/-- The text that pieces make up. -/
def render (ps : List Piece) : String := ps.foldl (fun text p => text ++ p.text) ""

end Piece

end ShaderGen.Glsl
