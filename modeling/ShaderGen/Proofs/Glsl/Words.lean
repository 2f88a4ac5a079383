import ShaderGen.Proofs.Glsl.ExprSpelling
import ShaderGen.Proofs.Glsl.StmtGrammar
import ShaderGen.Proofs.Legalize.Unnamed

/-!
# Words of printed programs

Words of a text are numerals, masks, words with a meaning in the language, or names of the program.
A name that cannot be taken for one of the others (`IsUnmistakable`) stands in the text of an
expression just where that refers to it, and not in the text of a program that avoids it.

## Key results

- `Expr.word_mem_pieces`: names in the text of an expression
- `Element.word_notMem_pieces`, `Glsl.word_notMem_programPieces`: names that are avoided
-/

namespace ShaderGen

open Glsl

namespace Glsl

/-- Words with a meaning in some place of a text, which names may be equal to all the same. -/
def contextualWords : List String :=
  ["Height", "NaN", "Width", "inf", "invocations", "line_strip", "lines", "lines_adjacency",
    "max_vertices", "origin_upper_left", "points", "triangle_strip", "triangles",
    "triangles_adjacency"]

/-- A name that is no other word of a text. -/
structure IsUnmistakable (x : String) : Prop where
  identifier : isIdentifier x = true
  mask : Mask.parse? x = none
  contextual : x ∉ contextualWords

namespace IsUnmistakable

variable {x : String} (hx : IsUnmistakable x)

include hx

/-- The word is no keyword. -/
theorem ne_keyword {text : String} (h : text ∈ keywords) : x ≠ text := by
  rintro rfl
  have hreserved := not_isReserved_of_isIdentifier hx.identifier
  simp [isReserved, h] at hreserved

/-- The word is no type. -/
theorem ne_spelling (s : Shape) : x ≠ s.spelling := by
  rintro rfl
  have hreserved := not_isReserved_of_isIdentifier hx.identifier
  simp [isReserved] at hreserved

/-- The word is no function of the language. -/
theorem ne_intrinsic (f : Intrinsic) : x ≠ f.name := by
  rintro rfl
  have hreserved := not_isReserved_of_isIdentifier hx.identifier
  simp [isReserved] at hreserved

/-- The word is no variable of the language. -/
theorem ne_builtin {text : String} (h : (Builtin.named? text).isSome = true) : x ≠ text := by
  rintro rfl
  have hreserved := not_isReserved_of_isIdentifier hx.identifier
  simp [isReserved, h] at hreserved

/-- The word is no mask of a swizzle. -/
theorem ne_mask (mask : Mask) : x ≠ mask.text := by
  rintro rfl
  exact absurd hx.mask (by simp [parse?_text])

/-- The word is none that means something in a layout. -/
theorem ne_contextual {text : String} (h : text ∈ contextualWords) : x ≠ text := by
  rintro rfl
  exact hx.contextual h

/-- A name does not start with a digit. -/
theorem ne_numeral {text : String} (h : text.toList.head?.any Char.isDigit = true) : x ≠ text := by
  rintro rfl
  -- A name does not start with a digit.
  have hname : Token.isName x = true := by
    have hid := hx.identifier
    rw [isIdentifier, Bool.and_eq_true] at hid
    exact hid.1
  unfold Token.isName at hname
  split at hname
  · exact absurd hname Bool.false_ne_true
  · next c cs htext =>
    rw [htext, List.head?_cons, Option.any_some] at h
    simp [h] at hname

/-- The word is no numeral. -/
theorem ne_repr (n : Nat) : x ≠ n.repr :=
  hx.ne_numeral (by simpa using (Piece.wellSpelled_toString n "" rfl).2)

/-- The word is no numeral of a float. -/
theorem ne_magnitudeText (v : Binary64) : x ≠ v.magnitudeText := by
  cases h : v.isFinite with
  | true => exact hx.ne_numeral (Piece.wellSpelled_magnitudeText h).2
  | false =>
    rw [Binary64.magnitudeText, h, if_neg Bool.false_ne_true]
    split <;> exact hx.ne_contextual (by decide)

end IsUnmistakable

namespace Piece

variable {x : String} {ps : List Piece}

/-- Parentheses are no words. -/
@[simp] theorem word_mem_parenthesized : word x ∈ parenthesized ps ↔ word x ∈ ps := by
  simp [parenthesized]

/-- Nor are those that are put around by precedence. -/
@[simp] theorem word_mem_wrap {own place : Precedence} :
    word x ∈ wrap own place ps ↔ word x ∈ ps := by
  unfold wrap
  split
  · rfl
  · exact word_mem_parenthesized

/-- An operator is no word. -/
@[simp] theorem word_mem_spaced {symbol : String} : word x ∉ spaced symbol := by
  simp [spaced, blank]

/-- Commas are no words. -/
@[simp] theorem word_mem_commaSeparated {pss : List (List Piece)} :
    word x ∈ commaSeparated pss ↔ ∃ ps ∈ pss, word x ∈ ps := by
  induction pss with
  | nil => simp [commaSeparated]
  | cons ps pss ih =>
    cases pss with
    | nil => simp [commaSeparated]
    | cons qs pss =>
      -- The comma is a mark, not a word.
      have hcons : commaSeparated (ps :: qs :: pss) =
          ps ++ .mark "," :: blank :: commaSeparated (qs :: pss) := rfl
      simp [hcons, ih, blank]

end Piece

end Glsl

/-! ### Expressions -/

section

open Piece

variable {x : String}

/-- No type with its qualifiers holds the word. -/
theorem Glsl.IsUnmistakable.word_notMem_qualifiedType (hx : IsUnmistakable x) (q : Qualifying)
    (ty : Ty) : word x ∉ qualifiedType q ty := by
  simp [qualifiedType, typePiece, hx.ne_spelling]

/-- No integer holds the word. -/
theorem Glsl.IsUnmistakable.word_notMem_intPieces (hx : IsUnmistakable x) (n : Int) :
    word x ∉ intPieces n := by
  unfold intPieces
  split <;> simp [hx.ne_repr]

/-- No literal holds the word. -/
theorem Literal.word_notMem_pieces (hx : IsUnmistakable x) (place : Precedence) (value : Literal) :
    word x ∉ literalPieces place value := by
  cases value with
  | float v =>
    have hfloat : word x ∉ floatPieces v := by
      unfold floatPieces
      split <;> simp [hx.ne_magnitudeText]
    rw [literalPieces]
    split
    · exact mt word_mem_wrap.mp hfloat
    · exact hfloat
  -- A number starts with a digit or a sign, and the name does not.
  | int n =>
    have hint := hx.word_notMem_intPieces n
    rw [literalPieces]
    split
    · exact mt word_mem_wrap.mp hint
    · exact hint
  | uint n =>
    have hnumeral : x ≠ toString n ++ "u" := hx.ne_numeral (wellSpelled_toString n "u" rfl).2
    simpa [literalPieces] using hnumeral
  | bool b =>
    have hkeyword : x ≠ toString b := hx.ne_keyword (by cases b <;> decide)
    simpa [literalPieces] using hkeyword

/-- No variable of the language holds the word. -/
theorem Builtin.word_notMem_pieces (hx : IsUnmistakable x) (legacy : Bool) (which : Builtin) :
    word x ∉ builtinPieces legacy which := by
  cases which with
  | fragColor =>
    cases legacy
    · simpa [builtinPieces] using hx.ne_builtin (by decide)
    · simpa [builtinPieces] using hx.ne_builtin (by decide)
  | fragCoord | position | invocationId => simpa [builtinPieces] using hx.ne_builtin (by decide)
  | width | height => simpa [builtinPieces] using hx.ne_contextual (by decide)
  | inPosition vertex =>
    -- An input position is spelled with two words and a numeral in between.
    have hin : x ≠ "gl_in" := hx.ne_keyword (by decide)
    have hposition : x ≠ "gl_Position" := hx.ne_builtin (by decide)
    simp [builtinPieces, hin, hposition, hx.ne_repr]

namespace Expr

/-- Arguments hold the word if one of them uses the name. -/
theorem word_mem_argPieces {legacy : Bool} {args : List Expr}
    (h : ∀ arg ∈ args, ∀ place, word x ∈ arg.pieces legacy place ↔ arg.any (usesName x) = true) :
    (∃ ps ∈ argPieces legacy args, word x ∈ ps) ↔ args.any (Expr.any (usesName x)) = true := by
  have hmap : argPieces legacy args = args.map (Expr.pieces legacy .sequence) := by
    clear h
    induction args with
    | nil => rfl
    | cons arg args ih => rw [argPieces, ih, List.map_cons]
  -- A name stands in the pieces of an argument iff the argument uses it.
  rw [hmap, List.any_eq_true]
  constructor
  · rintro ⟨ps, hps, hword⟩
    obtain ⟨arg, harg, rfl⟩ := List.mem_map.mp hps
    exact ⟨arg, harg, (h arg harg _).mp hword⟩
  · rintro ⟨arg, harg, hrefers⟩
    exact ⟨_, List.mem_map_of_mem harg, (h arg harg _).mpr hrefers⟩

/-- A name stands in the text of an expression just where that refers to it. -/
theorem word_mem_pieces (hx : IsUnmistakable x) (legacy : Bool) (e : Expr) (place : Precedence) :
    word x ∈ e.pieces legacy place ↔ e.any (usesName x) = true := by
  -- By induction on the expression. Marks and keywords are no names, so each case comes down to the
  -- name of the node itself and to its operands.
  induction e generalizing place with
  | literal ty value => exact iff_of_false (value.word_notMem_pieces hx place) Bool.false_ne_true
  | var ty name =>
    rw [pieces, any_eq]
    simp [usesName, name?, children, @eq_comm _ x name]
  | builtin ty which =>
    exact iff_of_false (which.word_notMem_pieces hx legacy) Bool.false_ne_true
  | unary ty op operand ih =>
    rw [pieces, any_eq]
    split <;> simp [usesName, name?, children, ih]
  | binary ty op left right ihl ihr =>
    rw [pieces, any_eq]
    split <;> simp [usesName, name?, children, blank, ihl, ihr]
  | ternary ty cond ifTrue ifFalse ihc iht ihf =>
    rw [pieces, any_eq]
    simp [usesName, name?, children, ihc, iht, ihf]
  | call ty callee args ih =>
    rw [any_eq]
    cases callee with
    | intrinsic f =>
      simp [pieces, usesName, name?, children, hx.ne_intrinsic, word_mem_argPieces ih]
    | user name =>
      simp [pieces, usesName, name?, children, word_mem_argPieces ih, @eq_comm _ x name]
  | swizzle ty base mask ih =>
    rw [pieces, any_eq]
    simp [usesName, name?, children, hx.ne_mask, ih]
  | index ty base position ihb ihp =>
    rw [pieces, any_eq]
    simp [usesName, name?, children, ihb, ihp]
  | construct ty args ih =>
    rw [pieces, any_eq]
    simp [usesName, name?, children, typePiece, hx.ne_spelling, word_mem_argPieces ih]
  | group ty inner ih =>
    rw [pieces, any_eq]
    simp [usesName, name?, children, ih]

end Expr

/-! ### Statements and elements -/

/-- A declaration holds the word only as its own name or in its initial value. -/
theorem Decl.word_notMem_pieces (hx : IsUnmistakable x) {d : Dialect} {decl : Decl}
    (hname : decl.name ≠ x) (hinit : ∀ e ∈ decl.init, e.any (Expr.usesName x) = false) :
    word x ∉ decl.pieces d := by
  have hstorage : word x ∉ (d.storageKeyword? decl.storage).toList.flatMap
      fun keyword => [.word keyword, .blank] := by
    cases h : d.storageKeyword? decl.storage with
    | none => simp
    | some keyword =>
      have hall : ∀ word ∈ storageWords, word ∈ keywords := by decide
      simp [blank, hx.ne_keyword (hall _ (d.storageKeyword?_mem _ keyword h))]
  have hdeclared : word x ∉ [.blank, .word decl.name] := by simpa [blank] using hname.symm
  -- The storage class, the type, the declared name and the initial value are looked at in turn.
  rw [Decl.pieces, List.mem_append, not_or]
  constructor
  · simp only [List.mem_append, hstorage, hx.word_notMem_qualifiedType, hdeclared, or_self,
      not_false_eq_true]
  · split
    · next value hvalue => simp [Expr.word_mem_pieces hx, hinit value hvalue]
    · exact List.not_mem_nil

namespace Stmt

variable {s : Stmt} {d : Dialect}

/-- No label holds the word. -/
theorem word_notMem_labelPieces (hx : IsUnmistakable x) (label : Option Int) :
    word x ∉ labelPieces label := by
  cases label with
  | none => simp [labelPieces, lineBreak, hx.ne_keyword (show "default" ∈ keywords by decide)]
  | some n =>
    simp [labelPieces, lineBreak, blank, hx.ne_keyword (show "case" ∈ keywords by decide),
      hx.word_notMem_intPieces]

/-- Lines hold the word if a statement does. -/
theorem word_notMem_linePieces {ss : List Stmt} {level : Nat}
    (h : ∀ s ∈ ss, word x ∉ s.pieces d level) : word x ∉ linePieces d level ss := by
  induction ss with
  | nil => simp [linePieces]
  | cons s ss ih =>
    have hfirst := h s List.mem_cons_self
    have hrest := ih fun t ht => h t (List.mem_cons_of_mem _ ht)
    simp [linePieces, indent, lineBreak, hfirst, hrest]

/-- Cases hold the word if a statement in one of them does. -/
theorem word_notMem_casePieces (hx : IsUnmistakable x) {cases : List Case} {level : Nat}
    (h : ∀ c ∈ cases, ∀ s ∈ c.body, word x ∉ s.pieces d (level + 1)) :
    word x ∉ casePieces d level cases := by
  induction cases with
  | nil => simp [casePieces]
  | cons c cs ih =>
    obtain ⟨label, body⟩ := c
    have hbody := word_notMem_linePieces (h _ List.mem_cons_self)
    have hrest := ih fun c hc => h c (List.mem_cons_of_mem _ hc)
    -- The word is neither in the label nor in the body.
    have hlabel := word_notMem_labelPieces hx label
    have hbody' : word x ∉ linePieces d (level + 1) body := hbody
    simp [casePieces, indent, hlabel, hbody', hrest]

/-- The parentheses of a header are no words. -/
@[simp] theorem word_mem_headPieces {ps : List Piece} : word x ∈ headPieces ps ↔ word x ∈ ps := by
  simp [headPieces, blank]

/-- Nor are the braces around a body. -/
@[simp] theorem word_mem_bracedPieces {level : Nat} {ps : List Piece} :
    word x ∈ bracedPieces level ps ↔ word x ∈ ps := by
  simp [bracedPieces, lineBreak, indent]

/-- A statement that avoids a name is printed without it. -/
theorem word_notMem_pieces (hx : IsUnmistakable x)
    (h : s.Fits (· ≠ x) fun e => e.any (Expr.usesName x) = false) (level : Nat) :
    word x ∉ s.pieces d level := by
  -- Keywords, expressions and parts of a header in turn do not hold the name.
  have hexpr : ∀ {e : Expr}, e.any (Expr.usesName x) = false → ∀ place,
      word x ∉ e.pieces d.legacy place := by
    intro e he place
    rw [Expr.word_mem_pieces hx, he]
    exact Bool.false_ne_true
  have hkeyword : ∀ {keyword : String}, keyword ∈ keywords → x ≠ keyword := hx.ne_keyword
  have hpart : ∀ {o : Option Expr}, (∀ e ∈ o, e.any (Expr.usesName x) = false) →
      word x ∉ headerPart d o := by
    intro o ho
    cases o with
    | none => simp [headerPart]
    | some e => simpa [headerPart, blank] using hexpr (ho e rfl) .top
  induction s generalizing level with
  | block body ih =>
    have hbody := word_notMem_linePieces fun s hs => ih s hs (fits_block.mp h s hs) (level + 1)
    simpa [pieces] using hbody
  | decl decl =>
    obtain ⟨hname, hinit⟩ := fits_decl.mp h
    simpa [pieces, semicolon] using Decl.word_notMem_pieces hx hname hinit
  | ifElse cond thenBranch elseBranch iht ihe =>
    obtain ⟨hcond, hthen, helse⟩ := fits_ifElse.mp h
    have hbranch : word x ∉ elsePieces d level elseBranch := by
      cases elseBranch with
      | none => simp [elsePieces]
      | some s =>
        simp [elsePieces, blank, hkeyword (show "else" ∈ keywords by decide),
          ihe s rfl (helse s rfl) level]
    simp [pieces, hkeyword (show "if" ∈ keywords by decide), hexpr hcond, iht hthen level, hbranch]
  -- The three parts of the header, then the body.
  | forLoop init cond step body ihi ihb =>
    obtain ⟨hinit, hcond, hstep, hbody⟩ := fits_forLoop.mp h
    have hfirst : word x ∉ initPieces d init := by
      cases init with
      | none => simp [initPieces]
      | some s =>
        cases s with
        | decl decl =>
          obtain ⟨hname, hvalue⟩ := fits_decl.mp (hinit _ rfl)
          exact Decl.word_notMem_pieces hx hname hvalue
        | expr e => exact hexpr (fits_expr.mp (hinit _ rfl)) _
        | _ => simp [initPieces]
    simp [pieces, semicolon, hkeyword (show "for" ∈ keywords by decide), hfirst, hpart hcond,
      hpart hstep, ihb hbody level]
  | whileLoop cond body ih =>
    obtain ⟨hcond, hbody⟩ := fits_whileLoop.mp h
    simp [pieces, hkeyword (show "while" ∈ keywords by decide), hexpr hcond, ih hbody level]
  | doWhile body cond ih =>
    obtain ⟨hcond, hbody⟩ := fits_doWhile.mp h
    simp [pieces, semicolon, blank, hkeyword (show "do" ∈ keywords by decide),
      hkeyword (show "while" ∈ keywords by decide), hexpr hcond, ih hbody level]
  -- The labels of the cases are numbers.
  | switchOn value cases ih =>
    obtain ⟨hvalue, hcases⟩ := fits_switchOn.mp h
    have hlines : word x ∉ casePieces d (level + 1) cases := by
      refine word_notMem_casePieces hx fun c hc s hs => ?_
      obtain ⟨label, body⟩ := c
      exact ih label body hc s hs (hcases _ hc s hs) _
    simp [pieces, hkeyword (show "switch" ∈ keywords by decide), hexpr hvalue, hlines]
  | expr e => simpa [pieces, semicolon] using hexpr (fits_expr.mp h) .top
  | returnWith value =>
    have hreturn := hkeyword (show "return" ∈ keywords by decide)
    cases value with
    | none => simp [pieces, semicolon, hreturn]
    | some e =>
      simp [pieces, semicolon, blank, hreturn, hexpr (fits_returnWith.mp h e rfl)]
  | breakOut => simp [pieces, semicolon, hkeyword (show "break" ∈ keywords by decide)]
  | continueLoop => simp [pieces, semicolon, hkeyword (show "continue" ∈ keywords by decide)]
  | discard => simp [pieces, semicolon, hkeyword (show "discard" ∈ keywords by decide)]
  | emitVertex => simp [pieces, semicolon, hkeyword (show "EmitVertex" ∈ keywords by decide)]
  | endPrimitive => simp [pieces, semicolon, hkeyword (show "EndPrimitive" ∈ keywords by decide)]

end Stmt

/-- A declaration on a line of its own. -/
theorem Decl.word_mem_line {d : Dialect} {decl : Decl} :
    word x ∈ decl.line d ↔ word x ∈ decl.pieces d := by
  simp [Decl.line, lineBreak]

/-- No layout holds the word. -/
theorem Layout.word_notMem_pieces (hx : IsUnmistakable x) (l : Layout) : word x ∉ l.pieces := by
  have hitem : ∀ item, word x ∉ layoutItemPieces item := by
    intro item
    -- The words of a layout are contextual, and numbers are never the name.
    cases item with
    | invocations count =>
      simp [layoutItemPieces, hx.ne_repr,
        hx.ne_contextual (show "invocations" ∈ contextualWords by decide)]
    | maxVertices count =>
      simp [layoutItemPieces, hx.ne_repr,
        hx.ne_contextual (show "max_vertices" ∈ contextualWords by decide)]
    | _ => simpa [layoutItemPieces] using hx.ne_contextual (by decide)
  -- The keywords around the items are reserved.
  have hlayout : x ≠ "layout" := hx.ne_keyword (by decide)
  have hdirection : x ≠ l.direction.keyword := by
    cases l.direction <;> exact hx.ne_keyword (by decide)
  simp [Layout.pieces, blank, lineBreak, hlayout, hdirection, hitem]

/-- An element that avoids a name is printed without it. -/
theorem Element.word_notMem_pieces (hx : IsUnmistakable x) {d : Dialect} {el : Element}
    (h : el.Meets (.sparing x false)) : word x ∉ el.pieces d := by
  -- The demand grants nothing here, so it is that the name is not used.
  have hexpr : ∀ {e : Expr}, (Demand.sparing x false).exprs e → e.any (Expr.usesName x) = false :=
    fun he => he.resolve_left Bool.false_ne_true
  cases el with
  | global decl =>
    exact mt Decl.word_mem_line.mp (Decl.word_notMem_pieces hx h.1 fun e he => hexpr (h.2 e he))
  | function fn =>
    have hparams : ∀ p ∈ fn.params, word x ∉ p.pieces d := by
      intro p hp
      have hname : x ≠ p.name := (h.params p hp).symm
      simp [Param.pieces, blank, hx.word_notMem_qualifiedType, hname]
    have hbody : word x ∉ (Stmt.block fn.body).pieces d 0 :=
      Stmt.word_notMem_pieces hx (Stmt.fits_block.mpr fun s hs =>
        (Legalize.body_sparing.mp h.body s hs).mono (fun _ => id) fun _ => hexpr) 0
    have hname : x ≠ fn.name := h.name.symm
    simpa [Element.pieces, Function.pieces, blank, lineBreak, hx.word_notMem_qualifiedType, hname,
      hbody] using hparams
  | layout l => exact l.word_notMem_pieces hx

/-- A program that avoids a name is printed without it if nothing in front of it has the name. -/
theorem Glsl.word_notMem_programPieces (hx : IsUnmistakable x) {profile : Profile} {s : Scratch}
    {p : Program} (hp : p.Avoids x)
    (hglobals : ∀ d, .declared d ∈ s.globals → d.name ≠ x ∧ d.init = none)
    (hhelpers : ∀ h ∈ s.helpers, h.2.Meets (.sparing x false)) :
    word x ∉ programPieces profile s p := by
  -- The sections of a program in the order of printing; each is shown to avoid the name.
  have hfirst : word x ∉ Piece.line profile.versionLine :: s.extensions.map extensionLine := by
    simp [extensionLine]
  have houtput : word x ∉ fragOutputPieces profile.usesPrecision := by
    have hout : x ≠ "out" := hx.ne_keyword (by decide)
    have htype : x ≠ "vec4" := hx.ne_spelling (.vector .float 4)
    have hcolor : x ≠ "sk_FragColor" := hx.ne_builtin (by decide)
    unfold fragOutputPieces
    split <;> simp [blank, lineBreak, hout, htype, hcolor]
  -- An added global is a declaration of another name or the origin of the coordinate.
  have hglobal : ∀ (d : Dialect), ∀ g ∈ s.globals, word x ∉ g.pieces d := by
    intro d g hg
    cases g with
    | declared decl =>
      obtain ⟨hname, hinit⟩ := hglobals decl hg
      exact mt Decl.word_mem_line.mp (Decl.word_notMem_pieces hx hname (by simp [hinit]))
    | upperLeftOrigin =>
      have hlayout : x ≠ "layout" := hx.ne_keyword (by decide)
      have horigin : x ≠ "origin_upper_left" := hx.ne_contextual (by decide)
      have hin : x ≠ "in" := hx.ne_keyword (by decide)
      have htype : x ≠ "vec4" := hx.ne_spelling (.vector .float 4)
      have hcoord : x ≠ "gl_FragCoord" := hx.ne_builtin (by decide)
      simp [AddedGlobal.pieces, blank, lineBreak, hlayout, horigin, hin, htype, hcoord]
  have hhelper : ∀ (d : Dialect), ∀ h ∈ s.helpers, word x ∉ h.2.pieces d := by
    intro d h hh
    have hmeets : (Element.function h.2).Meets (.sparing x false) := hhelpers h hh
    exact Element.word_notMem_pieces hx hmeets
  have helement : ∀ (d : Dialect), ∀ el ∈ p.elements, word x ∉ el.pieces d := fun d el hel =>
    Element.word_notMem_pieces hx (hp el hel)
  -- A section is the text of its members in a row.
  have hflat : ∀ {α : Type} {as : List α} {f : α → List Piece}, (∀ a ∈ as, word x ∉ f a) →
      word x ∉ as.flatMap f := by
    intro α as f h hmem
    obtain ⟨a, ha, hword⟩ := List.mem_flatMap.mp hmem
    exact h a ha hword
  -- The version and the extensions are lines; the two choices are the default precision and the
  -- output.
  unfold programPieces
  dsimp only
  refine List.not_mem_append (List.not_mem_append (List.not_mem_append (List.not_mem_append
    (List.not_mem_append hfirst ?_) ?_) (hflat (hglobal _))) (hflat (hhelper _)))
    (hflat (helement _))
  · split <;> simp
  · split
    · exact houtput
    · exact List.not_mem_nil

end

end ShaderGen
