import Mathlib.Data.List.Chain
import ShaderGen.Glsl.Piece

/-!
# Tokens

A text is cut into tokens from left to right, each as long as possible: a name or keyword, a
numeral, or a mark. A comment is no token, so a text with one has no tokens at all. Of the numerals
only those without an exponent are known, which are all that the printer writes.

The main statement, `tokenize_render`, says that the text of pieces is cut where the pieces are
cut, provided that no piece runs on into the next one (`Piece.Apart`).
-/

namespace ShaderGen.Glsl

/-- Smallest part of a text that has a meaning. -/
inductive Token where
  /-- name or keyword -/
  | word (text : String)
  /-- numeral -/
  | number (text : String)
  /-- operator or punctuation -/
  | mark (text : String)
deriving DecidableEq, Repr

namespace Token

/-- Whether a character can stand in a name. -/
def isWordChar (c : Char) : Bool := c.isAlphanum || c == '_'

/-- Whether a text is spelled like a name: characters of words, of which the first is no digit. -/
def isName (text : String) : Bool :=
  match text.toList with
  | [] => false
  | c :: cs => isWordChar c && !c.isDigit && cs.all isWordChar

/-- Whether characters are those of a name, a keyword or a numeral. -/
def isWord : List Char → Bool
  | [] => false
  | c :: cs => isWordChar c && cs.all fun d => isWordChar d || (c.isDigit && d == '.')

/-- Marks of a single character. -/
def simpleMarks : List (List Char) :=
  ['(', ')', '[', ']', '{', '}', '.', ',', ':', ';', '?', '=', '!', '~', '+', '-', '*', '/', '%',
    '<', '>', '&', '^', '|'].map ([·])

/-- Marks of several characters. Every start of one is a mark too. -/
def compoundMarks : List (List Char) :=
  ["<<", ">>", "++", "--", "<=", ">=", "==", "!=", "&&", "||", "^^", "+=", "-=", "*=", "/=", "%=",
    "&=", "^=", "|=", "<<=", ">>="].map String.toList

/-- What opens a comment. -/
def commentOpeners : List (List Char) := ["//", "/*"].map String.toList

/-- Whether the token that starts with the characters `w` goes on with `c`. -/
def continues (w : List Char) (c : Char) : Bool :=
  match w with
  | [] => false
  | d :: _ =>
    if isWordChar d then isWordChar c || (d.isDigit && c == '.')
    else (compoundMarks ++ commentOpeners).contains (w ++ [c])

/-- The lexemes of a text, `w` being what has been read of the first one. -/
def lexemes (w : List Char) : List Char → List (List Char)
  | [] => if w = [] then [] else [w]
  | c :: cs =>
    if continues w c then lexemes (w ++ [c]) cs
    else (if w = [] then [] else [w]) ++ lexemes (if c.isWhitespace then [] else [c]) cs

/-- A word starts with a letter or a digit, and only a number goes on with points. -/
theorem isWord_cons {c : Char} {cs : List Char} : isWord (c :: cs) = true ↔
    isWordChar c = true ∧ ∀ d ∈ cs, isWordChar d = true ∨ c.isDigit = true ∧ d = '.' := by
  simp [isWord]

/-- The token that a lexeme is. -/
def ofLexeme? : List Char → Option Token
  | [] => none
  | c :: cs =>
    if c.isDigit then some (.number (.ofList (c :: cs)))
    else if isWordChar c then some (.word (.ofList (c :: cs)))
    else if (simpleMarks ++ compoundMarks).contains (c :: cs) then some (.mark (.ofList (c :: cs)))
    else none

/-- Characters of words are no blanks. -/
theorem not_isWhitespace_of_isWordChar {c : Char} (h : isWordChar c = true) :
    c.isWhitespace = false := by
  rw [Bool.eq_false_iff]
  intro hblank
  simp only [Char.isWhitespace, Bool.or_eq_true, decide_eq_true_eq] at hblank
  -- None of the four blanks is a letter, a digit or an underscore.
  rcases hblank with ((rfl | rfl) | rfl) | rfl <;> exact absurd h (by decide)

/-- The tokens of a text. -/
def tokenize (text : String) : Option (List Token) := (lexemes [] text.toList).mapM ofLexeme?

/-! ### Reading one lexeme -/

/-- Nothing continues an empty lexeme. -/
@[simp] theorem continues_nil (c : Char) : continues [] c = false := rfl

/-- Whether a token that starts with `w` goes on with all of several characters. -/
def growsBy (w : List Char) : List Char → Bool
  | [] => true
  | c :: cs => continues w c && growsBy (w ++ [c]) cs

/-- A lexeme is read to its end. -/
theorem lexemes_append {w cs rest : List Char} (hw : w ≠ []) (hgrow : growsBy w cs = true)
    (hrest : ∀ c ∈ rest.head?, continues (w ++ cs) c = false) :
    lexemes w (cs ++ rest) = (w ++ cs) :: lexemes [] rest := by
  induction cs generalizing w with
  | nil =>
    simp only [List.append_nil] at hrest
    rw [List.nil_append, List.append_nil]
    cases rest with
    | nil => simp [lexemes, hw]
    | cons c rest =>
      -- The word ends where the text does not continue it.
      have hstop : continues w c = false := hrest c rfl
      simp [lexemes, hstop, hw]
  | cons c cs ih =>
    simp only [growsBy, Bool.and_eq_true] at hgrow
    rw [List.cons_append, lexemes, if_pos hgrow.1]
    rw [ih (by simp) hgrow.2 (by simpa using hrest), List.append_assoc, List.singleton_append]

/-- A word goes on with characters of words, and a numeral with points as well. -/
theorem growsBy_word {d : Char} {w cs : List Char} (hd : isWordChar d = true)
    (hcs : ∀ c ∈ cs, isWordChar c = true ∨ d.isDigit = true ∧ c = '.') :
    growsBy (d :: w) cs = true := by
  induction cs generalizing w with
  | nil => rfl
  | cons c cs ih =>
    have hc : continues (d :: w) c = true := by
      rcases hcs c (List.mem_cons_self) with h | ⟨h, rfl⟩ <;> simp [continues, hd, h]
    rw [growsBy, hc, Bool.true_and]
    exact ih fun e he => hcs e (List.mem_cons_of_mem _ he)

/-- Every mark is read to its end, and starts with neither a blank nor a character of words. -/
theorem mark_grows : (simpleMarks ++ compoundMarks).all (fun
    | [] => false
    | c :: cs => growsBy [c] cs && !c.isWhitespace && !isWordChar c) = true := by
  decide

/-- Blanks stand between lexemes. -/
theorem lexemes_blanks {blanks rest : List Char} (h : ∀ c ∈ blanks, c.isWhitespace = true) :
    lexemes [] (blanks ++ rest) = lexemes [] rest := by
  induction blanks with
  | nil => rfl
  | cons c cs ih =>
    have hc : c.isWhitespace = true := h c List.mem_cons_self
    rw [List.cons_append, lexemes]
    simp only [continues_nil, hc, Bool.false_eq_true, if_false, if_true, List.nil_append]
    exact ih fun d hd => h d (List.mem_cons_of_mem _ hd)

/-- A lexeme from its first character on. -/
theorem lexemes_cons {c : Char} {cs rest : List Char} (hc : c.isWhitespace = false)
    (hgrow : growsBy [c] cs = true) (hrest : ∀ d ∈ rest.head?, continues (c :: cs) d = false) :
    lexemes [] (c :: cs ++ rest) = (c :: cs) :: lexemes [] rest := by
  have hfirst : lexemes [] (c :: cs ++ rest) = lexemes [c] (cs ++ rest) := by
    simp [lexemes, hc]
  rw [hfirst, lexemes_append (List.cons_ne_nil c []) hgrow hrest, List.singleton_append]

/-- A lexeme with a blank after it. -/
theorem lexemes_cons_blank {text rest : List Char} (c : Char) (cs : List Char)
    (htext : text = c :: cs ++ [' ']) (hc : c.isWhitespace = false)
    (hgrow : growsBy [c] cs = true) (hstop : continues (c :: cs) ' ' = false) :
    lexemes [] (text ++ rest) = (c :: cs) :: lexemes [] rest := by
  have hblank : lexemes [] ([' '] ++ rest) = lexemes [] rest :=
    lexemes_blanks (List.all_eq_true.mp (by decide))
  rw [htext, List.append_assoc, lexemes_cons hc hgrow (by simpa using hstop), hblank]

end Token

/-! ### Tokens of pieces -/

namespace Piece

/-- What a piece leaves unfinished at its end: the lexeme that it is, if no blank follows it. -/
def lexeme : Piece → List Char
  | .word text | .mark text => text.toList
  | .gap _ | .qualifier _ | .defaultPrecision _ | .line _ => []

/-- The token that a piece of a statement is. Lines that are written as they are stand for
    none. -/
def token? : Piece → Option Token
  | .word text =>
    some (if text.toList.head?.any Char.isDigit then .number text else .word text)
  | .mark text => some (.mark text)
  | .qualifier .reduced => some (.word "mediump")
  | .qualifier .full => some (.word "highp")
  | .gap _ | .defaultPrecision _ | .line _ => none

/-- Tokens of pieces. -/
def tokens (ps : List Piece) : List Token := ps.filterMap token?

/-- Whether a piece is spelled as its kind says. -/
def WellSpelled : Piece → Prop
  | .word text => Token.isWord text.toList = true
  | .mark text => (Token.simpleMarks ++ Token.compoundMarks).contains text.toList = true
  | .gap text => text.toList.all Char.isWhitespace = true
  | .qualifier _ => True
  | .defaultPrecision _ | .line _ => False

instance (p : Piece) : Decidable p.WellSpelled :=
  match p with
  | .word text => inferInstanceAs (Decidable (Token.isWord text.toList = true))
  | .mark text =>
    inferInstanceAs
      (Decidable ((Token.simpleMarks ++ Token.compoundMarks).contains text.toList = true))
  | .gap text => inferInstanceAs (Decidable (text.toList.all Char.isWhitespace = true))
  | .qualifier _ => isTrue trivial
  | .defaultPrecision _ | .line _ => isFalse id

/-- A name is a word that starts with no digit. -/
theorem wellSpelled_of_isName {name : String} (h : Token.isName name = true) :
    (word name).WellSpelled ∧ name.toList.head?.any Char.isDigit = false := by
  rw [Token.isName] at h
  cases htext : name.toList with
  | nil => simp [htext] at h
  | cons c cs =>
    -- A name is not empty, starts with no digit and has word characters only.
    simp only [htext, Bool.and_eq_true, Bool.not_eq_true'] at h
    refine ⟨?_, by simpa using h.1.2⟩
    rw [WellSpelled, htext, Token.isWord_cons]
    exact ⟨h.1.1, fun d hd => Or.inl (List.all_eq_true.mp h.2 d hd)⟩

/-- Whether the piece ends wherever it is written. -/
def IsClosed (p : Piece) : Prop := ∀ c, Token.continues p.lexeme c = false

/-- Whether the first piece ends where the second starts. -/
def Apart (p q : Piece) : Prop :=
  p.IsClosed ∨ ∃ c cs, q.text.toList = c :: cs ∧ Token.continues p.lexeme c = false

/-- The characters of a text are those of its pieces. -/
theorem toList_render (ps : List Piece) :
    (render ps).toList = ps.flatMap fun p => p.text.toList := by
  -- The text so far becomes part of the statement.
  have hfold : ∀ (ps : List Piece) (text : String),
      (ps.foldl (fun text p => text ++ p.text) text).toList =
        text.toList ++ ps.flatMap fun p => p.text.toList := by
    intro ps
    induction ps with
    | nil => simp
    | cons p ps ih => intro text; simp [ih]
  simpa [render] using hfold ps ""

/-- A well-spelled piece is read as one token, or as none if it is a gap. -/
theorem lexemes_piece {p : Piece} {rest : List Char} (hp : p.WellSpelled)
    (hrest : ∀ c ∈ rest.head?, Token.continues p.lexeme c = false) :
    (Token.lexemes [] (p.text.toList ++ rest)).mapM Token.ofLexeme? =
      ((Token.lexemes [] rest).mapM Token.ofLexeme?).map (p.token?.toList ++ ·) := by
  -- A lexeme and its token come first, whatever kind they are of.
  have hcons : ∀ {c cs t}, p.text.toList = c :: cs → p.lexeme = c :: cs →
      c.isWhitespace = false → Token.growsBy [c] cs = true →
      Token.ofLexeme? (c :: cs) = some t → p.token? = some t →
      (Token.lexemes [] (p.text.toList ++ rest)).mapM Token.ofLexeme? =
        ((Token.lexemes [] rest).mapM Token.ofLexeme?).map (p.token?.toList ++ ·) := by
    intro c cs t htext hlex hblank hgrow hof htoken
    have hstop : ∀ d ∈ rest.head?, Token.continues (c :: cs) d = false := by rwa [hlex] at hrest
    rw [htext, Token.lexemes_cons hblank hgrow hstop, htoken]
    cases h : (Token.lexemes [] rest).mapM Token.ofLexeme? <;> simp [hof, h]
  cases p with
  -- A word is one lexeme: a number if it starts with a digit, otherwise a name.
  | word text =>
    obtain ⟨c, cs, htext⟩ : ∃ c cs, text.toList = c :: cs := by
      cases h : text.toList with
      | nil => rw [WellSpelled, h] at hp; exact absurd hp Bool.false_ne_true
      | cons c cs => exact ⟨c, cs, rfl⟩
    rw [WellSpelled, htext, Token.isWord_cons] at hp
    have hback : String.ofList (c :: cs) = text := by rw [← htext, String.ofList_toList]
    refine hcons (t := if c.isDigit then .number text else .word text) htext htext
      (Token.not_isWhitespace_of_isWordChar hp.1) (Token.growsBy_word hp.1 hp.2) ?_ ?_
    · rw [Token.ofLexeme?, hback, hp.1]
      split <;> simp
    · rw [token?, htext]
      rfl
  -- Every mark of the list grows to its full length, one character at a time.
  | mark text =>
    have hgrows := List.all_eq_true.mp Token.mark_grows _ (List.contains_iff_mem.mp hp)
    cases htext : text.toList with
    | nil => rw [htext] at hgrows; exact absurd hgrows Bool.false_ne_true
    | cons c cs =>
      rw [htext] at hgrows
      simp only [Bool.and_eq_true, Bool.not_eq_true'] at hgrows
      obtain ⟨⟨hgrow, hblank⟩, hword⟩ := hgrows
      have hback : String.ofList (c :: cs) = text := by rw [← htext, String.ofList_toList]
      refine hcons (t := .mark text) htext htext hblank hgrow ?_ rfl
      -- A mark starts with no digit and no letter.
      have hdigit : c.isDigit = false := by
        simp only [Token.isWordChar, Char.isAlphanum, Bool.or_eq_false_iff] at hword
        exact hword.1.2
      rw [WellSpelled, htext] at hp
      rw [Token.ofLexeme?, hdigit, hword, hp, hback]
      rfl
  -- A gap is skipped.
  | gap text =>
    have hskip : Token.lexemes [] ((gap text).text.toList ++ rest) = Token.lexemes [] rest :=
      Token.lexemes_blanks (List.all_eq_true.mp hp)
    rw [hskip]
    simp [token?]
  | qualifier precision =>
    -- Its text is a word with a blank after it, and the blank ends the word.
    cases precision with
    | reduced =>
      have hread : Token.lexemes [] ((qualifier .reduced).text.toList ++ rest) =
          "mediump".toList :: Token.lexemes [] rest :=
        Token.lexemes_cons_blank 'm' "ediump".toList (by decide) (by decide) (by decide)
          (by decide)
      have hword : Token.ofLexeme? "mediump".toList = some (.word "mediump") := by decide
      rw [hread, List.mapM_cons, hword]
      cases (Token.lexemes [] rest).mapM Token.ofLexeme? <;> rfl
    | full =>
      have hread : Token.lexemes [] ((qualifier .full).text.toList ++ rest) =
          "highp".toList :: Token.lexemes [] rest :=
        Token.lexemes_cons_blank 'h' "ighp".toList (by decide) (by decide) (by decide)
          (by decide)
      have hword : Token.ofLexeme? "highp".toList = some (.word "highp") := by decide
      rw [hread, List.mapM_cons, hword]
      cases (Token.lexemes [] rest).mapM Token.ofLexeme? <;> rfl
  -- A directive takes up a line and is never a token.
  | defaultPrecision typeName => exact hp.elim
  | line text => exact hp.elim

/-- The text of pieces is cut into their tokens if each piece ends where the next one starts. -/
theorem tokenize_render {ps : List Piece} (hspelled : ∀ p ∈ ps, p.WellSpelled)
    (hapart : ps.IsChain Apart) : Token.tokenize (render ps) = some (tokens ps) := by
  rw [Token.tokenize, toList_render]
  induction ps with
  | nil => rfl
  | cons p ps ih =>
    rw [List.flatMap_cons, lexemes_piece (hspelled p List.mem_cons_self)]
    · rw [ih (fun q hq => hspelled q (List.mem_cons_of_mem _ hq)) hapart.tail]
      cases h : p.token? <;> simp [tokens, h]
    · -- The first character after `p` is that of the next piece.
      intro d hd
      cases ps with
      | nil => exact absurd hd (by simp)
      | cons q ps =>
        rcases (List.isChain_cons_cons.mp hapart).1 with hclosed | ⟨c, cs, htext, hstop⟩
        · exact hclosed d
        · rw [List.flatMap_cons, htext] at hd
          obtain rfl : c = d := by simpa using hd
          exact hstop

end Piece

end ShaderGen.Glsl
