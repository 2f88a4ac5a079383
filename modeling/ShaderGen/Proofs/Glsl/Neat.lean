import ShaderGen.Proofs.Glsl.Token

/-!
# Pieces that do not run together

Parentheses, brackets, braces, separators and gaps end whatever stands in front of them, and
nothing goes on with them. Pieces put together around such separators are cut apart again where
they were joined (`Neat`), and their tokens are those of the parts.
-/

namespace ShaderGen.Glsl

namespace Token

/-- Characters that are marks by themselves wherever they are written. -/
def loneMarks : List Char := ['(', ')', '[', ']', '\x7b', '\x7d', ',', ';', ':', '?']

/-- Whether a character ends whatever token stands in front of it. -/
def isBreak (c : Char) : Bool := loneMarks.contains c || c.isWhitespace

/-- No mark of several characters has one that ends tokens. -/
private theorem isBreak_of_mem_mark {w : List Char} (hw : w ∈ compoundMarks ++ commentOpeners)
    {c : Char} (hc : c ∈ w) : isBreak c = false := by
  have hall : (compoundMarks ++ commentOpeners).all (·.all (!isBreak ·)) = true := by decide
  simpa using List.all_eq_true.mp (List.all_eq_true.mp hall w hw) c hc

/-- A character that ends tokens belongs to no word. -/
theorem not_isWordChar_of_isBreak {c : Char} (h : isBreak c = true) : isWordChar c = false := by
  rw [isBreak, Bool.or_eq_true] at h
  rcases h with h | h
  · have hall : loneMarks.all (!isWordChar ·) = true := by decide
    simpa using List.all_eq_true.mp hall c (List.contains_iff_mem.mp h)
  · rw [Bool.eq_false_iff]
    intro hword
    exact absurd h (by simp [not_isWhitespace_of_isWordChar hword])

/-- No token goes on with a character that ends tokens. -/
theorem continues_isBreak {c : Char} (h : isBreak c = true) (w : List Char) :
    continues w c = false := by
  cases w with
  | nil => rfl
  -- A word goes on with word characters and points, a mark with what makes a longer mark.
  | cons d w =>
    rw [continues]
    split
    · have hpoint : c ≠ '.' := by rintro rfl; exact absurd h (by decide)
      simp [not_isWordChar_of_isBreak h, hpoint]
    · rw [Bool.eq_false_iff]
      intro hmem
      have hno := isBreak_of_mem_mark (List.contains_iff_mem.mp hmem) (c := c) (by simp)
      exact absurd h (by simp [hno])

/-- A token of one character that ends tokens goes on with nothing. -/
theorem isBreak_continues {c : Char} (h : isBreak c = true) (d : Char) :
    continues [c] d = false := by
  rw [continues, not_isWordChar_of_isBreak h, if_neg Bool.false_ne_true, Bool.eq_false_iff]
  intro hmem
  have hno := isBreak_of_mem_mark (List.contains_iff_mem.mp hmem) (c := c) (by simp)
  exact absurd h (by simp [hno])

end Token

namespace Piece

variable {p q : Piece} {ps qs : List Piece}

/-- Whether a piece ends what stands in front of it and is ended by whatever follows it. -/
def isSeparator : Piece → Bool
  | .mark text =>
    match text.toList with
    | [c] => Token.isBreak c
    | _ => false
  | .gap text => text.toList.head?.any Char.isWhitespace
  | _ => false

/-- A separator ends whatever stands in front of it. -/
theorem apart_of_isSeparator (p : Piece) (h : q.isSeparator = true) : Apart p q := by
  -- A separator starts with a character that ends any token.
  obtain ⟨c, cs, htext, hc⟩ : ∃ c cs, q.text.toList = c :: cs ∧ Token.isBreak c = true := by
    cases q with
    | mark text =>
      simp only [isSeparator] at h
      split at h
      · next c htext => exact ⟨c, [], htext, h⟩
      · exact absurd h Bool.false_ne_true
    | gap text =>
      rw [isSeparator] at h
      cases htext : text.toList with
      | nil => exact absurd h (by simp [htext])
      | cons c cs =>
        have hblank : c.isWhitespace = true := by simpa [htext] using h
        exact ⟨c, cs, htext, by simp [Token.isBreak, hblank]⟩
    | _ => exact absurd h Bool.false_ne_true
  exact Or.inr ⟨c, cs, htext, Token.continues_isBreak hc _⟩

/-- Nothing goes on with a gap. -/
@[simp] theorem isClosed_gap (text : String) : IsClosed (.gap text) := fun _ => rfl

/-- Nothing goes on with a separator. -/
theorem isClosed_of_isSeparator (h : p.isSeparator = true) : p.IsClosed := by
  cases p with
  | mark text =>
    -- A separator is a mark of one character that no mark goes on with.
    simp only [isSeparator] at h
    split at h
    · next c htext =>
      intro d
      rw [lexeme, htext]
      exact Token.isBreak_continues h d
    · exact absurd h Bool.false_ne_true
  | gap text => exact isClosed_gap text
  | _ => exact absurd h Bool.false_ne_true

/-! ### Joining pieces -/

/-- Whether pieces are spelled as their kinds say and each of them ends where the next starts. -/
structure Neat (ps : List Piece) : Prop where
  spelled : ∀ p ∈ ps, p.WellSpelled
  apart : ps.IsChain Apart

/-- No pieces are neat. -/
theorem Neat.nil : Neat [] := ⟨by simp, .nil⟩

/-- One piece is neat if it is well spelled. -/
theorem Neat.single (h : p.WellSpelled) : Neat [p] := ⟨by simpa using h, .singleton p⟩

/-- Neat pieces stay neat if the first of them ends where the second start. -/
theorem Neat.append (hp : Neat ps) (hq : Neat qs)
    (h : ∀ p ∈ ps.getLast?, ∀ q ∈ qs.head?, Apart p q) : Neat (ps ++ qs) := by
  refine ⟨fun r hr => ?_, List.isChain_append.mpr ⟨hp.apart, hq.apart, h⟩⟩
  rcases List.mem_append.mp hr with hr | hr
  · exact hp.spelled r hr
  · exact hq.spelled r hr

/-- A piece with neat pieces after it, if nothing goes on with it. -/
theorem Neat.cons (hp : p.WellSpelled) (hclosed : p.IsClosed) (hq : Neat qs) : Neat (p :: qs) := by
  refine (Neat.single hp).append hq fun r hr _ _ => Or.inl ?_
  obtain rfl : p = r := by simpa using hr
  exact hclosed

/-- Neat pieces around a separator. -/
theorem Neat.around (hp : Neat ps) (hsep : q.isSeparator = true) (hq : Neat (q :: qs)) :
    Neat (ps ++ q :: qs) := by
  refine hp.append hq fun r _ s hs => ?_
  obtain rfl : q = s := by simpa using hs
  exact apart_of_isSeparator r hsep

/-- A neat piece in front of a separator. -/
theorem Neat.before (hp : p.WellSpelled) (hsep : q.isSeparator = true) (hq : Neat (q :: qs)) :
    Neat (p :: q :: qs) :=
  (Neat.single hp).around hsep hq

/-- A blank is well spelled. -/
theorem wellSpelled_blank : blank.WellSpelled := by decide

/-- Neat pieces in parentheses. -/
theorem Neat.parenthesized (hp : Neat ps) : Neat (Piece.parenthesized ps) := by
  have hopen : (mark "(").WellSpelled := by decide
  have hclose : (mark ")").WellSpelled := by decide
  exact .cons hopen (isClosed_of_isSeparator (by decide)) (hp.around (by decide) (.single hclose))

/-- Neat pieces with commas between them. -/
theorem Neat.commaSeparated {pss : List (List Piece)} (h : ∀ ps ∈ pss, Neat ps) :
    Neat (Piece.commaSeparated pss) := by
  have hcomma : (mark ",").WellSpelled := by decide
  induction pss with
  | nil => exact .nil
  | cons ps pss ih =>
    -- A comma follows each list but the last.
    cases pss with
    | nil => exact h ps List.mem_cons_self
    | cons qs pss =>
      have hrest := ih fun rs hrs => h rs (List.mem_cons_of_mem _ hrs)
      exact (h ps List.mem_cons_self).around (by decide)
        (.cons hcomma (isClosed_of_isSeparator (by decide))
          (.cons wellSpelled_blank (isClosed_gap _) hrest))

/-- Neat pieces with a blank, a mark and another blank between them. -/
theorem Neat.spaced {symbol : String} (hp : Neat ps) (hmark : (mark symbol).WellSpelled)
    (hq : Neat qs) : Neat (ps ++ (Piece.spaced symbol ++ qs)) := by
  have hright : Neat (mark symbol :: blank :: qs) :=
    .before hmark (by decide) (.cons wellSpelled_blank (isClosed_gap _) hq)
  exact hp.around (by decide) (.cons wellSpelled_blank (isClosed_gap _) hright)

/-! ### Tokens of joined pieces -/

/-- No pieces have no tokens. -/
@[simp] theorem tokens_nil : tokens [] = [] := rfl

/-- Pieces in a row have their tokens in a row. -/
@[simp] theorem tokens_append (ps qs : List Piece) : tokens (ps ++ qs) = tokens ps ++ tokens qs :=
  List.filterMap_append

@[simp] theorem tokens_mark (symbol : String) (ps : List Piece) :
    tokens (.mark symbol :: ps) = .mark symbol :: tokens ps := rfl

@[simp] theorem tokens_blank (ps : List Piece) : tokens (blank :: ps) = tokens ps := rfl

/-- An operator between blanks is its mark. -/
@[simp] theorem tokens_spaced (symbol : String) : tokens (Piece.spaced symbol) = [.mark symbol] :=
  rfl

/-- Parentheses are two marks around the tokens. -/
@[simp] theorem tokens_parenthesized (ps : List Piece) :
    tokens (Piece.parenthesized ps) = .mark "(" :: tokens ps ++ [.mark ")"] := by
  simp [Piece.parenthesized]

/-- A word that starts with no digit is read as it is. -/
theorem tokens_word {name : String} (h : name.toList.head?.any Char.isDigit = false)
    (ps : List Piece) : tokens (.word name :: ps) = .word name :: tokens ps := by
  simp [tokens, token?, h]

/-- A word that starts with a digit is read as a numeral. -/
theorem tokens_number {text : String} (h : text.toList.head?.any Char.isDigit = true)
    (ps : List Piece) : tokens (.word text :: ps) = .number text :: tokens ps := by
  simp [tokens, token?, h]

/-- Commas are marks between the tokens. -/
theorem tokens_commaSeparated (pss : List (List Piece)) :
    tokens (Piece.commaSeparated pss) = [Token.mark ","].intercalate (pss.map tokens) := by
  induction pss with
  | nil => rfl
  | cons ps pss ih =>
    cases pss with
    | nil => simp [Piece.commaSeparated]
    | cons qs pss => simp [Piece.commaSeparated, List.intercalate_cons_cons, ih]

end Piece

end ShaderGen.Glsl
