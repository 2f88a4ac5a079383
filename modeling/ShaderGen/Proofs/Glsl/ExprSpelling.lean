import ShaderGen.Glsl.Printer
import ShaderGen.Proofs.Glsl.Grammar
import ShaderGen.Proofs.Glsl.Neat
import ShaderGen.Proofs.Glsl.Readable

/-!
# Spelling of expressions

The pieces of an expression are spelled as their kinds say and none runs on into the next
(`Expr.fits_pieces`): wherever no blank is written, the operand starts or ends with a word or a
parenthesis, and no point follows a number.
-/

namespace ShaderGen

open Glsl

/-! ### Words -/

/-- A name with more characters of words after it is a name. -/
theorem Glsl.Token.isName_append {stem rest : String} (hstem : Token.isName stem = true)
    (hrest : rest.toList.all Token.isWordChar = true) :
    Token.isName (stem ++ rest) = true := by
  rw [Token.isName] at hstem ⊢
  cases h : stem.toList with
  | nil => simp [h] at hstem
  | cons c cs =>
    rw [String.toList_append, h, List.cons_append]
    simp only [h, Bool.and_eq_true] at hstem
    simp only [List.all_append, hstem.1, hstem.2, hrest, Bool.and_self]

/-- A digit can stand in a word. -/
theorem Glsl.Token.isWordChar_of_isDigit {c : Char} (h : c.isDigit = true) :
    Token.isWordChar c = true := by
  simp [Token.isWordChar, Char.isAlphanum, h]

/-- The digits of a number are characters of words. -/
theorem all_isWordChar_toString (n : Nat) :
    (toString n).toList.all Token.isWordChar = true := by
  rw [Nat.toString_eq_repr, Nat.toList_repr, List.all_eq_true]
  exact fun c hc =>
    Token.isWordChar_of_isDigit (Nat.isDigit_of_mem_toDigits (by decide) (by decide) hc)

/-- The spelling of a shape is a name. -/
theorem Shape.isName_spelling (s : Shape) : Token.isName s.spelling = true := by
  cases s with
  | void => decide
  | scalar kind => cases kind <;> decide
  | sampler dim => cases dim <;> decide
  -- A vector is spelled by its letter, its word and its size.
  | vector kind size =>
    exact Token.isName_append (by cases kind <;> decide) (all_isWordChar_toString size)
  | matrix columns rows =>
    have hmat : Token.isName ("mat" ++ toString columns) = true :=
      Token.isName_append (by decide) (all_isWordChar_toString columns)
    -- A square matrix is spelled with one number, any other with two.
    rw [Shape.spelling]
    split
    · exact hmat
    · have hcolumns : Token.isName ("mat" ++ toString columns ++ "x") = true :=
        Token.isName_append hmat (by decide)
      exact Token.isName_append hcolumns (all_isWordChar_toString rows)

/-- The name of an intrinsic function is a name. -/
theorem Intrinsic.isName_name (f : Intrinsic) : Token.isName f.name = true := by
  cases f <;> decide

/-- The text of a mask is a name. -/
theorem Mask.isName_text {mask : Mask} (hne : mask ≠ [])
    (hlane : mask.any Selector.isLiteral = false) : Token.isName mask.text = true := by
  cases mask with
  | nil => exact absurd rfl hne
  | cons s ss =>
    -- Letters of lanes are word characters, and none is a digit.
    have hword : ∀ s : Selector, Token.isWordChar s.toChar = true := by
      intro s
      cases s <;> decide
    simp only [List.any_cons, Bool.or_eq_false_iff] at hlane
    have hdigit : s.toChar.isDigit = false := by
      cases s <;> first | decide | exact absurd hlane.1 (by decide)
    rw [Token.isName, Mask.text, String.toList_ofList, List.map_cons]
    simp [hword, hdigit]

namespace Glsl.Piece

/-- Whether a piece is the start of a numeral. -/
def isNumeral : Piece → Bool
  | .word text => text.toList.head?.any Char.isDigit
  | _ => false

/-- A numeral: a digit, and after it characters of words and points. -/
theorem wellSpelled_numeral {text : String} {c : Char} {cs : List Char}
    (htext : text.toList = c :: cs) (hc : c.isDigit = true)
    (hcs : ∀ d ∈ cs, Token.isWordChar d = true ∨ d = '.') :
    (word text).WellSpelled ∧ text.toList.head?.any Char.isDigit = true := by
  refine ⟨?_, by simpa [htext] using hc⟩
  rw [WellSpelled, htext, Token.isWord_cons]
  exact ⟨Token.isWordChar_of_isDigit hc, fun d hd => (hcs d hd).imp_right fun h => ⟨hc, h⟩⟩

/-- The numeral of a whole number, with characters of words after it. -/
theorem wellSpelled_toString (n : Nat) (suffix : String)
    (hsuffix : suffix.toList.all Token.isWordChar = true) :
    (word (toString n ++ suffix)).WellSpelled ∧
      (toString n ++ suffix).toList.head?.any Char.isDigit = true := by
  have htext : (toString n ++ suffix).toList = Nat.toDigits 10 n ++ suffix.toList := by
    rw [String.toList_append, Nat.toString_eq_repr, Nat.toList_repr]
  have hdigits : ∀ c ∈ Nat.toDigits 10 n, c.isDigit = true :=
    fun c hc => Nat.isDigit_of_mem_toDigits (by decide) (by decide) hc
  -- A number has at least one digit, so the word starts with one.
  cases h : Nat.toDigits 10 n with
  | nil => exact absurd h Nat.toDigits_ne_nil
  | cons c cs =>
    rw [h] at htext hdigits
    refine wellSpelled_numeral htext (hdigits c List.mem_cons_self) fun d hd => Or.inl ?_
    rcases List.mem_append.mp hd with hd | hd
    · exact Token.isWordChar_of_isDigit (hdigits d (List.mem_cons_of_mem _ hd))
    · exact List.all_eq_true.mp hsuffix d hd

/-- The numeral of a finite magnitude. -/
theorem wellSpelled_magnitudeText {v : Binary64} (h : v.isFinite = true) :
    (word v.magnitudeText).WellSpelled ∧ v.magnitudeText.toList.head?.any Char.isDigit = true := by
  obtain ⟨c, whole, places, htext, hc, hwhole, -, hplaces⟩ :=
    ofNumeral?_shape (Binary64.ofNumeral?_magnitudeText h)
  refine wellSpelled_numeral htext hc fun d hd => ?_
  -- Every character is a digit or the point.
  rcases List.mem_append.mp hd with hd | hd
  · exact Or.inl (Token.isWordChar_of_isDigit (hwhole d hd))
  · rcases List.mem_cons.mp hd with rfl | hd
    · exact Or.inr rfl
    · exact Or.inl (Token.isWordChar_of_isDigit (hplaces d hd))

/-! ### Operands -/

/-- Whether an operand can start with a piece although no blank stands in front of it. -/
def startsOperand : Piece → Bool
  | .word _ => true
  | .mark text => text == "("
  | _ => false

/-- Whether an operand can end with a piece although no blank stands after it. -/
def endsOperand : Piece → Bool
  | .word _ => true
  | .mark text => text == ")" || text == "]"
  | _ => false

/-- What the pieces of an expression at a place are like, `isLiteral` telling whether they can be
    a numeral. -/
structure Fits (place : Precedence) (isLiteral : Bool) (ps : List Piece) : Prop where
  neat : Neat ps
  ne_nil : ps ≠ []
  starts : place.rank ≤ Precedence.leading.rank → ∀ p ∈ ps.head?, p.startsOperand = true
  ends : place = .trailing → ∀ p ∈ ps.getLast?, p.endsOperand = true
  point : place = .trailing → isLiteral = false → ∀ p ∈ ps.getLast?, p.isNumeral = false

variable {place : Precedence} {isLiteral : Bool} {ps : List Piece}

/-- A single word is an operand. -/
theorem Fits.word {text : String} (h : (Piece.word text).WellSpelled)
    (hnumeral : isLiteral = false → text.toList.head?.any Char.isDigit = false) :
    Fits place isLiteral [.word text] where
  neat := .single h
  ne_nil := List.cons_ne_nil _ _
  -- The only piece is the word, first and last.
  starts _ p hp := by
    obtain rfl : Piece.word text = p := by simpa using hp
    rfl
  ends _ p hp := by
    obtain rfl : Piece.word text = p := by simpa using hp
    rfl
  point _ hlit p hp := by
    obtain rfl : Piece.word text = p := by simpa using hp
    exact hnumeral hlit

/-- Pieces that start like an operand and end with a closing mark are an operand. -/
theorem Fits.closed (close : String) (hneat : Neat ps)
    (hstart : ∃ p ∈ ps.head?, p.startsOperand = true) (hlast : ps.getLast? = some (.mark close))
    (hclose : (mark close).endsOperand = true) : Fits place isLiteral ps where
  neat := hneat
  ne_nil := by
    rintro rfl
    exact absurd hlast (by simp)
  starts _ p hp := by
    obtain ⟨q, hq, hstart⟩ := hstart
    rw [Option.mem_unique hp hq]
    exact hstart
  ends _ p hp := by
    rw [Option.mem_def, hlast] at hp
    obtain rfl := Option.some.inj hp
    exact hclose
  -- The last piece closes something, so no numeral ends there.
  point _ _ p hp := by
    rw [Option.mem_def, hlast] at hp
    obtain rfl := Option.some.inj hp
    rfl

/-- Pieces in parentheses are an operand. -/
theorem Fits.parenthesized (h : Neat ps) : Fits place isLiteral (Piece.parenthesized ps) := by
  refine .closed ")" h.parenthesized ⟨_, rfl, rfl⟩ ?_ rfl
  rw [Piece.parenthesized, List.getLast?_append]
  rfl

/-- Pieces that are parenthesized where their strength asks for it are an operand. -/
theorem Fits.wrap {own : Precedence} (h : Neat ps) (hne : ps ≠ [])
    (hstart : own = .trailing → ∀ p ∈ ps.head?, p.startsOperand = true) :
    Fits place isLiteral (Glsl.wrap own place ps) := by
  rw [Glsl.wrap]
  split
  · next htighter =>
    have hrank : own.rank < place.rank := of_decide_eq_true htighter
    have hplace : place ≠ .trailing := by
      rintro rfl
      exact absurd hrank (Nat.not_lt_zero _)
    refine ⟨h, hne, fun hle => hstart ?_, fun h => absurd h hplace, fun h => absurd h hplace⟩
    -- Only the tightest strength is above that of an operator in front of its operand.
    have hzero : own.rank = Precedence.trailing.rank := by
      have hle' : place.rank ≤ 1 := hle
      have hrank' : own.rank < 1 := by omega
      exact Nat.lt_one_iff.mp hrank'
    exact Precedence.rank_injective hzero
  · exact .parenthesized h

/-! ### Where no blank is written -/

/-- No mark goes on with a character of words. -/
private theorem continues_mark_word {d : Char} {w : List Char} {c : Char}
    (hd : Token.isWordChar d = false) (hc : Token.isWordChar c = true) :
    Token.continues (d :: w) c = false := by
  have hall : (Token.compoundMarks ++ Token.commentOpeners).all
      (·.all (!Token.isWordChar ·)) = true := by decide
  rw [Token.continues, hd, if_neg Bool.false_ne_true, Bool.eq_false_iff]
  intro hmem
  have hno := List.all_eq_true.mp (List.all_eq_true.mp hall _ (List.contains_iff_mem.mp hmem)) c
    (by simp)
  exact absurd hc (by simpa using hno)

/-- The first character of a word. -/
private theorem exists_of_wellSpelled_word {text : String} (h : (Piece.word text).WellSpelled) :
    ∃ c cs, text.toList = c :: cs ∧ Token.isWordChar c = true := by
  rw [WellSpelled] at h
  cases htext : text.toList with
  | nil => rw [htext] at h; exact absurd h Bool.false_ne_true
  | cons c cs =>
    rw [htext, Token.isWord_cons] at h
    exact ⟨c, cs, rfl, h.1⟩

/-- A mark ends where a word starts. -/
theorem apart_mark_word {symbol text : String} {d : Char} {w : List Char}
    (hsymbol : symbol.toList = d :: w) (hd : Token.isWordChar d = false)
    (htext : (Piece.word text).WellSpelled) : Apart (.mark symbol) (.word text) := by
  obtain ⟨c, cs, hcs, hc⟩ := exists_of_wellSpelled_word htext
  refine Or.inr ⟨c, cs, hcs, ?_⟩
  rw [lexeme, hsymbol]
  exact continues_mark_word hd hc

/-- An operator ends where its operand starts. -/
theorem apart_unary (op : UnaryOp) {q : Piece} (hq : q.WellSpelled)
    (hstart : q.startsOperand = true) : Apart (.mark op.symbol) q := by
  -- A word is kept apart by its first character, and the only mark that starts an operand is `(`.
  cases q with
  | word text =>
    obtain ⟨d, w, hsymbol, hd⟩ : ∃ d w, op.symbol.toList = d :: w ∧ Token.isWordChar d = false := by
      cases op <;> exact ⟨_, _, rfl, by decide⟩
    exact apart_mark_word hsymbol hd hq
  | mark text =>
    obtain rfl : text = "(" := by simpa [startsOperand] using hstart
    exact apart_of_isSeparator _ (by decide)
  | _ => exact absurd hstart Bool.false_ne_true

/-- An operand ends where a mark starts that is no point, or a point if it is no numeral. -/
theorem apart_operand {p : Piece} {symbol : String} {c : Char} {cs : List Char}
    (hp : p.WellSpelled) (hend : p.endsOperand = true) (hsymbol : symbol.toList = c :: cs)
    (hc : Token.isWordChar c = false) (hpoint : c = '.' → p.isNumeral = false) :
    Apart p (.mark symbol) := by
  cases p with
  | word text =>
    obtain ⟨d, w, htext, hd⟩ := exists_of_wellSpelled_word hp
    refine Or.inr ⟨c, cs, hsymbol, ?_⟩
    rw [lexeme, htext, Token.continues, if_pos hd, hc, Bool.false_or, Bool.and_eq_false_iff]
    by_cases hdot : c = '.'
    · left
      simpa [isNumeral, htext] using hpoint hdot
    · right
      -- After a numeral a point would be read as part of it, which is excluded.
      simpa using hdot
  | mark text =>
    have hsep : (mark text).isSeparator = true := by
      simp only [endsOperand, Bool.or_eq_true, beq_iff_eq] at hend
      rcases hend with rfl | rfl <;> decide
    exact Or.inl (isClosed_of_isSeparator hsep)
  | _ => exact absurd hend Bool.false_ne_true

/-- A name with pieces in parentheses after it is an operand. -/
theorem Fits.applied {name : String} (hname : Token.isName name = true) (h : Neat ps) :
    Fits place isLiteral (.word name :: Piece.parenthesized ps) := by
  have hneat : Neat (.word name :: Piece.parenthesized ps) :=
    .before (wellSpelled_of_isName hname).1 (by decide) h.parenthesized
  refine .closed ")" hneat ⟨_, rfl, rfl⟩ ?_ rfl
  rw [Piece.parenthesized, ← List.cons_append, List.getLast?_append]
  rfl

/-- An operand with a name after a point is an operand. -/
theorem Fits.field {name : String} (h : Fits .trailing false ps)
    (hname : Token.isName name = true) :
    Fits place isLiteral (ps ++ [.mark ".", .word name]) where
  neat := by
    have hpoint : (mark ".").WellSpelled := by decide
    have hword := (wellSpelled_of_isName hname).1
    have hfield : Neat [.mark ".", .word name] := by
      refine (Neat.single hpoint).append (.single hword) fun p hp q hq => ?_
      -- A name after the point starts with no digit that the point would take in.
      obtain rfl : mark "." = p := by simpa using hp
      obtain rfl : Piece.word name = q := by simpa using hq
      exact apart_mark_word (d := '.') (w := []) rfl (by decide) hword
    refine h.neat.append hfield fun p hp q hq => ?_
    obtain rfl : mark "." = q := by simpa using hq
    exact apart_operand (h.neat.spelled p (List.mem_of_mem_getLast? hp)) (h.ends rfl p hp) rfl
      (by decide) fun _ => h.point rfl rfl p hp
  ne_nil := by simp
  starts _ p hp := by
    cases ps with
    | nil => exact absurd rfl h.ne_nil
    | cons q qs => exact h.starts (Nat.zero_le _) p hp
  ends _ p hp := by
    obtain rfl : Piece.word name = p := by simpa using hp
    rfl
  point _ _ p hp := by
    obtain rfl : Piece.word name = p := by simpa using hp
    exact (wellSpelled_of_isName hname).2

/-- An operand with neat pieces in brackets after it is an operand. -/
theorem Fits.indexed {qs : List Piece} {wasLiteral : Bool} (h : Fits .trailing wasLiteral ps)
    (hq : Neat qs) : Fits place isLiteral (ps ++ .mark "[" :: qs ++ [.mark "]"]) := by
  have hopen : (mark "[").WellSpelled := by decide
  have hclose : (mark "]").WellSpelled := by decide
  -- The position stands between brackets, which keep it apart from anything.
  have hinner : Neat (.mark "[" :: (qs ++ [.mark "]"])) :=
    .cons hopen (isClosed_of_isSeparator (by decide)) (hq.around (by decide) (.single hclose))
  have hneat : Neat (ps ++ .mark "[" :: qs ++ [.mark "]"]) := by
    rw [List.append_assoc, List.cons_append]
    exact h.neat.around (by decide) hinner
  refine .closed "]" hneat ?_ (by rw [List.getLast?_append]; rfl) rfl
  cases ps with
  | nil => exact absurd rfl h.ne_nil
  | cons q qs => exact ⟨q, rfl, h.starts (Nat.zero_le _) q rfl⟩

end Glsl.Piece

namespace Expr

open Glsl.Piece

variable {legacy : Bool}

/-- An operator in front of neat pieces that start like an operand. -/
private theorem neat_before (op : UnaryOp) {ps : List Piece} (h : Neat ps)
    (hstart : ∀ p ∈ ps.head?, p.startsOperand = true) : Neat (.mark op.symbol :: ps) := by
  have hmark : (Piece.mark op.symbol).WellSpelled := by cases op <;> decide
  refine (Neat.single hmark).append h fun r hr q hq => ?_
  obtain rfl : Piece.mark op.symbol = r := by simpa using hr
  exact apart_unary op (h.spelled q (List.mem_of_mem_head? hq)) (hstart q hq)

/-- The numeral of a literal, with a minus sign for a negative one, is an operand. -/
private theorem fits_signed (place : Precedence) (negative : Bool) {text : String}
    (h : (Piece.word text).WellSpelled ∧ text.toList.head?.any Char.isDigit = true) :
    Fits place true
      (if negative then wrap .leading place [.mark "-", .word text] else [.word text]) := by
  cases negative with
  | false => exact .word h.1 (fun h => absurd h (by decide))
  | true =>
    -- A sign in front of a numeral is a unary operator on it.
    refine .wrap (neat_before .neg (.single h.1) ?_) (List.cons_ne_nil _ _)
      (fun h => absurd h (by decide))
    intro p hp
    obtain rfl : Piece.word text = p := by simpa using hp
    rfl

/-- The pieces of a literal are an operand. -/
theorem fits_literalPieces (place : Precedence) {value : Literal}
    (h : value.obstacle? legacy = none) : Fits place true (literalPieces place value) := by
  cases value with
  | float v =>
    have hfin : v.isFinite = true := by simpa [Literal.obstacle?] using h
    have hsigned := fits_signed place v.isNegative (wellSpelled_magnitudeText hfin)
    -- A sign is put in front, in parentheses where precedence asks for them.
    rw [literalPieces, floatPieces]
    cases hneg : v.isNegative <;> simpa [hneg] using hsigned
  | int n =>
    have hsigned := fits_signed place (n < 0) (wellSpelled_toString n.natAbs "" (by simp))
    rw [String.append_empty] at hsigned
    rw [literalPieces, intPieces]
    by_cases hneg : n < 0 <;> simpa [hneg] using hsigned
  | uint n =>
    have hword := wellSpelled_toString n "u" (by decide)
    exact .word hword.1 fun h => absurd h (by decide)
  | bool b => exact .word (by cases b <;> decide) fun h => absurd h (by decide)

/-- The pieces of a built-in variable are an operand. -/
theorem fits_builtinPieces (place : Precedence) {which : Builtin} (h : which.obstacle? = none) :
    Fits place false (builtinPieces legacy which) := by
  have hword : ∀ {name : String}, Token.isName name = true → Fits place false [.word name] := by
    intro name hname
    exact .word (wellSpelled_of_isName hname).1 fun _ => (wellSpelled_of_isName hname).2
  cases which with
  | fragColor => cases legacy <;> exact hword (by decide)
  | fragCoord => exact hword (by decide)
  | position => exact hword (by decide)
  | invocationId => exact hword (by decide)
  -- The sizes are not printed, and so excluded.
  | width => exact absurd h (by simp [Builtin.obstacle?])
  | height => exact absurd h (by simp [Builtin.obstacle?])
  | inPosition vertex =>
    have hvertex : (Piece.word (toString vertex)).WellSpelled := by
      have hword := (wellSpelled_toString vertex "" (by simp)).1
      rwa [String.append_empty] at hword
    have hin : Fits .trailing false [.word "gl_in"] := .word (by decide) fun _ => by decide
    exact (hin.indexed (.single hvertex)).field (by decide)

/-- Arguments are printed one by one. -/
theorem argPieces_eq_map (legacy : Bool) (args : List Expr) :
    argPieces legacy args = args.map (pieces legacy .sequence) := by
  induction args with
  | nil => rfl
  | cons arg args ih => simp [argPieces, ih]

/-- The arguments of a call are neat if each of them is. -/
private theorem neat_args {args : List Expr}
    (h : ∀ arg ∈ args, Fits .sequence arg.isLiteral (arg.pieces legacy .sequence)) :
    Neat (commaSeparated (argPieces legacy args)) := by
  rw [argPieces_eq_map]
  refine .commaSeparated fun ps hps => ?_
  obtain ⟨arg, harg, rfl⟩ := List.mem_map.mp hps
  exact (h arg harg).neat

/-- The pieces of an expression that can be spelled are an operand. -/
theorem fits_pieces (e : Expr) (place : Precedence) (h : e.Spellable legacy) :
    Fits place e.isLiteral (e.pieces legacy place) := by
  induction e generalizing place with
  | literal ty value => exact fits_literalPieces place (spellable_literal.mp h)
  | var ty name =>
    have hname : Token.isName name = true := by
      rw [spellable_var, isIdentifier, Bool.and_eq_true] at h
      exact h.1
    exact .word (wellSpelled_of_isName hname).1 fun _ => (wellSpelled_of_isName hname).2
  | builtin ty which => exact fits_builtinPieces place (spellable_builtin.mp h)
  | unary ty op operand ih =>
    rw [spellable_unary] at h
    rw [pieces]
    -- The mark of an operator must not run together with what stands beside it.
    split
    · next hop =>
      have hoperand := ih .trailing h
      have hmark : (Piece.mark op.symbol).WellSpelled := by cases op <;> decide
      refine .wrap (hoperand.neat.append (.single hmark) fun p hp q hq => ?_) (by simp) ?_
      · -- The mark after the operand is no part of the operand's last piece.
        obtain rfl : Piece.mark op.symbol = q := by simpa using hq
        obtain ⟨c, cs, hsymbol, hc, hpoint⟩ : ∃ c cs, op.symbol.toList = c :: cs ∧
            Token.isWordChar c = false ∧ c ≠ '.' := by
          cases op <;> exact ⟨_, _, rfl, by decide, by decide⟩
        exact apart_operand (hoperand.neat.spelled p (List.mem_of_mem_getLast? hp))
          (hoperand.ends rfl p hp) hsymbol hc fun h => absurd h hpoint
      · intro _ p hp
        cases hps : operand.pieces legacy .trailing with
        | nil => exact absurd hps hoperand.ne_nil
        | cons q qs =>
          rw [hps] at hp hoperand
          exact hoperand.starts (Nat.zero_le _) p hp
    · have hoperand := ih .leading h
      exact .wrap (neat_before op hoperand.neat (hoperand.starts le_rfl)) (List.cons_ne_nil _ _)
        fun h => absurd h (by decide)
  | binary ty op left right ihleft ihright =>
    rw [spellable_binary] at h
    have hleft := (ihleft (Precedence.leftPlace op) h.1).neat
    have hright := (ihright (Precedence.ofBinary op) h.2.1).neat
    rw [pieces]
    -- Of the three things to show, the first is that the pieces do not run together.
    refine .wrap ?_ (by split <;> simp [Piece.spaced]) fun hown => ?_
    · -- Only the comma has a blank on one side alone.
      split
      · next hcomma =>
        subst hcomma
        have hmark : (Piece.mark ",").WellSpelled := by decide
        rw [List.append_assoc]
        exact hleft.around (by decide) (.cons hmark (isClosed_of_isSeparator (by decide))
          (.cons wellSpelled_blank (isClosed_gap _) hright))
      · have hmark : (Piece.mark op.symbol).WellSpelled := by cases op <;> decide
        rw [List.append_assoc]
        exact hleft.spaced hmark hright
    · exact absurd hown (by cases op <;> decide)
  | ternary ty cond ifTrue ifFalse ihcond ihtrue ihfalse =>
    rw [spellable_ternary] at h
    have hcond := (ihcond .ternary h.1).neat
    have htrue := (ihtrue .ternary h.2.1).neat
    have hfalse := (ihfalse .ternary h.2.2).neat
    have harms := htrue.spaced (show (Piece.mark ":").WellSpelled by decide) hfalse
    rw [pieces]
    refine .wrap ?_ (by simp [Piece.spaced]) fun h => absurd h (by decide)
    simp only [List.append_assoc]
    exact hcond.spaced (by decide) harms
  | call ty callee args ih =>
    cases callee with
    -- A call is spelled as its name and its arguments, whoever is called.
    | intrinsic function =>
      rw [spellable_intrinsic] at h
      exact .applied function.isName_name (neat_args fun arg harg => ih arg harg _ (h arg harg))
    | user name =>
      rw [spellable_user, isIdentifier, Bool.and_eq_true] at h
      exact .applied h.1.1 (neat_args fun arg harg => ih arg harg _ (h.2 arg harg))
  | swizzle ty base mask ih =>
    rw [spellable_swizzle] at h
    obtain ⟨hbase, hlit, hne, hlane⟩ := h
    have hfits := ih .trailing hbase
    -- A base that is no numeral, so that its point is not read as a part of one.
    rw [hlit] at hfits
    exact hfits.field (Mask.isName_text hne hlane)
  | index ty base position ihbase ihposition =>
    rw [spellable_index] at h
    exact (ihbase .trailing h.1).indexed (ihposition .top h.2).neat
  | construct ty args ih =>
    rw [spellable_construct] at h
    exact .applied ty.shape.isName_spelling (neat_args fun arg harg => ih arg harg _ (h.2 arg harg))
  | group ty inner ih =>
    rw [spellable_group] at h
    exact .parenthesized (ih .top h).neat

end Expr

end ShaderGen
