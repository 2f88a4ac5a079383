import ShaderGen.Proofs.Glsl.Descent
import ShaderGen.Proofs.Glsl.ExprSpelling

/-!
# The text of an expression reads back

The tokens of an expression are a phrase with the skeleton of the expression as its tree
(`Expr.phrase_pieces`). With `tokenize_render` and `Phrase.unique` this says that the text of an
expression is read as its skeleton and as nothing else (`Expr.text_reads_back`).
-/

namespace ShaderGen

open Glsl

namespace Glsl

open Piece

variable {own place : Precedence} {ps : List Piece} {t : Tree}

/-- No level is below the place where anything can stand but that of lists. -/
theorem Precedence.below_ne_top (p : Precedence) : p.below ≠ .top := by
  cases p <;> decide

/-- Pieces that are parenthesized where their strength asks for it are a phrase that is tighter
    than the place. -/
theorem phrase_wrap (hown : own ≠ .top) (h : Phrase own (tokens ps) t) :
    Phrase place.below (tokens (wrap own place ps)) t := by
  rw [wrap]
  -- Without parentheses the phrase binds tightly enough; with them it does so in any place.
  split
  · next htighter =>
    have hrank : own.rank < place.rank := of_decide_eq_true htighter
    have hbelow := place.rank_below
    exact h.weaken (by omega) place.below_ne_top
  · rw [tokens_parenthesized]
    refine (h.weaken ?_ (by decide)).enclosed place.below_ne_top
    cases own <;> first | decide | exact absurd rfl hown

/-- A numeral is a phrase of every level. -/
theorem phrase_numeral {text : String} {value : Literal}
    (h : text.toList.head?.any Char.isDigit = true) (hvalue : numeral? text = some value) :
    Phrase .trailing (tokens [.word text]) (.literal value) := by
  rw [tokens_number h]
  exact .atom (by simp [atom?, hvalue])

/-- A numeral with a minus sign for a negative number is a phrase that is tighter than the
    place. -/
theorem phrase_signed (place : Precedence) {text : String} {value : Literal} (negative : Bool)
    (h : text.toList.head?.any Char.isDigit = true) (hvalue : numeral? text = some value) :
    Phrase place.below
      (tokens (if negative then wrap .leading place [.mark "-", .word text] else [.word text]))
      (.signed negative value) := by
  have hnumeral := phrase_numeral h hvalue
  cases negative with
  | false => exact hnumeral.weaken (Nat.zero_le _) place.below_ne_top
  -- The sign makes it a unary phrase, which may need parentheses.
  | true =>
    refine phrase_wrap (by decide) ?_
    rw [tokens_mark]
    have hneg : ("-", UnaryOp.neg) ∈ operatorsBefore := by decide
    exact .unaryBefore hneg (hnumeral.weaken (by decide) (by decide))

end Glsl

namespace Expr

open Glsl.Piece

variable {legacy : Bool} {place : Precedence}

/-- The pieces of a literal are a phrase. -/
theorem phrase_literalPieces {value : Literal} (h : value.obstacle? legacy = none) :
    Phrase place.below (tokens (literalPieces place value)) value.skeleton := by
  cases value with
  | float v =>
    have hfin : v.isFinite = true := by simpa [Literal.obstacle?] using h
    have hsigned := phrase_signed place v.isNegative
      -- A sign in front makes it a unary phrase, and the place decides on the parentheses.
      (wellSpelled_magnitudeText hfin).2 (numeral?_float hfin)
    rw [literalPieces, floatPieces, Literal.skeleton]
    cases hneg : v.isNegative <;> simpa [hneg] using hsigned
  | int n =>
    have hdigit := (wellSpelled_toString n.natAbs "" (by simp)).2
    rw [String.append_empty] at hdigit
    have hsigned := phrase_signed place (n < 0) hdigit (numeral?_int n.natAbs)
    rw [literalPieces, intPieces, Literal.skeleton]
    by_cases hneg : n < 0 <;> simpa [hneg] using hsigned
  | uint n =>
    exact (phrase_numeral (wellSpelled_toString n "u" (by decide)).2 (numeral?_uint n)).weaken
      (Nat.zero_le _) place.below_ne_top
  | bool b =>
    have hword : tokens [.word (toString b)] = [.word (toString b)] :=
      tokens_word (by cases b <;> decide) []
    rw [literalPieces, hword]
    exact (Phrase.atom (atom?_bool b)).weaken (Nat.zero_le _) place.below_ne_top

/-- A name that starts with no digit is a phrase by itself if it is one at all. -/
private theorem phrase_name {name : String} {t : Tree}
    (h : name.toList.head?.any Char.isDigit = false) (ht : atom? (.word name) = some t) :
    Phrase .trailing (tokens [.word name]) t := by
  rw [tokens_word h]
  exact .atom ht

/-- The pieces of a built-in variable are a phrase. -/
theorem phrase_builtinPieces {which : Builtin} (h : which.obstacle? = none) :
    Phrase .trailing (tokens (builtinPieces legacy which)) (.builtin which) := by
  cases which with
  | fragColor => cases legacy <;> exact phrase_name (by decide) rfl
  | fragCoord => exact phrase_name (by decide) rfl
  | position => exact phrase_name (by decide) rfl
  | invocationId => exact phrase_name (by decide) rfl
  | width => exact absurd h (by simp [Builtin.obstacle?])
  | height => exact absurd h (by simp [Builtin.obstacle?])
  -- The vertex index is the only part that the text carries as digits.
  | inPosition vertex =>
    have hdigit := (wellSpelled_toString vertex "" (by simp)).2
    rw [String.append_empty] at hdigit
    have hvertex : natural? (toString vertex).toList = some vertex := by
      rw [Nat.toString_eq_repr, Nat.toList_repr]
      exact natural?_toDigits vertex
    rw [builtinPieces, tokens_word (by decide), tokens_mark, tokens_number hdigit, tokens_mark,
      tokens_mark, tokens_word (by decide)]
    exact .inPosition hvertex

/-- The skeletons of a list are taken one by one. -/
theorem listSkeleton_eq_map (args : List Expr) : listSkeleton args = args.map skeleton := by
  induction args with
  | nil => rfl
  | cons arg args ih => simp [listSkeleton, ih]

/-- The tokens and the tree of each of several arguments. -/
private def argPhrases (legacy : Bool) (args : List Expr) : List (List Token × Tree) :=
  args.map fun arg => (tokens (arg.pieces legacy .sequence), arg.skeleton)

/-- The tokens of arguments with commas between them. -/
private theorem tokens_args (args : List Expr) :
    tokens (commaSeparated (argPieces legacy args)) =
      [Token.mark ","].intercalate ((argPhrases legacy args).map (·.1)) := by
  rw [tokens_commaSeparated, argPieces_eq_map, argPhrases, List.map_map, List.map_map]
  rfl

/-- The trees of arguments. -/
private theorem trees_args (args : List Expr) :
    (argPhrases legacy args).map (·.2) = listSkeleton args := by
  rw [listSkeleton_eq_map, argPhrases, List.map_map]
  rfl

/-- What can be assigned to is parenthesized on the left of an assignment where it is parenthesized
    behind an operator. -/
private theorem pieces_target {e : Expr} (h : e.isTarget = true) :
    e.pieces legacy .ternary = e.pieces legacy .leading := by
  cases e <;> first | rfl | exact absurd h Bool.false_ne_true

/-- The pieces of an expression are a phrase that is tighter than its place, with the skeleton of
    the expression as its tree. -/
theorem phrase_pieces (e : Expr) (place : Precedence) (h : e.Spellable legacy) :
    Phrase place.below (tokens (e.pieces legacy place)) e.skeleton := by
  -- What is written in one way at all places is a phrase of the tightest level.
  have hany : ∀ (ps : List Piece) {t : Tree} {place : Precedence},
      Phrase .trailing (tokens ps) t → Phrase place.below (tokens ps) t :=
    fun ps t place h => h.weaken (Nat.zero_le _) place.below_ne_top
  induction e generalizing place with
  | literal ty value => exact phrase_literalPieces (spellable_literal.mp h)
  | var ty name =>
    rw [spellable_var] at h
    have hname : Token.isName name = true := by
      rw [isIdentifier, Bool.and_eq_true] at h
      exact h.1
    exact hany _ (phrase_name (wellSpelled_of_isName hname).2 (atom?_var h))
  | builtin ty which => exact hany _ (phrase_builtinPieces (spellable_builtin.mp h))
  | unary ty op operand ih =>
    rw [spellable_unary] at h
    rw [pieces]
    -- A postfix operator stands behind its operand, all others in front of it.
    split
    · next hop =>
      refine phrase_wrap (by decide) ?_
      rw [tokens_append, tokens_mark, tokens_nil]
      exact .unaryAfter (mem_operatorsAfter.mpr ⟨hop, rfl⟩) (ih .trailing h)
    · next hop =>
      refine phrase_wrap (by decide) ?_
      rw [tokens_mark]
      have hbefore : op.followsOperand = false := by simpa using hop
      exact .unaryBefore (mem_operatorsBefore.mpr ⟨hbefore, rfl⟩)
        ((ih .leading h).weaken (by decide) (by decide))
  | binary ty op left right ihleft ihright =>
    rw [spellable_binary] at h
    obtain ⟨hleft, hright, htarget⟩ := h
    -- The comma has no blank in front of it, but a blank is no token.
    have hmark : ∀ (c : Prop) [Decidable c],
        tokens (if c then [.mark op.symbol, .blank] else spaced op.symbol) = [.mark op.symbol] := by
      intro c _
      split <;> rfl
    rw [pieces]
    -- The parentheses of the place are put around both operands and the operator.
    refine phrase_wrap (by cases op <;> decide) ?_
    rw [tokens_append, tokens_append, hmark, List.append_assoc, List.singleton_append]
    -- The grammar has the operator at the level where the printer takes it to be.
    have hown : (op.symbol, op) ∈ (Precedence.ofBinary op).operators :=
      Precedence.mem_operators.mpr ⟨rfl, rfl⟩
    by_cases hop : op.isAssignment = true
    · -- The target of an assignment stands where an operand of a sign does, not a level below its
      -- own.
      have hlevel := Precedence.ofBinary_eq_assignment.mpr hop
      rw [Precedence.leftPlace, if_pos hop, pieces_target (htarget hop), hlevel]
      rw [hlevel] at hown
      exact .assignment hown ((ihleft .leading hleft).weaken (by decide) (by decide))
        ((ihright .assignment hright).weaken (by decide) (by decide))
    · have hlevel : Precedence.ofBinary op ≠ .assignment :=
        mt Precedence.ofBinary_eq_assignment.mp hop
      have hbelow := (Precedence.ofBinary op).rank_below
      rw [Precedence.leftPlace, if_neg hop]
      exact .binary hown hlevel ((ihleft _ hleft).weaken (by omega) (by cases op <;> decide))
        (ihright _ hright)
  | ternary ty cond ifTrue ifFalse ihcond ihtrue ihfalse =>
    rw [spellable_ternary] at h
    have hphrase := Phrase.ternary (ihcond .ternary h.1)
      ((ihtrue .ternary h.2.1).weaken (by decide) (by decide))
      ((ihfalse .ternary h.2.2).weaken (by decide) (by decide))
    rw [pieces]
    refine phrase_wrap (by decide) ?_
    simpa [skeleton] using hphrase
  | call ty callee args ih =>
    -- Intrinsics and functions of the program are written alike and told apart by their names.
    have happly : ∀ {name : String}, Token.isName name = true → callee? name = some callee →
        (∀ arg ∈ args, arg.Spellable legacy) →
        Phrase .trailing (tokens (.word name :: parenthesized (commaSeparated
          (argPieces legacy args)))) (.call callee (listSkeleton args)) := by
      intro name hname hcallee hargs
      rw [tokens_word (wellSpelled_of_isName hname).2, tokens_parenthesized, tokens_args,
        ← trees_args]
      refine .call hcallee fun arg harg => ?_
      obtain ⟨e, he, rfl⟩ := List.mem_map.mp harg
      exact ih e he .sequence (hargs e he)
    -- The two kinds of callees differ only in how their names are recognised.
    cases callee with
    | intrinsic function =>
      rw [spellable_intrinsic] at h
      exact hany _ (happly function.isName_name (callee?_intrinsic function) h)
    | user name =>
      rw [spellable_user] at h
      have hname : Token.isName name = true := by
        rw [isIdentifier, Bool.and_eq_true] at h
        exact h.1.1
      exact hany _ (happly hname (callee?_user h.1) h.2)
  | swizzle ty base mask ih =>
    rw [spellable_swizzle] at h
    -- The mask is a name, and the tokenizer takes it as one word.
    obtain ⟨hbase, -, hne, hlane⟩ := h
    have hmask := (wellSpelled_of_isName (Mask.isName_text hne hlane)).2
    refine hany (base.pieces legacy .trailing ++ [.mark ".", .word mask.text]) ?_
    rw [tokens_append, tokens_mark, tokens_word hmask]
    exact .swizzle (ih .trailing hbase) (mask?_text hne hlane)
  | index ty base position ihbase ihposition =>
    rw [spellable_index] at h
    refine hany (base.pieces legacy .trailing ++ .mark "[" :: position.pieces legacy .top ++
      [.mark "]"]) ?_
    rw [tokens_append, tokens_append, tokens_mark, tokens_mark, tokens_nil]
    exact .index (ihbase .trailing h.1) (ihposition .top h.2)
  | construct ty args ih =>
    rw [spellable_construct] at h
    refine hany (.word ty.shape.spelling :: parenthesized (commaSeparated
      (argPieces legacy args))) ?_
    rw [tokens_word (wellSpelled_of_isName ty.shape.isName_spelling).2, tokens_parenthesized,
      tokens_args, skeleton, ← trees_args]
    refine .construct ty.shape.named?_spelling fun arg harg => ?_
    obtain ⟨e, he, rfl⟩ := List.mem_map.mp harg
    exact ih e he .sequence (h.2 e he)
  | group ty inner ih =>
    rw [spellable_group] at h
    refine hany (parenthesized (inner.pieces legacy .top)) ?_
    rw [tokens_parenthesized]
    exact .parenthesized (ih .top h)

/-- The text of an expression is cut into the tokens of its pieces. -/
theorem tokenize_pieces {e : Expr} (h : e.Spellable legacy) :
    Token.tokenize (render (e.pieces legacy .top)) = some (tokens (e.pieces legacy .top)) :=
  tokenize_render (e.fits_pieces .top h).neat.spelled (e.fits_pieces .top h).neat.apart

/-- The text of an expression is read as the skeleton of the expression and as nothing else, so
    no expression with another skeleton has the same text. -/
theorem text_reads_back {e : Expr} (h : e.Spellable legacy) :
    (∃ ts, Token.tokenize (render (e.pieces legacy .top)) = some ts ∧
      ∀ t, Phrase .sequence ts t ↔ t = e.skeleton) ∧
    ∀ {e' : Expr}, e'.Spellable legacy →
      render (e'.pieces legacy .top) = render (e.pieces legacy .top) →
      e'.skeleton = e.skeleton := by
  have hphrase := e.phrase_pieces .top h
  refine ⟨⟨_, tokenize_pieces h, fun t => ⟨fun ht => ht.unique hphrase, ?_⟩⟩, ?_⟩
  · rintro rfl
    exact hphrase
  · -- Equal texts have equal tokens, and tokens have one reading.
    intro e' h' htext
    have htokens := tokenize_pieces h'
    rw [htext, tokenize_pieces h] at htokens
    have hphrase' := e'.phrase_pieces .top h'
    rw [← Option.some.inj htokens] at hphrase'
    exact hphrase'.unique hphrase

/-- A choice that is assigned to is parenthesized, and is read as what is assigned to. -/
theorem choice_target_reads_back :
    let target : Expr := .ofTernary (.ofVar "c" .bool) (.ofVar "a" .int) (.ofVar "b" .int)
    let e : Expr := .assign target (.int (-1))
    e.Spellable false ∧ ∃ ts, Token.tokenize "(c ? a : b) = -1" = some ts ∧
      ∀ t, Phrase .sequence ts t ↔ t = .binary .assign
        (.ternary (.var "c") (.var "a") (.var "b")) (.unary .neg (.literal (.int 1))) := by
  intro target e
  have h : e.Spellable false := by decide
  -- The text is that of the printer, so the general theorem applies to it.
  have htext : render (e.pieces false .top) = "(c ? a : b) = -1" := by decide
  rw [← htext]
  exact ⟨h, (text_reads_back h).1⟩

end Expr

end ShaderGen
