import ShaderGen.Proofs.Glsl.ExprReading
import ShaderGen.Proofs.Glsl.StmtDescent
import ShaderGen.Proofs.Glsl.StmtSpelling

/-!
# The text of a statement reads back

The tokens of a statement are a sentence of the grammar, but not always one with the statement as
its tree: branches are written as they stand, so an `else` after a branch that ends in an open
`if` is taken for that `if`. What a statement is read as is its `Stmt.reading`
(`Stmt.sentence_iff`), which is the statement itself if and only if no `else` in it dangles.

## Key results

- `Stmt.reads_back_unless_dangling`: the text has one tree, and when it is that of the statement
-/

namespace ShaderGen

open Glsl Glsl.Piece

namespace Glsl

/-! ### Tokens of what statements are put together from -/

/-- Line breaks are no tokens. -/
@[simp] theorem Piece.tokens_lineBreak (ps : List Piece) : tokens (lineBreak :: ps) = tokens ps :=
  rfl

/-- Indentation is no token. -/
@[simp] theorem Piece.tokens_indent (level : Nat) (ps : List Piece) :
    tokens (indent level :: ps) = tokens ps := rfl

/-- A semicolon is one mark. -/
@[simp] theorem Piece.tokens_semicolon (ps : List Piece) :
    tokens (Stmt.semicolon :: ps) = .mark ";" :: tokens ps := rfl

/-- What stands in parentheses after a keyword. -/
theorem Piece.tokens_headed {keyword : String}
    (h : keyword.toList.head?.any Char.isDigit = false) (ps qs : List Piece) :
    tokens (.word keyword :: Stmt.headPieces ps ++ qs) =
      Token.headed keyword (tokens ps) ++ tokens qs := by
  rw [tokens_append, tokens_word h]
  simp [Stmt.headPieces, Token.headed]

/-- Braces are two marks around the tokens. -/
@[simp] theorem Piece.tokens_bracedPieces (level : Nat) (ps : List Piece) :
    tokens (Stmt.bracedPieces level ps) = .mark "\x7b" :: tokens ps ++ [.mark "\x7d"] := by
  simp [Stmt.bracedPieces]

end Glsl

/-! ### Declarations and labels -/

variable {d : Dialect}

/-- The keyword of a storage class is the word for it. -/
theorem Storage.word?_eq (s : Storage) :
    s.word? d.legacy d.stage = d.storageKeyword? s := by
  obtain ⟨legacy, stage, qualifying⟩ := d
  cases s <;> cases legacy <;> cases stage <;> rfl

/-- The qualifier of a type is the precision that is written. -/
theorem Ty.written?_eq (q : Qualifying) (ty : Ty) : ty.written? q = q.qualifier? ty := by
  obtain ⟨shape, precision⟩ := ty
  cases shape with
  | scalar kind | vector kind => cases kind <;> cases q <;> rfl
  | _ => cases q <;> rfl

/-- The tokens of a declaration are a declaration with its skeleton as the tree. -/
theorem Decl.declares_pieces {decl : Decl} (h : decl.Spellable d) :
    Declares (tokens (decl.pieces d)) (decl.skeleton d) := by
  obtain ⟨hname, hinit⟩ := h.parts
  -- A name and a keyword each become one word, as neither starts with a digit.
  have hword : decl.name.toList.head?.any Char.isDigit = false := by
    have hname' := hname
    rw [isIdentifier, Bool.and_eq_true] at hname'
    exact (wellSpelled_of_isName hname'.1).2
  have hstorage : tokens ((d.storageKeyword? decl.storage).toList.flatMap
      fun keyword => [.word keyword, .blank]) =
        (d.storageKeyword? decl.storage).toList.map .word := by
    cases hkeyword : d.storageKeyword? decl.storage with
    | none => rfl
    | some keyword =>
      have hall : storageWords.all (fun w => !w.toList.head?.any Char.isDigit) = true := by decide
      have hmem := d.storageKeyword?_mem decl.storage keyword hkeyword
      have hdigit : keyword.toList.head?.any Char.isDigit = false := by
        simpa using List.all_eq_true.mp hall keyword hmem
      exact tokens_word hdigit [.blank]
  -- The type is a word of its own, behind the qualifier where the dialect writes one.
  have htype : tokens (qualifiedType d.qualifying decl.ty) =
      (d.qualifying.qualifier? decl.ty).toList.map .ofPrecision ++
        [.word decl.ty.shape.spelling] := by
    have hspelling := tokens_word (wellSpelled_of_isName decl.ty.shape.isName_spelling).2 []
    rw [qualifiedType, tokens_append, typePiece, hspelling]
    cases d.qualifying.qualifier? decl.ty with
    | none => rfl
    | some precision => cases precision <;> rfl
  -- The initial value is written with the mark in front of it.
  obtain ⟨ps, hpieces, hvalue⟩ : ∃ ps, decl.pieces d =
      ((d.storageKeyword? decl.storage).toList.flatMap fun keyword => [.word keyword, .blank]) ++
        qualifiedType d.qualifying decl.ty ++ [.blank, .word decl.name] ++ ps ∧
      Optionally Initial (tokens ps) (decl.init.map Expr.skeleton) := by
    rw [pieces]
    split
    · next value heq =>
      have hphrase := value.phrase_pieces .assignment (hinit value heq)
      refine ⟨_, rfl, ?_⟩
      rw [heq, tokens_append, tokens_spaced]
      exact .some (.value (hphrase.weaken (by decide) (by decide)))
    · -- Without an initial value nothing follows the name.
      next heq =>
      refine ⟨_, rfl, ?_⟩
      rw [heq]
      exact .none
  -- The four parts are put together in the order in which they are read.
  have htokens : tokens (decl.pieces d) =
      (d.storageKeyword? decl.storage).toList.map .word ++
        (d.qualifying.qualifier? decl.ty).toList.map .ofPrecision ++
          .word decl.ty.shape.spelling :: .word decl.name :: tokens ps := by
    rw [hpieces, tokens_append, tokens_append, tokens_append, hstorage, htype, tokens_blank,
      tokens_word hword]
    simp
  rw [htokens, skeleton, Storage.word?_eq, Ty.written?_eq]
  exact .decl (d.storageKeyword?_mem decl.storage) decl.ty.shape.named?_spelling hname hvalue

/-- The tokens of a label are a label. -/
theorem label_labelPieces (label : Option Int) :
    Label (tokens (Stmt.labelPieces label)) (label.map fun n => (Literal.int n).skeleton) := by
  cases label with
  | none => exact .default
  | some n =>
    -- A label is a number without a type, so it is printed as in any dialect.
    have hvalue := @Expr.phrase_literalPieces false .top (.int n) rfl
    have hsame : literalPieces .top (.int n) = intPieces n := by
      rw [literalPieces]
      split <;> rfl
    rw [hsame] at hvalue
    have htokens : tokens (Stmt.labelPieces (some n)) =
        .word "case" :: tokens (intPieces n) ++ [.mark ":"] := by
      rw [Stmt.labelPieces, tokens_append, tokens_append]
      rfl
    rw [htokens]
    exact .value hvalue

/-! ### Statements -/

namespace Stmt

/-- The tokens and the tree of each of several statements. -/
private def parts (d : Dialect) (level : Nat) (ss : List Stmt) : List (List Token × StmtTree) :=
  ss.map fun s => (tokens (s.pieces d level), s.reading d)

/-- The tokens and the tree of a case of a `switch`. -/
private def caseParts (d : Dialect) (level : Nat) : Case → CaseTokens
  | .mk label body =>
    ⟨(tokens (labelPieces label), label.map fun n => (Literal.int n).skeleton),
      parts d (level + 1) body⟩

/-- The tokens of lines are those of the statements in a row. -/
private theorem tokens_linePieces (level : Nat) (ss : List Stmt) :
    tokens (linePieces d level ss) = ((parts d level ss).map (·.1)).flatten := by
  induction ss with
  | nil => rfl
  | cons s ss ih =>
    rw [linePieces, tokens_append, tokens_indent, tokens_lineBreak, ih]
    rfl

/-- The trees of lines are those of the statements. -/
private theorem trees_parts (level : Nat) (ss : List Stmt) :
    (parts d level ss).map (·.2) = listTree d .nearest ss := by
  induction ss with
  | nil => rfl
  | cons s ss ih =>
    rw [listTree, ← ih]
    rfl

/-- The tokens of cases are those of the cases in a row. -/
private theorem tokens_casePieces (level : Nat) (cases : List Case) :
    tokens (casePieces d level cases) =
      ((cases.map (caseParts d level)).map CaseTokens.tokens).flatten := by
  induction cases with
  | nil => rfl
  | cons c cases ih =>
    obtain ⟨label, body⟩ := c
    rw [casePieces, tokens_append, tokens_append, tokens_indent, tokens_linePieces, ih]
    rfl

/-- The trees of cases are those of the cases. -/
private theorem trees_caseParts (level : Nat) (cases : List Case) :
    (cases.map (caseParts d level)).map CaseTokens.tree = caseTrees d .nearest cases := by
  induction cases with
  | nil => rfl
  | cons c cases ih =>
    obtain ⟨label, body⟩ := c
    rw [caseTrees, ← ih, ← trees_parts (level + 1)]
    rfl

/-- An expression anywhere in a statement is a phrase. -/
private theorem phrase_expr {e : Expr} (h : e.Spellable d.legacy) :
    Phrase .sequence (tokens (e.pieces d.legacy .top)) e.skeleton :=
  e.phrase_pieces .top h

/-- An optional part of the header of a `for` is a phrase where it is there. -/
private theorem optionally_headerPart {o : Option Expr}
    (h : ∀ e ∈ o, e.Spellable d.legacy) :
    Optionally (Phrase .sequence) (tokens (headerPart d o)) (o.map Expr.skeleton) := by
  cases o with
  | none => exact .none
  | some e => exact .some (phrase_expr (h e rfl))

/-- What a `for` starts with is a declaration or an expression where it is there. -/
private theorem optionally_initPieces {o : Option Stmt}
    (h : ∀ s ∈ o, s.isPlain = true ∧ s.Spellable d) :
    Optionally Plain (tokens (initPieces d o)) (optionTree d .nearest o) := by
  cases o with
  | none => exact .none
  | some s =>
    obtain ⟨hplain, hs⟩ := h s rfl
    cases s with
    -- Only declarations and expressions are plain.
    | decl declared => exact .some (.decl (Decl.declares_pieces hs))
    | expr e => exact .some (.expr (phrase_expr hs))
    | _ => exact absurd hplain Bool.false_ne_true

/-- An `if` is a sentence with the tree that puts its `else` to the nearest open `if`. -/
private theorem sentence_nearest {cs ts us : List Token} {cond : Tree} {t u : StmtTree}
    (hcond : Phrase .sequence cs cond) (hthen : Sentence ts t) (helse : Sentence us u) :
    Sentence (Token.headed "if" cs ++ (ts ++ .word "else" :: us)) (.nearest cond t (some u)) := by
  rw [StmtTree.nearest]
  -- The `else` goes into the first branch if an `if` there is still open.
  by_cases hopen : t.isOpen = true
  · rw [if_pos hopen]
    exact .ifThen hcond (hthen.withElse hopen helse)
  · rw [if_neg hopen, ← List.append_assoc]
    exact .ifElse hcond hthen (by simpa using hopen) helse

/-- The tokens of a statement are a sentence with its reading as the tree. -/
theorem sentence_pieces (s : Stmt) (level : Nat) (h : s.Spellable d) :
    Sentence (tokens (s.pieces d level)) (s.reading d) := by
  induction s generalizing level with
  | block body ih =>
    rw [spellable_block] at h
    rw [pieces, tokens_bracedPieces, tokens_linePieces, reading, tree, ← trees_parts (level + 1)]
    refine .block fun part hpart => ?_
    obtain ⟨s, hs, rfl⟩ := List.mem_map.mp hpart
    exact ih s hs (level + 1) (h s hs)
  -- A declaration and an expression are read as plain statements.
  | decl declared =>
    rw [pieces, tokens_append]
    exact .plain (.decl (Decl.declares_pieces h))
  | ifElse cond thenBranch elseBranch ihthen ihelse =>
    rw [spellable_ifElse] at h
    obtain ⟨hcond, hthen, helse⟩ := h
    rw [pieces, List.append_assoc, tokens_headed (by decide), tokens_append]
    cases elseBranch with
    | none =>
      rw [elsePieces, tokens_nil, List.append_nil]
      exact .ifThen (phrase_expr hcond) (ihthen level hthen)
    | some s =>
      -- No braces are put around the first branch, so which `if` the `else` belongs to is not told.
      have hword : tokens (elsePieces d level (some s)) =
          .word "else" :: tokens (s.pieces d level) := by
        rw [elsePieces, tokens_append]
        rfl
      rw [hword]
      exact sentence_nearest (phrase_expr hcond) (ihthen level hthen)
        (ihelse s rfl level (helse s rfl))
  | forLoop init cond step body ihinit ihbody =>
    rw [spellable_forLoop] at h
    obtain ⟨hinit, hcond, hstep, hbody⟩ := h
    -- The parts of the header are apart by semicolons, which are tokens of their own.
    rw [pieces, tokens_headed (by decide)]
    simp only [tokens_append, tokens_semicolon]
    exact .forLoop (optionally_initPieces hinit) (optionally_headerPart hcond)
      (optionally_headerPart hstep) (ihbody level hbody)
  | whileLoop cond body ih =>
    rw [spellable_whileLoop] at h
    rw [pieces, tokens_headed (by decide)]
    exact .whileLoop (phrase_expr h.1) (ih level h.2)
  | doWhile body cond ih =>
    rw [spellable_doWhile] at h
    have htokens : tokens ((doWhile body cond).pieces d level) =
        .word "do" :: tokens (body.pieces d level) ++
          Token.headed "while" (tokens (cond.pieces d.legacy .top)) ++ [.mark ";"] := by
      -- The keywords are words whatever follows them.
      have hdo : ∀ ps, tokens (.word "do" :: ps) = .word "do" :: tokens ps :=
        tokens_word (by decide)
      have hwhile : ∀ ps, tokens (.word "while" :: ps) = .word "while" :: tokens ps :=
        tokens_word (by decide)
      rw [pieces]
      simp [hdo, hwhile, Token.headed]
    rw [htokens]
    exact .doWhile (ih level h.1) (phrase_expr h.2)
  | switchOn value cases ih =>
    rw [spellable_switchOn] at h
    rw [pieces, tokens_headed (by decide), tokens_bracedPieces, tokens_casePieces, reading, tree,
      ← trees_caseParts (level + 1)]
    -- Labels and bodies of the arms are read apart, each arm told by its tokens and its tree.
    have hlabels : ∀ c ∈ cases.map (caseParts d (level + 1)), Label c.label.1 c.label.2 := by
      intro c hc
      obtain ⟨⟨label, body⟩, -, rfl⟩ := List.mem_map.mp hc
      exact label_labelPieces label
    have hbodies : ∀ c ∈ cases.map (caseParts d (level + 1)), ∀ part ∈ c.body,
        Sentence part.1 part.2 := by
      intro c hc part hpart
      obtain ⟨⟨label, body⟩, hmem, rfl⟩ := List.mem_map.mp hc
      obtain ⟨s, hs, rfl⟩ := List.mem_map.mp hpart
      exact ih label body hmem s hs (level + 1 + 1) (h.2 label body hmem s hs)
    simpa using Sentence.switchOn (phrase_expr h.1) hlabels hbodies
  | expr e =>
    rw [pieces, tokens_append]
    exact .plain (.expr (phrase_expr h))
  | returnWith value =>
    rw [spellable_returnWith] at h
    cases value with
    | none => exact @Sentence.returnWith [] none .none
    | some value =>
      have htokens : tokens ((returnWith (some value)).pieces d level) =
          .word "return" :: tokens (value.pieces d.legacy .top) ++ [.mark ";"] := by
        rw [pieces, tokens_append, tokens_append]
        rfl
      rw [htokens]
      exact .returnWith (.some (phrase_expr (h value rfl)))
  -- What is left are the statements without parts.
  | _ => exact .fixed (by simp [fixedStatements, pieces, tokens, reading, tree]; rfl)

/-- What the tokens of a statement are read as. -/
theorem sentence_iff {s : Stmt} (level : Nat) (h : s.Spellable d) (t : StmtTree) :
    Sentence (tokens (s.pieces d level)) t ↔ t = s.reading d := by
  constructor
  · exact fun ht => ht.unique (s.sentence_pieces level h)
  · rintro rfl
    exact s.sentence_pieces level h

/-- The text of a statement is cut into the tokens of its pieces. -/
theorem tokenize_pieces {s : Stmt} (level : Nat) (h : s.Spellable d) :
    Token.tokenize (render (s.pieces d level)) = some (tokens (s.pieces d level)) :=
  tokenize_render (s.neat_pieces level h).spelled (s.neat_pieces level h).apart

/-- The text of a statement is read as one tree, and this is the tree of the statement if and only
    if no `else` in it comes after a branch that ends in an `if` without one. -/
theorem reads_back_unless_dangling {s : Stmt} (level : Nat) (h : s.Spellable d) :
    ∃ ts, Token.tokenize (render (s.pieces d level)) = some ts ∧
      (∀ t, Sentence ts t ↔ t = s.reading d) ∧
      (Sentence ts (s.skeleton d) ↔ s.hasDanglingElse = false) := by
  refine ⟨_, tokenize_pieces level h, sentence_iff level h, ?_⟩
  rw [sentence_iff level h, eq_comm, reading_eq_skeleton_iff]

/-- A choice with another one in its first branch, which has no `else` of its own. -/
def nestedChoice (around : Stmt → Stmt) : Stmt :=
  let store (n : Int) : Stmt := .assign (.ofVar "x" .int) (.int n)
  .ifElse (.ofVar "a" .bool) (around (.ifElse (.ofVar "b" .bool) (store 1) none)) (some (store 2))

/-- In braces the choice keeps its `else`. -/
theorem braced_if_reads_back :
    let s := nestedChoice fun s => .block [s]
    let d : Dialect := ⟨false, .fragment, .off⟩
    s.Spellable d ∧ ∃ ts, Token.tokenize (render (s.pieces d 1)) = some ts ∧
      Sentence ts (s.skeleton d) := by
  intro s d
  have h : s.Spellable d := by decide
  obtain ⟨ts, htext, -, hself⟩ := reads_back_unless_dangling 1 h
  exact ⟨h, ts, htext, hself.mpr (by decide)⟩

/-- Without braces the text is that of another statement: the inner choice takes the `else`. -/
theorem bare_if_loses_else :
    let s := nestedChoice id
    let d : Dialect := ⟨false, .fragment, .off⟩
    s.Spellable d ∧ ∃ ts, Token.tokenize "if (a) if (b) x = 1; else x = 2;" = some ts ∧
      ¬ Sentence ts (s.skeleton d) := by
  intro s d
  have h : s.Spellable d := by decide
  have htext : render (s.pieces d 1) = "if (a) if (b) x = 1; else x = 2;" := by decide
  refine ⟨h, tokens (s.pieces d 1), htext ▸ tokenize_pieces 1 h, ?_⟩
  -- The text has one reading, and that one is not the tree.
  rw [sentence_iff 1 h, eq_comm, reading_eq_skeleton_iff]
  decide

end Stmt

end ShaderGen
