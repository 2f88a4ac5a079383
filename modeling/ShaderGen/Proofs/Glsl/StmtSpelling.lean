import ShaderGen.Proofs.Glsl.ExprSpelling

/-!
# Spelling of statements

What a statement must be for its text to be one of the language, and that the pieces of such a
statement do not run together (`Stmt.neat_pieces`). Between the parts of a statement stand
parentheses, braces, semicolons and gaps, so nothing has to be known about the parts but that
each of them is neat. Only the lines of a block are followed by a gap that may be empty, which is
why they have to end with a piece that nothing goes on with (`Glsl.Piece.Lines`).
-/

namespace ShaderGen

open Glsl Glsl.Piece

/-- An optional expression has no obstacle and is readable if it is spellable where it is
    there. -/
private theorem bind_spellable_iff {legacy : Bool} {o : Option Expr} :
    o.bind (Expr.obstacle? legacy) = none ∧ o.all Expr.readable = true ↔
      ∀ e ∈ o, e.Spellable legacy := by
  cases o with
  | none => simp
  | some e => simp [Expr.Spellable]

/-! ### Declarations -/

namespace Decl

/-- Whether the name that is declared is an identifier and the initial value is readable. -/
def readable (decl : Decl) : Bool := isIdentifier decl.name && decl.init.all Expr.readable

/-- What a declaration must be to have a reading: the printer accepts it and it is readable. -/
def Spellable (d : Dialect) (decl : Decl) : Prop :=
  decl.obstacle? d = none ∧ decl.readable = true

instance (d : Dialect) (decl : Decl) : Decidable (decl.Spellable d) :=
  inferInstanceAs (Decidable (_ ∧ _))

variable {d : Dialect}

/-- Names and initial values of declarations that can be spelled. -/
theorem Spellable.parts {decl : Decl} (h : decl.Spellable d) :
    isIdentifier decl.name = true ∧ ∀ e ∈ decl.init, e.Spellable d.legacy := by
  obtain ⟨hobstacle, hread⟩ := h
  rw [obstacle?, Option.orElse_eq_none, Option.orElse_eq_none] at hobstacle
  rw [readable, Bool.and_eq_true] at hread
  exact ⟨hread.1, bind_spellable_iff.mp ⟨hobstacle.2.2, hread.2⟩⟩

end Decl

/-! ### Statements that have a reading -/

namespace Stmt

mutual
/-- Whether all names that a statement declares are identifiers and its expressions are
    readable. -/
def readable : Stmt → Bool
  | .block body => listReadable body
  | .decl declared => declared.readable
  | .ifElse cond thenBranch elseBranch =>
    cond.readable && thenBranch.readable && optionReadable elseBranch
  | .forLoop init cond step body =>
    optionReadable init && cond.all Expr.readable && step.all Expr.readable && body.readable
  | .whileLoop cond body | .doWhile body cond => cond.readable && body.readable
  | .switchOn value cases => value.readable && casesReadable cases
  | .expr e => e.readable
  | .returnWith value => value.all Expr.readable
  | .breakOut | .continueLoop | .discard | .emitVertex | .endPrimitive => true

/-- Whether a statement that need not be there is readable. -/
def optionReadable : Option Stmt → Bool
  | none => true
  | some s => s.readable

/-- Whether several statements are readable. -/
def listReadable : List Stmt → Bool
  | [] => true
  | s :: ss => s.readable && listReadable ss

/-- Whether the cases of a `switch` are readable. -/
def casesReadable : List Case → Bool
  | [] => true
  | .mk _ body :: cases => listReadable body && casesReadable cases
end

/-- What a statement must be to have a reading: the printer accepts it and it is readable. -/
def Spellable (d : Dialect) (s : Stmt) : Prop := s.obstacle? d = none ∧ s.readable = true

instance (d : Dialect) (s : Stmt) : Decidable (s.Spellable d) :=
  inferInstanceAs (Decidable (_ ∧ _))

/-- Whether a statement can stand in the header of a `for`. -/
def isPlain : Stmt → Bool
  | .decl _ | .expr _ => true
  | _ => false

section

variable {d : Dialect}

attribute [local simp] obstacle? optionObstacle? listObstacle? casesObstacle? initObstacle? readable
  optionReadable listReadable casesReadable

/-- Several statements can be spelled if each of them can. -/
private theorem spellable_list {ss : List Stmt} :
    listObstacle? d ss = none ∧ listReadable ss = true ↔ ∀ s ∈ ss, s.Spellable d := by
  induction ss with
  | nil => simp
  | cons s ss ih =>
    rw [List.forall_mem_cons, ← ih, listObstacle?, listReadable, Option.orElse_eq_none,
      Bool.and_eq_true]
    exact and_and_and_comm

/-- A statement that need not be there can be spelled if it can where it is there. -/
private theorem spellable_option {o : Option Stmt} :
    optionObstacle? d o = none ∧ optionReadable o = true ↔ ∀ s ∈ o, s.Spellable d := by
  cases o with
  | none => simp
  | some s => simp [Spellable]

/-- The cases of a `switch` can be spelled if their statements can. -/
private theorem spellable_cases {cases : List Case} :
    casesObstacle? d cases = none ∧ casesReadable cases = true ↔
      ∀ label body, Case.mk label body ∈ cases → ∀ s ∈ body, s.Spellable d := by
  induction cases with
  | nil => simp
  | cons c cases ih =>
    obtain ⟨label, body⟩ := c
    rw [casesObstacle?, casesReadable, Option.orElse_eq_none, Bool.and_eq_true, and_and_and_comm,
      spellable_list, ih]
    -- The first case is the given one, or the given one is among the rest.
    constructor
    · rintro ⟨hbody, hcases⟩ label' body' hmem
      rcases List.mem_cons.mp hmem with heq | hmem
      · obtain ⟨rfl, rfl⟩ := Case.mk.inj heq
        exact hbody
      · exact hcases label' body' hmem
    · intro h
      exact ⟨h label body List.mem_cons_self,
        fun label' body' hmem => h label' body' (List.mem_cons_of_mem _ hmem)⟩

/-- The header of a `for` can start with a declaration or an expression that can be spelled. -/
private theorem spellable_init {o : Option Stmt} :
    initObstacle? d o = none ∧ optionReadable o = true ↔
      ∀ s ∈ o, s.isPlain = true ∧ s.Spellable d := by
  cases o with
  | none => simp
  | some s =>
    cases s <;> simp [Spellable, isPlain]

/-- A block can be spelled iff its statements can. -/
theorem spellable_block {body : List Stmt} :
    (block body).Spellable d ↔ ∀ s ∈ body, s.Spellable d :=
  spellable_list

/-- A conditional can be spelled iff its condition and its branches can. -/
theorem spellable_ifElse {cond : Expr} {thenBranch : Stmt} {elseBranch : Option Stmt} :
    (ifElse cond thenBranch elseBranch).Spellable d ↔
      cond.Spellable d.legacy ∧ thenBranch.Spellable d ∧ ∀ s ∈ elseBranch, s.Spellable d := by
  rw [← spellable_option, Spellable, obstacle?, readable, Option.orElse_eq_none,
    Option.orElse_eq_none, Bool.and_eq_true, Bool.and_eq_true]
  simp only [Spellable, Expr.Spellable]
  tauto

/-- A counting loop can be spelled iff its parts can; its first part must also be plain. -/
theorem spellable_forLoop {init : Option Stmt} {cond step : Option Expr} {body : Stmt} :
    (forLoop init cond step body).Spellable d ↔
      (∀ s ∈ init, s.isPlain = true ∧ s.Spellable d) ∧ (∀ e ∈ cond, e.Spellable d.legacy) ∧
        (∀ e ∈ step, e.Spellable d.legacy) ∧ body.Spellable d := by
  -- Obstacles and readability are both told part by part; what remains is to put together what
  -- is said about each part.
  rw [← spellable_init, ← bind_spellable_iff, ← bind_spellable_iff, Spellable, obstacle?, readable,
    Option.orElse_eq_none, Option.orElse_eq_none, Option.orElse_eq_none, Bool.and_eq_true,
    Bool.and_eq_true, Bool.and_eq_true]
  simp only [Spellable]
  tauto

/-- A loop can be spelled iff its condition and its body can. -/
theorem spellable_whileLoop {cond : Expr} {body : Stmt} :
    (whileLoop cond body).Spellable d ↔ cond.Spellable d.legacy ∧ body.Spellable d := by
  rw [Spellable, obstacle?, readable, Option.orElse_eq_none, Bool.and_eq_true]
  exact and_and_and_comm

/-- So can a loop that tests at the end. -/
theorem spellable_doWhile {cond : Expr} {body : Stmt} :
    (doWhile body cond).Spellable d ↔ body.Spellable d ∧ cond.Spellable d.legacy := by
  rw [Spellable, obstacle?, readable, Option.orElse_eq_none, Bool.and_eq_true]
  simp only [Spellable, Expr.Spellable]
  tauto

/-- A switch can be spelled iff its value and every statement of its cases can. -/
theorem spellable_switchOn {value : Expr} {cases : List Case} :
    (switchOn value cases).Spellable d ↔ value.Spellable d.legacy ∧
      ∀ label body, Case.mk label body ∈ cases → ∀ s ∈ body, s.Spellable d := by
  rw [← spellable_cases, Spellable, obstacle?, readable, Option.orElse_eq_none, Bool.and_eq_true]
  exact and_and_and_comm

/-- A return can be spelled iff what it returns can. -/
theorem spellable_returnWith {value : Option Expr} :
    (returnWith value).Spellable d ↔ ∀ e ∈ value, e.Spellable d.legacy := by
  rw [← bind_spellable_iff]
  rfl

end

end Stmt

/-! ### Pieces between pieces -/

namespace Glsl.Piece

variable {ps qs : List Piece}

/-- Neat pieces stay neat after pieces that end with one that nothing goes on with. -/
structure Lines (ps : List Piece) : Prop where
  neat : Neat ps
  ends : ∀ p ∈ ps.getLast?, p.IsClosed

/-- Nothing at all is made of whole lines. -/
theorem Lines.nil : Lines [] := ⟨.nil, by simp⟩

/-- Whole lines before something neat leave it neat. -/
theorem Lines.append_neat (hp : Lines ps) (hq : Neat qs) : Neat (ps ++ qs) :=
  hp.neat.append hq fun p hlast _ _ => Or.inl (hp.ends p hlast)

/-- Whole lines can be joined. -/
theorem Lines.append (hp : Lines ps) (hq : Lines qs) : Lines (ps ++ qs) := by
  refine ⟨hp.append_neat hq.neat, fun p hlast => ?_⟩
  rw [List.getLast?_append] at hlast
  cases h : qs.getLast? with
  | none => exact hp.ends p (by simpa [h] using hlast)
  | some q =>
    obtain rfl : q = p := by simpa [h] using hlast
    exact hq.ends q h

/-- The gap at the start of a line. -/
theorem wellSpelled_indent (level : Nat) : (indent level).WellSpelled := by
  have hblanks : ∀ n, ("".pushn ' ' n).toList.all Char.isWhitespace = true := by
    intro n
    induction n with
    | zero => rfl
    | succ n ih =>
      -- One more blank is pushed at the end.
      have hpush : "".pushn ' ' (n + 1) = ("".pushn ' ' n).push ' ' := rfl
      rw [hpush, String.toList_push, List.all_append, ih]
      decide
  exact hblanks (4 * level)

/-- Pieces with a gap in front of them. -/
theorem Neat.after_gap {text : String} (htext : (gap text).WellSpelled) (h : Neat ps) :
    Neat (gap text :: ps) :=
  .cons htext (isClosed_gap text) h

/-- Neat pieces with a line break after them. -/
theorem Neat.line (h : Neat ps) : Lines (ps ++ [lineBreak]) := by
  have hbreak : lineBreak.WellSpelled := by decide
  refine ⟨h.around (by decide) (.single hbreak), fun p hlast => ?_⟩
  obtain rfl : lineBreak = p := by simpa using hlast
  exact isClosed_gap _

/-- Neat pieces up to a semicolon. -/
theorem Neat.finished (h : Neat ps) : Neat (ps ++ [Stmt.semicolon]) := by
  have hmark : Stmt.semicolon.WellSpelled := by decide
  exact h.around (by decide) (.single hmark)

/-- Neat pieces in parentheses between a keyword and what it governs. -/
theorem Neat.headed {keyword : String} (hkeyword : (word keyword).WellSpelled) (hp : Neat ps)
    (hq : Neat qs) : Neat (word keyword :: Stmt.headPieces ps ++ qs) := by
  -- The keyword is followed by a blank, so what comes next may be a word.
  have hrest : Lines (word keyword :: Stmt.headPieces ps) := by
    have hblank : Neat (Piece.parenthesized ps ++ [blank]) :=
      hp.parenthesized.around (by decide) (.single wellSpelled_blank)
    refine ⟨.before hkeyword (by decide) (.after_gap (by decide) hblank), fun p hlast => ?_⟩
    rw [Stmt.headPieces, ← List.cons_append, List.getLast?_append] at hlast
    obtain rfl : blank = p := by simpa using hlast
    exact isClosed_gap _
  exact hrest.append_neat hq

/-- Lines between braces. -/
theorem Lines.braced (h : Lines ps) (level : Nat) : Neat (Stmt.bracedPieces level ps) := by
  have hopen : (mark "\x7b").WellSpelled := by decide
  have hclose : (mark "\x7d").WellSpelled := by decide
  -- Lines end in a break, so the closing brace starts a line.
  have hend : Neat (ps ++ [.indent level, .mark "\x7d"]) :=
    h.append_neat (.after_gap (wellSpelled_indent level) (.single hclose))
  have hbody : Neat (lineBreak :: (ps ++ [.indent level, .mark "\x7d"])) :=
    .after_gap (by decide) hend
  rw [Stmt.bracedPieces, List.append_assoc]
  exact .cons hopen (isClosed_of_isSeparator (by decide)) hbody

end Glsl.Piece

/-! ### Declarations and labels -/

/-- A type with its qualifier is neat. -/
theorem neat_qualifiedType (q : Qualifying) (ty : Ty) : Neat (qualifiedType q ty) := by
  have hname : Neat [typePiece ty] := .single (wellSpelled_of_isName ty.shape.isName_spelling).1
  rw [qualifiedType]
  cases q.qualifier? ty with
  | none => exact hname
  | some precision => exact .cons trivial (fun _ => rfl) hname

/-- The pieces of a declaration are neat. -/
theorem Decl.neat_pieces {d : Dialect} {decl : Decl} (h : decl.Spellable d) :
    Neat (decl.pieces d) := by
  obtain ⟨hname, hinit⟩ := h.parts
  have hword : (Piece.word decl.name).WellSpelled := by
    rw [isIdentifier, Bool.and_eq_true] at hname
    exact (wellSpelled_of_isName hname.1).1
  -- What stands in front of the name is neat whatever comes after it.
  have hframe : ∀ {ps : List Piece}, Neat (.word decl.name :: ps) →
      Neat (((d.storageKeyword? decl.storage).toList.flatMap fun keyword =>
        [.word keyword, .blank]) ++ qualifiedType d.qualifying decl.ty ++
          [.blank, .word decl.name] ++ ps) := by
    intro ps hps
    have htype : Neat (qualifiedType d.qualifying decl.ty ++ .blank :: .word decl.name :: ps) :=
      (neat_qualifiedType d.qualifying decl.ty).around (by decide) (.after_gap (by decide) hps)
    simp only [List.append_assoc, List.cons_append, List.nil_append]
    -- The keyword for the storage class is one of a few words.
    cases hkeyword : d.storageKeyword? decl.storage with
    | none => exact htype
    | some keyword =>
      have hspelled : (Piece.word keyword).WellSpelled := by
        revert hkeyword
        obtain ⟨legacy, stage, qualifying⟩ := d
        cases decl.storage <;> cases legacy <;> cases stage <;> rintro ⟨⟩ <;> decide
      exact .before hspelled (by decide) (.after_gap (by decide) htype)
  rw [pieces]
  split
  · next value heq =>
    -- The initial value may start with a mark, so the `=` has blanks around it.
    have hvalue := value.fits_pieces .assignment (hinit value heq)
    exact hframe ((Neat.single hword).spaced (by decide) hvalue.neat)
  · exact hframe (.single hword)

/-- A label is a line. -/
theorem lines_labelPieces (label : Option Int) : Lines (Stmt.labelPieces label) := by
  cases label with
  | none =>
    have hcolon : (Piece.mark ":").WellSpelled := by decide
    have hword : Neat [.word "default", .mark ":"] :=
      .before (by decide) (by decide) (.single hcolon)
    exact hword.line
  | some n =>
    have hcolon : (Piece.mark ":").WellSpelled := by decide
    have hvalue : Neat (intPieces n) := by
      -- The numeral stands in the label as it stands where any expression can stand.
      have hfits := @Expr.fits_literalPieces false .top (.int n) rfl
      have hsame : literalPieces .top (.int n) = intPieces n := by
        rw [literalPieces]
        split <;> rfl
      exact hsame ▸ hfits.neat
    have hcase : Neat (.word "case" :: .blank :: (intPieces n ++ [.mark ":"])) :=
      .before (by decide) (by decide)
        (.after_gap (by decide) (hvalue.around (by decide) (.single hcolon)))
    have hline := hcase.line
    simpa [Stmt.labelPieces] using hline

/-! ### Statements -/

namespace Stmt

variable {d : Dialect}

/-- Neat statements make lines. -/
private theorem lines_linePieces {ss : List Stmt} (level : Nat)
    (h : ∀ s ∈ ss, Neat (s.pieces d level)) : Lines (linePieces d level ss) := by
  induction ss with
  | nil => exact .nil
  | cons s ss ih =>
    -- A line is an indentation, the statement and a break.
    have hfirst : Neat (.indent level :: s.pieces d level) :=
      .after_gap (wellSpelled_indent level) (h s List.mem_cons_self)
    have hmore := ih fun s hs => h s (List.mem_cons_of_mem _ hs)
    have hlines := hfirst.line.append hmore
    rw [linePieces]
    simpa using hlines

/-- Cases with neat statements make lines. -/
private theorem lines_casePieces {cases : List Case} (level : Nat)
    (h : ∀ label body, Case.mk label body ∈ cases →
      ∀ s ∈ body, Neat (s.pieces d (level + 1))) : Lines (casePieces d level cases) := by
  induction cases with
  | nil => exact .nil
  | cons c cases ih =>
    obtain ⟨label, body⟩ := c
    -- The indentation closes its own line, the label ends with a break.
    have hindent : Lines [.indent level] := by
      refine ⟨.single (wellSpelled_indent level), fun p hlast => ?_⟩
      obtain rfl : indent level = p := by simpa using hlast
      exact isClosed_gap _
    have hbody := lines_linePieces (level + 1) (h label body List.mem_cons_self)
    have hmore := ih fun label body hmem => h label body (List.mem_cons_of_mem _ hmem)
    have hlines := ((hindent.append (lines_labelPieces label)).append hbody).append hmore
    rw [casePieces]
    simpa using hlines

/-- The pieces of an expression anywhere in a statement are neat. -/
private theorem neat_expr {e : Expr} (h : e.Spellable d.legacy) :
    Neat (e.pieces d.legacy .top) :=
  (e.fits_pieces .top h).neat

/-- An optional part of the header of a `for`, with what follows it. -/
private theorem neat_headerPart {o : Option Expr} {p : Piece} {ps : List Piece}
    (h : ∀ e ∈ o, e.Spellable d.legacy) (hp : p.isSeparator = true) (hps : Neat (p :: ps)) :
    Neat (headerPart d o ++ p :: ps) := by
  cases o with
  | none => exact hps
  | some e => exact .after_gap wellSpelled_blank ((neat_expr (h e rfl)).around hp hps)

/-- The initializer of a `for`. -/
private theorem neat_initPieces {o : Option Stmt}
    (h : ∀ s ∈ o, s.isPlain = true ∧ s.Spellable d) : Neat (initPieces d o) := by
  cases o with
  | none => exact .nil
  -- Only declarations and expressions are printed.
  | some s =>
    obtain ⟨hplain, hs⟩ := h s rfl
    cases s with
    | decl declared => exact Decl.neat_pieces hs
    | expr e => exact neat_expr hs
    | _ => exact .nil

/-- The pieces of a statement that can be spelled are neat. -/
theorem neat_pieces (s : Stmt) (level : Nat) (h : s.Spellable d) : Neat (s.pieces d level) := by
  have hsemicolon : semicolon.WellSpelled := by decide
  induction s generalizing level with
  | block body ih =>
    rw [spellable_block] at h
    exact (lines_linePieces (level + 1) fun s hs => ih s hs _ (h s hs)).braced level
  | decl declared => exact (Decl.neat_pieces h).finished
  | ifElse cond thenBranch elseBranch ihthen ihelse =>
    rw [spellable_ifElse] at h
    obtain ⟨hcond, hthen, helse⟩ := h
    -- The `else` is kept apart by a blank on either side.
    have hbranches : Neat (thenBranch.pieces d level ++ elsePieces d level elseBranch) := by
      cases elseBranch with
      | none => simpa [elsePieces] using ihthen level hthen
      | some s =>
        have hword : (Piece.word "else").WellSpelled := by decide
        have hs : Neat (.blank :: s.pieces d level) :=
          .after_gap wellSpelled_blank (ihelse s rfl level (helse s rfl))
        exact (ihthen level hthen).around (by decide)
          (.after_gap wellSpelled_blank (.before hword (by decide) hs))
    rw [pieces, List.append_assoc]
    exact (neat_expr hcond).headed (by decide) hbranches
  | forLoop init cond step body ihinit ihbody =>
    rw [spellable_forLoop] at h
    obtain ⟨hinit, hcond, hstep, hbody⟩ := h
    have hstep' : Neat (headerPart d step) := by
      cases step with
      | none => exact .nil
      | some e => exact .after_gap wellSpelled_blank (neat_expr (hstep e rfl))
    -- The header is put together from its end, as what stands before a separator is neat with what
    -- follows.
    have hcond' : Neat (headerPart d cond ++ semicolon :: headerPart d step) :=
      neat_headerPart hcond (by decide)
        (.cons hsemicolon (isClosed_of_isSeparator (by decide)) hstep')
    have hheader : Neat (initPieces d init ++ semicolon :: (headerPart d cond ++
        semicolon :: headerPart d step)) :=
      (neat_initPieces hinit).around (by decide)
        (.cons hsemicolon (isClosed_of_isSeparator (by decide)) hcond')
    rw [pieces, List.append_assoc, List.cons_append]
    exact hheader.headed (by decide) (ihbody level hbody)
  | whileLoop cond body ih =>
    rw [spellable_whileLoop] at h
    exact (neat_expr h.1).headed (by decide) (ih level h.2)
  | doWhile body cond ih =>
    rw [spellable_doWhile] at h
    have hcond : Neat (.blank :: (Piece.parenthesized (cond.pieces d.legacy .top) ++
        [semicolon])) :=
      .after_gap wellSpelled_blank (neat_expr h.2).parenthesized.finished
    -- Blanks keep the keywords apart from what stands around them.
    have hwhile : Neat (.blank :: .word "while" :: .blank ::
        (Piece.parenthesized (cond.pieces d.legacy .top) ++ [semicolon])) :=
      .after_gap wellSpelled_blank (.before (by decide) (by decide) hcond)
    have hneat : Neat (.word "do" :: .blank :: (body.pieces d level ++ .blank :: .word "while" ::
        .blank :: (Piece.parenthesized (cond.pieces d.legacy .top) ++ [semicolon]))) :=
      .before (by decide) (by decide)
        (.after_gap wellSpelled_blank ((ih level h.1).around (by decide) hwhile))
    rw [pieces]
    simpa using hneat
  -- Each case is made of whole lines, and the braces are put around them.
  | switchOn value cases ih =>
    rw [spellable_switchOn] at h
    have hcases := lines_casePieces (level + 1) fun label body hmem s hs =>
      ih label body hmem s hs (level + 1 + 1) (h.2 label body hmem s hs)
    exact (neat_expr h.1).headed (by decide) (hcases.braced level)
  | expr e => exact (neat_expr h).finished
  | returnWith value =>
    rw [spellable_returnWith] at h
    cases value with
    | none => exact .before (by decide) (by decide) (.single hsemicolon)
    | some value =>
      exact .before (by decide) (by decide)
        (.after_gap wellSpelled_blank (neat_expr (h value rfl)).finished)
  | emitVertex | endPrimitive =>
    exact .before (by decide) (by decide) (Neat.nil.parenthesized.finished)
  | _ => exact .before (by decide) (by decide) (.single hsemicolon)

end Stmt

end ShaderGen
