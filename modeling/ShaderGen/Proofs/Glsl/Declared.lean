import ShaderGen.Proofs.Glsl.ExprSpelling
import ShaderGen.Proofs.Glsl.StmtGrammar
import ShaderGen.Proofs.Scopes.Elements
import ShaderGen.Proofs.Typing.Headers

/-!
# Names that a text declares

In a text, a name that is declared stands directly behind the word that ends its type. Nowhere else
do two words follow each other, save behind a few keywords that introduce what is used, and within
the type itself, where the second word is a keyword or the name of a type. So the names that a text
declares can be read off its tokens, whatever program it is the text of (`Token.declaredNames`).

What is printed of a program declares the names of the program, in order. That a `for` starts with a
declaration or an expression is needed, because nothing else that starts one is printed.

## Main definitions

- `Token.declaredNames`: the names that tokens declare
- `Element.names`, `Program.names`: the names that a program declares, at the top or inside

## Key results

- `Stmt.declaredNames_pieces`, `Element.declaredNames_pieces`: what the text of a part declares,
  whatever comes after it
- `Glsl.declaredNames_programPieces`: what a text declares
-/

namespace ShaderGen

open Glsl

namespace Glsl

namespace Token

/-- Keywords that are followed by something that is used. -/
def introducers : List String := ["case", "do", "else", "return"]

/-- The name that the second of two tokens declares if they follow each other. The first one is the
    word that ends the type. -/
def declared? : Token → Token → Option String
  | .word before, .word name =>
    if introducers.contains before || keywords.contains name || isTypeName name then none
    else some name
  | _, _ => none

/-- The names that tokens declare, in order. -/
def declaredNames : List Token → List String
  | t :: t' :: ts => (declared? t t').toList ++ declaredNames (t' :: ts)
  | _ => []

variable {t : Token} {ts : List Token} {m w : String}

/-- A keyword is never declared, and neither is the name of a type. -/
theorem declared?_of_reserved (h : w ∈ keywords ∨ isTypeName w = true) :
    declared? t (.word w) = none := by
  cases t with
  | word before =>
    rcases h with h | h
    · exact if_pos (by simp [h])
    · exact if_pos (by simp [h])
  | number text => rfl
  | mark text => rfl

/-- No tokens declare nothing. -/
@[simp] theorem declaredNames_nil : declaredNames [] = [] := rfl

/-- One token alone declares nothing. -/
@[simp] theorem declaredNames_singleton (t : Token) : declaredNames [t] = [] := rfl

/-- A token that introduces no name is passed over. -/
theorem declaredNames_cons_of_none (h : ∀ t' ∈ ts.head?, declared? t t' = none) :
    declaredNames (t :: ts) = declaredNames ts := by
  cases ts with
  | nil => rfl
  | cons t' ts => rw [declaredNames, h t' rfl, Option.toList_none, List.nil_append]

/-- Nothing is declared directly behind a mark. -/
@[simp] theorem declaredNames_mark_cons : declaredNames (.mark m :: ts) = declaredNames ts :=
  declaredNames_cons_of_none fun _ _ => rfl

/-- A mark is declared by nothing in front of it. -/
@[simp] theorem declaredNames_cons_mark :
    declaredNames (t :: .mark m :: ts) = declaredNames ts := by
  rw [declaredNames_cons_of_none, declaredNames_mark_cons]
  rintro _ ⟨⟩
  cases t <;> rfl

/-- Behind a keyword that introduces something, nothing is declared. -/
theorem declaredNames_introducer (hw : w ∈ introducers) :
    declaredNames (.word w :: ts) = declaredNames ts := by
  refine declaredNames_cons_of_none fun t' _ => ?_
  cases t' with
  | word name => exact if_pos (by simp [hw])
  | number text => rfl
  | mark text => rfl

/-- A mark keeps what stands in front of it apart from what follows. -/
theorem declaredNames_append_mark (ts : List Token) (m : String) (rest : List Token) :
    declaredNames (ts ++ .mark m :: rest) = declaredNames ts ++ declaredNames rest := by
  induction ts with
  | nil => exact declaredNames_mark_cons
  | cons t ts ih =>
    -- The mark must not be taken for the second of two tokens, so the next token decides.
    cases ts with
    | nil => exact declaredNames_cons_mark
    | cons t' ts =>
      rw [List.cons_append, List.cons_append, declaredNames, ← List.cons_append, ih, declaredNames,
        List.append_assoc]

end Token

/-- Whether a name is declared where it stands behind a type: it is no numeral, no keyword and no
    other type. -/
def isDeclarable (name : String) : Bool :=
  !(name.toList.head?.any Char.isDigit || keywords.contains name || isTypeName name)

namespace Piece

/-- The names that pieces declare. -/
def declaredNames (ps : List Piece) : List String := Token.declaredNames (tokens ps)

variable {ps qs : List Piece}

/-- No pieces declare nothing. -/
@[simp] theorem declaredNames_nil : declaredNames [] = [] := rfl

/-- A mark introduces no name. -/
@[simp] theorem declaredNames_mark_cons (m : String) :
    declaredNames (.mark m :: ps) = declaredNames ps :=
  Token.declaredNames_mark_cons

/-- Blanks are no tokens. -/
@[simp] theorem declaredNames_gap_cons (g : String) :
    declaredNames (.gap g :: ps) = declaredNames ps := rfl

/-- They are none between pieces, either. -/
@[simp] theorem declaredNames_append_gap (g : String) :
    declaredNames (ps ++ .gap g :: qs) = declaredNames (ps ++ qs) := by
  simp only [declaredNames, tokens_append]
  rfl

/-- A word is next to the token that follows the blank. -/
@[simp] theorem declaredNames_word_gap (w g : String) :
    declaredNames (.word w :: .gap g :: ps) = declaredNames (.word w :: ps) := rfl

/-- A mark keeps what stands in front of it apart from what follows. -/
@[simp] theorem declaredNames_append_mark (m : String) :
    declaredNames (ps ++ .mark m :: qs) = declaredNames ps ++ declaredNames qs := by
  rw [declaredNames, tokens_append, tokens_mark, Token.declaredNames_append_mark]
  rfl

/-- A word with a mark behind it declares nothing. -/
@[simp] theorem declaredNames_word_mark (w m : String) :
    declaredNames (.word w :: .mark m :: ps) = declaredNames ps :=
  Token.declaredNames_cons_mark

/-- A word alone declares nothing. -/
@[simp] theorem declaredNames_word (w : String) : declaredNames [.word w] = [] := rfl

/-- A keyword in front of a statement declares nothing. -/
theorem declaredNames_introducer {w : String} (hw : w ∈ Token.introducers) :
    declaredNames (.word w :: ps) = declaredNames ps := by
  have hdigit : w.toList.head?.any Char.isDigit = false := by
    have hall : Token.introducers.all (fun w => !w.toList.head?.any Char.isDigit) = true := by
      decide
    simpa using List.all_eq_true.mp hall w hw
  rw [declaredNames, tokens_word hdigit, Token.declaredNames_introducer hw, declaredNames]

/-- Parentheses keep the names declared in them from those after. -/
@[simp] theorem declaredNames_parenthesized :
    declaredNames (parenthesized ps ++ qs) = declaredNames ps ++ declaredNames qs := by
  simp [parenthesized]

/-- Lists of pieces between commas declare what each of them declares. -/
theorem declaredNames_commaSeparated (pss : List (List Piece)) :
    declaredNames (commaSeparated pss) = pss.flatMap declaredNames := by
  induction pss with
  | nil => rfl
  | cons ps pss ih =>
    cases pss with
    | nil => simp [commaSeparated]
    -- Only between two lists is there a comma.
    | cons qs pss =>
      have hcons : commaSeparated (ps :: qs :: pss) =
          ps ++ .mark "," :: blank :: commaSeparated (qs :: pss) := rfl
      rw [hcons, declaredNames_append_mark, blank, declaredNames_gap_cons, ih, List.flatMap_cons,
        List.flatMap_cons, List.flatMap_cons]

/-- Parentheses, where they are needed, declare nothing. -/
@[simp] theorem declaredNames_wrap {own place : Precedence} :
    declaredNames (wrap own place ps) = declaredNames ps := by
  unfold wrap
  split
  · rfl
  · rw [← List.append_nil (parenthesized ps), declaredNames_parenthesized, declaredNames_nil,
      List.append_nil]

/-- The spelling of a type is a word that introduces nothing. -/
theorem spelling_notMem_introducers (s : Shape) : s.spelling ∉ Token.introducers := by
  intro hmem
  have hall : Token.introducers.all (fun w => !isTypeName w) = true := by decide
  have hnone : isTypeName s.spelling = false := by simpa using List.all_eq_true.mp hall _ hmem
  rw [isTypeName_spelling] at hnone
  cases hnone

/-- A name behind a type is declared if it can be. -/
theorem declaredNames_type_name (ty : Ty) (name : String) :
    declaredNames [typePiece ty, blank, .word name] = [name].filter isDeclarable := by
  have htype := (wellSpelled_of_isName ty.shape.isName_spelling).2
  have hnone : Token.introducers.contains ty.shape.spelling = false := by
    simpa using spelling_notMem_introducers ty.shape
  rw [declaredNames, typePiece, tokens_word htype, tokens_blank]
  cases hdigit : name.toList.head?.any Char.isDigit with
  -- A name that starts with a digit would be a number, and is not declarable, either.
  | true =>
    rw [tokens_number hdigit, List.filter_singleton, isDeclarable, hdigit]
    rfl
  | false =>
    rw [tokens_word hdigit, List.filter_singleton, isDeclarable, hdigit, Bool.false_or]
    have hdeclared : Token.declared? (.word ty.shape.spelling) (.word name) =
        if keywords.contains name || isTypeName name then none else some name := by
      rw [Token.declared?, hnone, Bool.false_or]
    rw [tokens_nil, Token.declaredNames, hdeclared]
    cases keywords.contains name || isTypeName name <;> rfl

/-- The tokens of a type: its name, behind a keyword if the type is printed with a precision. -/
theorem tokens_qualifiedType (q : Qualifying) (ty : Ty) :
    ∃ front : List Token, (∀ t ∈ front, ∃ w ∈ keywords, t = .word w) ∧
      tokens (qualifiedType q ty) = front ++ [.word ty.shape.spelling] := by
  have htype := tokens_word (wellSpelled_of_isName ty.shape.isName_spelling).2 []
  rw [qualifiedType, tokens_append, typePiece, htype]
  refine ⟨_, ?_, rfl⟩
  cases q.qualifier? ty with
  | none => simp
  | some c => cases c <;> simp [tokens, token?, keywords]

/-- Keywords in front of a type declare nothing, and neither does the type. -/
theorem declaredNames_typed (front : List Token)
    (hfront : ∀ t ∈ front, ∃ w ∈ keywords, t = .word w) (q : Qualifying) (ty : Ty) (name : String) :
    Token.declaredNames (front ++ tokens (qualifiedType q ty ++ [blank, .word name])) =
      [name].filter isDeclarable := by
  obtain ⟨own, hown, htokens⟩ := tokens_qualifiedType q ty
  have hkeywords : ∀ t ∈ front ++ own, ∃ w ∈ keywords, t = .word w := fun t ht =>
    (List.mem_append.mp ht).elim (hfront t) (hown t)
  have htype : declaredNames [typePiece ty, blank, .word name] =
      Token.declaredNames (.word ty.shape.spelling :: tokens [blank, .word name]) := by
    rw [declaredNames, typePiece, tokens_word (wellSpelled_of_isName ty.shape.isName_spelling).2]
  rw [tokens_append, htokens, ← List.append_assoc, ← List.append_assoc, List.append_assoc _ [_],
    ← declaredNames_type_name ty, htype]
  -- Behind a keyword there is another one, or the name of the type.
  generalize front ++ own = all at hkeywords
  induction all with
  | nil => rfl
  | cons t all ih =>
    obtain ⟨ht, hall⟩ := List.forall_mem_cons.mp hkeywords
    rw [List.cons_append, Token.declaredNames_cons_of_none, ih hall]
    intro t' ht'
    cases all with
    | nil =>
      obtain rfl : .word ty.shape.spelling = t' := Option.some.inj ht'
      exact Token.declared?_of_reserved (.inr (isTypeName_spelling ty.shape))
    | cons u all =>
      obtain rfl : u = t' := Option.some.inj ht'
      obtain ⟨w, hw, rfl⟩ := hall u List.mem_cons_self
      exact Token.declared?_of_reserved (.inl hw)

end Piece

end Glsl

/-! ### Expressions -/

/-- No name is declared in a literal. -/
theorem Literal.declaredNames_pieces (place : Precedence) (value : Literal) :
    Piece.declaredNames (literalPieces place value) = [] := by
  cases value with
  -- Whether a sign needs parentheses does not matter for names.
  | float v =>
    have hfloat : Piece.declaredNames (floatPieces v) = [] := by
      unfold floatPieces
      split <;> rfl
    rw [literalPieces]
    split
    · rw [Piece.declaredNames_wrap, hfloat]
    · exact hfloat
  | int n =>
    have hint : Piece.declaredNames (intPieces n) = [] := by
      unfold intPieces
      split <;> rfl
    rw [literalPieces]
    split
    · rw [Piece.declaredNames_wrap, hint]
    · exact hint
  | uint | bool => rfl

namespace Expr

open Piece

/-- No name is declared in an expression: a mark stands between any two words. -/
theorem declaredNames_pieces (legacy : Bool) (e : Expr) (place : Precedence) :
    declaredNames (e.pieces legacy place) = [] := by
  have hargs : ∀ {args : List Expr},
      (∀ e ∈ args, ∀ place, declaredNames (e.pieces legacy place) = []) →
        declaredNames (commaSeparated (argPieces legacy args)) = [] := by
    intro args h
    -- Arguments are separated by marks, so each is looked at alone.
    rw [declaredNames_commaSeparated, List.flatMap_eq_nil_iff]
    induction args with
    | nil => simp [argPieces]
    | cons e es ih =>
      rw [argPieces]
      exact List.forall_mem_cons.mpr
        ⟨h e List.mem_cons_self _, ih fun e he => h e (List.mem_cons_of_mem _ he)⟩
  induction e generalizing place with
  | literal ty value => exact value.declaredNames_pieces place
  | var ty name => rfl
  | builtin ty which => cases which <;> first | rfl | simp [pieces, builtinPieces]
  -- The pieces of the operands are put between marks and blanks, which declare nothing.
  | unary ty op operand ih =>
    rw [pieces]
    split <;> simp [ih]
  | binary ty op left right ihl ihr =>
    rw [pieces]
    split <;> simp [blank, spaced, ihl, ihr]
  | ternary ty cond ifTrue ifFalse ihc iht ihf => simp [pieces, spaced, blank, ihc, iht, ihf]
  | call ty callee args ih => simp [pieces, parenthesized, hargs ih]
  | swizzle ty base mask ih => simp [pieces, ih]
  | index ty base position ihb ihp => simp [pieces, ihb, ihp]
  | construct ty args ih => simp [pieces, typePiece, parenthesized, hargs ih]
  | group ty inner ih => simp [pieces, parenthesized, ih]

end Expr

/-! ### Statements -/

/-- A declaration declares its name. -/
theorem Decl.declaredNames_pieces (d : Dialect) (decl : Decl) :
    Piece.declaredNames (decl.pieces d) = [decl.name].filter isDeclarable := by
  -- The keyword for the storage class is the only token in front of the type.
  have hstorage : ∃ front : List Token, (∀ t ∈ front, ∃ w ∈ keywords, t = .word w) ∧
      Piece.tokens ((d.storageKeyword? decl.storage).toList.flatMap fun keyword =>
        [.word keyword, .blank]) = front := by
    refine ⟨_, ?_, rfl⟩
    cases hkeyword : d.storageKeyword? decl.storage with
    | none => exact fun t ht => absurd ht List.not_mem_nil
    | some keyword =>
      have hall : storageWords.all (fun w => keywords.contains w &&
        !w.toList.head?.any Char.isDigit) = true := by decide
      have hmem := List.all_eq_true.mp hall _ (d.storageKeyword?_mem _ keyword hkeyword)
      obtain ⟨hreserved, hdigit⟩ := Bool.and_eq_true_iff.mp hmem
      have htokens := Piece.tokens_word (by simpa using hdigit : _ = false) [Piece.blank]
      intro t ht
      rw [Option.toList_some, List.flatMap_singleton, htokens] at ht
      exact ⟨keyword, by simpa using hreserved, List.mem_singleton.mp ht⟩
  obtain ⟨front, hfront, htokens⟩ := hstorage
  -- The type and the name behind it are where the declaration is read off.
  have hname := Piece.declaredNames_typed front hfront d.qualifying decl.ty decl.name
  rw [Decl.pieces, List.append_assoc _ (qualifiedType _ _)]
  cases decl.init with
  | none => rw [List.append_nil, Piece.declaredNames, Piece.tokens_append, htokens, hname]
  | some value =>
    -- What follows the `=` is an expression, which declares nothing.
    have hvalue := value.declaredNames_pieces d.legacy .assignment
    have hinit : Piece.tokens (Piece.spaced "=" ++ value.pieces d.legacy .assignment) =
        .mark "=" :: Piece.tokens (value.pieces d.legacy .assignment) := rfl
    dsimp only
    rw [Piece.declaredNames, Piece.tokens_append, Piece.tokens_append, htokens, hinit,
      Token.declaredNames_append_mark, hname, ← Piece.declaredNames, hvalue, List.append_nil]

namespace Stmt

open Piece

variable {d : Dialect}

/-- What several statements declare. -/
theorem declaredNames_linePieces {level : Nat} {ss : List Stmt}
    (h : ∀ s ∈ ss, ∀ rest, declaredNames (s.pieces d level ++ rest) =
      s.locals.filter isDeclarable ++ declaredNames rest) (rest : List Piece) :
    declaredNames (linePieces d level ss ++ rest) =
      (listLocals ss).filter isDeclarable ++ declaredNames rest := by
  induction ss with
  | nil => rfl
  | cons s ss ih =>
    rw [linePieces, listLocals_cons, List.filter_append]
    simp only [indent, lineBreak, List.cons_append, List.append_assoc, declaredNames_gap_cons,
      h s List.mem_cons_self, ih fun t ht => h t (List.mem_cons_of_mem _ ht)]

/-- A label declares nothing. -/
theorem declaredNames_labelPieces (label : Option Int) (rest : List Piece) :
    declaredNames (labelPieces label ++ rest) = declaredNames rest := by
  cases label with
  | none => simp [labelPieces, lineBreak]
  | some n =>
    -- A label that is a number declares nothing, whatever its sign.
    have hcase : "case" ∈ Token.introducers := by decide
    have hlabel : declaredNames (intPieces n) = [] := by
      unfold intPieces
      split <;> rfl
    simp [labelPieces, blank, lineBreak, declaredNames_introducer hcase, hlabel]

/-- What the cases of a `switch` declare. -/
theorem declaredNames_casePieces {level : Nat} {cases : List Case}
    (h : ∀ c ∈ cases, ∀ s ∈ c.body, ∀ rest, declaredNames (s.pieces d (level + 1) ++ rest) =
      s.locals.filter isDeclarable ++ declaredNames rest) (rest : List Piece) :
    declaredNames (casePieces d level cases ++ rest) =
      (casesLocals cases).filter isDeclarable ++ declaredNames rest := by
  induction cases with
  | nil => rfl
  | cons c cs ih =>
    -- The statements of a case are on lines of their own.
    obtain ⟨label, body⟩ := c
    have hbody : ∀ rest, declaredNames (linePieces d (level + 1) body ++ rest) =
        (listLocals body).filter isDeclarable ++ declaredNames rest :=
      declaredNames_linePieces (h _ List.mem_cons_self)
    rw [casePieces, casesLocals, List.filter_append]
    simp only [indent, List.cons_append, List.append_assoc, declaredNames_gap_cons,
      declaredNames_labelPieces, hbody, ih fun c hc => h c (List.mem_cons_of_mem _ hc)]

/-- A statement declares its names, whatever is printed after it. -/
theorem declaredNames_pieces {s : Stmt} (hs : s.Plain) (level : Nat) (rest : List Piece) :
    declaredNames (s.pieces d level ++ rest) =
      s.locals.filter isDeclarable ++ declaredNames rest := by
  have hexpr : ∀ (e : Expr) place, declaredNames (e.pieces d.legacy place) = [] :=
    fun e place => e.declaredNames_pieces d.legacy place
  -- The words in front of a part are no types, so no name is taken for a declared one.
  have hdo : "do" ∈ Token.introducers := by decide
  have helse : "else" ∈ Token.introducers := by decide
  have hreturn : "return" ∈ Token.introducers := by decide
  induction s generalizing level rest with
  | block body ih =>
    -- The marks around a part keep its names from those of the next.
    have hbody := declaredNames_linePieces fun s hmem => ih s hmem (hs.nested s hmem) (level + 1)
    simp [pieces, bracedPieces, lineBreak, indent, hbody, locals]
  | decl decl => simp [pieces, semicolon, decl.declaredNames_pieces, locals]
  | ifElse cond thenBranch elseBranch iht ihe =>
    obtain ⟨hthen, helseBranch⟩ := List.forall_mem_cons.mp hs.nested
    -- An `else` is followed by no name of its own.
    have hbranch : ∀ rest, declaredNames (elsePieces d level elseBranch ++ rest) =
        (optionLocals elseBranch).filter isDeclarable ++ declaredNames rest := by
      intro rest
      cases elseBranch with
      | none => rfl
      | some t =>
        have ht : t.Plain := helseBranch t (by simp)
        simp [elsePieces, blank, declaredNames_introducer helse, ihe t rfl ht, optionLocals]
    simp [pieces, headPieces, parenthesized, blank, hexpr, iht hthen, hbranch, locals]
  | forLoop init cond step body ihi ihb =>
    have hbody : body.Plain := hs.nested body (by simp [nested])
    have hpart : ∀ o, declaredNames (headerPart d o) = [] := by
      intro o
      cases o with
      | none => rfl
      | some e => simp [headerPart, blank, hexpr]
    -- The initializer of a loop may declare its counter.
    have hfirst : declaredNames (initPieces d init) = (optionLocals init).filter isDeclarable := by
      cases init with
      | none => rfl
      | some t =>
        have ht : t.isLoopInitializer = true := hs.here
        cases t with
        | decl decl => simp [initPieces, decl.declaredNames_pieces, optionLocals, locals]
        | expr e => simp [initPieces, hexpr, optionLocals, locals]
        | _ => cases ht
    simp [pieces, headPieces, parenthesized, semicolon, blank, hpart, hfirst, ihb hbody, locals]
  -- In the other loops only the body can declare anything.
  | whileLoop cond body ih =>
    have hbody : body.Plain := hs.nested body (by simp [nested])
    simp [pieces, headPieces, parenthesized, blank, hexpr, ih hbody, locals]
  | doWhile body cond ih =>
    have hbody : body.Plain := hs.nested body (by simp [nested])
    simp [pieces, parenthesized, semicolon, blank, hexpr, declaredNames_introducer hdo, ih hbody,
      locals]
  -- A case is its label and its statements, one level further in.
  | switchOn value cases ih =>
    have hcases : ∀ c ∈ cases, ∀ t ∈ c.body, ∀ rest,
        declaredNames (t.pieces d (level + 1 + 1) ++ rest) =
          t.locals.filter isDeclarable ++ declaredNames rest := by
      rintro ⟨label, body⟩ hc t ht
      exact ih label body hc t ht (hs.nested t (List.mem_flatMap.mpr ⟨_, hc, ht⟩)) _
    simp [pieces, headPieces, bracedPieces, parenthesized, lineBreak, indent, blank, hexpr, locals,
      declaredNames_casePieces hcases]
  | expr e => simp [pieces, semicolon, hexpr, locals]
  | returnWith value =>
    cases value with
    | none => simp [pieces, semicolon, locals]
    | some e =>
      simp [pieces, semicolon, blank, hexpr, declaredNames_introducer hreturn, locals]
  | breakOut | continueLoop | discard => simp [pieces, semicolon, locals]
  | emitVertex | endPrimitive => simp [pieces, semicolon, parenthesized, locals]

end Stmt

/-! ### Elements -/

/-- Names that an element declares, at the top or inside. -/
def Element.names (el : Element) : List String := el.globals ++ el.functions ++ el.locals

/-- Names that a program declares anywhere. -/
def Program.names (p : Program) : List String := p.elements.flatMap Element.names

/-- Name that a global in front of a program declares. One of them declares a built-in variable
    again. -/
def AddedGlobal.declaredName : AddedGlobal → String
  | .declared d => d.name
  | .upperLeftOrigin => "gl_FragCoord"

section

open Piece

variable {d : Dialect} {rest : List Piece}

/-- A parameter declares its name. -/
theorem Param.declaredNames_pieces (d : Dialect) (param : Param) :
    declaredNames (param.pieces d) = [param.name].filter isDeclarable :=
  declaredNames_typed [] (by simp) d.qualifying param.ty param.name

/-- A declaration on a line of its own declares its name. -/
theorem Decl.declaredNames_line (d : Dialect) (decl : Decl) :
    declaredNames (decl.line d ++ rest) =
      [decl.name].filter isDeclarable ++ declaredNames rest := by
  simp [line, lineBreak, decl.declaredNames_pieces]

/-- A function declares its own name, those of its parameters, and those of its body. -/
theorem Function.declaredNames_pieces {fn : Function} (hfn : fn.Plain) :
    declaredNames (fn.pieces d ++ rest) =
      (Element.function fn).names.filter isDeclarable ++ declaredNames rest := by
  have hbody : (Stmt.block fn.body).Plain := .intro trivial hfn
  have hparams : ∀ params : List Param,
      declaredNames (commaSeparated (params.map (Param.pieces d))) =
        (params.map Param.name).filter isDeclarable := by
    intro params
    rw [declaredNames_commaSeparated, List.flatMap_map, List.map_eq_flatMap, List.filter_flatMap]
    exact List.flatMap_congr fun param _ => param.declaredNames_pieces d
  have hname : declaredNames (qualifiedType d.qualifying fn.result ++ [blank, .word fn.name]) =
      [fn.name].filter isDeclarable :=
    declaredNames_typed [] (by simp) d.qualifying fn.result fn.name
  -- The name is told apart from the parameters by the mark behind it, and these from the body.
  have hpieces : fn.pieces d ++ rest = (qualifiedType d.qualifying fn.result ++
      [blank, .word fn.name]) ++ .mark "(" :: (commaSeparated (fn.params.map (Param.pieces d)) ++
        .mark ")" :: blank :: ((Stmt.block fn.body).pieces d 0 ++ lineBreak :: rest)) := by
    simp [pieces, parenthesized]
  have hnames : (Element.function fn).names = [fn.name] ++ (fn.params.map Param.name ++
      (Stmt.block fn.body).locals) := rfl
  rw [hpieces, declaredNames_append_mark, declaredNames_append_mark, hname, hparams, hnames, blank,
    lineBreak, declaredNames_gap_cons, Stmt.declaredNames_pieces hbody, declaredNames_gap_cons,
    List.filter_append, List.filter_append, List.append_assoc, List.append_assoc]

/-- The layout of an interface declares nothing. -/
theorem Layout.declaredNames_pieces (l : Layout) :
    declaredNames (l.pieces ++ rest) = declaredNames rest := by
  have hitems : (l.items.map layoutItemPieces).flatMap declaredNames = [] := by
    rw [List.flatMap_eq_nil_iff]
    intro ps hps
    obtain ⟨item, -, rfl⟩ := List.mem_map.mp hps
    cases item <;> simp [layoutItemPieces, spaced, blank]
  simp [pieces, parenthesized, blank, lineBreak, declaredNames_commaSeparated, hitems]

/-- An element declares its names, whatever is printed after it. -/
theorem Element.declaredNames_pieces {el : Element} (hel : el.Plain) :
    declaredNames (el.pieces d ++ rest) = el.names.filter isDeclarable ++ declaredNames rest := by
  cases el with
  | global decl => exact decl.declaredNames_line d
  | function fn => exact Function.declaredNames_pieces hel
  | layout l => exact l.declaredNames_pieces

/-- A global in front of a program declares one name. -/
theorem AddedGlobal.declaredNames_pieces (g : AddedGlobal) :
    declaredNames (g.pieces d ++ rest) =
      [g.declaredName].filter isDeclarable ++ declaredNames rest := by
  cases g with
  | declared decl => exact decl.declaredNames_line d
  | upperLeftOrigin =>
    -- The redeclared variable stands behind its type like any other.
    have hpieces : upperLeftOrigin.pieces d ++ rest = (.word "layout" ::
        parenthesized [.word "origin_upper_left"] ++ [blank, .word "in", blank, .word "vec4", blank,
          .word "gl_FragCoord"]) ++ .mark ";" :: lineBreak :: rest := rfl
    rw [hpieces, declaredNames_append_mark]
    rfl

/-- Sections of a text that are printed one after the other declare what each of them declares. -/
theorem declaredNames_flatMap {α : Type} {l : List α} {f : α → List Piece}
    {names : α → List String} (h : ∀ a ∈ l, ∀ rest, declaredNames (f a ++ rest) =
      (names a).filter isDeclarable ++ declaredNames rest) (rest : List Piece) :
    declaredNames (l.flatMap f ++ rest) =
      (l.flatMap names).filter isDeclarable ++ declaredNames rest := by
  induction l with
  | nil => rfl
  | cons a l ih =>
    rw [List.flatMap_cons, List.flatMap_cons, List.append_assoc, h a List.mem_cons_self,
      ih fun b hb => h b (List.mem_cons_of_mem _ hb), List.filter_append, List.append_assoc]

end

/-! ### Texts -/

/-- A text declares the fragment color if that is noted, then what rules put in front of the
    program, and then the names of the program. -/
theorem Glsl.declaredNames_programPieces {profile : Profile} {s : Scratch} {p : Program}
    (hhelpers : ∀ h ∈ s.helpers, h.2.Plain) (hp : p.Plain) :
    Piece.declaredNames (programPieces profile s p) =
      (if s.declaresFragOutput then ["sk_FragColor"] else []) ++
        (s.globals.map AddedGlobal.declaredName ++
          (s.helpers.flatMap fun h => (Element.function h.2).names) ++ p.names).filter
            isDeclarable := by
  -- The lines at the start and the default precisions have no tokens.
  -- From here on each section is looked at alone, with any text after it.
  have hlines : ∀ rest, Piece.declaredNames (.line profile.versionLine ::
      s.extensions.map extensionLine ++ rest) = Piece.declaredNames rest := by
    intro rest
    have hnone : (s.extensions.map extensionLine).filterMap Piece.token? = [] := by
      rw [List.filterMap_map]
      exact List.filterMap_eq_nil_iff.mpr fun name _ => rfl
    have hversion : Piece.token? (.line profile.versionLine) = none := rfl
    rw [Piece.declaredNames, Piece.tokens_append, Piece.tokens, List.filterMap_cons_none hversion,
      hnone, List.nil_append, Piece.declaredNames]
  have hdefaults : ∀ rest, Piece.declaredNames ((if profile.usesPrecision then
      [.defaultPrecision "float", .defaultPrecision "sampler2D"] else []) ++ rest) =
        Piece.declaredNames rest := by
    intro rest
    split <;> rfl
  have hcolor : ∀ rest, Piece.declaredNames ((if s.declaresFragOutput then
      fragOutputPieces profile.usesPrecision else []) ++ rest) =
        (if s.declaresFragOutput then ["sk_FragColor"] else []) ++ Piece.declaredNames rest := by
    intro rest
    split
    · have hpieces : fragOutputPieces profile.usesPrecision ++ rest = (.word "out" :: .blank ::
          (if profile.usesPrecision then [.qualifier .reduced] else []) ++
            [.word "vec4", .blank, .word "sk_FragColor"]) ++ .mark ";" :: .lineBreak :: rest := by
        simp [fragOutputPieces]
      rw [hpieces, Piece.declaredNames_append_mark]
      cases profile.usesPrecision <;> rfl
    · rfl
  -- Globals, helpers and elements are texts in a row.
  have hglobals := declaredNames_flatMap (l := s.globals)
    (f := AddedGlobal.pieces (.ofProfile profile p.stage)) fun g _ rest => g.declaredNames_pieces
  have hadded := declaredNames_flatMap (l := s.helpers)
    (f := fun h => h.2.pieces (.ofProfile profile p.stage)) fun h hh rest =>
      Function.declaredNames_pieces (hhelpers h hh)
  have hown := declaredNames_flatMap (l := p.elements)
    (f := Element.pieces (.ofProfile profile p.stage)) fun el hel rest =>
      Element.declaredNames_pieces (hp el hel)
  have hsections : programPieces profile s p = .line profile.versionLine ::
      s.extensions.map extensionLine ++ ((if profile.usesPrecision then
        [.defaultPrecision "float", .defaultPrecision "sampler2D"] else []) ++
      ((if s.declaresFragOutput then fragOutputPieces profile.usesPrecision else []) ++
      (s.globals.flatMap (AddedGlobal.pieces (.ofProfile profile p.stage)) ++
      (s.helpers.flatMap (fun h => h.2.pieces (.ofProfile profile p.stage)) ++
      (p.elements.flatMap (Element.pieces (.ofProfile profile p.stage)) ++ []))))) := by
    simp [programPieces]
  rw [hsections, hlines, hdefaults, hcolor, hglobals, hadded, hown]
  simp [Program.names, List.map_eq_flatMap]

end ShaderGen
