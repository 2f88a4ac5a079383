import ShaderGen.Proofs.Glsl.Grammar
import ShaderGen.Proofs.Glsl.StmtTree

/-!
# Grammar of statements

The statements of the language, as far as they have trees. What stands between `if` and `else` has
to be a statement that is not open, so that an `else` always belongs to the nearest open `if`.
-/

namespace ShaderGen.Glsl

/-- Words for storage classes. -/
def storageWords : List String := ["attribute", "const", "in", "out", "uniform", "varying"]

/-- The keyword of a storage class is one of the words for them. -/
theorem Dialect.storageKeyword?_mem (d : Dialect) (storage : Storage) :
    ∀ word ∈ d.storageKeyword? storage, word ∈ storageWords := by
  obtain ⟨legacy, stage, qualifying⟩ := d
  cases storage <;> cases legacy <;> cases stage <;> rintro word ⟨⟩ <;> decide

/-- The token of a precision qualifier. -/
def Token.ofPrecision : Precision → Token
  | .reduced => .word "mediump"
  | .full => .word "highp"

/-- Something that need not be there. -/
inductive Optionally {α : Type} (P : List Token → α → Prop) : List Token → Option α → Prop where
  | none : Optionally P [] none
  | some {ts t} (h : P ts t) : Optionally P ts (some t)

/-- Initial value of a declaration, with the mark in front of it. -/
inductive Initial : List Token → Tree → Prop where
  | value {ts t} (h : Phrase .assignment ts t) : Initial (.mark "=" :: ts) t

/-- `Declares ts t` says that the tokens `ts` are a declaration with the tree `t`, without the
    semicolon. -/
inductive Declares : List Token → DeclTree → Prop where
  | decl {storage : Option String} {precision : Option Precision} {typeName shape name ts init}
    (hstorage : ∀ word ∈ storage, word ∈ storageWords) (htype : Shape.named? typeName = some shape)
    (hname : isIdentifier name = true) (hinit : Optionally Initial ts init) :
    Declares
      (storage.toList.map .word ++ precision.toList.map .ofPrecision ++
        .word typeName :: .word name :: ts)
      ⟨storage, precision, shape, name, init⟩

/-- `Plain ts t` says that the tokens `ts` are what a `for` can start with: a declaration or an
    expression, which are statements with a semicolon after them. -/
inductive Plain : List Token → StmtTree → Prop where
  | decl {ts t} (h : Declares ts t) : Plain ts (.decl t)
  | expr {ts t} (h : Phrase .sequence ts t) : Plain ts (.expr t)

/-- Label of a case, with the colon. -/
inductive Label : List Token → Option Tree → Prop where
  | value {ts t} (h : Phrase .sequence ts t) : Label (.word "case" :: ts ++ [.mark ":"]) (some t)
  | default : Label [.word "default", .mark ":"] none

/-- Statements that are always spelled the same. -/
def fixedStatements : List (List Token × StmtTree) :=
  [([.word "break", .mark ";"], .breakOut), ([.word "continue", .mark ";"], .continueLoop),
    ([.word "discard", .mark ";"], .discard),
    ([.word "EmitVertex", .mark "(", .mark ")", .mark ";"], .emitVertex),
    ([.word "EndPrimitive", .mark "(", .mark ")", .mark ";"], .endPrimitive)]

/-- Tokens of a case of a `switch`: its label and its statements, with their trees. -/
structure CaseTokens where
  label : List Token × Option Tree
  body : List (List Token × StmtTree)

namespace CaseTokens

/-- All tokens of a case. -/
def tokens (c : CaseTokens) : List Token := c.label.1 ++ (c.body.map (·.1)).flatten

/-- The tree of a case. -/
def tree (c : CaseTokens) : CaseTree := .mk c.label.2 (c.body.map (·.2))

end CaseTokens

/-- Tokens in parentheses after a word. -/
def Token.headed (word : String) (ts : List Token) : List Token :=
  .word word :: .mark "(" :: ts ++ [.mark ")"]

/-- `Sentence ts t` says that the tokens `ts` are a statement with the tree `t`. -/
inductive Sentence : List Token → StmtTree → Prop where
  /-- statements in braces, with the tokens and the tree of each -/
  | block {parts : List (List Token × StmtTree)}
    (h : ∀ part ∈ parts, Sentence part.1 part.2) :
    Sentence (.mark "\x7b" :: (parts.map (·.1)).flatten ++ [.mark "\x7d"])
      (.block (parts.map (·.2)))
  /-- declaration or expression -/
  | plain {ts t} (h : Plain ts t) : Sentence (ts ++ [.mark ";"]) t
  | ifThen {cs cond ts t} (hcond : Phrase .sequence cs cond) (hthen : Sentence ts t) :
    Sentence (Token.headed "if" cs ++ ts) (.ifElse cond t none)
  /-- choice; the `else` belongs to it only if no other `if` is open in front of it -/
  | ifElse {cs cond ts t us u} (hcond : Phrase .sequence cs cond) (hthen : Sentence ts t)
    (hclosed : t.isOpen = false) (helse : Sentence us u) :
    Sentence (Token.headed "if" cs ++ ts ++ .word "else" :: us) (.ifElse cond t (some u))
  | forLoop {is init cs cond ss step ts t} (hinit : Optionally Plain is init)
    (hcond : Optionally (Phrase .sequence) cs cond) (hstep : Optionally (Phrase .sequence) ss step)
    (hbody : Sentence ts t) :
    Sentence (Token.headed "for" (is ++ .mark ";" :: cs ++ .mark ";" :: ss) ++ ts)
      (.forLoop init cond step t)
  | whileLoop {cs cond ts t} (hcond : Phrase .sequence cs cond) (hbody : Sentence ts t) :
    Sentence (Token.headed "while" cs ++ ts) (.whileLoop cond t)
  | doWhile {cs cond ts t} (hbody : Sentence ts t) (hcond : Phrase .sequence cs cond) :
    Sentence (.word "do" :: ts ++ Token.headed "while" cs ++ [.mark ";"]) (.doWhile t cond)
  | switchOn {vs value} {cases : List CaseTokens} (hvalue : Phrase .sequence vs value)
    (hlabels : ∀ c ∈ cases, Label c.label.1 c.label.2)
    (hbodies : ∀ c ∈ cases, ∀ part ∈ c.body, Sentence part.1 part.2) :
    Sentence (Token.headed "switch" vs ++ .mark "\x7b" :: (cases.map CaseTokens.tokens).flatten ++
        [.mark "\x7d"])
      (.switchOn value (cases.map CaseTokens.tree))
  | returnWith {ts value} (h : Optionally (Phrase .sequence) ts value) :
    Sentence (.word "return" :: ts ++ [.mark ";"]) (.returnWith value)
  | fixed {ts t} (h : (ts, t) ∈ fixedStatements) : Sentence ts t

/-- An `else` after an open statement belongs to the nearest `if` that has none. -/
theorem Sentence.withElse {ts us : List Token} {t u : StmtTree} (h : Sentence ts t)
    (hopen : t.isOpen = true) (helse : Sentence us u) :
    Sentence (ts ++ .word "else" :: us) (t.withElse u) := by
  induction h with
  | @ifThen cs cond ts t hcond hthen ih =>
    rw [StmtTree.withElse]
    by_cases hinner : t.isOpen = true
    · rw [if_pos hinner, List.append_assoc]
      exact .ifThen hcond (ih hinner)
    · rw [if_neg hinner]
      exact .ifElse hcond hthen (by simpa using hinner) helse
  | @ifElse cs cond ts t us u hcond hthen hclosed helse ihthen ihelse =>
    rw [List.append_assoc, List.cons_append]
    exact .ifElse hcond hthen hclosed (ihelse hopen)
  | forLoop hinit hcond hstep hbody ih =>
    rw [List.append_assoc]
    exact .forLoop hinit hcond hstep (ih hopen)
  | whileLoop hcond hbody ih =>
    rw [List.append_assoc]
    exact .whileLoop hcond (ih hopen)
  | fixed h =>
    -- None of the statements that are always spelled the same is an `if`.
    have hall : fixedStatements.all (!·.2.isOpen) = true := by decide
    exact absurd hopen (by simpa using List.all_eq_true.mp hall _ h)
  | plain h => cases h <;> exact absurd hopen Bool.false_ne_true
  | _ => exact absurd hopen Bool.false_ne_true

end ShaderGen.Glsl
