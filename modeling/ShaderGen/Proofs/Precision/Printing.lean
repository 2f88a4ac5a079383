import ShaderGen.Generate
import ShaderGen.Proofs.Glsl.ExprSpelling
import ShaderGen.Proofs.Generation
import ShaderGen.Proofs.Precision.Pipeline

/-!
# Texts that differ in precision alone

Twins are printed alike but for precision qualifiers, whichever of these are written; they are also
refused alike. With what the pipeline does (`Legalize.twin_legalize`) this says of any program that
the text for a target does not depend on its precision qualifiers except where they stand.

## Key results

- `Expr.Twin.pieces`, `Stmt.Twin.pieces`, `Element.Twin.pieces`: what twins look like
- `generate_ignores_precision`: texts for targets that differ in precision qualifiers alone are the
  same once these are taken out, and so are errors and declared uniforms
-/

namespace ShaderGen

open List (Forall₂)
open Glsl

namespace Glsl.Piece

/-- Whether a piece has nothing to do with precision. -/
def isPlain : Piece → Bool
  | .qualifier _ | .defaultPrecision _ => false
  | _ => true

/-- Whether a piece is a word, a mark or a gap. -/
def isBasic : Piece → Bool
  | .word _ | .mark _ | .gap _ => true
  | _ => false

/-- Whether a piece can stand in what is printed with some of the precision qualifiers: a qualifier
    has to be one that they put in front of some type, and no line is written as it is. -/
def Allowed (q : Qualifying) : Piece → Prop
  | .qualifier c => ∃ ty, q.qualifier? ty = some c
  | .defaultPrecision _ | .line _ => False
  | _ => True

/-- A piece that is no qualifier and no line of its own stands in texts with any qualifiers. -/
theorem Allowed.of_isBasic {q : Qualifying} {p : Piece} (h : p.isBasic = true) : p.Allowed q := by
  cases p with
  | qualifier | defaultPrecision | line => exact absurd h nofun
  | word | mark | gap => trivial

/-- Pieces that are the same but for qualifiers, each with the qualifiers that it may have. -/
structure Agree (q q' : Qualifying) (ps ps' : List Piece) : Prop where
  plain : ps.filter isPlain = ps'.filter isPlain
  left : ∀ p ∈ ps, p.Allowed q
  right : ∀ p ∈ ps', p.Allowed q'

namespace Agree

variable {q q' : Qualifying} {p : Piece} {ps ps' rs rs' : List Piece}

/-- Such pieces agree with themselves. -/
theorem of_isBasic (h : ∀ p ∈ ps, p.isBasic = true) : Agree q q' ps ps :=
  ⟨rfl, fun p hp => .of_isBasic (h p hp), fun p hp => .of_isBasic (h p hp)⟩

/-- So do no pieces at all. -/
theorem nil : Agree q q' [] [] := .of_isBasic (by simp)

/-- Pieces agree if their parts do. -/
theorem append (h : Agree q q' ps ps') (h' : Agree q q' rs rs') :
    Agree q q' (ps ++ rs) (ps' ++ rs') :=
  ⟨by rw [List.filter_append, List.filter_append, h.plain, h'.plain],
    List.forall_mem_append.mpr ⟨h.left, h'.left⟩, List.forall_mem_append.mpr ⟨h.right, h'.right⟩⟩

/-- The same piece may be put in front of pieces that agree. -/
theorem cons (hp : p.isBasic = true) (h : Agree q q' ps ps') : Agree q q' (p :: ps) (p :: ps') :=
  append (.of_isBasic (List.forall_mem_singleton.mpr hp)) h

/-- Pieces that agree still do so in parentheses. -/
theorem parenthesized (h : Agree q q' ps ps') :
    Agree q q' (Piece.parenthesized ps) (Piece.parenthesized ps') :=
  .cons rfl (h.append (.cons rfl .nil))

/-- Lists of pieces that agree still do so with commas between them. -/
theorem commaSeparated {pss pss' : List (List Piece)} (h : Forall₂ (Agree q q') pss pss') :
    Agree q q' (Piece.commaSeparated pss) (Piece.commaSeparated pss') := by
  induction h with
  | nil => exact .nil
  | cons hps hrest ih =>
    cases hrest with
    | nil => exact hps
    | cons _ _ => exact hps.append (.cons rfl (.cons rfl ih))

/-- Members of two lists that are printed in ways that agree. -/
theorem flatMap {α β : Type} {R : α → β → Prop} {f : α → List Piece} {g : β → List Piece}
    {as : List α} {bs : List β} (h : Forall₂ R as bs) (hf : ∀ a b, R a b → Agree q q' (f a) (g b)) :
    Agree q q' (as.flatMap f) (bs.flatMap g) := by
  induction h with
  | nil => exact .nil
  | cons hab _ ih => exact (hf _ _ hab).append ih

/-- Types of one shape take a qualifier together. -/
theorem qualifiedType {ty ty' : Ty} (h : ty.Twin ty') :
    Agree q q' (Glsl.qualifiedType q ty) (Glsl.qualifiedType q' ty') := by
  -- In front of a type there are qualifiers alone, and just those that are meant for it.
  have hfront : ∀ (q : Qualifying) (ty : Ty),
      ((q.qualifier? ty).toList.map Piece.qualifier).filter isPlain = [] ∧
        ∀ p ∈ (q.qualifier? ty).toList.map Piece.qualifier, p.Allowed q := by
    intro q ty
    cases hq : q.qualifier? ty with
    | none => exact ⟨rfl, by simp⟩
    | some c =>
      refine ⟨rfl, ?_⟩
      rw [Option.toList_some, List.map_singleton, List.forall_mem_singleton]
      exact ⟨ty, hq⟩
  -- The names are the same, because types that differ in precision only have one shape.
  have hname : typePiece ty = typePiece ty' := congrArg (fun s : Shape => Piece.word s.spelling) h
  have hallowed : ∀ q, ∀ p ∈ [typePiece ty'], p.Allowed q := by simp [typePiece, Allowed]
  unfold Glsl.qualifiedType
  rw [hname]
  refine ⟨?_, ?_, ?_⟩
  · rw [List.filter_append, List.filter_append, (hfront q ty).1, (hfront q' ty').1]
  · exact List.forall_mem_append.mpr ⟨(hfront q ty).2, hallowed q⟩
  · exact List.forall_mem_append.mpr ⟨(hfront q' ty').2, hallowed q'⟩

end Agree

/-- Parentheses are basic pieces. -/
theorem isBasic_parenthesized {ps : List Piece} (h : ∀ p ∈ ps, p.isBasic = true) :
    ∀ p ∈ Piece.parenthesized ps, p.isBasic = true :=
  List.forall_mem_cons.mpr ⟨rfl, List.forall_mem_append.mpr ⟨h, List.forall_mem_singleton.mpr rfl⟩⟩

/-- Parentheses that may be needed are basic pieces. -/
theorem isBasic_wrap {own place : Precedence} {ps : List Piece} (h : ∀ p ∈ ps, p.isBasic = true) :
    ∀ p ∈ wrap own place ps, p.isBasic = true := by
  unfold wrap
  split
  · exact h
  · exact isBasic_parenthesized h

/-- Commas are basic pieces. -/
theorem isBasic_commaSeparated {pss : List (List Piece)}
    (h : ∀ ps ∈ pss, ∀ p ∈ ps, p.isBasic = true) :
    ∀ p ∈ Piece.commaSeparated pss, p.isBasic = true := by
  induction pss with
  | nil => simp [Piece.commaSeparated]
  | cons ps pss ih =>
    have hfirst := h ps List.mem_cons_self
    have hrest := ih fun rs hrs => h rs (List.mem_cons_of_mem _ hrs)
    cases pss with
    | nil => exact hfirst
    | cons rs pss =>
      refine List.forall_mem_append.mpr ⟨hfirst, ?_⟩
      -- A comma and a blank come in between.
      exact List.forall_mem_cons.mpr ⟨rfl, List.forall_mem_cons.mpr ⟨rfl, hrest⟩⟩

end Glsl.Piece

/-! ### Expressions -/

namespace Expr

/-- No precision qualifier stands in an expression, and no line that is written as it is. -/
theorem isBasic_pieces (legacy : Bool) (place : Precedence) (e : Expr) :
    ∀ p ∈ e.pieces legacy place, p.isBasic = true := by
  -- Arguments stand between commas, in parentheses.
  have hargs : ∀ {args : List Expr},
      (∀ arg ∈ args, ∀ place, ∀ p ∈ arg.pieces legacy place, p.isBasic = true) →
      ∀ p ∈ Piece.parenthesized (Piece.commaSeparated (argPieces legacy args)),
        p.isBasic = true := by
    intro args ih
    refine Piece.isBasic_parenthesized (Piece.isBasic_commaSeparated fun ps hps => ?_)
    rw [argPieces_eq_map] at hps
    obtain ⟨arg, harg, rfl⟩ := List.mem_map.mp hps
    exact ih arg harg _
  induction e generalizing place with
  -- Numerals have a sign or parentheses in some places, which are marks.
  | literal t value =>
    cases value with
    | float v =>
      have hfloat : ∀ p ∈ floatPieces v, p.isBasic = true := by
        unfold floatPieces
        split <;> simp [Piece.isBasic]
      rw [pieces, literalPieces]
      split
      · exact Piece.isBasic_wrap hfloat
      · exact hfloat
    | int n =>
      have hint : ∀ p ∈ intPieces n, p.isBasic = true := by
        unfold intPieces
        split <;> simp [Piece.isBasic]
      rw [pieces, literalPieces]
      split
      · exact Piece.isBasic_wrap hint
      · exact hint
    | uint n => simp [pieces, literalPieces, Piece.isBasic]
    | bool b => simp [pieces, literalPieces, Piece.isBasic]
  | var t name => simp [pieces, Piece.isBasic]
  | builtin t which => cases which <;> simp [pieces, builtinPieces, Piece.isBasic]
  -- The operator is a mark, on whichever side it stands.
  | unary t op e ih =>
    rw [pieces]
    split
    · exact Piece.isBasic_wrap (List.forall_mem_append.mpr ⟨ih _, by simp [Piece.isBasic]⟩)
    · exact Piece.isBasic_wrap (List.forall_mem_cons.mpr ⟨rfl, ih _⟩)
  | binary t op l r ihl ihr =>
    -- A comma has a blank on one side only; other operators have one on both.
    have hmark : ∀ p ∈ if op = .comma then [.mark op.symbol, .blank] else Piece.spaced op.symbol,
        p.isBasic = true := by
      split <;> simp [Piece.spaced, Piece.blank, Piece.isBasic]
    exact Piece.isBasic_wrap (List.forall_mem_append.mpr
      ⟨List.forall_mem_append.mpr ⟨ihl _, hmark⟩, ihr _⟩)
  -- The two marks of a choice stand between its three operands.
  | ternary t c a b ihc iha ihb =>
    have hmark : ∀ symbol, ∀ p ∈ Piece.spaced symbol, p.isBasic = true := by
      simp [Piece.spaced, Piece.blank, Piece.isBasic]
    rw [pieces]
    simp only [List.append_assoc]
    refine Piece.isBasic_wrap (List.forall_mem_append.mpr ⟨ihc _, ?_⟩)
    exact List.forall_mem_append.mpr ⟨hmark _, List.forall_mem_append.mpr
      ⟨iha _, List.forall_mem_append.mpr ⟨hmark _, ihb _⟩⟩⟩
  -- The name and its arguments are basic.
  | call t callee args ih =>
    exact List.forall_mem_cons.mpr ⟨rfl, hargs ih⟩
  | swizzle t e mask ih =>
    exact List.forall_mem_append.mpr ⟨ih _, by simp [Piece.isBasic]⟩
  | index t e i ihe ihi =>
    rw [pieces, List.append_assoc]
    exact List.forall_mem_append.mpr ⟨ihe _, List.forall_mem_cons.mpr ⟨rfl,
      List.forall_mem_append.mpr ⟨ihi _, by simp [Piece.isBasic]⟩⟩⟩
  | construct t args ih =>
    exact List.forall_mem_cons.mpr ⟨rfl, hargs ih⟩
  | group t e ih =>
    exact Piece.isBasic_parenthesized (ih .top)

namespace Twin

variable {e e' : Expr} {legacy : Bool}

/-- Twins look the same. -/
theorem pieces (h : e.Twin e') (place : Precedence) :
    e.pieces legacy place = e'.pieces legacy place := by
  -- Arguments that are printed alike are printed alike between commas.
  have hargs : ∀ {args args' : List Expr}, Forall₂ Twin args args' →
      (∀ a ∈ args, ∀ a', a.Twin a' → a.pieces legacy .sequence = a'.pieces legacy .sequence) →
      argPieces legacy args = argPieces legacy args' := by
    intro args args' h ih
    rw [argPieces_eq_map, argPieces_eq_map]
    exact map_eq_of_forall₂ h ih
  -- Twins have the same nodes, so each case reads off the twins of the children. Only a constructor
  -- prints a type, and that without a qualifier.
  induction e generalizing e' place with
  | literal | var | builtin =>
    cases h
    rfl
  | unary t op e ih =>
    cases h with
    | unary _ _ he => simp only [Expr.pieces, ih he]
  | binary t op l r ihl ihr =>
    cases h with
    | binary _ _ hl hr => rw [Expr.pieces, Expr.pieces, ihl hl, ihr hr]
  | ternary t c a b ihc iha ihb =>
    cases h with
    | ternary _ hc ha hb => rw [Expr.pieces, Expr.pieces, ihc hc, iha ha, ihb hb]
  | call t callee args ih =>
    cases h with
    | call _ _ h => simp only [Expr.pieces, hargs h fun a ha _ h => ih a ha h _]
  | swizzle t e mask ih =>
    cases h with
    | swizzle _ he _ => rw [Expr.pieces, Expr.pieces, ih he]
  | index t e i ihe ihi =>
    cases h with
    | index _ he hi => rw [Expr.pieces, Expr.pieces, ihe he, ihi hi]
  | construct t args ih =>
    cases h with
    | construct ht h =>
      rw [Expr.pieces, Expr.pieces, hargs h fun a ha _ h => ih a ha h _, typePiece, typePiece,
        show t.shape = _ from ht]
  | group t e ih =>
    cases h with
    | group _ he => rw [Expr.pieces, Expr.pieces, ih he]

/-- Twins are printed by pieces that agree: no expression has a qualifier in it. -/
theorem agree {q q' : Qualifying} (h : e.Twin e') (place : Precedence) :
    Piece.Agree q q' (e.pieces legacy place) (e'.pieces legacy place) := by
  rw [← h.pieces]
  exact .of_isBasic (isBasic_pieces legacy place e)

/-- Twins are refused alike. -/
theorem obstacle?_eq (h : e.Twin e') : e.obstacle? legacy = e'.obstacle? legacy := by
  -- The first obstacle of arguments is found at the same place in both lists.
  have hargs : ∀ {args args' : List Expr}, Forall₂ Twin args args' →
      (∀ a ∈ args, ∀ a', a.Twin a' → a.obstacle? legacy = a'.obstacle? legacy) →
      listObstacle? legacy args = listObstacle? legacy args' := by
    intro args args' h ih
    induction h with
    | nil => rfl
    | cons ha _ ihas =>
      rw [listObstacle?, listObstacle?, ih _ List.mem_cons_self _ ha,
        ihas fun a hmem => ih a (List.mem_cons_of_mem _ hmem)]
  induction e generalizing e' with
  | literal | var | builtin =>
    cases h
    rfl
  -- Twins have the same operator, so only the operands are asked.
  | unary t op e ih =>
    cases h with
    | unary _ _ he => rw [Expr.obstacle?, Expr.obstacle?, ih he]
  | binary t op l r ihl ihr =>
    cases h with
    | binary _ _ hl hr => rw [Expr.obstacle?, Expr.obstacle?, ihl hl, ihr hr]
  | ternary t c a b ihc iha ihb =>
    cases h with
    | ternary _ hc ha hb => rw [Expr.obstacle?, Expr.obstacle?, ihc hc, iha ha, ihb hb]
  -- Twins call the same function, which is allowed or not for both.
  | call t callee args ih =>
    cases h with
    | call _ _ h => exact hargs h fun a ha _ => ih a ha
  | swizzle t e mask ih =>
    cases h with
    | swizzle _ he _ => rw [Expr.obstacle?, Expr.obstacle?, ih he]
  | index t e i ihe ihi =>
    cases h with
    | index _ he hi => rw [Expr.obstacle?, Expr.obstacle?, ihe he, ihi hi]
  | construct t args ih =>
    cases h with
    | construct ht h =>
      -- Only a constructor asks about a type, and there the shape is all that counts.
      rw [Expr.obstacle?, Expr.obstacle?, hargs h fun a ha _ => ih a ha, Ty.obstacle?, Ty.obstacle?,
        show t.shape = _ from ht]
  | group t e ih =>
    cases h with
    | group _ he => rw [Expr.obstacle?, Expr.obstacle?, ih he]

end Twin

end Expr

/-! ### Statements -/

section

variable {d d' : Dialect}

/-- Dialects that are the same but for precision qualifiers. -/
structure Glsl.Dialect.Twin (d d' : Dialect) : Prop where
  legacy : d.legacy = d'.legacy
  stage : d.stage = d'.stage

/-- The keyword for a storage class depends on the generation and the stage, which are the same. -/
theorem Glsl.Dialect.Twin.storageKeyword? (hd : d.Twin d') (storage : Storage) :
    d.storageKeyword? storage = d'.storageKeyword? storage := by
  unfold Dialect.storageKeyword?
  rw [hd.legacy, hd.stage]

/-- Twin declarations are printed by pieces that agree. -/
theorem Decl.Twin.agree {decl decl' : Decl} (hd : d.Twin d') (h : decl.Twin decl') :
    Piece.Agree d.qualifying d'.qualifying (decl.pieces d) (decl'.pieces d') := by
  -- The keyword comes first, then the type, the name, and the value if there is one.
  have hkeyword : Piece.Agree d.qualifying d'.qualifying
      ((d.storageKeyword? decl.storage).toList.flatMap fun keyword => [.word keyword, .blank])
      ((d'.storageKeyword? decl'.storage).toList.flatMap fun keyword =>
        [.word keyword, .blank]) := by
    rw [hd.storageKeyword?, h.storage]
    refine .of_isBasic fun p hp => ?_
    obtain ⟨keyword, -, hmem⟩ := List.mem_flatMap.mp hp
    simp only [List.mem_cons, List.not_mem_nil, or_false] at hmem
    obtain rfl | rfl := hmem <;> rfl
  have hvalue := h.init
  unfold Decl.pieces
  rw [h.name]
  refine ((hkeyword.append (.qualifiedType h.ty)).append (.cons rfl (.cons rfl .nil))).append ?_
  generalize decl.init = o, decl'.init = o' at hvalue
  cases hvalue with
  | none => exact .nil
  | some he =>
    rw [hd.legacy]
    exact .cons rfl (.cons rfl (.cons rfl (he.agree _)))

/-- Twin declarations have the same obstacle. -/
theorem Decl.Twin.obstacle?_eq {decl decl' : Decl} (hd : d.Twin d') (h : decl.Twin decl') :
    decl.obstacle? d = decl'.obstacle? d' := by
  -- Storage class, type and value are asked about in this order.
  have hstorage : d.hasStorage decl.storage = d'.hasStorage decl'.storage := by
    rw [Dialect.hasStorage, Dialect.hasStorage, hd.legacy, hd.stage, h.storage]
  have hty : decl.ty.obstacle? d.legacy = decl'.ty.obstacle? d'.legacy := by
    rw [Ty.obstacle?, Ty.obstacle?, show decl.ty.shape = _ from h.ty, hd.legacy]
  have hinit : decl.init.bind (Expr.obstacle? d.legacy) =
      decl'.init.bind (Expr.obstacle? d'.legacy) := by
    have hvalue := h.init
    generalize decl.init = o, decl'.init = o' at hvalue
    cases hvalue with
    | none => rfl
    | some he =>
      rw [hd.legacy]
      exact he.obstacle?_eq
  rw [Decl.obstacle?, Decl.obstacle?, hstorage, hty, hinit]

/-- Labels are basic pieces. -/
theorem Stmt.isBasic_labelPieces (label : Option Int) :
    ∀ p ∈ labelPieces label, p.isBasic = true := by
  cases label with
  | none => simp [labelPieces, Piece.lineBreak, Piece.isBasic]
  | some n =>
    rw [labelPieces, intPieces]
    split <;> simp [Piece.lineBreak, Piece.blank, Piece.isBasic]

namespace Stmt.Twin

variable {s s' : Stmt}

/-- Twins look the same but for qualifiers. -/
theorem agree (hd : d.Twin d') (h : s.Twin s') (level : Nat) :
    Piece.Agree d.qualifying d'.qualifying (s.pieces d level) (s'.pieces d' level) := by
  -- First, what statements are put together from: expressions, semicolons, headers and braces.
  have hexpr : ∀ {e e' : Expr}, e.Twin e' → Piece.Agree d.qualifying d'.qualifying
      (e.pieces d.legacy .top) (e'.pieces d'.legacy .top) := by
    intro e e' he
    rw [hd.legacy]
    exact he.agree _
  have hfinished : ∀ {ps ps' : List Piece}, Piece.Agree d.qualifying d'.qualifying ps ps' →
      Piece.Agree d.qualifying d'.qualifying (ps ++ [semicolon]) (ps' ++ [semicolon]) :=
    fun hps => hps.append (.cons rfl .nil)
  have hhead : ∀ {ps ps' : List Piece}, Piece.Agree d.qualifying d'.qualifying ps ps' →
      Piece.Agree d.qualifying d'.qualifying (headPieces ps) (headPieces ps') :=
    fun hps => .cons rfl (hps.parenthesized.append (.cons rfl .nil))
  have hbraced : ∀ {ps ps' : List Piece}, Piece.Agree d.qualifying d'.qualifying ps ps' →
      ∀ level, Piece.Agree d.qualifying d'.qualifying (bracedPieces level ps)
        (bracedPieces level ps') :=
    fun hps _ => .append (.append (.cons rfl (.cons rfl .nil)) hps) (.cons rfl (.cons rfl .nil))
  have hlines : ∀ {ss ss' : List Stmt} {level : Nat}, Forall₂ Stmt.Twin ss ss' →
      (∀ s ∈ ss, ∀ s', s.Twin s' →
        Piece.Agree d.qualifying d'.qualifying (s.pieces d level) (s'.pieces d' level)) →
      Piece.Agree d.qualifying d'.qualifying (linePieces d level ss) (linePieces d' level ss') := by
    intro ss ss' level hss ih
    induction hss with
    | nil => exact .nil
    | cons hs _ ihs =>
      exact (Piece.Agree.cons rfl (ih _ List.mem_cons_self _ hs)).append
        (.cons rfl (ihs fun t ht => ih t (List.mem_cons_of_mem _ ht)))
  have hpart : ∀ {o o' : Option Expr}, Option.Rel Expr.Twin o o' →
      Piece.Agree d.qualifying d'.qualifying (headerPart d o) (headerPart d' o') := by
    intro o o' ho
    cases ho with
    | none => exact .nil
    | some he => exact .cons rfl (hexpr he)
  induction s generalizing s' level with
  | block body ih =>
    obtain ⟨hbody⟩ := h
    exact hbraced (hlines hbody fun s hs _ h => ih s hs h _) _
  | decl decl =>
    obtain _ | ⟨hdecl⟩ := h
    exact hfinished (hdecl.agree hd)
  -- From here on: the twin of a statement has the twins of its parts.
  | ifElse c s o ihs iho =>
    obtain _ | _ | ⟨hc, hs, ho⟩ := h
    -- The header and the first branch, and then the branch that may be missing.
    refine ((Piece.Agree.cons rfl (hhead (hexpr hc))).append (ihs hs level)).append ?_
    cases ho with
    | none => exact .nil
    | some ht => exact .append (.cons rfl (.cons rfl (.cons rfl .nil))) (iho _ rfl ht level)
  | forLoop i c t s ihi ihs =>
    obtain _ | _ | _ | @⟨_, i', _, _, _, _, _, _, hi, hc, ht, hs⟩ := h
    -- A `for` starts with a declaration or an expression; any other statement prints nothing there.
    have hinit : Piece.Agree d.qualifying d'.qualifying (initPieces d i) (initPieces d' i') := by
      cases hi with
      | none => exact .nil
      | some hs =>
        cases hs with
        | decl hdecl => exact hdecl.agree hd
        | expr he => exact hexpr he
        | _ => exact .nil
    refine .append (.cons rfl (hhead ?_)) (ihs hs level)
    exact (hinit.append (.cons rfl (hpart hc))).append (.cons rfl (hpart ht))
  | whileLoop c s ih =>
    obtain _ | _ | _ | _ | ⟨hc, hs⟩ := h
    exact (Piece.Agree.cons rfl (hhead (hexpr hc))).append (ih hs level)
  | doWhile s c ih =>
    obtain _ | _ | _ | _ | _ | ⟨hs, hc⟩ := h
    -- The two words around the body are blanks and words without a precision.
    refine hfinished (.append (.append (.append ?_ (ih hs level)) ?_) (hexpr hc).parenthesized)
    · exact .cons rfl (.cons rfl .nil)
    · exact .cons rfl (.cons rfl (.cons rfl .nil))
  | switchOn v cs ih =>
    obtain _ | _ | _ | _ | _ | _ | @⟨_, _, _, cs', hv, hcs⟩ := h
    -- A label is no part in which twins can differ.
    have hcases : Piece.Agree d.qualifying d'.qualifying (casePieces d (level + 1) cs)
        (casePieces d' (level + 1) cs') := by
      clear hv
      induction hcs with
      | nil => exact .nil
      | cons hcase _ ihcs =>
        obtain ⟨label, hbody⟩ := hcase
        refine .append (.append (.cons rfl (.of_isBasic (isBasic_labelPieces label))) ?_) ?_
        · exact hlines hbody fun s hs _ h => ih _ _ List.mem_cons_self s hs h _
        · exact ihcs fun label body hmem => ih label body (List.mem_cons_of_mem _ hmem)
    exact (Piece.Agree.cons rfl (hhead (hexpr hv))).append (hbraced hcases _)
  -- An expression or a value is printed with its semicolon.
  | expr e =>
    obtain _ | _ | _ | _ | _ | _ | _ | ⟨he⟩ := h
    exact hfinished (hexpr he)
  | returnWith v =>
    obtain _ | _ | _ | _ | _ | _ | _ | _ | ⟨hv⟩ := h
    cases hv with
    | none => exact .cons rfl (.cons rfl .nil)
    | some he => exact hfinished (.cons rfl (.cons rfl (hexpr he)))
  -- What is left are words and marks without any parts.
  | breakOut | continueLoop | discard =>
    cases h
    exact .cons rfl (.cons rfl .nil)
  | emitVertex | endPrimitive =>
    cases h
    exact .cons rfl (.cons rfl (.cons rfl (.cons rfl .nil)))

/-- Twins are refused alike. -/
theorem obstacle?_eq (hd : d.Twin d') (h : s.Twin s') : s.obstacle? d = s'.obstacle? d' := by
  -- First, what the obstacle of a statement is looked for in.
  have hexpr : ∀ {e e' : Expr}, e.Twin e' → e.obstacle? d.legacy = e'.obstacle? d'.legacy := by
    intro e e' he
    rw [hd.legacy]
    exact he.obstacle?_eq
  have hpart : ∀ {o o' : Option Expr}, Option.Rel Expr.Twin o o' →
      o.bind (Expr.obstacle? d.legacy) = o'.bind (Expr.obstacle? d'.legacy) := by
    intro o o' ho
    cases ho with
    | none => rfl
    | some he => exact hexpr he
  have hlist : ∀ {ss ss' : List Stmt}, Forall₂ Stmt.Twin ss ss' →
      (∀ s ∈ ss, ∀ s', s.Twin s' → s.obstacle? d = s'.obstacle? d') →
      listObstacle? d ss = listObstacle? d' ss' := by
    intro ss ss' hss ih
    induction hss with
    | nil => rfl
    | cons hs _ ihs =>
      rw [listObstacle?, listObstacle?, ih _ List.mem_cons_self _ hs,
        ihs fun t ht => ih t (List.mem_cons_of_mem _ ht)]
  -- The parts of twins are twins, and they are searched in the same order.
  induction s generalizing s' with
  | block body ih =>
    obtain ⟨hbody⟩ := h
    exact hlist hbody fun s hs _ => ih s hs
  | decl decl =>
    obtain _ | ⟨hdecl⟩ := h
    exact hdecl.obstacle?_eq hd
  -- The branch that may be missing is asked last.
  | ifElse c s o ihs iho =>
    obtain _ | _ | @⟨_, _, _, _, _, o', hc, hs, ho⟩ := h
    have helse : optionObstacle? d o = optionObstacle? d' o' := by
      cases ho with
      | none => rfl
      | some ht => exact iho _ rfl ht
    rw [obstacle?, obstacle?, hexpr hc, ihs hs, helse]
  | forLoop i c t s ihi ihs =>
    obtain _ | _ | _ | @⟨_, i', _, _, _, _, _, _, hi, hc, ht, hs⟩ := h
    -- A `for` is only asked about what it can start with.
    have hinit : initObstacle? d i = initObstacle? d' i' := by
      cases hi with
      | none => rfl
      | some hs =>
        cases hs with
        | decl hdecl => exact hdecl.obstacle?_eq hd
        | expr he => exact hexpr he
        | _ => rfl
    rw [obstacle?, obstacle?, hinit, hpart hc, hpart ht, ihs hs]
  -- A loop asks its condition and its body.
  | whileLoop c s ih =>
    obtain _ | _ | _ | _ | ⟨hc, hs⟩ := h
    rw [obstacle?, obstacle?, hexpr hc, ih hs]
  | doWhile s c ih =>
    obtain _ | _ | _ | _ | _ | ⟨hs, hc⟩ := h
    rw [obstacle?, obstacle?, hexpr hc, ih hs]
  | switchOn v cs ih =>
    obtain _ | _ | _ | _ | _ | _ | @⟨_, _, _, cs', hv, hcs⟩ := h
    -- Cases are searched one after the other.
    have hcases : casesObstacle? d cs = casesObstacle? d' cs' := by
      clear hv
      induction hcs with
      | nil => rfl
      | cons hcase _ ihcs =>
        obtain ⟨label, hbody⟩ := hcase
        rw [casesObstacle?, casesObstacle?,
          hlist hbody fun s hs _ => ih _ _ List.mem_cons_self s hs,
          ihcs fun label body hmem => ih label body (List.mem_cons_of_mem _ hmem)]
    rw [obstacle?, obstacle?, hexpr hv, hcases]
  -- These ask nothing but their expression.
  | expr e =>
    obtain _ | _ | _ | _ | _ | _ | _ | ⟨he⟩ := h
    exact hexpr he
  | returnWith v =>
    obtain _ | _ | _ | _ | _ | _ | _ | _ | ⟨hv⟩ := h
    exact hpart hv
  | breakOut | continueLoop | discard | emitVertex | endPrimitive =>
    cases h
    rfl

end Stmt.Twin

/-! ### Programs -/

/-- Twin functions are printed by pieces that agree. -/
theorem Function.Twin.agree {fn fn' : Function} (hd : d.Twin d') (h : fn.Twin fn') :
    Piece.Agree d.qualifying d'.qualifying (fn.pieces d) (fn'.pieces d') := by
  have hparams : Piece.Agree d.qualifying d'.qualifying
      (Piece.commaSeparated (fn.params.map (Param.pieces d)))
      (Piece.commaSeparated (fn'.params.map (Param.pieces d'))) := by
    refine .commaSeparated (List.rel_map (fun p p' hp => ?_) h.params)
    unfold Param.pieces
    rw [hp.name]
    exact (Piece.Agree.qualifiedType hp.ty).append (.cons rfl (.cons rfl .nil))
  -- The body is a block, printed at the left margin.
  have hbody := (Stmt.Twin.block h.body).agree hd 0
  have hname : Piece.Agree d.qualifying d'.qualifying [.blank, .word fn.name]
      [.blank, .word fn'.name] := h.name ▸ .cons rfl (.cons rfl .nil)
  exact (((((Piece.Agree.qualifiedType h.result).append hname).append hparams.parenthesized).append
    (.cons rfl .nil)).append hbody).append (.cons rfl .nil)

/-- Twin functions have the same obstacle. -/
theorem Function.Twin.obstacle?_eq {fn fn' : Function} (hd : d.Twin d') (h : fn.Twin fn') :
    fn.obstacle? d = fn'.obstacle? d' := by
  have hty : ∀ {t t' : Ty}, t.Twin t' → t.obstacle? d.legacy = t'.obstacle? d'.legacy := by
    intro t t' ht
    rw [Ty.obstacle?, Ty.obstacle?, show t.shape = _ from ht, hd.legacy]
  have hbody : Stmt.listObstacle? d fn.body = Stmt.listObstacle? d' fn'.body :=
    (Stmt.Twin.block h.body).obstacle?_eq hd
  rw [Function.obstacle?, Function.obstacle?, hty h.result, hbody,
    findSome?_eq_of_forall₂ h.params fun p p' hp => hty hp.ty]

/-- Layouts are basic pieces. -/
theorem Layout.isBasic_pieces (l : Layout) : ∀ p ∈ l.pieces, p.isBasic = true := by
  -- No item of a layout has a qualifier of precision in it.
  have hitem : ∀ item : LayoutItem, ∀ p ∈ layoutItemPieces item, p.isBasic = true := by
    intro item
    cases item <;> simp [layoutItemPieces, Piece.spaced, Piece.blank, Piece.isBasic]
  have hitems := Piece.isBasic_parenthesized (Piece.isBasic_commaSeparated fun ps hps => by
    obtain ⟨item, -, rfl⟩ := List.mem_map.mp hps
    exact hitem item : ∀ p ∈ Piece.commaSeparated (l.items.map layoutItemPieces), _)
  refine List.forall_mem_append.mpr ⟨List.forall_mem_cons.mpr ⟨rfl, hitems⟩, ?_⟩
  simp [Piece.blank, Piece.lineBreak, Piece.isBasic]

/-- Twin elements are printed by pieces that agree. -/
theorem Element.Twin.agree {el el' : Element} (hd : d.Twin d') (h : el.Twin el') :
    Piece.Agree d.qualifying d'.qualifying (el.pieces d) (el'.pieces d') := by
  cases h with
  | global hdecl => exact (hdecl.agree hd).append (.cons rfl (.cons rfl .nil))
  | function hfn => exact hfn.agree hd
  | layout l => exact .of_isBasic (Layout.isBasic_pieces l)

/-- Twin elements have the same obstacle. -/
theorem Element.Twin.obstacle?_eq {el el' : Element} (hd : d.Twin d') (h : el.Twin el') :
    el.obstacle? d = el'.obstacle? d' := by
  cases h with
  | global hdecl => exact hdecl.obstacle?_eq hd
  | function hfn => exact hfn.obstacle?_eq hd
  | layout l => rfl

end

/-! ### Texts -/

namespace Glsl

/-- Whether a piece sets the default precision of a type. -/
def Piece.isDefault : Piece → Bool
  | .defaultPrecision _ => true
  | _ => false

/-- The declaration of the fragment color with its qualifier. -/
def reducedColor : List Piece :=
  [.word "out", .blank, .qualifier .reduced, .word "vec4", .blank, .word "sk_FragColor",
    .mark ";", .lineBreak]

/-- The pieces of a program have the qualifiers that a profile asks for. -/
structure Qualified (profile : Profile) (ps : List Piece) : Prop where
  /-- default precisions are those of floats and of two-dimensional samplers, or none -/
  defaults : (ps.filter Piece.isDefault).map Piece.text =
    if profile.usesPrecision then
      ["precision mediump float;\n", "precision mediump sampler2D;\n"]
    else []
  off : profile.usesPrecision = false → ∀ p ∈ ps, p.isPlain = true
  /-- all declarations but that of the fragment color have the highest precision -/
  highest : profile.usesPrecision = true → profile.forcesHighPrecision = true →
    ∃ before output after, ps = before ++ output ++ after ∧
      (output = [] ∨ output = reducedColor) ∧
      ∀ c, .qualifier c ∈ before ++ after → (Piece.qualifier c).text = "highp "

variable {profile profile' : Profile} {p p' : Program}

/-- What a program declares, after the lines at its start and the fragment color. -/
def declarationPieces (d : Dialect) (s : Scratch) (p : Program) : List Piece :=
  s.globals.flatMap (AddedGlobal.pieces d) ++ s.helpers.flatMap (fun h => h.2.pieces d) ++
    p.elements.flatMap (Element.pieces d)

/-- Lines at the start of a program, save for default precisions. -/
def firstLines (profile : Profile) (s : Scratch) : List Piece :=
  .line profile.versionLine :: s.extensions.map extensionLine

/-- A text in three parts: its first lines, what precision and the fragment color ask for, and
    everything that is declared. -/
theorem programPieces_eq (profile : Profile) (s : Scratch) (p : Program) :
    programPieces profile s p = firstLines profile s ++
      (if profile.usesPrecision then
        [.defaultPrecision "float", .defaultPrecision "sampler2D"] else []) ++
      (if s.declaresFragOutput then fragOutputPieces profile.usesPrecision else []) ++
      declarationPieces (.ofProfile profile p.stage) s p := by
  simp only [programPieces, firstLines, declarationPieces, List.append_assoc]

/-- What is declared in the texts of twins agrees. -/
theorem agree_declarationPieces {d d' : Dialect} (hd : d.Twin d') (s : Scratch) (h : p.Twin p') :
    Piece.Agree d.qualifying d'.qualifying (declarationPieces d s p)
      (declarationPieces d' s p') := by
  have hglobal : ∀ g : AddedGlobal,
      Piece.Agree d.qualifying d'.qualifying (g.pieces d) (g.pieces d') := by
    intro g
    cases g with
    | declared decl => exact ((Decl.Twin.refl decl).agree hd).append (.cons rfl (.cons rfl .nil))
    | upperLeftOrigin =>
      exact .of_isBasic (by
        simp [AddedGlobal.pieces, Piece.parenthesized, Piece.blank, Piece.lineBreak, Piece.isBasic])
  -- What rules put in front of the program is the same on both sides.
  refine .append (.append ?_ ?_) (.flatMap h.elements fun _ _ hel => hel.agree hd)
  · refine .flatMap (R := Eq) (List.forall₂_same.mpr fun _ _ => rfl) fun g _ hg => ?_
    obtain rfl := hg
    exact hglobal g
  · refine .flatMap (R := Eq) (List.forall₂_same.mpr fun _ _ => rfl) fun g _ hg => ?_
    obtain rfl := hg
    exact (Function.Twin.refl g.2).agree hd

/-- First lines are no qualifiers and no default precisions. -/
theorem isPlain_firstLines (profile : Profile) (s : Scratch) :
    ∀ q ∈ firstLines profile s, q.isPlain = true ∧ q.isDefault = false := by
  refine List.forall_mem_cons.mpr ⟨⟨rfl, rfl⟩, fun q hq => ?_⟩
  obtain ⟨name, -, rfl⟩ := List.mem_map.mp hq
  exact ⟨rfl, rfl⟩

/-- A program is printed with the qualifiers that its profile asks for. -/
theorem qualified_programPieces (profile : Profile) (s : Scratch) (p : Program) :
    Qualified profile (programPieces profile s p) := by
  have hlines := isPlain_firstLines profile s
  have hrest : ∀ q ∈ declarationPieces (.ofProfile profile p.stage) s p,
      q.Allowed (.ofProfile profile) :=
    (agree_declarationPieces (d := .ofProfile profile p.stage) ⟨rfl, rfl⟩ s (.refl p)).left
  rw [programPieces_eq]
  generalize firstLines profile s = lines at hlines
  generalize declarationPieces _ s p = rest at hrest
  -- What is left to find out is where qualifiers and default precisions stand.
  have hqualifier : ∀ c, .qualifier c ∈ lines → False :=
    fun c hc => absurd (hlines _ hc).1 nofun
  refine ⟨?_, fun huses => ?_, fun huses hforces => ?_⟩
  · -- Default precisions stand in one place only, which depends on the profile.
    have hfirst : lines.filter Piece.isDefault = [] :=
      List.filter_eq_nil_iff.mpr fun q hq => by simp [(hlines q hq).2]
    have hlast : rest.filter Piece.isDefault = [] := by
      refine List.filter_eq_nil_iff.mpr fun q hq => ?_
      have hallowed := hrest q hq
      cases q with
      | defaultPrecision => exact hallowed.elim
      | _ => exact Bool.false_ne_true
    have houtput : (if s.declaresFragOutput then fragOutputPieces profile.usesPrecision
        else []).filter Piece.isDefault = [] := by
      cases s.declaresFragOutput <;> cases profile.usesPrecision <;> rfl
    rw [List.filter_append, List.filter_append, List.filter_append, hfirst, houtput, hlast]
    cases profile.usesPrecision <;> decide
  · -- Without precision modifiers no type has a qualifier, and the fragment color has none either.
    rw [huses]
    have houtput : ∀ q ∈ if s.declaresFragOutput then fragOutputPieces false else [],
        q.isPlain = true := by
      cases s.declaresFragOutput
      · simp
      · simp [fragOutputPieces, Piece.blank, Piece.lineBreak, Piece.isPlain]
    have hlast : ∀ q ∈ rest, q.isPlain = true := by
      intro q hq
      have hallowed := hrest q hq
      cases q with
      | defaultPrecision => exact hallowed.elim
      | qualifier c =>
        obtain ⟨ty, hty⟩ := hallowed
        exact absurd hty (by simp [Qualifying.ofProfile, Qualifying.qualifier?, huses])
      | _ => rfl
    simp only [Bool.false_eq_true, if_false, List.append_nil]
    exact List.forall_mem_append.mpr
      ⟨List.forall_mem_append.mpr ⟨fun q hq => (hlines q hq).1, houtput⟩, hlast⟩
  · -- With forced precision, whatever has a qualifier has the highest, save for the fragment color.
    rw [huses, if_pos rfl]
    refine ⟨_, _, rest, rfl, ?_, fun c hc => ?_⟩
    · cases s.declaresFragOutput
      · exact .inl rfl
      · exact .inr rfl
    · simp only [List.mem_append, List.mem_cons, List.not_mem_nil, reduceCtorEq, or_false] at hc
      rcases hc with hc | hc
      · exact (hqualifier c hc).elim
      · obtain ⟨ty, hty⟩ := hrest _ hc
        simp only [Qualifying.ofProfile, huses, hforces, Qualifying.qualifier?] at hty
        split at hty
        · obtain rfl : Precision.full = c := Option.some.inj hty
          rfl
        · exact absurd hty nofun

/-- Twins have the same obstacle for profiles that differ in precision. -/
theorem programObstacle?_twin (hd : Dialect.Twin (.ofProfile profile p.stage)
    (.ofProfile profile' p'.stage)) (s : Scratch) (h : p.Twin p') :
    programObstacle? profile s p = programObstacle? profile' s p' := by
  -- What rules put in front of the program is its own twin.
  have hglobal : ∀ g : AddedGlobal, g.obstacle? (.ofProfile profile p.stage) =
      g.obstacle? (.ofProfile profile' p'.stage) := by
    intro g
    cases g with
    | declared decl => exact (Decl.Twin.refl decl).obstacle?_eq hd
    | upperLeftOrigin => rfl
  have hhelper : ∀ fn : Function, fn.obstacle? (.ofProfile profile p.stage) =
      fn.obstacle? (.ofProfile profile' p'.stage) := fun fn =>
    (Function.Twin.refl fn).obstacle?_eq hd
  simp only [programObstacle?, funext hglobal, hhelper,
    findSome?_eq_of_forall₂ h.elements fun _ _ hel => hel.obstacle?_eq hd]

/-- Twins with the same lines at the start are printed alike but for what has to do with
    precision. -/
theorem plain_programPieces (hd : Dialect.Twin (.ofProfile profile p.stage)
    (.ofProfile profile' p'.stage)) (s : Scratch) (h : p.Twin p')
    (hversion : profile.versionLine = profile'.versionLine) :
    (programPieces profile s p).filter Piece.isPlain =
      (programPieces profile' s p').filter Piece.isPlain := by
  -- The parts that depend on precision are dropped, and the others are the same.
  have hdefaults : ∀ uses : Bool, (if uses then
      [Piece.defaultPrecision "float", .defaultPrecision "sampler2D"] else []).filter
      Piece.isPlain = [] := by
    intro uses
    cases uses <;> rfl
  have houtput : ∀ uses : Bool, (if s.declaresFragOutput then fragOutputPieces uses
      else []).filter Piece.isPlain =
      if s.declaresFragOutput then fragOutputPieces false else [] := by
    intro uses
    cases s.declaresFragOutput <;> cases uses <;> rfl
  have hrest := (agree_declarationPieces hd s h).plain
  have hlines : firstLines profile s = firstLines profile' s := by
    rw [firstLines, hversion, firstLines]
  rw [programPieces_eq, programPieces_eq]
  simp only [List.filter_append, hdefaults, houtput, hrest, hlines]

end Glsl

open Legalize

/-- What is printed for a target, and for the same target with full precision throughout, is the
    same but for precision qualifiers; or both are refused for the same reason. -/
theorem requalified_piecesM (t : Target) (p : Program) :
    besidesGen.Holds (fun ps ps' => ps.filter Piece.isPlain = ps'.filter Piece.isPlain ∧
      Qualified t.profile ps) (piecesM t p) (piecesM (t.qualifying true true) p) := by
  -- The check does not look at precisions.
  have hcheck : besidesGen.Holds (fun _ _ => True) (checkM p) (checkM p) := by
    unfold checkM
    split
    · exact besides_fail _
    · exact besidesGen.pure trivial
  refine besidesGen.bind hcheck fun _ _ _ => ?_
  refine besidesGen.bind (twin_legalize t p) fun p p' h => ?_
  refine besidesGen.bind besides_get fun s s' hs => ?_
  obtain ⟨log, rfl⟩ := hs
  -- What the two runs have in common is the dialect, save for its qualifiers.
  have hd : Dialect.Twin (.ofProfile t.profile p.stage)
      (.ofProfile (t.qualifying true true).profile p'.stage) := ⟨rfl, h.stage⟩
  have hlog : programObstacle? (t.qualifying true true).profile { s with log } p' =
      programObstacle? (t.qualifying true true).profile s p' := rfl
  rw [show programObstacle? t.profile s p = _ from programObstacle?_twin hd s h, hlog]
  cases programObstacle? (t.qualifying true true).profile s p' with
  | some fault => exact besides_fail _
  | none =>
    refine besidesGen.pure ⟨?_, qualified_programPieces _ _ _⟩
    exact plain_programPieces hd s h rfl

/-- Texts for targets that differ in precision qualifiers alone are the same once qualifiers and
    default precisions are taken out, and each has the qualifiers that its target asks for. The
    declared uniforms are the same; and where one target is refused, so is the other, with the same
    error. -/
theorem generate_ignores_precision (t : Target) (uses forces : Bool) (p : Program) :
    Except.Pairs
      (fun o o' => o.inputs = o'.inputs ∧ ∃ ps ps',
        printed t p = .ok ps ∧ o.text = Piece.render ps ∧ Qualified t.profile ps ∧
        printed (t.qualifying uses forces) p = .ok ps' ∧ o'.text = Piece.render ps' ∧
        Qualified (t.qualifying uses forces).profile ps' ∧
        ps.filter Piece.isPlain = ps'.filter Piece.isPlain)
      (generate t p) (generate (t.qualifying uses forces) p) := by
  -- Both targets are compared with the one that has full precision throughout.
  have hleft := requalified_piecesM t p {} {} ⟨[], rfl⟩
  have hright := requalified_piecesM (t.qualifying uses forces) p {} {} ⟨[], rfl⟩
  rw [show (t.qualifying uses forces).qualifying true true = t.qualifying true true from rfl]
    at hright
  obtain ⟨hfaults, hlog⟩ := hleft
  obtain ⟨hfaults', hlog'⟩ := hright
  cases hrun : (piecesM t p).run.run {} with | mk result s =>
  cases hrun' : (piecesM (t.qualifying uses forces) p).run.run {} with | mk result' s' =>
  cases hfull : (piecesM (t.qualifying true true) p).run.run {} with | mk full s₀ =>
  -- All three runs succeed or fail together, and they leave the same inputs.
  rw [hrun, hfull] at hfaults hlog
  rw [hrun', hfull] at hfaults' hlog'
  have hinputs : s.inputs = s'.inputs := hlog.inputs.trans hlog'.inputs.symm
  cases hfaults with
  | error fault =>
    cases hfaults' with
    | error _ =>
      rw [generate_of_fault hrun, generate_of_fault hrun']
      exact .error _
  | @ok ps _ hps =>
    cases hfaults' with
    -- The texts without qualifiers are compared by way of the third run.
    | @ok ps' _ hps' =>
      rw [generate_of_run hrun, generate_of_run hrun']
      exact .ok ⟨hinputs, ps, ps', congrArg Prod.fst hrun, rfl, hps.2,
        congrArg Prod.fst hrun', rfl, hps'.2, hps.1.trans hps'.1.symm⟩

end ShaderGen
