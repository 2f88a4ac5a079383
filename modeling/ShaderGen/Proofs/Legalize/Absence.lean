import ShaderGen.Proofs.Legalize.Lenient
import ShaderGen.Proofs.Legalize.Unfolded

/-!
# Constructs that rules do not bring in

A construct is a kind of nodes together with a kind of loops. Rules bring in few kinds of nodes of
their own accord (`Expr.isMade`), and loops only in the place of other loops or of invocations.
Where a program is free of a construct (`Program.Free`), it stays so under all rules that do not
bring it in.

## Key results

- `Legalize.free_rule`: what rules leave a program without
- `Legalize.free_legalize`: nodes that no rule brings in
-/

namespace ShaderGen

open List (Forall₂)

/-! ### Constructs -/

/-- Kind of a loop. -/
inductive Loop where
  | forLoop
  | whileLoop
  | doWhile
deriving DecidableEq

namespace Stmt

/-- The kind of loop that a statement is. -/
def loop? : Stmt → Option Loop
  | .forLoop _ _ _ _ => some .forLoop
  | .whileLoop _ _ => some .whileLoop
  | .doWhile _ _ => some .doWhile
  | _ => none

/-- Mirrored statements are loops of one kind, or neither is a loop. -/
theorem Mirrors.loop?_eq {R : Expr → Expr → Prop} {s s' : Stmt} (h : s.Mirrors R s') :
    s'.loop? = s.loop? := by
  cases h <;> rfl

end Stmt

/-- A kind of nodes and a kind of loops. -/
structure Construct where
  node : Expr → Bool := fun _ => false
  loop : Loop → Bool := fun _ => false

namespace Expr

/-- A node such as rules bring in where there was none: no choice, short-circuit operator, number of
    an invocation or fragment color, and no call of a function that a workaround is for or that
    takes a derivative. -/
def isMade : Expr → Bool
  | .ternary _ _ _ _ => false
  | .binary _ op _ _ => op != .logicalAnd && op != .logicalOr
  | .call _ (.intrinsic f) _ => !([.pow, .atan, .min, .abs, .fract, .dFdx, .dFdy].contains f)
  | .builtin _ which => which != .invocationId && which != .fragColor
  | _ => true

end Expr

namespace Construct

/-- A kind of nodes that does not depend on children or precisions, and that rules do not bring in
    as a matter of course. -/
structure Foreign (k : Construct) : Prop where
  children (e : Expr) (cs : List Expr) : k.node (e.withChildren cs) = k.node e
  raised (e : Expr) : k.node (Legalize.HighPrecision.raiseNode e) = k.node e
  made {e : Expr} : e.isMade = true → k.node e = false

/-- A statement is none of the loops, and there is none of the nodes in its own expressions. -/
def Spares (k : Construct) (s : Stmt) : Prop :=
  s.loop?.any k.loop = false ∧ ∀ e ∈ s.own, e.any k.node = false

/-- A kind of nodes that no rule brings in. -/
structure Untouched (k : Construct) : Prop extends Foreign k where
  loops : ∀ l, k.loop l = false := by intros; rfl
  choice : ∀ ty c a b, k.node (.ternary ty c a b) = false := by intros; rfl
  conjunction : ∀ ty a b, k.node (.binary ty .logicalAnd a b) = false := by intros; rfl
  abs : ∀ ty args, k.node (.call ty (.intrinsic .abs) args) = false := by intros; rfl
  fract : ∀ ty args, k.node (.call ty (.intrinsic .fract) args) = false := by intros; rfl

/-- An expression that takes the place of another has none of the nodes if that has none. -/
def Avoids (k : Construct) (e e' : Expr) : Prop := e.any k.node = false → e'.any k.node = false

end Construct

/-- What the rule of a name brings in, where there is some, is not of a construct. Normalizing a
    swizzle only moves nodes around, but is seen as moving choices as well. -/
def Construct.Tolerates (k : Construct) : String → Prop
  | "gs_invocations" => k.loop .forLoop = false
  | "do_while" => k.loop .doWhile = false → k.loop .whileLoop = false
  | "short_circuit" | "min_abs" | "swizzle" => ∀ ty c a b, k.node (.ternary ty c a b) = false
  | "loop_condition_and_true" => ∀ ty a b, k.node (.binary ty .logicalAnd a b) = false
  | "negative_fract" => (∀ ty args, k.node (.call ty (.intrinsic .abs) args) = false) ∧
      ∀ ty args, k.node (.call ty (.intrinsic .fract) args) = false
  | _ => True

/-- There is nothing of a construct in a statement. -/
def Stmt.Free (k : Construct) (s : Stmt) : Prop := s.Everywhere k.Spares

/-- There is nothing of a construct in the statements and the initial values of a program. -/
def Outline.free (k : Construct) : Outline where
  stmts := Stmt.Free k
  globals d := ∀ e ∈ d.init, e.any k.node = false

/-- There is nothing of a construct in a program. -/
def Program.Free (k : Construct) (p : Program) : Prop := p.Shows (.free k)

/-- No node of a program that is free of a construct is one of the construct. -/
theorem Program.Free.all {k : Construct} {p : Program} (hp : p.Free k) :
    p.All fun e => e.any k.node = false := by
  intro el hel
  have h := hp el hel
  cases el with
  | global d => exact h
  | function fn => exact fun s hs => (h.2 s hs).all fun s hs => hs.2
  | layout l => trivial

/-! ### Statements -/

namespace Stmt

variable {k : Construct}

/-- What a node spares is read off the node itself. -/
theorem shallow_spares : Shallow k.Spares where
  block _ := ⟨rfl, nofun⟩
  ifElse h := h
  forLoop h := h
  whileLoop h := h
  doWhile h := h
  switchOn h := h

/-- A block is free if its members are. -/
theorem free_block {ss : List Stmt} (h : ∀ s ∈ ss, s.Free k) : (block ss).Free k :=
  .intro ⟨rfl, nofun⟩ h

/-- A statement without statements inside is free if its expressions are. -/
theorem free_leaf {s : Stmt} (hloop : s.loop? = none) (hown : ∀ e ∈ s.own, e.any k.node = false)
    (hnested : s.nested = []) : s.Free k :=
  .intro ⟨by rw [hloop]; rfl, hown⟩ (by simp [hnested])

/-- An expression as a statement is free if the expression is. -/
theorem free_expr {e : Expr} (h : e.any k.node = false) : (expr e).Free k :=
  free_leaf rfl (List.forall_mem_singleton.mpr h) rfl

/-- A declaration is free if its initial value is. -/
theorem free_decl {d : Decl} (h : ∀ e ∈ d.init, e.any k.node = false) : (decl d).Free k :=
  free_leaf rfl (fun e he => h e (Option.mem_toList.mp he)) rfl

/-- A choice of statements is free if the condition and both branches are. -/
theorem free_ifElse {cond : Expr} {s : Stmt} {otherwise : Option Stmt}
    (hcond : cond.any k.node = false) (hs : s.Free k) (hother : ∀ s ∈ otherwise, s.Free k) :
    (ifElse cond s otherwise).Free k :=
  .intro ⟨rfl, List.forall_mem_singleton.mpr hcond⟩
    (List.forall_mem_cons.mpr ⟨hs, fun t ht => hother t (Option.mem_toList.mp ht)⟩)

/-- Wrapping a body in a block adds no construct. -/
theorem free_toBlock {s : Stmt} (h : s.Free k) : s.toBlock.Free k := by
  unfold toBlock
  split
  · exact h
  · exact free_block (List.forall_mem_singleton.mpr h)

/-- Replacing statements by free ones leaves a free body. -/
theorem free_expandList {f : Stmt → List Stmt} (hf : ∀ s : Stmt, s.Free k → ∀ u ∈ f s, u.Free k)
    {body : List Stmt} (h : ∀ s ∈ body, s.Free k) : ∀ s ∈ expandList f body, s.Free k :=
  (expandListM_everywhere (m := Id) .yields shallow_spares (fun _ => .pure hf) h).of_id

end Stmt

namespace Outline

variable {k : Construct}

/-- A rewrite that adds no node of the construct leaves free bodies. -/
theorem turns_free : Turns k.Avoids (free k) (free k) where
  stmts h := h.everywhere fun s s' hmirror hs => by
    refine ⟨hmirror.loop?_eq ▸ hs.1, fun e' he' => ?_⟩
    obtain ⟨e, he, havoids⟩ := Stmt.exists_of_forall₂ hmirror.own e' he'
    exact havoids (hs.2 e he)
  globals h := (turns_ofExprs fun h => h).globals h
  header := id
  temp h := Stmt.free_decl (by simp [h])

/-- A moved initial value is put into a function that is free of the construct. -/
theorem hoists_free (hk : k.Foreign) : Hoists (free k) where
  header _ _ := trivial
  value hd hvalue :=
    Stmt.free_leaf rfl (fun _ he => hvalue _ (hd.trans (Option.mem_toList.mp he))) rfl
  call _ _ _ _ he := Option.mem_some.mp he ▸ Expr.any_eq_false_iff.mpr ⟨hk.made rfl, nofun⟩

end Outline

/-! ### Nodes -/

namespace Construct

open Legalize ShaderGen.Expr

variable {k : Construct} {e : Expr}

/-- Sub-expressions may be rewritten without adding a node of the construct. -/
theorem Foreign.congruence (hk : k.Foreign) : IsCongruence k.Avoids where
  trans h h' := h' ∘ h
  congr := (isCongruence_avoids hk.children).congr

/-- A node that rules bring in over children without any of the nodes. -/
theorem Foreign.over (hk : k.Foreign) (h : e.isMade = true)
    (hchildren : ∀ c ∈ e.children, c.any k.node = false) : e.any k.node = false :=
  any_eq_false_iff.mpr ⟨hk.made h, hchildren⟩

/-- An operator the rules write with one operand is free if the operand is. -/
theorem Foreign.unary (hk : k.Foreign) {ty : Ty} {op : UnaryOp} (h : e.any k.node = false) :
    (Expr.unary ty op e).any k.node = false :=
  hk.over rfl (List.forall_mem_singleton.mpr h)

/-- An operator the rules write with two operands is free if both are. -/
theorem Foreign.binary (hk : k.Foreign) {ty : Ty} {op : BinaryOp} {right : Expr}
    (hop : (Expr.binary ty op e right).isMade = true) (hl : e.any k.node = false)
    (hr : right.any k.node = false) : (Expr.binary ty op e right).any k.node = false :=
  hk.over hop (List.forall_mem_cons.mpr ⟨hl, List.forall_mem_singleton.mpr hr⟩)

/-- A variable the rules write is none of the construct. -/
theorem Foreign.var (hk : k.Foreign) {ty : Ty} {name : String} :
    (Expr.var ty name).any k.node = false :=
  hk.over rfl nofun

/-- A literal the rules write is none of the construct. -/
theorem Foreign.literal (hk : k.Foreign) {ty : Ty} {value : Literal} :
    (Expr.literal ty value).any k.node = false :=
  hk.over rfl nofun

/-- An expression of such nodes only. -/
theorem Foreign.closed (hk : k.Foreign) (h : e.Every isMade) : e.any k.node = false :=
  any_mono (fun n hn => by
    cases hmade : n.isMade with
    | true => exact absurd hn (by simp [hk.made hmade])
    | false => rfl) h

/-- Every assignment is among the nodes that the rules write. -/
theorem isMade_assignment {op : BinaryOp} (hop : op.isAssignment = true) (ty : Ty)
    (left right : Expr) : (Expr.binary ty op left right).isMade = true := by
  cases op <;> first | rfl | cases hop

section

variable (hk : k.Foreign)

include hk

/-- Raising a precision adds no node of a foreign construct. -/
theorem avoids_raise (e : Expr) : k.Avoids e (HighPrecision.raiseNode e) := by
  intro he
  rw [any_eq_false_iff] at he ⊢
  rw [hk.raised, HighPrecision.raiseNode, children_withTy]
  exact he

/-- Reading a size from a uniform adds none. -/
theorem avoids_substitute (e : Expr) : k.Avoids e (TargetSize.substituteNode e) := by
  intro he
  unfold TargetSize.substituteNode
  split
  · exact hk.var
  · split
    · exact hk.var
    · exact he

/-- Reading a coordinate from a local adds none. -/
theorem avoids_readLocal (prologue : FragCoord.Prologue) (e : Expr) :
    k.Avoids e (FragCoord.readLocal prologue e) := by
  intro he
  unfold FragCoord.readLocal
  split
  · exact hk.var
  · exact he

/-- Writing the position to a varying adds none. -/
theorem avoids_forward (e : Expr) : k.Avoids e (FragCoord.forwardNode e) := by
  intro he
  unfold FragCoord.forwardNode
  split
  · exact hk.binary rfl hk.var he
  · exact he

/-- Negating a derivative adds none. -/
theorem avoids_negateDerivative (e : Expr) : k.Avoids e (FlipY.negateDerivative e) := by
  intro he
  unfold FlipY.negateDerivative
  split
  · exact hk.unary he
  · exact he

/-- Resolving a texture lookup adds none, with a bias or without. -/
theorem avoids_resolve (profile : Profile) (e : Expr) :
    Yields (k.Avoids e) (TextureLookup.resolveNode profile e) := by
  unfold TextureLookup.resolveNode
  split
  · next ty args =>
    -- The arguments are those of the lookup, and a literal if it is biased.
    refine .after fun r => .pure fun he => hk.over ?_ fun a ha => ?_
    · obtain ⟨dim, projective⟩ := r
      unfold TextureLookup.entryPoint
      split <;> rfl
    · have hargs := (any_eq_false_iff.mp he).2
      have ha : a ∈ TextureLookup.biased profile.sharpensMipmaps r.1 args := ha
      unfold TextureLookup.biased at ha
      split at ha
      · rcases List.mem_append.mp ha with ha | ha
        · exact hargs a ha
        · rw [List.mem_singleton.mp ha]
          exact hk.literal
      · exact hargs a ha
  · exact .pure id

/-- Reading the invocation from a counter adds none. -/
theorem avoids_readCounter (e : Expr) : k.Avoids e (Invocations.readCounter e) := by
  intro he
  unfold Invocations.readCounter
  split
  · exact hk.var
  · exact he

/-- Collapsing a chosen target adds none: it keeps a part of the target. -/
theorem avoids_collapse (e : Expr) : k.Avoids e (TernaryTarget.collapseNode e) := by
  have harm : ∀ e : Expr, k.Avoids e (TernaryTarget.collapse e) := fun e he =>
    (Reworks.collapse_inside (.self (e := e))).1.any_eq_false he
  refine TernaryTarget.collapseNode_holds (P := k.Avoids e) id ?_ ?_
  -- Targets are under an assignment, or under an increment or decrement.
  · rintro ty op left right rfl -
    exact hk.congruence.congr (e := .binary ty op left right) (.cons (harm left) (.cons id .nil))
  · rintro ty op operand rfl -
    exact hk.congruence.congr (e := .unary ty op operand) (.cons (harm operand) .nil)

/-- Expanding a power adds none. -/
theorem avoids_expand (e : Expr) : Yields (k.Avoids e) (ConstantPow.expandNode e) := by
  unfold ConstantPow.expandNode
  split
  · next ty base exponent =>
    split
    · refine .pure fun he => ?_
      obtain ⟨hbase, hexponent⟩ := List.forall_mem_cons.mp (any_eq_false_iff.mp he).2
      -- A power is written as `exp2` of a product with `log2` of the base.
      have hlog : (ofCall .log2 [base]).any k.node = false :=
        hk.over rfl (List.forall_mem_singleton.mpr hbase)
      exact hk.over rfl (List.forall_mem_singleton.mpr
        (hk.binary rfl (hexponent exponent List.mem_cons_self) hlog))
    · exact .pure id
  · exact .error _
  · exact .pure id

/-- Calling the helper for an integer absolute value adds none. -/
theorem avoids_emulate (e : Expr) : Yields (k.Avoids e) (IntAbs.emulateNode e) := by
  refine IntAbs.emulateNode_holds (P := Yields (k.Avoids e)) (.pure id) ?_
  rintro ty args rfl -
  exact .after fun _ => .pure fun he => hk.over rfl (any_eq_false_iff.mp he).2

/-- A choice stands for a short-circuit operator. -/
theorem avoids_unfold (hchoice : ∀ ty c a b, k.node (.ternary ty c a b) = false) (e : Expr) :
    k.Avoids e (ShortCircuit.unfoldNode e) := by
  intro he
  unfold ShortCircuit.unfoldNode
  split
  · -- The conjunction and the disjunction become choices with a literal in one of the arms.
    obtain ⟨hl, hr⟩ := List.forall_mem_cons.mp (any_eq_false_iff.mp he).2
    refine any_eq_false_iff.mpr ⟨hchoice _ _ _ _, List.forall_mem_cons.mpr ⟨hl, ?_⟩⟩
    exact List.forall_mem_cons.mpr ⟨hr _ List.mem_cons_self,
      List.forall_mem_singleton.mpr hk.literal⟩
  · obtain ⟨hl, hr⟩ := List.forall_mem_cons.mp (any_eq_false_iff.mp he).2
    refine any_eq_false_iff.mpr ⟨hchoice _ _ _ _, List.forall_mem_cons.mpr ⟨hl, ?_⟩⟩
    exact List.forall_mem_cons.mpr ⟨hk.literal,
      List.forall_mem_singleton.mpr (hr _ List.mem_cons_self)⟩
  · exact he

/-- Splitting a minimum brings in choices, and no calls. -/
theorem refits_avoids_choices (hchoice : ∀ ty c a b, k.node (.ternary ty c a b) = false)
    (replaced : Expr → Bool) : Refits false replaced k.Avoids := by
  refine refits_avoids replaced hk.children (fun n hn => ?_) fun _ _ _ => hk.made rfl
  have hplain := isPlain_of_isFiller hn
  have hcall := (Bool.and_eq_true_iff.mp hn).2
  have hop := not_isShortCircuit_of_isFiller hn
  -- The nodes that fill a tree are made by the rules, but for choices.
  cases n with
  | ternary => exact hchoice _ _ _ _
  | binary ty op => cases op <;> first | exact hk.made rfl | cases hop
  | call => cases hcall
  | builtin => cases hplain
  | _ => exact hk.made rfl

/-- Multiplying the second operand of an arc tangent adds none. -/
theorem avoids_multiply (e : Expr) : k.Avoids e (AtanOperand.multiplyNode e) := by
  refine AtanOperand.multiplyNode_holds (P := k.Avoids e) id ?_
  rintro ty y xTy x rfl - he
  obtain ⟨hcall, hargs⟩ := any_eq_false_iff.mp he
  have hneg := hargs _ (List.mem_cons_of_mem _ List.mem_cons_self)
  have hx : x.any k.node = false := (any_eq_false_iff.mp hneg).2 x List.mem_cons_self
  have hone : (float .minusOne).any k.node = false := hk.literal
  have hproduct : (AtanOperand.multiply xTy x).any k.node = false := hk.binary rfl hone hx
  -- The call stays one of the same callee with as many arguments.
  have hnode := hk.children (.call ty (.intrinsic .atan) [y, .unary xTy .neg x])
    [y, AtanOperand.multiply xTy x]
  refine any_eq_false_iff.mpr ⟨hnode.trans hcall, List.forall_mem_cons.mpr ⟨?_, ?_⟩⟩
  · exact hargs y List.mem_cons_self
  · exact List.forall_mem_singleton.mpr hproduct

/-- Normalizing a swizzle adds none, if choices are not of the construct. -/
theorem avoids_normalize (hchoice : ∀ ty c a b, k.node (.ternary ty c a b) = false) (e : Expr) :
    Yields (k.Avoids e) (e.bottomUpM Expr.normalizeSwizzle) :=
  have hR := refits_avoids_choices hk hchoice isRefitted
  hR.bottomUpM_holds .yields (hR.normalize fun _ _ _ => rfl) e

/-- Splitting a minimum adds none, if choices are not of the construct. -/
theorem avoids_split (hchoice : ∀ ty c a b, k.node (.ternary ty c a b) = false) (e : Expr) :
    unvalued.Holds (k.Avoids e) (e.bottomUpM MinAbs.splitNode) :=
  have hR := refits_avoids_choices hk hchoice isCall
  unvalued_of_declaring (hR.bottomUpM_holds _ (hR.split (fun _ _ => rfl) fun _ _ => trivial) e)

/-- Guarding a fraction brings in absolute values, and fractions of them. -/
theorem avoids_guarded (habs : ∀ ty args, k.node (.call ty (.intrinsic .abs) args) = false)
    (hfract : ∀ ty args, k.node (.call ty (.intrinsic .fract) args) = false) (ty : Ty) :
    k.Avoids e (Fract.guarded e ty) := by
  intro he
  have hsign : (ofCall .sign [e]).any k.node = false :=
    hk.over rfl (List.forall_mem_singleton.mpr he)
  have hinner : (ofCall .abs [e]).any k.node = false :=
    any_eq_false_iff.mpr ⟨habs _ _, List.forall_mem_singleton.mpr he⟩
  have houter : (ofCall .fract [ofCall .abs [e]]).any k.node = false :=
    any_eq_false_iff.mpr ⟨hfract _ _, List.forall_mem_singleton.mpr hinner⟩
  -- The value is built from the inside out, each step over free operands.
  have hhalf : (float .half).any k.node = false := hk.literal
  have hdistance : (ofBinary .sub (float .half) (ofCall .fract [ofCall .abs [e]])).any k.node =
      false := hk.binary rfl hhalf houter
  exact hk.over rfl (List.forall_mem_singleton.mpr
    (hk.binary rfl hhalf (hk.binary rfl hsign hdistance)))

/-- An operand without effects is guarded as it is. -/
theorem avoids_guardPure (habs : ∀ ty args, k.node (.call ty (.intrinsic .abs) args) = false)
    (hfract : ∀ ty args, k.node (.call ty (.intrinsic .fract) args) = false) (e : Expr) :
    k.Avoids e (Fract.guardPure e) := by
  intro he
  unfold Fract.guardPure
  split
  · next x hx =>
    exact avoids_guarded hk habs hfract _ ((Refits.operand_inside hx).2.any_eq_false he)
  · exact he

/-- An operand with effects is stored first, and the temporary is guarded. -/
theorem avoids_guard (habs : ∀ ty args, k.node (.call ty (.intrinsic .abs) args) = false)
    (hfract : ∀ ty args, k.node (.call ty (.intrinsic .fract) args) = false) (e : Expr) :
    unvalued.Holds (k.Avoids e) (e.bottomUpM Fract.guardNode) := by
  refine hk.congruence.bottomUpM_holds unvalued (fun e => ?_) e
  unfold Fract.guardNode
  split
  · next x hx =>
    have hoperand : e.any k.node = false → x.any k.node = false :=
      (Refits.operand_inside hx).2.any_eq_false
    split
    · -- The name of the temporary does not matter, only that it is a variable.
      refine unvalued.bind (unvalued_freshTemp _ _) ?_
      rintro _ ⟨name, rfl⟩
      refine unvalued.pure fun he => ?_
      exact hk.binary rfl (hk.binary rfl hk.var (hoperand he))
        (avoids_guarded hk habs hfract _ hk.var)
    · exact unvalued.pure fun he => avoids_guarded hk habs hfract _ (hoperand he)
  · exact unvalued.pure id

end

end Construct

/-! ### Rules -/

namespace Legalize

open Outline Stmt Construct

variable {k : Construct} {t : Target} {p : Program} (hk : k.Foreign)

/-- A map of nodes that adds none leaves a free program. -/
theorem free_mapNodes {f : Expr → Expr} (hf : ∀ e, k.Avoids e (e.bottomUp f)) (hp : p.Free k) :
    (p.mapNodes f).Free k :=
  Replaces.shows_mapNodes turns_free hf hp

/-- A map of bodies that adds none leaves a free program. -/
theorem free_mapBodies {f : List Stmt → List Stmt}
    (hf : ∀ body, (∀ s ∈ body, s.Free k) → ∀ s ∈ f body, s.Free k) (hp : p.Free k) :
    (p.mapFunctions (Function.mapBody f)).Free k :=
  Replaces.shows_mapFunctions (fun _ => id) (fun fn hfn => ⟨trivial, hf fn.body hfn.2⟩) hp

include hk

/-- Raising precisions leaves a free program. -/
theorem free_highPrecision (hp : p.Free k) : (HighPrecision.legalize p).Free k := by
  refine free_mapNodes (hk.congruence.bottomUp (avoids_raise hk)) fun el hel => ?_
  obtain ⟨el, hmem, rfl⟩ := List.mem_map.mp hel
  have h := hp el hmem
  cases el with
  | global d => exact h
  -- Declared types are raised too, which the expressions do not show.
  | function fn =>
    exact ⟨trivial, Replaces.shows_body turns_free
      (bottomUpList_mirrors (fun _ => id) (fun _ _ => raiseStmt_mirrors) fn.body) h.2⟩
  | layout l => trivial

/-- Flipping the height leaves a free program. -/
theorem free_flip (hp : p.Free k) : (FlipY.legalize p).Free k := by
  have hnegate : FlipY.negatePosition.Free k := free_expr (hk.closed rfl)
  have hreturn : ∀ s : Stmt, s.Free k → ∀ u ∈ FlipY.beforeReturn s, u.Free k :=
    fun _ hs => FlipY.forall_mem_beforeReturn hnegate hs
  have hemit : ∀ s : Stmt, s.Free k → ∀ u ∈ FlipY.beforeEmit s, u.Free k :=
    fun _ hs => FlipY.forall_mem_beforeEmit hnegate hs
  refine FlipY.legalize_holds hp
    (free_mapNodes (hk.congruence.bottomUp (avoids_negateDerivative hk)) hp)
    (shows_mapEntry (fun fn hfn => ⟨trivial, ?_⟩) hp)
    (free_mapBodies (fun body hbody => free_expandList hemit hbody) hp)
  -- Only the entry point gets a statement at its end, if it does not end in a return.
  have hbody := free_expandList hreturn hfn.2
  unfold Function.mapBody
  rcases FlipY.flipEntryBody_cases fn.body with heq | heq <;> rw [heq]
  · exact hbody
  · exact List.forall_mem_append.mpr ⟨hbody, List.forall_mem_singleton.mpr hnegate⟩

/-- Reconstructing the coordinate leaves a free program, if its prologue is free. -/
theorem free_reconstruct {prologue : FragCoord.Prologue}
    (hprologue : ∀ s ∈ prologue.statements, s.Free k) (hp : p.Free k) :
    (p.mapFunctions (FragCoord.reconstruct prologue)).Free k := by
  refine Replaces.shows_mapFunctions (fun _ => id) (fun fn hfn => ?_) hp
  unfold FragCoord.reconstruct
  split
  · -- The body is walked first, then the prologue is put before it.
    have hbody : Yields (Forall₂ (Mirrors k.Avoids) fn.body) (Stmt.mapExprsListM
        (fun e => (pure (e.bottomUp (FragCoord.readLocal prologue)) : Id Expr)) fn.body) :=
      Replaces.mirrors_mapExprsListM Judgement.yields.verdict
        (fun e => .pure (hk.congruence.bottomUp (avoids_readLocal hk prologue) e)) fn.body
    exact ⟨trivial, List.forall_mem_append.mpr
      ⟨hprologue, Replaces.shows_body turns_free hbody.of_id hfn.2⟩⟩
  · exact hfn

/-- So does the whole rule about the fragment coordinate. -/
theorem free_fragCoord (hp : p.Free k) : Yields (Program.Free k) (FragCoord.legalize t p) := by
  have hdecl : ∀ {name ty e}, e.Every Expr.isMade → (Stmt.decl (.plain name ty (some e))).Free k :=
    fun he => free_decl fun _ h => Option.mem_some.mp h ▸ hk.closed he
  refine FragCoord.yields_legalize (P := Program.Free k) (Q := Program.Free k)
    (free_mapNodes (hk.congruence.bottomUp (avoids_substitute hk)) hp) (fun p hp _ => ?_)
    fun q hq => ?_
  · -- Either the policy rewrites functions and globals, or the program is flipped as it is.
    refine FragCoord.yields_applyPolicy hp (free_reconstruct hk ?_ hp) (free_reconstruct hk ?_ hp)
      (free_mapNodes (hk.congruence.bottomUp (avoids_forward hk)) hp) _ _
    · exact List.forall_mem_singleton.mpr (hdecl rfl)
    · refine List.forall_mem_cons.mpr ⟨hdecl rfl, List.forall_mem_cons.mpr ⟨hdecl rfl, ?_⟩⟩
      exact List.forall_mem_singleton.mpr (free_expr (hk.closed rfl))
  · split
    · exact free_flip hk hq
    · exact hq

/-- A loop runs the invocations. -/
theorem free_invocations (hloop : k.loop .forLoop = false) (hp : p.Free k) :
    Yields (Program.Free k) (Invocations.legalize p) := by
  have hrenamed := shows_mapEntry (f := fun f => { f with name := Invocations.invokeName })
    (fun _ hfn => ⟨trivial, hfn.2⟩) hp
  refine Invocations.yields_legalize hrenamed
    (fun q hq => Invocations.forall_mem_scaled (fun _ => trivial) hq)
    (fun q hq => free_mapNodes (hk.congruence.bottomUp (avoids_readCounter hk)) hq) fun q hq => ?_
  -- The new entry point is one loop over the invocations, with the primitive ended in it.
  refine List.forall_mem_append.mpr ⟨hq, List.forall_mem_singleton.mpr ⟨trivial, ?_⟩⟩
  refine List.forall_mem_singleton.mpr (.intro ⟨hloop, ?_⟩ (List.forall_mem_cons.mpr
    ⟨free_expr (hk.closed rfl), List.forall_mem_singleton.mpr (free_block ?_)⟩))
  · exact List.forall_mem_cons.mpr ⟨hk.closed rfl, List.forall_mem_singleton.mpr (hk.closed rfl)⟩
  · exact List.forall_mem_cons.mpr
      ⟨free_expr (hk.closed rfl), List.forall_mem_singleton.mpr (free_leaf rfl nofun rfl)⟩

/-- The arms of a choice are assigned to in branches. -/
theorem free_assignArms {op : BinaryOp} (hop : op.isAssignment = true) {value : Expr}
    (hvalue : value.any k.node = false) {target : Expr} (htarget : target.any k.node = false) :
    (TernaryTarget.assignArms op value target).Free k := by
  induction target with
  -- Each arm gets an assignment of its own, with the same value.
  | ternary ty cond a b _ iha ihb =>
    obtain ⟨hcond, harms⟩ := List.forall_mem_cons.mp (Expr.any_eq_false_iff.mp htarget).2
    obtain ⟨ha, hb⟩ := List.forall_mem_cons.mp harms
    refine free_ifElse hcond (free_block (List.forall_mem_singleton.mpr (iha ha))) fun s hs => ?_
    exact Option.mem_some.mp hs ▸ free_block
      (List.forall_mem_singleton.mpr (ihb (hb b List.mem_cons_self)))
  | _ => exact free_expr (hk.binary (isMade_assignment hop _ _ _) htarget hvalue)

/-- Writing to a chosen target leaves a free program, with the workaround or without. -/
theorem free_ternaryTarget (hp : p.Free k) :
    Yields (Program.Free k) (TernaryTarget.legalize t.profile p) := by
  -- A chosen target becomes two assignments under a choice of statements.
  have hsplit : ∀ s : Stmt, s.Free k → ∀ u ∈ [TernaryTarget.splitStmt s], u.Free k := by
    intro s hs
    refine List.forall_mem_singleton.mpr ?_
    unfold TernaryTarget.splitStmt
    split
    · next ty op choiceTy cond a b value =>
      split
      · next hop =>
        have hassign := hs.here.2 _ List.mem_cons_self
        obtain ⟨htarget, hvalue⟩ := List.forall_mem_cons.mp (Expr.any_eq_false_iff.mp hassign).2
        exact free_assignArms hk hop (hvalue value List.mem_cons_self) htarget
      · exact hs
    · exact hs
  have hcollapsed := free_mapNodes (hk.congruence.bottomUp (avoids_collapse hk)) hp
  exact TernaryTarget.yields_legalize (fun _ => hcollapsed) fun _ =>
    free_mapBodies (fun body hbody => free_expandList hsplit hbody) hcollapsed

/-- A loop that tests at its start stands for one that tests at its end. -/
theorem free_doWhile (hloop : k.loop .doWhile = false → k.loop .whileLoop = false)
    (hp : p.Free k) : Yields (Program.Free k) (DoWhile.legalize p) := by
  have hreplace : ∀ name (s : Stmt), s.Free k → ∀ u ∈ DoWhile.replace name s, u.Free k := by
    intro name s hs
    unfold DoWhile.replace
    split
    · next body cond =>
      -- The loop that tests first must be spared as well when the other one is.
      have hwhile : k.loop .whileLoop = false := hloop hs.here.1
      have hcond : cond.any k.node = false := hs.here.2 cond List.mem_cons_self
      have hbody : body.toBlock.Free k := free_toBlock (hs.nested body List.mem_cons_self)
      have hexit : (DoWhile.exitCheck (.ofVar name .bool) cond).Free k := by
        refine free_ifElse hk.var (free_block (List.forall_mem_singleton.mpr ?_)) nofun
        refine free_ifElse (hk.unary hcond) (free_block (List.forall_mem_singleton.mpr ?_)) nofun
        exact free_leaf rfl nofun rfl
      -- The flag, and the loop around the check, the flag being set, and the body.
      refine List.forall_mem_cons.mpr ⟨free_decl fun _ h => Option.mem_some.mp h ▸ hk.literal, ?_⟩
      refine List.forall_mem_singleton.mpr (.intro
        ⟨hwhile, List.forall_mem_singleton.mpr hk.literal⟩ (List.forall_mem_singleton.mpr ?_))
      refine free_block (List.forall_mem_cons.mpr ⟨hexit, List.forall_mem_cons.mpr ⟨?_, ?_⟩⟩)
      · exact free_expr (hk.binary rfl hk.var hk.literal)
      · exact List.forall_mem_singleton.mpr hbody
    · exact List.forall_mem_singleton.mpr hs
  -- Only a loop that tests at the end asks for a name.
  have hvisit : ∀ s, Yields (fun replace => ∀ t : Stmt, t.Free k → ∀ u ∈ replace t, u.Free k)
      (DoWhile.visit s) := by
    intro s
    unfold DoWhile.visit
    split
    · exact .after fun name => .pure (hreplace name)
    · exact .pure fun t ht => List.forall_mem_singleton.mpr ht
  refine Replaces.shows_mapFunctionsM (fun _ => id) (fun fn hfn => ?_) hp
  exact (expandListM_everywhere .yields shallow_spares hvisit hfn.2).bind fun _ hbody =>
    .pure ⟨trivial, hbody⟩

/-- Conditions of loops are conjoined with `true`. -/
theorem free_loopCondition (hand : ∀ ty a b, k.node (.binary ty .logicalAnd a b) = false)
    (hp : p.Free k) : (LoopCondition.legalize p).Free k := by
  have handTrue : ∀ {e : Expr}, e.any k.node = false →
      (LoopCondition.andTrue e).any k.node = false := fun he =>
    Expr.any_eq_false_iff.mpr ⟨hand _ _ _, List.forall_mem_cons.mpr
      ⟨he, List.forall_mem_singleton.mpr hk.literal⟩⟩
  refine Replaces.shows_mapFunctions (fun _ => id) (fun fn hfn => ⟨trivial, ?_⟩) hp
  -- A loop is changed in its condition, and a `do` loop in the break at its end.
  refine Replaces.shows_body turns_free (bottomUpList_mirrors (fun _ => id) (fun _ _ =>
    andTrueInLoop_mirrors (fun _ _ h he => handTrue (h he)) fun _ _ _ h he => ?_) fn.body) hfn.2
  have hcond := (Expr.any_eq_false_iff.mp (h he)).2
  exact hk.unary (handTrue (hcond _ List.mem_cons_self))

/-- A rule leaves a program without a construct that it does not bring in. -/
theorem free_rule {r : Rule} (hr : r ∈ pipeline) (hr' : k.Tolerates r.name) (hp : p.Free k) :
    Yields (Program.Free k) (r.run t p) := by
  simp only [pipeline, List.mem_cons, List.not_mem_nil, or_false] at hr
  -- In the order of the pipeline; what a rule brings in is excluded by what `k` tolerates.
  obtain rfl | rfl | rfl | rfl | rfl | rfl | rfl | rfl | rfl | rfl | rfl | rfl | rfl | rfl | rfl :=
    hr
  · exact header_same.mono fun p' hp' => hp' ▸ hp
  · exact .pure (free_highPrecision hk hp)
  · exact free_fragCoord hk hp
  · exact Replaces.mapNodesM (hk.congruence.bottomUpM_holds .yields (avoids_resolve hk t.profile))
      turns_free (hoists_free hk) hp
  · exact free_invocations hk hr' hp
  · exact (free_ternaryTarget hk hp).liftUnsupported
  · exact (free_doWhile hk hr' hp).lift
  · exact .pure (free_mapNodes (hk.congruence.bottomUp (avoids_unfold hk hr')) hp)
  · exact .pure (free_loopCondition hk hr' hp)
  · exact Replaces.mapNodesM (hk.congruence.bottomUpM_holds .yields (avoids_expand hk))
      turns_free (hoists_free hk) hp
  · exact Replaces.mapNodesM_scratch (hk.congruence.bottomUpM_holds .yields (avoids_emulate hk))
      turns_free (hoists_free hk) hp
  · exact Replaces.minAbs (avoids_split hk hr') (fun _ _ => id) turns_free (hoists_free hk) hp
  · obtain ⟨habs, hfract⟩ := hr'
    exact Replaces.fract (avoids_guard hk habs hfract)
      (hk.congruence.bottomUp (avoids_guardPure hk habs hfract)) turns_free (hoists_free hk) hp
  · exact .pure (free_mapNodes (hk.congruence.bottomUp (avoids_multiply hk)) hp)
  · exact Replaces.mapNodesM (avoids_normalize hk hr') turns_free (hoists_free hk) hp

omit hk

/-- Rules bring in nothing of such a kind. -/
theorem tolerates_untouched (hk : k.Untouched) (name : String) : k.Tolerates name := by
  unfold Tolerates
  split
  case h_1 => exact hk.loops _
  case h_2 => exact fun _ => hk.loops _
  case h_6 => exact hk.conjunction
  case h_7 => exact ⟨hk.abs, hk.fract⟩
  case h_8 => trivial
  all_goals exact hk.choice

/-- Where rules touch no loop, being free means that no node is one of the construct. -/
theorem free_iff_anyNode (hk : k.Untouched) : p.Free k ↔ p.anyNode k.node = false := by
  rw [Program.anyNode_eq_false_iff]
  refine ⟨Program.Free.all, fun h el hel => ?_⟩
  have h := h el hel
  cases el with
  | global d => exact h
  | function fn =>
    -- Only expressions show such a construct, so loops do not count.
    refine ⟨trivial, fun s hs => (h s hs).everywhere.mono fun s hown => ⟨?_, hown⟩⟩
    cases s.loop? with
    | none => rfl
    | some l => exact hk.loops l
  | layout l => trivial

/-- What a program without such nodes becomes has none either. -/
theorem free_legalize (hk : k.Untouched) (hp : p.Free k) :
    Yields (Program.Free k) (legalize t p) :=
  foldlM_yields (fun _ hr _ hq => yields_step hq
    (free_rule hk.toForeign hr (tolerates_untouched hk _) hq)) hp

end Legalize

end ShaderGen
