import ShaderGen.Proofs.Legalize.Unfolded
import ShaderGen.Proofs.Semantics.Alike
import ShaderGen.Proofs.Semantics.Loading

/-!
# Choices instead of short-circuit operators

A choice computes one of its arms, and one of the arms of `a ? b : false` is a literal, so `b` is
computed where `a && b` computes it and nowhere else; the same goes for `a ? true : b`. The
operators can be in one another and anywhere else in an expression, and their operands may write and
call.

A choice has the type of its arms and can be written to. So the second operand of an operator has to
be a boolean, as the language asks for, and no operator may be written to.

## Key results

- `alikeBy_bottomUp`: an expression without its operators can take the place of the expression
- `legalize_keeps_evaluation`: expressions compute the same, and so does the program
-/

namespace ShaderGen.Legalize.ShortCircuit

open ShaderGen.Expr
open List (Forall₂)

/-- Whether a node is a short-circuit operator that has another type than the boolean one, or a
    second operand that is no boolean. -/
def isMistyped : Expr → Bool
  | .binary ty .logicalAnd _ right | .binary ty .logicalOr _ right =>
    !(ty == .bool && right.ty.shape == .scalar .bool)
  | _ => false

/-- Whether a write to an expression goes to a short-circuit operator: to the expression itself, to
    the base of a swizzle or of an index, to what is in parentheses, or to an arm of a choice. -/
def reachesOperator : Expr → Bool
  | .binary _ .logicalAnd _ _ | .binary _ .logicalOr _ _ => true
  | .swizzle _ base _ | .index _ base _ | .group _ base => reachesOperator base
  | .ternary _ _ ifTrue ifFalse => reachesOperator ifTrue || reachesOperator ifFalse
  | _ => false

/-- Whether a node is a mistyped short-circuit operator, or writes to one of any type. -/
def isMisused (e : Expr) : Bool := isMistyped e || e.target?.any reachesOperator

/-- Where no operator is reached, the expression itself is none. -/
theorem not_isShortCircuit_of_reachesOperator {e : Expr} (h : reachesOperator e = false) :
    e.isShortCircuit = false := by
  unfold isShortCircuit
  split
  · cases h
  · cases h
  · rfl

/-- Nodes other than the operators are left as they are, over rebuilt children. -/
theorem bottomUp_unfoldNode {e : Expr} (h : e.isShortCircuit = false) :
    e.bottomUp unfoldNode = e.withChildren (e.children.map (bottomUp unfoldNode)) := by
  have hrebuilt : e.bottomUp unfoldNode =
      unfoldNode (e.withChildren (e.children.map (bottomUp unfoldNode))) := by
    unfold bottomUp
    rw [bottomUpM_eq]
    show unfoldNode (e.withChildren (Id.run (e.children.mapM _))) = _
    rw [List.idRun_mapM]
  rw [hrebuilt, unfoldNode_eq_self ((isShortCircuit_withChildren e _).trans h)]

/-- A choice between a boolean and a literal is a boolean. -/
theorem ofTernary_eq {left right : Expr} (h : right.ty.shape = .scalar .bool) (value : Bool) :
    ofTernary left right (.bool value) = .ternary .bool left right (.bool value) ∧
      ofTernary left (.bool value) right = .ternary .bool left (.bool value) right := by
  -- Joined with a constant, the precision is full again.
  have hty : right.ty.withPrecision (right.ty.precision.join .full) = .bool ∧
      Ty.bool.withPrecision (Precision.full.join right.ty.precision) = .bool := by
    generalize right.ty = ty at h
    obtain ⟨shape, precision⟩ := ty
    obtain rfl := h
    cases precision <;> exact ⟨rfl, rfl⟩
  exact ⟨congrArg (Expr.ternary · left right (.bool value)) hty.1,
    congrArg (Expr.ternary · left (.bool value) right) hty.2⟩

section

variable {α : Type} {lookup : Lookup α} {m : Machine α} {t : Bool}

/-- What an operator computes that is not an assignment. -/
theorem valuesBy_operator {op : BinaryOp} (hop : op.isAssignment = false) (ty : Ty)
    (left right : Expr) : (Expr.binary ty op left right).valuesBy lookup m =
      left.valuesBy lookup m >>= fun ls =>
        (fun vs => vs.takeD ty.laneCount m.undefined) <$>
          match op.decided? (m.holds ls) with
          | some b => pure [m.literal (.bool b)]
          | none => m.binaryResult op left.ty ls right.ty <$> right.valuesBy lookup m := by
  simp only [valuesBy, evalBy, hop, Bool.false_eq_true, if_false, map_bind]
  refine bind_congr fun ls => ?_
  cases op.decided? (m.holds ls) <;> simp

/-- Where the left operand holds, the right one gives the conjunction. -/
theorem valuesBy_logicalAnd (left right : Expr) :
    (Expr.ternary .bool left right (.bool false)).valuesBy lookup m =
      (Expr.binary .bool .logicalAnd left right).valuesBy lookup m := by
  rw [AlikeBy.valuesBy_ternary, valuesBy_operator rfl]
  refine bind_congr fun ls => ?_
  -- The literal arm is what the operator decides on without its right operand.
  cases m.holds ls
  · rfl
  · exact congrArg _ (id_map' _).symm

/-- Where the left operand does not hold, the right one gives the disjunction. -/
theorem valuesBy_logicalOr (left right : Expr) :
    (Expr.ternary .bool left (.bool true) right).valuesBy lookup m =
      (Expr.binary .bool .logicalOr left right).valuesBy lookup m := by
  rw [AlikeBy.valuesBy_ternary, valuesBy_operator rfl]
  refine bind_congr fun ls => ?_
  cases m.holds ls
  · exact congrArg _ (id_map' _).symm
  · rfl

/-- An operator that is not written to can become a choice. -/
theorem alikeBy_unfoldNode {e : Expr} (h : isMistyped e = false)
    (ht : t = true → e.isShortCircuit = false) : AlikeBy lookup m t e (unfoldNode e) := by
  unfold unfoldNode
  split
  · next ty left right =>
    obtain ⟨rfl, hright⟩ : ty = .bool ∧ right.ty.shape = .scalar .bool := by
      simpa [isMistyped] using h
    -- An operator that is assigned to would be misused, so this one is only read.
    obtain rfl : t = false := Bool.eq_false_iff.mpr fun h => Bool.noConfusion (ht h)
    rw [(ofTernary_eq hright false).1]
    exact .of_valuesBy rfl (valuesBy_logicalAnd left right)
  · next ty left right =>
    obtain ⟨rfl, hright⟩ : ty = .bool ∧ right.ty.shape = .scalar .bool := by
      simpa [isMistyped] using h
    obtain rfl : t = false := Bool.eq_false_iff.mpr fun h => Bool.noConfusion (ht h)
    rw [(ofTernary_eq hright true).2]
    exact .of_valuesBy rfl (valuesBy_logicalOr left right)
  · exact .refl _

/-- Whether a node is mistyped is read off the types of its children. -/
theorem isMistyped_withChildren {e : Expr} {cs : List Expr}
    (h : Forall₂ (fun c c' => c'.ty = c.ty) e.children cs) :
    isMistyped (e.withChildren cs) = isMistyped e := by
  unfold withChildren
  split
  case h_2 op _ _ _ _ =>
    obtain _ | ⟨-, _ | ⟨hright, _ | _⟩⟩ := h
    cases op <;> simp [isMistyped, hright]
  all_goals rfl

/-- A rebuilt child can take the place of the child, be it written to or not; but it may only be
    written to where no operator is. -/
def Replaced (lookup : Lookup α) (m : Machine α) (c c' : Expr) : Prop :=
  ∀ t, (t = true → reachesOperator c = false) → AlikeBy lookup m t c c'

/-- What replaces an expression that is only read runs like it. -/
theorem Replaced.alikeBy {c c' : Expr} (h : Replaced lookup m c c') :
    AlikeBy lookup m false c c' :=
  h false fun hfalse => Bool.noConfusion hfalse

/-- A node that writes to no operator, over rebuilt children. -/
theorem replaced_withChildren {e : Expr} {cs : List Expr}
    (htarget : e.target?.any reachesOperator = false)
    (h : Forall₂ (Replaced lookup m) e.children cs) :
    Replaced lookup m e (e.withChildren cs) := by
  intro t ht
  -- An operand that is written to, or stands in a target, needs to be replaced as a target, which
  -- asks that it reaches no operator.
  cases e with
  | literal | var | builtin =>
    cases h
    exact .refl _
  | unary ty op operand =>
    obtain _ | ⟨hoperand, _ | _⟩ := h
    refine .unary op (hoperand _ fun hop => ?_)
    simpa [target?, hop] using htarget
  | binary ty op left right =>
    obtain _ | ⟨hleft, _ | ⟨hright, _ | _⟩⟩ := h
    refine .binary op (hleft _ fun hop => ?_) hright.alikeBy
    simpa [target?, hop] using htarget
  | ternary ty cond ifTrue ifFalse =>
    obtain _ | ⟨hcond, _ | ⟨htrue, _ | ⟨hfalse, _ | _⟩⟩⟩ := h
    have harms (ht' : t = true) := Bool.or_eq_false_iff.mp (ht ht')
    exact .ternary hcond.alikeBy (htrue t fun h => (harms h).1) (hfalse t fun h => (harms h).2)
  | call ty callee args => exact .call callee (h.imp fun _ _ hc => hc.alikeBy)
  | construct ty args => exact .construct (h.imp fun _ _ hc => hc.alikeBy)
  | swizzle ty base mask =>
    obtain _ | ⟨hbase, _ | _⟩ := h
    exact .swizzle mask (hbase t ht)
  | index ty base position =>
    obtain _ | ⟨hbase, _ | ⟨hposition, _ | _⟩⟩ := h
    exact .index (hbase t ht) hposition.alikeBy
  | group ty inner =>
    obtain _ | ⟨hinner, _ | _⟩ := h
    exact .group (hinner t ht)

/-- An expression in which no operator is misused can be replaced by what is rebuilt from it, also
    where it is written to, unless that would write to an operator. -/
theorem replaced_bottomUp (e : Expr) :
    e.any isMisused = false → Replaced lookup m e (e.bottomUp unfoldNode) := by
  refine bottomUp_related
    (R := fun e e' => e.any isMisused = false → Replaced lookup m e e') ?_ e
  intro e cs hcs h
  obtain ⟨hnode, hchildren⟩ := any_eq_false_iff.mp h
  obtain ⟨htyped, htarget⟩ := Bool.or_eq_false_iff.mp hnode
  -- First the children are replaced below the node, and then the node over them. Rebuilding keeps
  -- types, so an operator that was typed well still is when the rule looks at it.
  have hreplaced : Forall₂ (Replaced lookup m) e.children cs :=
    ((List.forall₂_and_left _ _).mpr ⟨hchildren, hcs⟩).imp fun _ _ hc => hc.2 hc.1
  intro t ht
  have hover := replaced_withChildren htarget hreplaced t ht
  refine hover.trans (alikeBy_unfoldNode ?_ fun hwritten => ?_)
  · rw [isMistyped_withChildren (hreplaced.imp fun _ _ hc => hc.alikeBy.ty_eq), htyped]
  · rw [isShortCircuit_withChildren]
    exact not_isShortCircuit_of_reachesOperator (ht hwritten)

/-- An unfolded expression that misuses nothing runs like the old one. -/
theorem alikeBy_bottomUp {e : Expr} (h : e.any isMisused = false) :
    AlikeBy lookup m false e (e.bottomUp unfoldNode) :=
  (replaced_bottomUp e h).alikeBy

/-- The second expression is what is left of the first without short-circuit operators: it runs like
    the first. -/
structure Unfolds (lookup : Lookup α) (m : Machine α) (e e' : Expr) : Prop where
  unfolded : e'.Unfolded
  runsLike : e.RunsLike lookup m e'

/-- It is unfolded in every place. -/
theorem unfolds_bottomUp {e : Expr} (h : e.any isMisused = false) :
    Unfolds lookup m e (e.bottomUp unfoldNode) :=
  ⟨unfolded_unfold e, (alikeBy_bottomUp h).runsLike⟩

variable (lookup m)

/-- Spelling short-circuit operators as choices keeps what is computed, where the operators are used
    as the language allows. What comes of an expression has no such operator; from every state it
    has the same value, leaves the same state, and looks variables up, writes and calls in the same
    order, whatever looking a variable up does. In a program, such a one takes the place of each
    expression of a statement and of each initial value of a global; the functions of the program
    reply as before, and the globals get the values that they got. Every other node, and with it
    every other operator, is left as it is. -/
theorem legalize_keeps_evaluation :
    (∀ e : Expr, e.any isMisused = false → Unfolds lookup m e (e.bottomUp unfoldNode)) ∧
    (∀ p : Program, p.anyNode isMisused = false →
      Forall₂ (Element.Mirrors (Unfolds lookup m)) p.elements (legalize p).elements ∧
      ∀ shared, (legalize p).load m shared = p.load m shared) ∧
    ∀ e : Expr, e.isShortCircuit = false →
      e.bottomUp unfoldNode = e.withChildren (e.children.map (bottomUp unfoldNode)) := by
  refine ⟨fun e => unfolds_bottomUp, fun p hp => ?_, fun e => bottomUp_unfoldNode⟩
  have hall := Program.anyNode_eq_false_iff.mp hp
  refine ⟨Program.mapNodes_mirrors (hall.mono fun e he => unfolds_bottomUp he), ?_⟩
  -- Functions that are declared change the machine, so expressions are compared on every machine.
  have hplain : Forall₂ (Element.Mirrors fun e e' => ∀ m : Machine α, Alike m false e e')
      p.elements (legalize p).elements :=
    Program.mapNodes_mirrors (hall.mono fun e he m => Alike.iff_alikeBy.mpr (alikeBy_bottomUp he))
  exact Program.load_eq_of_mirrors (fun e e' h m => (h m).values_eq) hplain m

end

/-- A condition whose operands assign and call, in a loop and in the initial value of a global. -/
theorem operands_with_effects_are_kept :
    let a : Expr := .ofVar "a" .bool
    let b : Expr := .ofVar "b" .bool
    let flip : Expr := .assign a (.ofUnary .not a)
    let ask : Expr := .ofUserCall "ask" [b] .bool
    let e : Expr := .ofBinary .logicalXor b
      (.ofBinary .logicalOr (.ofBinary .logicalAnd a flip) (.ofBinary .logicalAnd ask b))
    let e' : Expr := .ofBinary .logicalXor b
      (.ternary .bool (.ternary .bool a flip (.bool false)) (.bool true)
        (.ternary .bool ask b (.bool false)))
    let p : Program := ⟨.fragment,
      [.global (.plain "a" .bool (some (.ofBinary .logicalOr b (.bool true)))),
        .function ⟨"ask", .bool, [⟨"x", .bool⟩],
          [.returnWith (some (.ofBinary .logicalAnd (.ofVar "x" .bool) flip))]⟩,
        .function (.entry [.whileLoop e (.block [.expr flip])])]⟩
    let noting : Lookup Int := fun reads v ty => do
      let ls ← Eval.load v ty
      if reads then modify fun σ => σ.act (.call "read" [(ty, Lane.values ls)])
      pure ls
    e.any isMisused = false ∧ p.anyNode isMisused = false ∧ e.bottomUp unfoldNode = e' ∧
      (∀ σ, e'.runBy noting .integers σ = e.runBy noting .integers σ) ∧
      ∀ shared, (legalize p).load .integers shared = p.load .integers shared := by
  intro a b flip ask e e' p noting
  -- Nothing is misused, which is decided on the text.
  have he : e.any isMisused = false := by decide
  have hp : p.anyNode isMisused = false := by decide
  have hunfolded : e.bottomUp unfoldNode = e' := rfl
  -- The theorem is applied to the expression and to the whole program.
  obtain ⟨hexpr, hprogram, -⟩ := legalize_keeps_evaluation noting .integers
  exact ⟨he, hp, hunfolded, hunfolded ▸ (hexpr e he).runsLike.run_eq, (hprogram p hp).2⟩

end ShaderGen.Legalize.ShortCircuit
