import ShaderGen.Legalize.TernaryTarget
import ShaderGen.Proofs.Semantics.Alike
import ShaderGen.Proofs.Semantics.Loading

/-!
# Writes to a choice

To write to a choice is to write to the arm that its condition selects: the condition is evaluated,
then what the place of the arm depends on, then the value, and only the arm is written
(`eval_of_target`). So a choice with a literal condition can give way to its arm, and an assignment
that stands as a statement can become an `if` over assignments to the arms, at any depth of choices
in arms. The value is copied into both branches, and one of them runs.

What is written to a choice has the type of the choice, so its arms have to have that type. Arms of
another precision are good enough on a machine that makes no difference between precisions.

## Key results

- `eval_of_target`: a node that writes to a choice writes to the arm that is chosen
- `legalize_writes_chosen_arm`: the program does the same without choices that are written to
-/

namespace ShaderGen

/-- A machine for which the precision of what is written makes no difference. -/
structure Machine.IgnoresPrecision {α : Type} (m : Machine α) : Prop where
  unary (op : UnaryOp) {s t : Ty} (h : t.shape = s.shape) (vs : List α) :
    m.unary op t vs = m.unary op s vs
  binary (op : BinaryOp) {s t : Ty} (h : t.shape = s.shape) (as : List α) (u : Ty) (bs : List α) :
    m.binary op t as u bs = m.binary op s as u bs

namespace Legalize.TernaryTarget

open Behaviour ShaderGen.Expr
open List (Forall₂)

/-- Whether an arm has the type of its choice, or at least the shape if precision does not count. -/
def suits (exact : Bool) (ty arm : Ty) : Bool := arm.shape == ty.shape && (!exact || arm == ty)

/-- Whether the choices on the outside of an expression ask for booleans and have arms that suit
    them. -/
def isTyped (exact : Bool) : Expr → Bool
  | .ternary ty cond ifTrue ifFalse =>
    cond.ty.shape == .scalar .bool && suits exact ty ifTrue.ty && suits exact ty ifFalse.ty &&
      isTyped exact ifTrue && isTyped exact ifFalse
  | _ => true

/-- Whether a node writes to a choice that is mistyped. -/
def writesMistyped (exact : Bool) (e : Expr) : Bool := e.target?.any fun t => !isTyped exact t

/-- The node with another target. -/
def retarget : Expr → Expr → Expr
  | .unary ty op _, target => .unary ty op target
  | .binary ty op _ value, target => .binary ty op target value
  | e, _ => e

/-- A node is collapsed in its target, if it has one. -/
theorem collapseNode_eq (e : Expr) :
    collapseNode e = e.target?.elim e fun target => retarget e (collapse target) := by
  -- Only increments and assignments have a target.
  cases e with
  | unary ty op operand =>
    simp only [collapseNode, target?]
    split <;> rfl
  | binary ty op left right =>
    simp only [collapseNode, target?]
    split <;> rfl
  | _ => rfl

/-- An expression with its own target is itself. -/
theorem retarget_eq_self {e target : Expr} (h : e.target? = some target) :
    retarget e target = e := by
  cases e with
  | unary | binary => simp_all [target?, retarget]
  | _ => cases h

/-- The target is the one that was set. -/
theorem target?_retarget {e target : Expr} (h : e.target? = some target) (target' : Expr) :
    (retarget e target').target? = some target' := by
  cases e with
  | unary | binary => simp_all [target?, retarget]
  | _ => cases h

/-- The last target that is set counts. -/
theorem retarget_retarget (e target target' : Expr) :
    retarget (retarget e target) target' = retarget e target' := by
  cases e <;> rfl

variable {α : Type} {m : Machine α} {exact : Bool}

/-! ### A write to a choice -/

/-- What an increment or decrement of a target does. -/
theorem eval_of_writesOperand {op : UnaryOp} (hop : op.writesOperand = true) (ty : Ty)
    (target : Expr) : (Expr.unary ty op target).eval m = target.eval m >>= fun ls =>
      Eval.store ls (m.unaryResult op target.ty (Lane.values ls)) >>= fun _ =>
        pure (m.temporaries ty (if op.followsOperand then Lane.values ls
          else m.unaryResult op target.ty (Lane.values ls))) := by
  simp only [eval, hop, if_true]

/-- What an assignment to a target does. -/
theorem eval_of_isAssignment {op : BinaryOp} (hop : op.isAssignment = true) (ty : Ty)
    (target value : Expr) : (Expr.binary ty op target value).eval m =
      target.eval m >>= fun ls => value.values m >>= fun vs =>
        Eval.store ls (m.assigned op target.ty (Lane.values ls) value.ty vs) >>= fun _ =>
          pure (m.temporaries ty (m.assigned op target.ty (Lane.values ls) value.ty vs)) := by
  simp only [eval, hop, if_true]
  rfl

/-- Types that suit have equally many lanes. -/
theorem laneCount_of_suits {s t : Ty} (h : suits exact s t = true) : t.laneCount = s.laneCount := by
  have hshape : t.shape = s.shape := by simp_all [suits]
  rw [Ty.laneCount, Ty.laneCount, hshape]

section

variable (hm : exact = true ∨ m.IgnoresPrecision)

include hm

/-- Types that suit give the same result of an operator. -/
theorem unaryResult_of_suits (op : UnaryOp) {s t : Ty} (h : suits exact s t = true)
    (vs : List α) : m.unaryResult op t vs = m.unaryResult op s vs := by
  obtain ⟨hshape, hty⟩ : t.shape = s.shape ∧ (exact = true → t = s) := by
    cases exact <;> simp_all [suits]
  unfold Machine.unaryResult
  rcases hm with hexact | hm
  · rw [hty hexact]
  · rw [hm.unary op hshape]

/-- They give the same value to assign, too. -/
theorem assigned_of_suits (op : BinaryOp) {s t : Ty} (h : suits exact s t = true) (old : List α)
    (u : Ty) (vs : List α) : m.assigned op t old u vs = m.assigned op s old u vs := by
  obtain ⟨hshape, hty⟩ : t.shape = s.shape ∧ (exact = true → t = s) := by
    cases exact <;> simp_all [suits]
  unfold Machine.assigned
  rw [laneCount_of_suits h]
  rcases hm with hexact | hm
  · rw [hty hexact]
  · rw [hm.binary op.applied hshape]

/-- A node that writes to a choice evaluates the condition, and then writes to the arm that it
    selects. -/
theorem eval_of_target {e cond ifTrue ifFalse : Expr} {ty : Ty}
    (he : e.target? = some (.ternary ty cond ifTrue ifFalse))
    (htyped : isTyped exact (.ternary ty cond ifTrue ifFalse) = true) :
    e.eval m = cond.values m >>= fun vs =>
      if m.holds vs then (retarget e ifTrue).eval m else (retarget e ifFalse).eval m := by
  simp only [isTyped, Bool.and_eq_true] at htyped
  obtain ⟨⟨⟨⟨-, htrue⟩, hfalse⟩, -⟩, -⟩ := htyped
  -- An arm that suits its choice has as many components, so none are lost or made up.
  have hfit {arm : Expr} (h : suits exact ty arm.ty = true) :
      m.fit ty <$> arm.eval m = arm.eval m :=
    map_eval_eq_self m fun ls hls => m.fit_of_length (hls.trans (laneCount_of_suits h))
  have hchoice : (Expr.ternary ty cond ifTrue ifFalse).eval m = cond.values m >>= fun vs =>
      if m.holds vs then ifTrue.eval m else ifFalse.eval m := by
    rw [eval, hfit htrue, hfit hfalse]
    rfl
  have hty : (Expr.ternary ty cond ifTrue ifFalse).ty = ty := rfl
  -- Both kinds of writes evaluate their target first, so the choice is made before anything else.
  cases e with
  | unary ty' op operand =>
    obtain ⟨hop, rfl⟩ : op.writesOperand = true ∧ operand = _ := by simpa [target?] using he
    simp only [retarget, eval_of_writesOperand hop, hchoice, hty, bind_assoc]
    refine bind_congr fun vs => ?_
    split
    · simp only [unaryResult_of_suits hm op htrue]
    · simp only [unaryResult_of_suits hm op hfalse]
  | binary ty' op left right =>
    obtain ⟨hop, rfl⟩ : op.isAssignment = true ∧ left = _ := by simpa [target?] using he
    simp only [retarget, eval_of_isAssignment hop, hchoice, hty, bind_assoc]
    refine bind_congr fun vs => ?_
    split
    · simp only [assigned_of_suits hm op htrue]
    · simp only [assigned_of_suits hm op hfalse]
  | _ => cases he

end

/-! ### Literal conditions -/

/-- A boolean literal has its value. -/
theorem values_of_boolLiteral {cond : Expr} {b : Bool} (h : cond.boolLiteral? = some b)
    (hshape : cond.ty.shape = .scalar .bool) :
    cond.values m = pure [m.literal (.bool b)] := by
  unfold boolLiteral? at h
  split at h
  · next ty value =>
    obtain rfl := Option.some.inj h
    -- A value of its shape has one lane.
    have hcount : ty.laneCount = 1 := congrArg Shape.laneCount hshape
    have hvalues : (Expr.literal ty (.bool value)).values m =
        pure (Lane.values (m.temporaries ty [m.literal (.bool value)])) := map_pure _ _
    rw [hvalues, Machine.values_temporaries, hcount]
    rfl
  · cases h

/-- The second expression is what remains of the first as choices with literal conditions give way
    to their arms. -/
inductive Leaves : Expr → Expr → Prop
  | self (e : Expr) : Leaves e e
  | arm {ty : Ty} {cond ifTrue ifFalse e' : Expr} {b : Bool} (hcond : cond.boolLiteral? = some b)
      (h : Leaves (if b then ifTrue else ifFalse) e') : Leaves (.ternary ty cond ifTrue ifFalse) e'

/-- Collapsing leaves a part of the target. -/
theorem leaves_collapse (e : Expr) : Leaves e (collapse e) := by
  fun_induction collapse e with
  | case1 ty cond ifTrue ifFalse hcond ih => exact .arm hcond ih
  | case2 ty cond ifTrue ifFalse hcond ih => exact .arm hcond ih
  | case3 => exact .self _
  | case4 => exact .self _

/-- The arms on the way down to the one that is left are typed like the choice they are in. -/
theorem Leaves.isTyped {e e' : Expr} (h : Leaves e e')
    (htyped : TernaryTarget.isTyped exact e = true) : TernaryTarget.isTyped exact e' = true := by
  induction h with
  | self => exact htyped
  | @arm ty cond ifTrue ifFalse e' b hcond _ ih =>
    refine ih ?_
    cases b <;> simp_all [TernaryTarget.isTyped]

/-- What is nowhere in an expression is nowhere in what is left of it. -/
theorem Leaves.any {q : Expr → Bool} {e e' : Expr} (h : Leaves e e') (hnone : e.any q = false) :
    e'.any q = false := by
  induction h with
  | self => exact hnone
  | @arm ty cond ifTrue ifFalse e' b hcond _ ih =>
    refine ih ?_
    cases b <;> simp_all [Expr.any]

section

variable (hm : exact = true ∨ m.IgnoresPrecision)

include hm

/-- A target chosen by a literal is the arm that the literal says. -/
theorem eval_of_literal {e cond ifTrue ifFalse : Expr} {ty : Ty} {b : Bool}
    (hcond : cond.boolLiteral? = some b)
    (he : e.target? = some (.ternary ty cond ifTrue ifFalse))
    (htyped : isTyped exact (.ternary ty cond ifTrue ifFalse) = true) :
    e.eval m = (retarget e (if b then ifTrue else ifFalse)).eval m := by
  have hshape : cond.ty.shape = .scalar .bool := by simp_all [isTyped]
  have hholds : m.holds [m.literal (.bool b)] = b := m.truth_literal b
  rw [eval_of_target hm he htyped, values_of_boolLiteral hcond hshape, pure_bind, hholds]
  cases b <;> rfl

/-- Where a node writes to a choice with a literal condition, it can write to the arm. -/
theorem eval_retarget_of_leaves {target target' : Expr} (h : Leaves target target') {e : Expr}
    (he : e.target? = some target) (htyped : isTyped exact target = true) :
    (retarget e target').eval m = e.eval m := by
  induction h generalizing e with
  | self => rw [retarget_eq_self he]
  | @arm ty cond ifTrue ifFalse target' b hcond _ ih =>
    have hrest := ih (target?_retarget he _) ((Leaves.arm hcond (.self _)).isTyped htyped)
    rw [retarget_retarget] at hrest
    rw [hrest, eval_of_literal hm hcond he htyped]

/-- A collapsed node does the same, as a value and as a target. -/
theorem alike_collapseNode {e : Expr} (h : writesMistyped exact e = false) :
    Alike m true e (collapseNode e) := by
  rw [collapseNode_eq]
  cases he : e.target? with
  | none => exact .refl e
  | some target =>
    have htyped : isTyped exact target = true := by simpa [writesMistyped, he] using h
    have hty : (retarget e (collapse target)).ty = e.ty := by cases e <;> rfl
    exact .of_eval hty (eval_retarget_of_leaves hm (leaves_collapse target) he htyped)

end

/-- A collapsed node is typed as it was. -/
theorem isTyped_collapseNode (e : Expr) : isTyped exact (collapseNode e) = isTyped exact e := by
  rw [collapseNode_eq]
  cases e.target? with
  | none => rfl
  | some target => cases e <;> rfl

/-- Collapsing leaves no mistyped target. -/
theorem any_collapseNode {e : Expr} (h : e.any (writesMistyped exact) = false) :
    (collapseNode e).any (writesMistyped exact) = false := by
  obtain ⟨hnode, hchildren⟩ := any_eq_false_iff.mp h
  cases e with
  | unary ty op operand =>
    have hoperand := hchildren operand List.mem_cons_self
    rw [collapseNode]
    split
    · next hop =>
      have htyped : isTyped exact operand = true := by
        simpa [writesMistyped, target?, hop] using hnode
      -- The collapsed target still suits its type, and it writes nothing that the target did not.
      refine any_eq_false_iff.mpr ⟨?_, List.forall_mem_singleton.mpr ?_⟩
      · simp [writesMistyped, target?, hop, (leaves_collapse operand).isTyped htyped]
      · exact (leaves_collapse operand).any hoperand
    · exact h
  | binary ty op left right =>
    have hleft := hchildren left List.mem_cons_self
    have hright := hchildren right (List.mem_cons_of_mem _ List.mem_cons_self)
    rw [collapseNode]
    split
    · next hop =>
      have htyped : isTyped exact left = true := by
        simpa [writesMistyped, target?, hop] using hnode
      refine any_eq_false_iff.mpr ⟨?_, List.forall_mem_cons.mpr
        ⟨(leaves_collapse left).any hleft, List.forall_mem_singleton.mpr hright⟩⟩
      simp [writesMistyped, target?, hop, (leaves_collapse left).isTyped htyped]
    · exact h
  | _ => exact h

/-- What a rebuilt expression keeps: its type, what it computes and what it stands for, and that its
    choices are typed, those on its outside and those that are written to. -/
structure Collapses (exact : Bool) (m : Machine α) (e e' : Expr) : Prop where
  alike : Alike m true e e'
  typed : isTyped exact e' = isTyped exact e
  written : e'.any (writesMistyped exact) = false

/-- Whether a node is typed depends on the types of its children alone. -/
theorem isTyped_withChildren {e : Expr} {cs : List Expr}
    (h : Forall₂ (Collapses exact m) e.children cs) :
    isTyped exact (e.withChildren cs) = isTyped exact e := by
  cases e with
  | ternary ty cond ifTrue ifFalse =>
    obtain _ | ⟨hcond, _ | ⟨htrue, _ | ⟨hfalse, _ | _⟩⟩⟩ := h
    simp only [withChildren, isTyped, hcond.alike.ty_eq, htrue.alike.ty_eq, hfalse.alike.ty_eq,
      htrue.typed, hfalse.typed]
  | _ => unfold withChildren; split <;> simp_all [isTyped]

/-- A node over rebuilt children. -/
theorem collapses_withChildren {e : Expr} {cs : List Expr} (h : writesMistyped exact e = false)
    (hcs : Forall₂ (Collapses exact m) e.children cs) :
    Collapses exact m e (e.withChildren cs) where
  alike := .withChildren (hcs.imp fun _ _ hc => hc.alike)
  typed := isTyped_withChildren hcs
  written := by
    refine any_eq_false_iff.mpr ⟨?_, ?_⟩
    · -- The target is a child in the same place, and typed as the one it was.
      have htarget := target?_withChildren hcs
      unfold writesMistyped at h ⊢
      generalize e.target? = o, (e.withChildren cs).target? = o' at h htarget
      cases htarget with
      | none => rfl
      | some hc => simpa [hc.typed] using h
    · rw [children_withChildren hcs.length_eq.symm]
      intro c' hc'
      obtain ⟨c, -, hc⟩ := Stmt.exists_of_forall₂ hcs c' hc'
      exact hc.written

/-- A tree that is collapsed throughout does the same. -/
theorem collapses_bottomUp (hm : exact = true ∨ m.IgnoresPrecision) (e : Expr) :
    e.any (writesMistyped exact) = false → Collapses exact m e (e.bottomUp collapseNode) := by
  refine bottomUp_related
    (R := fun e e' => e.any (writesMistyped exact) = false → Collapses exact m e e') ?_ e
  intro e cs hcs h
  obtain ⟨hnode, hchildren⟩ := any_eq_false_iff.mp h
  -- First the children are rebuilt below the node, and then what the node writes gives way.
  have hrebuilt : Forall₂ (Collapses exact m) e.children cs :=
    ((List.forall₂_and_left _ _).mpr ⟨hchildren, hcs⟩).imp fun _ _ hc => hc.2 hc.1
  have hover := collapses_withChildren hnode hrebuilt
  have hwritten := (any_eq_false_iff.mp hover.written).1
  exact ⟨hover.alike.trans (alike_collapseNode hm hwritten),
    (isTyped_collapseNode _).trans hover.typed, any_collapseNode hover.written⟩

/-! ### Assignments that are statements -/

/-- The type of an assignment does not matter in a statement. -/
theorem behaviour_of_isAssignment {op : BinaryOp} (hop : op.isAssignment = true) (ty ty' : Ty)
    (target value : Expr) : (Stmt.expr (.binary ty op target value)).behaviour m =
      (Stmt.expr (.binary ty' op target value)).behaviour m := by
  show after ((Expr.binary ty op target value).eval m) (fun _ => skip) =
    after ((Expr.binary ty' op target value).eval m) fun _ => skip
  simp only [eval_of_isAssignment hop, after_bind, after_pure]

/-- The assignments in the arms declare nothing. -/
theorem declared_assignArms (op : BinaryOp) (value target : Expr) :
    (assignArms op value target).declared = [] := by
  cases target <;> rfl

/-- An `if` over two assignments chooses one of them. -/
theorem behaviour_assignArms_ternary (op : BinaryOp) (value : Expr) (ty : Ty)
    (cond ifTrue ifFalse : Expr) :
    (assignArms op value (.ternary ty cond ifTrue ifFalse)).behaviour m =
      branch m cond ((assignArms op value ifTrue).behaviour m)
        ((assignArms op value ifFalse).behaviour m) := by
  have hinner (target : Expr) : (Stmt.block [assignArms op value target]).inner m =
      (assignArms op value target).behaviour m := by
    rw [Stmt.inner_block, Stmt.listDeclared_cons, declared_assignArms, Stmt.listDeclared_nil,
      List.append_nil, inScope_nil, Stmt.listBehaviour_singleton]
  rw [← hinner ifTrue, ← hinner ifFalse]
  rfl

/-- Each statement of a body is replaced by one that does the same. -/
theorem agrees_expandList {ss : List Stmt}
    (h : ∀ s ∈ ss, ∃ s', s.expand (fun s => [splitStmt s]) = [s'] ∧ s.Agrees Eq m m s') :
    Forall₂ (Stmt.Agrees Eq m m) ss (splitBody ss) := by
  unfold splitBody
  induction ss with
  | nil => exact .nil
  | cons s ss ih =>
    obtain ⟨⟨s', hs', hagrees⟩, hss⟩ := List.forall_mem_cons.mp h
    rw [Stmt.expandList_cons, hs']
    exact .cons hagrees (ih hss)

section

variable (hm : exact = true ∨ m.IgnoresPrecision)

include hm

/-- The assignments to the arms of choices in arms do what the assignment to the choice does. -/
theorem behaviour_assignArms {op : BinaryOp} (hop : op.isAssignment = true) (value target : Expr) :
    isTyped exact target = true → ∀ ty, (assignArms op value target).behaviour m =
      (Stmt.expr (.binary ty op target value)).behaviour m := by
  induction target with
  | ternary ty cond ifTrue ifFalse _ iht ihf =>
    intro htyped ty'
    have harms : isTyped exact ifTrue = true ∧ isTyped exact ifFalse = true := by
      simp_all [isTyped]
    have htarget : (Expr.binary ty' op (.ternary ty cond ifTrue ifFalse) value).target? =
        some (.ternary ty cond ifTrue ifFalse) := if_pos hop
    rw [behaviour_assignArms_ternary, iht harms.1 ty', ihf harms.2 ty']
    show branch m cond _ _ = after (eval m _) fun _ => skip
    -- The condition is evaluated first, and then the arm alone.
    rw [eval_of_target hm htarget htyped, after_bind]
    refine congrArg (after _) (funext fun vs => ?_)
    split <;> rfl
  | _ => exact fun _ ty => behaviour_of_isAssignment hop _ ty _ value

/-- An assignment to a choice is a choice of assignments. -/
theorem agrees_splitStmt (e : Expr) (h : e.any (writesMistyped exact) = false) :
    (Stmt.expr e).Agrees Eq m m (splitStmt (.expr e)) := by
  unfold splitStmt
  split
  · next ty op ty' cond ifTrue ifFalse value heq =>
    obtain rfl := Stmt.expr.inj heq
    split
    · next hop =>
      -- The arms are assigned only where the target is a choice.
      have htyped : isTyped exact (.ternary ty' cond ifTrue ifFalse) = true := by
        simpa [writesMistyped, target?, hop] using (any_eq_false_iff.mp h).1
      refine ⟨declared_assignArms .., ?_⟩
      rw [behaviour_assignArms hm hop value _ htyped ty]
      exact .of_eq rfl
    · exact .refl _
  · exact .refl _

/-- A statement that is split throughout does the same. -/
theorem agrees_expand (s : Stmt) : (s.All fun e => e.any (writesMistyped exact) = false) →
    ∃ s', s.expand (fun s => [splitStmt s]) = [s'] ∧ s.Agrees Eq m m s' := by
  -- Everything but the split assignment is left as it is.
  have hexpr (e : Expr) : e.Agrees Eq m m e := .of_values_eq rfl
  have hexprs (o : Option Expr) : Option.Rel (Expr.Agrees Eq m m) o o :=
    Option.rel_refl fun e _ => hexpr e
  -- By induction on the statement. Only an assignment is split; all others keep their form around
  -- bodies that agree.
  induction s with
  | block body ih =>
    intro h
    have hbody := agrees_expandList fun s hs => ih s hs (Stmt.all_block.mp h s hs)
    exact ⟨_, Stmt.expand_block .., .block scoped_eq hbody⟩
  | ifElse cond thenBranch elseBranch iht ihe =>
    intro h
    obtain ⟨-, hthen, helse⟩ := Stmt.all_ifElse.mp h
    obtain ⟨t, ht, hthen⟩ := iht hthen
    refine ⟨_, Stmt.expand_ifElse .., ?_⟩
    rw [ht]
    refine .ifElse scoped_eq (hexpr cond) hthen ?_
    -- The branch that is taken otherwise may be missing.
    cases elseBranch with
    | none => exact .none
    | some s =>
      obtain ⟨t', ht', hother⟩ := ihe s rfl (helse s rfl)
      rw [Option.map_some, ht']
      exact .some hother
  | forLoop init cond step body _ ih =>
    intro h
    obtain ⟨-, -, -, hbody⟩ := Stmt.all_forLoop.mp h
    obtain ⟨t, ht, hbody⟩ := ih hbody
    refine ⟨_, Stmt.expand_forLoop .., ?_⟩
    rw [ht]
    exact .forLoop scoped_eq (Option.rel_refl fun s _ => .refl s) (hexprs cond) (hexprs step) hbody
  | whileLoop cond body ih =>
    intro h
    obtain ⟨t, ht, hbody⟩ := ih (Stmt.all_whileLoop.mp h).2
    refine ⟨_, Stmt.expand_whileLoop .., ?_⟩
    rw [ht]
    exact .whileLoop scoped_eq (hexpr cond) hbody
  | doWhile body cond ih =>
    intro h
    obtain ⟨t, ht, hbody⟩ := ih (Stmt.all_doWhile.mp h).2
    refine ⟨_, Stmt.expand_doWhile .., ?_⟩
    rw [ht]
    exact .doWhile scoped_eq (hexpr cond) hbody
  | switchOn value cases ih =>
    intro h
    -- The label of a case is not touched.
    obtain ⟨-, hcases⟩ := Stmt.all_switchOn.mp h
    refine ⟨_, Stmt.expand_switchOn .., .switchOn scoped_eq (hexpr value) ?_⟩
    rw [List.forall₂_map_right_iff, List.forall₂_same]
    intro c hc
    obtain ⟨label, body⟩ := c
    exact .mk label (agrees_expandList fun s hs => ih label body hc s hs (hcases _ hc s hs))
  | expr e => exact fun h => ⟨_, rfl, agrees_splitStmt hm e (Stmt.all_expr.mp h)⟩
  | _ => exact fun _ => ⟨_, rfl, .refl _⟩

/-- A body with its assignments split does what it did. -/
theorem listBehaviour_splitBody {body : List Stmt}
    (h : ∀ s ∈ body, s.All fun e => e.any (writesMistyped exact) = false) :
    Stmt.listBehaviour m (splitBody body) = Stmt.listBehaviour m body :=
  (Stmt.listBehaviour_bisimilar
    (agrees_expandList fun s hs => agrees_expand hm s (h s hs))).eq.symm

/-- An element is the same after its body is split. -/
theorem sameOn_splitBody {el : Element}
    (h : el.All fun e => e.any (writesMistyped exact) = false) :
    el.SameOn m (el.mapFunction (Function.mapBody splitBody)) := by
  cases el with
  | global d => exact .global (Option.rel_refl fun e _ => rfl)
  | function f => exact .function (listBehaviour_splitBody hm h)
  | layout l => exact .layout l

end

/-! ### Programs -/

/-- The rule collapses, and splits if the workaround is on. -/
theorem legalize_cases {profile : Profile} {p p' : Program} (h : legalize profile p = .ok p') :
    p' = p.mapNodes collapseNode ∨
      p' = (p.mapNodes collapseNode).mapFunctions (Function.mapBody splitBody) := by
  unfold legalize at h
  simp only at h
  split at h
  · split at h
    · cases h
    · exact .inr (Except.ok.inj h).symm
  · exact .inl (Except.ok.inj h).symm

/-- To write to a choice is to evaluate its condition and then to write to the arm that it selects,
    and a program that is rid of choices that are written to, as far as the target asks for it, does
    what it did. From every state the body of each function ends in the same way, in the same state,
    after the same calls and writes in the same order, and each global has the same initial value.
    The functions reply as before, and the globals get the values that they got. -/
theorem legalize_writes_chosen_arm (exact : Bool) (m : Machine α)
    (hm : exact = true ∨ m.IgnoresPrecision) :
    (∀ (e : Expr) (ty : Ty) (cond ifTrue ifFalse : Expr),
      e.target? = some (.ternary ty cond ifTrue ifFalse) →
      isTyped exact (.ternary ty cond ifTrue ifFalse) = true →
      e.eval m = cond.values m >>= fun vs =>
        if m.holds vs then (retarget e ifTrue).eval m else (retarget e ifFalse).eval m) ∧
    ∀ (profile : Profile) (p p' : Program), p.anyNode (writesMistyped exact) = false →
      legalize profile p = .ok p' →
      p'.stage = p.stage ∧ Forall₂ (Element.SameOn m) p.elements p'.elements ∧
        ∀ shared, p'.load m shared = p.load m shared := by
  refine ⟨fun e ty cond ifTrue ifFalse => eval_of_target hm, fun profile p p' hp h => ?_⟩
  have hall := Program.anyNode_eq_false_iff.mp hp
  have hmirrors : Forall₂ (Element.Mirrors fun e e' =>
      ∀ m : Machine α, exact = true ∨ m.IgnoresPrecision → e'.values m = e.values m)
      p.elements (p.mapNodes collapseNode).elements :=
    Program.mapNodes_mirrors
      (hall.mono fun e he m hm => (collapses_bottomUp hm e he).alike.values_eq)
  have htyped : (p.mapNodes collapseNode).All fun e => e.any (writesMistyped exact) = false :=
    Program.mapNodes_all (fun e he => (collapses_bottomUp hm e he).written) hall
  -- Declared functions change the machine, so elements are compared on every machine.
  have hsame : Forall₂ (fun el el' => ∀ m : Machine α, exact = true ∨ m.IgnoresPrecision →
      Element.SameOn m el el') p.elements p'.elements := by
    have hcollapsed := hmirrors.imp fun _ _ hel (m : Machine α)
      (hm : exact = true ∨ m.IgnoresPrecision) => (hel.mono fun e e' he => he m hm).sameOn
    obtain rfl | rfl := legalize_cases h
    · exact hcollapsed
    · have hboth := ((List.forall₂_and_left _ _).mpr ⟨htyped, hcollapsed.flip⟩).flip
      refine List.forall₂_map_right_iff.mpr (hboth.imp fun el el' hel m hm => ?_)
      exact (hel.2 m hm).trans (sameOn_splitBody hm hel.1)
  have hdeclare (m : Machine α) (f : Function) (hm : exact = true ∨ m.IgnoresPrecision) :
      exact = true ∨ (m.declare f).IgnoresPrecision := hm.imp_right fun hm => ⟨hm.unary, hm.binary⟩
  have hstage : p'.stage = p.stage := by
    obtain rfl | rfl := legalize_cases h <;> rfl
  exact ⟨hstage, hsame.imp fun _ _ hel => hel m hm, Program.load_eq_of_same hdeclare hsame hm⟩

/-- A choice in an arm, a literal condition, an index that counts and a value that is called for, in
    an assignment, a compound assignment in a loop, and an increment. -/
theorem nested_choices_are_written :
    let a : Expr := .ofVar "a" .float
    let b : Expr := .ofVar "b" .float
    let c : Expr := .ofVar "c" .bool
    let i : Expr := .ofVar "i" .int
    let next : Expr := .ofIndex (.ofVar "v" (.vec 2)) (.ofUnary .postIncrement i)
    let flip : Expr := .assign c (.ofUnary .not c)
    let value : Expr := .ofUserCall "value" [b] .float
    let choice : Expr := .ofTernary c a next
    let assignment : Expr := .assign (.ofTernary flip choice b) value
    let entry : Function := .entry
      [.expr assignment,
        .whileLoop c (.expr (.ofBinary .addAssign
          (.ofTernary (.bool true) (.ofTernary flip a next) b) value)),
        .expr (.ofUnary .preIncrement (.ofTernary (.bool false) b next))]
    let p : Program := ⟨.fragment,
      [.function ⟨"value", .float, [⟨"x", .float⟩], [.returnWith (some (.ofVar "x" .float))]⟩,
        .function entry]⟩
    let profile : Profile := { workarounds := .single .splitTernaryTargets }
    assignment.eval .integers = flip.values .integers >>= (fun vs =>
        if Machine.integers.holds vs then (Expr.assign choice value).eval .integers
        else (Expr.assign b value).eval .integers) ∧
      p.anyNode (writesMistyped true) = false ∧ ∃ p', legalize profile p = .ok p' ∧
        p'.stage = p.stage ∧ Forall₂ (Element.SameOn .integers) p.elements p'.elements ∧
          ∀ shared, p'.load .integers shared = p.load .integers shared := by
  intro a b c i next flip value choice assignment entry p profile
  -- All types agree exactly here, precision included.
  obtain ⟨hwrite, hkeeps⟩ := legalize_writes_chosen_arm true .integers (.inl rfl)
  have hp : p.anyNode (writesMistyped true) = false := by decide
  have hok : (legalize profile p).toOption.isSome = true := by decide
  -- The rule does not fail on the example, as is seen by evaluation.
  cases h : legalize profile p with
  | error e =>
    rw [h] at hok
    cases hok
  | ok p' =>
    exact ⟨hwrite assignment .float flip choice b rfl (by decide), hp, p', rfl,
      hkeeps profile p p' hp h⟩

end Legalize.TernaryTarget

end ShaderGen
