import Mathlib.Data.List.Basic
import ShaderGen.Expr.Traverse
import ShaderGen.Proofs.Induction

/-!
# Expressions by their children

The walks over expressions have a case for each kind of node, but all of them do the same: they
visit the children of a node from left to right. `Expr.children` and `Expr.withChildren` take a
node apart and put it together again, whatever its kind, and say what the walks do in one equation
each (`Expr.bottomUpM_eq`, `Expr.any_eq`).

What a node writes is one of its children (`Expr.target?`), and the variable in which a write ends
up is found on a path below that (`Expr.reached`).
-/

namespace ShaderGen.Expr

/-- Expressions directly below a node, from left to right. -/
def children : Expr → List Expr
  | .literal _ _ | .var _ _ | .builtin _ _ => []
  | .unary _ _ operand => [operand]
  | .binary _ _ left right => [left, right]
  | .ternary _ cond ifTrue ifFalse => [cond, ifTrue, ifFalse]
  | .call _ _ args | .construct _ args => args
  | .swizzle _ base _ => [base]
  | .index _ base position => [base, position]
  | .group _ inner => [inner]

/-- The node over other children, as many as it has. -/
def withChildren : Expr → List Expr → Expr
  | .unary ty op _, [operand] => .unary ty op operand
  | .binary ty op _ _, [left, right] => .binary ty op left right
  | .ternary ty _ _ _, [cond, ifTrue, ifFalse] => .ternary ty cond ifTrue ifFalse
  | .call ty callee _, args => .call ty callee args
  | .construct ty _, args => .construct ty args
  | .swizzle ty _ mask, [base] => .swizzle ty base mask
  | .index ty _ _, [base, position] => .index ty base position
  | .group ty _, [inner] => .group ty inner
  | e, _ => e

/-! ### Taking apart and putting together -/

/-- Putting back its own children changes nothing. -/
@[simp] theorem withChildren_children (e : Expr) : e.withChildren e.children = e := by
  cases e <;> rfl

/-- A node with other children has the type of the node. -/
@[simp] theorem ty_withChildren (e : Expr) (cs : List Expr) : (e.withChildren cs).ty = e.ty := by
  unfold withChildren
  split <;> rfl

/-- A node of another type has the children of the node. -/
@[simp] theorem children_withTy (ty : Ty) (e : Expr) : (e.withTy ty).children = e.children := by
  cases e <;> rfl

/-- Children that are as many as those of a node become its children. -/
theorem children_withChildren {e : Expr} {cs : List Expr} (h : cs.length = e.children.length) :
    (e.withChildren cs).children = cs := by
  cases e with
  | call ty callee args => rfl
  | construct ty args => rfl
  | literal | var | builtin => exact (List.length_eq_zero_iff.mp h).symm
  -- A node of fixed arity gets exactly that many children.
  | unary | swizzle | group =>
    obtain ⟨a, rfl⟩ := List.length_eq_one_iff.mp h
    rfl
  | binary | index =>
    obtain ⟨a, b, rfl⟩ := List.length_eq_two.mp h
    rfl
  | ternary =>
    obtain ⟨a, b, c, rfl⟩ := List.length_eq_three.mp h
    rfl

/-- Induction over an expression, for all kinds of nodes at once. -/
theorem induction_children {motive : Expr → Prop}
    (h : ∀ e, (∀ c ∈ e.children, motive c) → motive e) (e : Expr) : motive e := by
  induction e with
  | literal | var | builtin => exact h _ fun c hc => absurd hc List.not_mem_nil
  | unary ty op operand ih => exact h _ (by simpa [children] using ih)
  | binary ty op left right ihl ihr => exact h _ (by simpa [children] using ⟨ihl, ihr⟩)
  | ternary ty cond ifTrue ifFalse ihc iht ihf =>
    exact h _ (by simpa [children] using ⟨ihc, iht, ihf⟩)
  | call ty callee args ih => exact h _ ih
  | swizzle ty base mask ih => exact h _ (by simpa [children] using ih)
  | index ty base position ihb ihp => exact h _ (by simpa [children] using ⟨ihb, ihp⟩)
  | construct ty args ih => exact h _ ih
  | group ty inner ih => exact h _ (by simpa [children] using ih)

/-! ### What a node is without its children -/

/-- A node without its children; a call and a constructor may have any number of them. -/
inductive Head where
  | leaf (value : Option Literal)
  | unary (ty : Ty) (op : UnaryOp)
  | binary (op : BinaryOp)
  | ternary
  | call (callee : Callee) (arity : Nat)
  | swizzle (mask : Mask)
  | index
  | construct
  | group

/-- What a node is without its children. Only the type of an operation with one operand is kept. -/
def head : Expr → Head
  | .literal _ value => .leaf (some value)
  | .var _ _ | .builtin _ _ => .leaf none
  | .unary ty op _ => .unary ty op
  | .binary _ op _ _ => .binary op
  | .ternary _ _ _ _ => .ternary
  | .call _ callee args => .call callee args.length
  | .swizzle _ _ mask => .swizzle mask
  | .index _ _ _ => .index
  | .construct _ _ => .construct
  | .group _ _ => .group

/-- A node with other children has the head of the node. -/
theorem head_withChildren {e : Expr} {cs : List Expr} (h : cs.length = e.children.length) :
    (e.withChildren cs).head = e.head := by
  unfold withChildren
  split
  case h_4 => exact congrArg (Head.call _) h
  all_goals rfl

/-- What has the head of a call is a call of the same callee with as many arguments. -/
theorem eq_call_of_head {e : Expr} {callee : Callee} {n : Nat} (h : e.head = .call callee n) :
    ∃ ty args, e = .call ty callee args ∧ args.length = n := by
  cases e with
  | call ty callee' args =>
    obtain ⟨rfl, hlength⟩ := Head.call.inj h
    exact ⟨ty, args, rfl, hlength⟩
  | _ => exact absurd h nofun

section

variable {β : Type} (f : Head → List β → β)

mutual
/-- Value of an expression that is computed from what a node is and the values of its children. -/
def fold : Expr → β
  | e@(.literal _ _) | e@(.var _ _) | e@(.builtin _ _) => f e.head []
  | e@(.unary _ _ operand) => f e.head [operand.fold]
  | e@(.binary _ _ left right) => f e.head [left.fold, right.fold]
  | e@(.ternary _ cond ifTrue ifFalse) => f e.head [cond.fold, ifTrue.fold, ifFalse.fold]
  | e@(.call _ _ args) | e@(.construct _ args) => f e.head (foldList args)
  | e@(.swizzle _ base _) => f e.head [base.fold]
  | e@(.index _ base position) => f e.head [base.fold, position.fold]
  | e@(.group _ inner) => f e.head [inner.fold]

/-- Values of several expressions. -/
def foldList : List Expr → List β
  | [] => []
  | e :: es => e.fold :: foldList es
end

/-- Folding a list folds each of its expressions. -/
theorem foldList_eq_map (es : List Expr) : foldList f es = es.map (fold f) := by
  induction es with
  | nil => rfl
  | cons e es ih => exact congrArg (e.fold f :: ·) ih

/-- A fold combines the head with the folds of the children. -/
theorem fold_eq (e : Expr) : e.fold f = f e.head (e.children.map (fold f)) := by
  cases e with
  | call | construct => exact congrArg (f _) (foldList_eq_map f _)
  | _ => rfl

end

/-! ### What is written -/

/-- The child that a node writes to, if it writes at all. -/
def target? : Expr → Option Expr
  | .unary _ op operand => if op.writesOperand then some operand else none
  | .binary _ op left _ => if op.isAssignment then some left else none
  | _ => none

/-- Variables that a write to an expression may end up in. The path to them goes through swizzles,
    indexing, groups and choices, and through short-circuit operators, which may become choices. -/
def reached : Expr → List Expr
  | e@(.var _ _) | e@(.builtin _ _) => [e]
  | .swizzle _ base _ | .index _ base _ | .group _ base => base.reached
  | .ternary _ _ ifTrue ifFalse => ifTrue.reached ++ ifFalse.reached
  | .binary _ .logicalAnd left right | .binary _ .logicalOr left right =>
    left.reached ++ right.reached
  | _ => []

/-- A node over other children writes to what takes the place of its target. -/
theorem target?_withChildren {R : Expr → Expr → Prop} {e : Expr} {cs : List Expr}
    (h : List.Forall₂ R e.children cs) : Option.Rel R e.target? (e.withChildren cs).target? := by
  cases e with
  | unary ty op operand =>
    obtain _ | ⟨hoperand, _ | _⟩ := h
    -- A write marks its operand or its left side; everything else marks nothing.
    show Option.Rel R (if op.writesOperand then _ else _) (if op.writesOperand then _ else _)
    split
    · exact .some hoperand
    · exact .none
  | binary ty op left right =>
    obtain _ | ⟨hleft, _ | ⟨-, _ | _⟩⟩ := h
    show Option.Rel R (if op.isAssignment then _ else _) (if op.isAssignment then _ else _)
    split
    · exact .some hleft
    · exact .none
  | literal | var | builtin =>
    cases h
    exact .none
  | call | construct => exact .none
  -- None of the other nodes writes anything itself.
  | swizzle | group =>
    obtain _ | ⟨-, _ | _⟩ := h
    exact .none
  | index =>
    obtain _ | ⟨-, _ | ⟨-, _ | _⟩⟩ := h
    exact .none
  | ternary =>
    obtain _ | ⟨-, _ | ⟨-, _ | ⟨-, _ | _⟩⟩⟩ := h
    exact .none

/-- The target of the new node is related to the target of the old. -/
theorem exists_related_target {R : Expr → Expr → Prop} {e : Expr} {cs : List Expr}
    (h : List.Forall₂ R e.children cs) :
    ∀ t' ∈ (e.withChildren cs).target?, ∃ t ∈ e.target?, R t t' := by
  intro t' ht'
  have hrel := target?_withChildren h
  rw [Option.mem_def.mp ht'] at hrel
  generalize e.target? = t at hrel
  cases hrel with
  | some h => exact ⟨_, rfl, h⟩

/-- A node over other children reaches what they do. -/
theorem reached_withChildren {q : Expr → Prop} {e : Expr} {cs : List Expr}
    (h : List.Forall₂ (fun c c' => (∃ v ∈ c'.reached, q v) → ∃ v ∈ c.reached, q v) e.children cs)
    (hq : ∃ v ∈ (e.withChildren cs).reached, q v) : ∃ v ∈ e.reached, q v := by
  -- Where a path goes on below two children, it goes on below one of them.
  have hboth : ∀ {a a' b b' : Expr}, ((∃ v ∈ a'.reached, q v) → ∃ v ∈ a.reached, q v) →
      ((∃ v ∈ b'.reached, q v) → ∃ v ∈ b.reached, q v) →
      (∃ v ∈ a'.reached ++ b'.reached, q v) → ∃ v ∈ a.reached ++ b.reached, q v := by
    intro a a' b b' ha hb hq
    simp only [List.mem_append, or_and_right, exists_or] at hq ⊢
    exact hq.imp ha hb
  cases e with
  | literal | var | builtin =>
    cases h
    exact hq
  | unary ty op operand =>
    obtain _ | ⟨-, _ | _⟩ := h
    simp [withChildren, reached] at hq
  | call | construct => simp [withChildren, reached] at hq
  | swizzle | group =>
    obtain _ | ⟨hbase, _ | _⟩ := h
    exact hbase hq
  | index =>
    obtain _ | ⟨hbase, _ | ⟨-, _ | _⟩⟩ := h
    exact hbase hq
  | ternary =>
    obtain _ | ⟨-, _ | ⟨ha, _ | ⟨hb, _ | _⟩⟩⟩ := h
    exact hboth ha hb hq
  | binary ty op left right =>
    obtain _ | ⟨ha, _ | ⟨hb, _ | _⟩⟩ := h
    -- Of the operators only the short-circuiting ones pass their operands on.
    cases op with
    | logicalAnd | logicalOr => exact hboth ha hb hq
    | _ => simp [withChildren, reached] at hq

/-! ### Walks -/

/-- Rebuilding a node rebuilds its children and hands the node over them to the function. -/
theorem bottomUpM_eq {m : Type → Type} [Monad m] [LawfulMonad m] (f : Expr → m Expr) (e : Expr) :
    e.bottomUpM f = e.children.mapM (bottomUpM f) >>= fun cs => f (e.withChildren cs) := by
  cases e <;> simp [bottomUpM, children, withChildren, bottomUpListM_eq_mapM]

/-- A rewrite from below rewrites the children first and then the node. -/
theorem bottomUp_eq (f : Expr → Expr) (e : Expr) :
    e.bottomUp f = f (e.withChildren (e.children.map (bottomUp f))) := by
  cases e <;> simp [children, withChildren]

/-- Some node of an expression satisfies a predicate if the outermost or one below it does. -/
theorem any_eq (p : Expr → Bool) (e : Expr) :
    e.any p = (p e || e.children.any (any p)) := by
  cases e <;> simp [any, children, anyList_eq_any, Bool.or_assoc]

/-- No node of an expression satisfies a predicate if neither the outermost nor one below it
    does. -/
theorem any_eq_false_iff {p : Expr → Bool} {e : Expr} :
    e.any p = false ↔ p e = false ∧ ∀ c ∈ e.children, c.any p = false := by
  rw [any_eq, Bool.or_eq_false_iff, List.any_eq_false]
  simp

/-- Where one predicate holds only if another does, no node satisfies it if none satisfies the
    other. -/
theorem any_mono {p q : Expr → Bool} (h : ∀ e, p e = true → q e = true) {e : Expr}
    (he : e.any q = false) : e.any p = false := by
  induction e using induction_children with
  | h e ih =>
    rw [any_eq_false_iff] at he ⊢
    refine ⟨?_, fun c hc => ih c hc (he.2 c hc)⟩
    rw [Bool.eq_false_iff]
    intro hp
    exact absurd (h e hp) (by simp [he.1])

end ShaderGen.Expr
