import Mathlib.Data.Option.Basic
import Mathlib.Tactic.Tauto
import ShaderGen.Glsl.Obstacle
import ShaderGen.Proofs.Glsl.Lexicon
import ShaderGen.Proofs.Induction

/-!
# Expressions that have a reading

What an expression must be, besides being accepted by the printer, for its text to be one of the
language: its names are names, its swizzles are not of numbers, and what it assigns to can be
assigned to.
-/

namespace ShaderGen

open Glsl

namespace Expr

/-- Whether an expression can be assigned to, judging by its outermost node. -/
def isTarget : Expr → Bool
  | .var _ _ | .builtin _ _ | .swizzle _ _ _ | .index _ _ _ | .group _ _ | .ternary _ _ _ _ => true
  | _ => false

/-- Whether an expression is a literal. -/
def isLiteral : Expr → Bool
  | .literal _ _ => true
  | _ => false

mutual
/-- Whether all names in an expression are identifiers, its swizzles select something and are of
    no literal, and its assignments are to what can be assigned to. -/
def readable : Expr → Bool
  | .literal _ _ | .builtin _ _ => true
  | .var _ name => isIdentifier name
  | .unary _ _ operand => operand.readable
  | .binary _ op left right =>
    left.readable && right.readable && (!op.isAssignment || left.isTarget)
  | .ternary _ cond ifTrue ifFalse => cond.readable && ifTrue.readable && ifFalse.readable
  | .call _ (.intrinsic _) args => listReadable args
  | .call _ (.user name) args => isIdentifier name && listReadable args
  | .swizzle _ base mask => base.readable && !base.isLiteral && !mask.isEmpty
  | .index _ base position => base.readable && position.readable
  | .construct _ args => listReadable args
  | .group _ inner => inner.readable

/-- Whether several expressions are readable. -/
def listReadable : List Expr → Bool
  | [] => true
  | e :: es => e.readable && listReadable es
end

/-- A list is readable when all of it is. -/
theorem listReadable_iff (es : List Expr) :
    listReadable es = true ↔ ∀ e ∈ es, e.readable = true := by
  induction es with
  | nil => exact ⟨fun _ _ h => absurd h List.not_mem_nil, fun _ => rfl⟩
  | cons e es ih =>
    show (e.readable && listReadable es) = true ↔ _
    rw [Bool.and_eq_true, ih, List.forall_mem_cons]

/-- It has no obstacle when none of it has. -/
theorem listObstacle?_eq_none_iff (legacy : Bool) (es : List Expr) :
    listObstacle? legacy es = none ↔ ∀ e ∈ es, e.obstacle? legacy = none := by
  induction es with
  | nil => exact ⟨fun _ _ h => absurd h List.not_mem_nil, fun _ => rfl⟩
  | cons e es ih =>
    show (e.obstacle? legacy <|> listObstacle? legacy es) = none ↔ _
    rw [Option.orElse_eq_none, ih, List.forall_mem_cons]

/-- What an expression must be to have a reading: the printer accepts it and it is readable. -/
def Spellable (legacy : Bool) (e : Expr) : Prop :=
  e.obstacle? legacy = none ∧ e.readable = true

instance (legacy : Bool) (e : Expr) : Decidable (e.Spellable legacy) :=
  inferInstanceAs (Decidable (_ ∧ _))

/-! ### Node by node -/

section

variable {legacy : Bool} {ty : Ty}

/-- A literal can be spelled iff its value can. -/
theorem spellable_literal {value : Literal} :
    (literal ty value).Spellable legacy ↔ value.obstacle? legacy = none :=
  and_iff_left rfl

/-- A variable can be spelled iff its name is an identifier. -/
theorem spellable_var {name : String} :
    (var ty name).Spellable legacy ↔ isIdentifier name = true :=
  and_iff_right rfl

/-- A builtin can be spelled iff nothing stands in its way. -/
theorem spellable_builtin {which : Builtin} :
    (builtin ty which).Spellable legacy ↔ which.obstacle? = none :=
  and_iff_left rfl

/-- A unary node can be spelled iff its operand can. -/
theorem spellable_unary {op : UnaryOp} {operand : Expr} :
    (unary ty op operand).Spellable legacy ↔ operand.Spellable legacy :=
  Iff.rfl

/-- A binary node can be spelled iff both operands can; an assignment also needs a target. -/
theorem spellable_binary {op : BinaryOp} {left right : Expr} :
    (binary ty op left right).Spellable legacy ↔ left.Spellable legacy ∧ right.Spellable legacy ∧
      (op.isAssignment = true → left.isTarget = true) := by
  show (left.obstacle? legacy <|> right.obstacle? legacy) = none ∧
    (left.readable && right.readable && (!op.isAssignment || left.isTarget)) = true ↔ _
  rw [Option.orElse_eq_none]
  cases op.isAssignment <;> simp [Spellable] <;> tauto

/-- A choice can be spelled iff its three parts can. -/
theorem spellable_ternary {cond ifTrue ifFalse : Expr} :
    (ternary ty cond ifTrue ifFalse).Spellable legacy ↔
      cond.Spellable legacy ∧ ifTrue.Spellable legacy ∧ ifFalse.Spellable legacy := by
  show (cond.obstacle? legacy <|> ifTrue.obstacle? legacy <|> ifFalse.obstacle? legacy) = none ∧
    (cond.readable && ifTrue.readable && ifFalse.readable) = true ↔ _
  simp [Spellable]
  tauto

/-- Arguments can be spelled if each of them can. -/
private theorem spellable_args {args : List Expr} :
    listObstacle? legacy args = none ∧ listReadable args = true ↔
      ∀ arg ∈ args, arg.Spellable legacy := by
  rw [listObstacle?_eq_none_iff, listReadable_iff, ← forall₂_and]
  rfl

/-- A call of an intrinsic can be spelled iff its arguments can. -/
theorem spellable_intrinsic {function : Intrinsic} {args : List Expr} :
    (call ty (.intrinsic function) args).Spellable legacy ↔ ∀ arg ∈ args, arg.Spellable legacy :=
  spellable_args

/-- A call of a function can be spelled iff its name and its arguments can. -/
theorem spellable_user {name : String} {args : List Expr} :
    (call ty (.user name) args).Spellable legacy ↔
      isIdentifier name = true ∧ ∀ arg ∈ args, arg.Spellable legacy := by
  show listObstacle? legacy args = none ∧ (isIdentifier name && listReadable args) = true ↔ _
  rw [← spellable_args, Bool.and_eq_true]
  exact and_left_comm

/-- A swizzle can be spelled iff its base can, is no literal, and the mask selects lanes only. -/
theorem spellable_swizzle {base : Expr} {mask : Mask} :
    (swizzle ty base mask).Spellable legacy ↔ base.Spellable legacy ∧ base.isLiteral = false ∧
      mask ≠ [] ∧ mask.any Selector.isLiteral = false := by
  show (base.obstacle? legacy <|> mask.obstacle?) = none ∧
    (base.readable && !base.isLiteral && !mask.isEmpty) = true ↔ _
  simp [Spellable, Mask.obstacle?]
  tauto

/-- An index can be spelled iff its base and its position can. -/
theorem spellable_index {base position : Expr} :
    (index ty base position).Spellable legacy ↔
      base.Spellable legacy ∧ position.Spellable legacy := by
  show (base.obstacle? legacy <|> position.obstacle? legacy) = none ∧
    (base.readable && position.readable) = true ↔ _
  simp [Spellable]
  tauto

/-- A constructor can be spelled iff its type and its arguments can. -/
theorem spellable_construct {args : List Expr} :
    (construct ty args).Spellable legacy ↔
      ty.obstacle? legacy = none ∧ ∀ arg ∈ args, arg.Spellable legacy := by
  show (ty.obstacle? legacy <|> listObstacle? legacy args) = none ∧ listReadable args = true ↔ _
  rw [Option.orElse_eq_none, and_assoc, spellable_args]

/-- A group can be spelled iff its inside can. -/
theorem spellable_group {inner : Expr} :
    (group ty inner).Spellable legacy ↔ inner.Spellable legacy :=
  Iff.rfl

end

end Expr

end ShaderGen
