import ShaderGen.Proofs.Checked
import ShaderGen.Proofs.Nodes

/-!
# What the check accepts

`Program.defect?` is a walk with a depth counter and a flag for what is written to. Here is what it
looks for, said about the nodes of a program one at a time: where a node stands, and what is wrong
with it there (`Node.WellFormedAt`). A node stands one level below the node that holds it, and the
statements of functions and the initial values of globals stand at depth one.

A write goes through to the base of a swizzle or of an index, into a group and into both arms of a
choice, and on from there (`Expr.WritesThrough`).

## Key results

- `Expr.defect?_eq_none_iff`, `Stmt.defect?_eq_none_iff`: a walk that starts at some depth finds
  nothing if every node below is well formed where it stands
- `Program.accepted_iff_wellFormed`: the check accepts a program if and only if every node of it is
  well formed where it stands
-/

namespace ShaderGen

/-- Number of components of a scalar or a vector. -/
inductive Shape.HasWidth : Shape → Nat → Prop where
  | scalar (kind : ScalarKind) : HasWidth (.scalar kind) 1
  | vector (kind : ScalarKind) (size : Nat) : HasWidth (.vector kind size) size

/-- The width of a swizzled shape, as the definition spells it. -/
theorem Shape.swizzleWidth?_eq_some_iff {shape : Shape} {width : Nat} :
    shape.swizzleWidth? = some width ↔ shape.HasWidth width := by
  constructor
  · intro h
    -- Only scalars and vectors have a width.
    cases shape with
    | scalar kind =>
      obtain rfl := Option.some.inj h
      exact .scalar kind
    | vector kind size =>
      obtain rfl := Option.some.inj h
      exact .vector kind size
    | void | matrix | sampler => cases h
  · rintro (_ | _) <;> rfl

/-- A mask picks one to four components, each of which a value of the shape has. -/
structure Mask.PicksFrom (mask : Mask) (shape : Shape) : Prop where
  nonempty : 1 ≤ mask.length
  length_le : mask.length ≤ 4
  inRange : ∃ width, shape.HasWidth width ∧
    ∀ s ∈ mask, ∀ lane, s.lane? = some lane → lane < width

/-- Every selector of a mask picks a component. -/
def Mask.PicksOnly (mask : Mask) : Prop := ∀ s ∈ mask, s ≠ .zero ∧ s ≠ .one

namespace Expr

/-- A write to the first expression writes through the second. -/
inductive WritesThrough : Expr → Expr → Prop where
  | here (e : Expr) : WritesThrough e e
  | swizzle {base e : Expr} (ty : Ty) (mask : Mask) (h : WritesThrough base e) :
    WritesThrough (.swizzle ty base mask) e
  | index {base e : Expr} (ty : Ty) (position : Expr) (h : WritesThrough base e) :
    WritesThrough (.index ty base position) e
  | group {inner e : Expr} (ty : Ty) (h : WritesThrough inner e) :
    WritesThrough (.group ty inner) e
  | ifTrue {arm e : Expr} (ty : Ty) (cond other : Expr) (h : WritesThrough arm e) :
    WritesThrough (.ternary ty cond arm other) e
  | ifFalse {arm e : Expr} (ty : Ty) (cond other : Expr) (h : WritesThrough arm e) :
    WritesThrough (.ternary ty cond other arm) e

/-- No write to an expression goes through a constant selector. -/
def TakesWrites (e : Expr) : Prop :=
  ∀ ty base mask, e.WritesThrough (.swizzle ty base mask) → mask.PicksOnly

end Expr

namespace Node

/-- Nothing is wrong with a node that stands at some depth, the nodes below it left out. -/
structure WellFormedAt (depth : Nat) (n : Node) : Prop where
  depth_le : depth ≤ 512
  /-- A swizzle fits the value under it. -/
  mask : ∀ ty base mask, n = .expr (.swizzle ty base mask) → mask.PicksFrom base.ty.shape
  /-- A `for` starts with a declaration or an expression. -/
  loop : ∀ init cond step body, n = .stmt (.forLoop (some init) cond step body) →
    (∃ d, init = .decl d) ∨ ∃ e, init = .expr e
  /-- An assignment or an increment writes to components. -/
  target : ∀ e, n = .expr e → ∀ t ∈ e.target?, t.TakesWrites

end Node

/-- Every node of a program is well formed where it stands. -/
def Program.WellFormed (p : Program) : Prop := ∀ depth n, p.HoldsAt depth n → n.WellFormedAt depth

/-! ### Masks and targets -/

/-- A selector is no literal if it is neither zero nor one. -/
theorem Selector.isLiteral_eq_false_iff {s : Selector} :
    s.isLiteral = false ↔ s ≠ .zero ∧ s ≠ .one := by
  cases s <;> decide

/-- A selector stays within a width if its lane does. -/
theorem Selector.reachesPast_eq_false_iff {s : Selector} {width : Nat} :
    s.reachesPast width = false ↔ ∀ lane, s.lane? = some lane → lane < width := by
  unfold reachesPast
  split
  · next lane h => simp [h]
  · next h => simp [h]

/-- No selector is past the width if every lane is within it. -/
theorem Mask.firstPast?_eq_none_iff {mask : Mask} {width : Nat} :
    mask.firstPast? width = none ↔ ∀ s ∈ mask, ∀ lane, s.lane? = some lane → lane < width := by
  simp only [firstPast?, List.find?_eq_none, Bool.not_eq_true, Selector.reachesPast_eq_false_iff]

/-- A mask without literals picks lanes only. -/
theorem Mask.any_isLiteral_eq_false_iff {mask : Mask} :
    mask.any Selector.isLiteral = false ↔ mask.PicksOnly := by
  simp only [List.any_eq_false, Bool.not_eq_true, Selector.isLiteral_eq_false_iff, PicksOnly]

/-- A mask has one to four selectors. -/
theorem Mask.isEmpty_or_long_eq_false_iff {mask : Mask} :
    (mask.isEmpty || decide (Mask.maxLength < mask.length)) = false ↔
      1 ≤ mask.length ∧ mask.length ≤ 4 := by
  rw [Bool.or_eq_false_iff, decide_eq_false_iff_not, Nat.not_lt]
  cases mask <;> simp [maxLength]

/-- A mask has no defect if it picks from its base, and only lanes where it is written. -/
theorem Mask.defect?_eq_none_iff {mask : Mask} {ty : Ty} {target : Bool} :
    mask.defect? ty target = none ↔ mask.PicksFrom ty.shape ∧ (target = true → mask.PicksOnly) := by
  have hparts : mask.defect? ty target = none ↔
      (mask.isEmpty || decide (maxLength < mask.length)) = false ∧
        (target && mask.any Selector.isLiteral) = false ∧
        ∃ width, ty.swizzleWidth? = some width ∧ mask.firstPast? width = none := by
    -- Each check is made where those before it found nothing.
    unfold defect?
    cases mask.isEmpty || decide (maxLength < mask.length) with
    | true => simp
    | false =>
      cases target && mask.any Selector.isLiteral with
      | true => simp
      | false =>
        cases ty.swizzleWidth? with
        | none => simp
        | some width => cases h : mask.firstPast? width <;> simp [h]
  rw [hparts, isEmpty_or_long_eq_false_iff, Bool.and_eq_false_imp, any_isLiteral_eq_false_iff]
  simp only [Ty.swizzleWidth?, Shape.swizzleWidth?_eq_some_iff, firstPast?_eq_none_iff]
  constructor
  · rintro ⟨⟨hpos, hle⟩, htarget, hrange⟩
    exact ⟨⟨hpos, hle, hrange⟩, htarget⟩
  · rintro ⟨⟨hpos, hle, hrange⟩, htarget⟩
    exact ⟨⟨hpos, hle⟩, htarget, hrange⟩

/-- The depth is fine up to the limit. -/
@[simp] theorem depthDefect?_eq_none_iff {depth : Nat} :
    depthDefect? depth = none ↔ depth ≤ 512 := by
  unfold depthDefect? maxDepth
  split <;> simp <;> omega

namespace Stmt

/-! ### Loops -/

/-- A loop starts with a declaration or an expression. -/
theorem isLoopInitializer_iff {s : Stmt} :
    s.isLoopInitializer = true ↔ (∃ d, s = .decl d) ∨ ∃ e, s = .expr e := by
  cases s <;> simp [isLoopInitializer]

/-- What it is for a statement to start its loops so. -/
theorem startsPlainly_iff {s : Stmt} :
    s.StartsPlainly ↔ ∀ init cond step body, s = .forLoop (some init) cond step body →
      (∃ d, init = .decl d) ∨ ∃ e, init = .expr e := by
  simp only [← isLoopInitializer_iff]
  unfold StartsPlainly
  split
  · -- Only a `for` with an initializer has something to satisfy.
    next init cond step body =>
    refine ⟨fun h _ _ _ _ heq => ?_, fun h => h _ _ _ _ rfl⟩
    cases heq
    exact h
  · next hnot => exact iff_of_true trivial fun _ _ _ _ heq => absurd heq (hnot _ _ _ _)

end Stmt

namespace Expr

/-! ### What a write goes through -/

section

variable {ty : Ty} {base inner cond ifTrue ifFalse position : Expr} {mask : Mask}

/-- A swizzle takes writes if it picks lanes of what does. -/
@[simp] theorem takesWrites_swizzle :
    (swizzle ty base mask).TakesWrites ↔ mask.PicksOnly ∧ base.TakesWrites := by
  constructor
  · exact fun h => ⟨h _ _ _ (.here _), fun _ _ _ hw => h _ _ _ (.swizzle _ _ hw)⟩
  · rintro ⟨hmask, hbase⟩ _ _ _ hw
    cases hw with
    | here => exact hmask
    | swizzle _ _ hw => exact hbase _ _ _ hw

/-- An indexed value takes writes if its base does. -/
@[simp] theorem takesWrites_index : (index ty base position).TakesWrites ↔ base.TakesWrites := by
  constructor
  · exact fun h _ _ _ hw => h _ _ _ (.index _ _ hw)
  · rintro h _ _ _ hw
    cases hw with
    | index _ _ hw => exact h _ _ _ hw

/-- A group takes writes if what it holds does. -/
@[simp] theorem takesWrites_group : (group ty inner).TakesWrites ↔ inner.TakesWrites := by
  constructor
  · exact fun h _ _ _ hw => h _ _ _ (.group _ hw)
  · rintro h _ _ _ hw
    cases hw with
    | group _ hw => exact h _ _ _ hw

/-- A choice takes writes if both arms do. -/
@[simp] theorem takesWrites_ternary : (ternary ty cond ifTrue ifFalse).TakesWrites ↔
    ifTrue.TakesWrites ∧ ifFalse.TakesWrites := by
  constructor
  · exact fun h => ⟨fun _ _ _ hw => h _ _ _ (.ifTrue _ _ _ hw),
      fun _ _ _ hw => h _ _ _ (.ifFalse _ _ _ hw)⟩
  · rintro ⟨ht, hf⟩ _ _ _ hw
    cases hw with
    | ifTrue _ _ _ hw => exact ht _ _ _ hw
    | ifFalse _ _ _ hw => exact hf _ _ _ hw

end

/-- A write to any other expression goes no further. -/
theorem takesWrites_of_stops {e : Expr}
    (h : ∀ ty base mask, ¬e.WritesThrough (.swizzle ty base mask)) : e.TakesWrites :=
  fun _ _ _ hw => absurd hw (h _ _ _)

end Expr

namespace Node

/-! ### Nodes below a node -/

/-- The nodes at and below a node are well formed where they stand, if the node stands at some
    depth. -/
def Upholds (depth : Nat) (n : Node) : Prop :=
  ∀ levels m, n.Holds levels m → m.WellFormedAt (depth + levels)

variable {depth : Nat}

/-- A tree upholds the rules if its root does and its subtrees do, one level deeper. -/
theorem upholds_iff {n : Node} :
    n.Upholds depth ↔ n.WellFormedAt depth ∧ ∀ c ∈ n.children, c.Upholds (depth + 1) := by
  -- What stands some levels below a child stands one level further below the node.
  simp only [Upholds, Nat.add_right_comm depth 1, Nat.add_assoc]
  exact forall_holds_iff

/-- What that says of an expression. -/
theorem upholds_expr {e : Expr} : (expr e).Upholds depth ↔
    depth ≤ 512 ∧ (∀ ty base mask, e = .swizzle ty base mask → mask.PicksFrom base.ty.shape) ∧
      (∀ t ∈ e.target?, t.TakesWrites) ∧ ∀ c ∈ e.children, (expr c).Upholds (depth + 1) := by
  rw [upholds_iff, ← and_assoc, ← and_assoc]
  refine and_congr ⟨?_, ?_⟩ (by simp [children])
  · rintro ⟨hdepth, hmask, -, htarget⟩
    exact ⟨⟨hdepth, fun _ _ _ h => hmask _ _ _ (congrArg expr h)⟩, htarget e rfl⟩
  · rintro ⟨⟨hdepth, hmask⟩, htarget⟩
    refine ⟨hdepth, fun _ _ _ h => hmask _ _ _ (expr.inj h), ?_, fun _ h => expr.inj h ▸ htarget⟩
    rintro _ _ _ _ ⟨⟩

/-- What that says of a statement. -/
theorem upholds_stmt {s : Stmt} : (stmt s).Upholds depth ↔
    depth ≤ 512 ∧ s.StartsPlainly ∧ (∀ e ∈ s.own, (expr e).Upholds (depth + 1)) ∧
      ∀ t ∈ s.nested, (stmt t).Upholds (depth + 1) := by
  rw [upholds_iff, ← and_assoc, Stmt.startsPlainly_iff]
  refine and_congr ⟨?_, ?_⟩ (by simp [children, or_imp, forall_and])
  · rintro ⟨hdepth, -, hloop, -⟩
    exact ⟨hdepth, fun _ _ _ _ h => hloop _ _ _ _ (congrArg stmt h)⟩
  · rintro ⟨hdepth, hloop⟩
    refine ⟨hdepth, ?_, fun _ _ _ _ h => hloop _ _ _ _ (stmt.inj h), ?_⟩
    · -- What is said of expressions and of roots does not apply to statements.
      rintro _ _ _ ⟨⟩
    · rintro _ ⟨⟩

/-! What is asked of each kind of node. -/

section

attribute [local simp] Expr.children Expr.target? Stmt.own Stmt.nested

variable {ty : Ty} {left right base cond position : Expr} {mask : Mask} {args : List Expr}

/-- A literal has only its depth to keep to. -/
theorem upholds_literal {value : Literal} :
    (expr (.literal ty value)).Upholds depth ↔ depth ≤ 512 := by
  rw [upholds_expr]
  simp

/-- So has a variable. -/
theorem upholds_var {name : String} : (expr (.var ty name)).Upholds depth ↔ depth ≤ 512 := by
  rw [upholds_expr]
  simp

/-- So has a built-in variable. -/
theorem upholds_builtin {which : Builtin} :
    (expr (.builtin ty which)).Upholds depth ↔ depth ≤ 512 := by
  rw [upholds_expr]
  simp

/-- An operator that writes its operand needs one that takes writes. -/
theorem upholds_unary {op : UnaryOp} : (expr (.unary ty op base)).Upholds depth ↔
    depth ≤ 512 ∧ (op.writesOperand = true → base.TakesWrites) ∧
      (expr base).Upholds (depth + 1) := by
  rw [upholds_expr]
  simp

/-- An assignment needs a left side that takes writes. -/
theorem upholds_binary {op : BinaryOp} : (expr (.binary ty op left right)).Upholds depth ↔
    depth ≤ 512 ∧ (op.isAssignment = true → left.TakesWrites) ∧
      (expr left).Upholds (depth + 1) ∧ (expr right).Upholds (depth + 1) := by
  rw [upholds_expr]
  simp

/-- A choice upholds the rules through its parts. -/
theorem upholds_ternary : (expr (.ternary ty cond left right)).Upholds depth ↔
    depth ≤ 512 ∧ (expr cond).Upholds (depth + 1) ∧ (expr left).Upholds (depth + 1) ∧
      (expr right).Upholds (depth + 1) := by
  rw [upholds_expr]
  simp

/-- A call upholds them through its arguments. -/
theorem upholds_call {callee : Callee} : (expr (.call ty callee args)).Upholds depth ↔
    depth ≤ 512 ∧ ∀ arg ∈ args, (expr arg).Upholds (depth + 1) := by
  rw [upholds_expr]
  simp

/-- A constructor does, too. -/
theorem upholds_construct : (expr (.construct ty args)).Upholds depth ↔
    depth ≤ 512 ∧ ∀ arg ∈ args, (expr arg).Upholds (depth + 1) := by
  rw [upholds_expr]
  simp

/-- A swizzle needs a mask that picks from its base. -/
theorem upholds_swizzle : (expr (.swizzle ty base mask)).Upholds depth ↔
    depth ≤ 512 ∧ mask.PicksFrom base.ty.shape ∧ (expr base).Upholds (depth + 1) := by
  rw [upholds_expr]
  simp

/-- An indexed value upholds the rules through base and position. -/
theorem upholds_index : (expr (.index ty base position)).Upholds depth ↔
    depth ≤ 512 ∧ (expr base).Upholds (depth + 1) ∧ (expr position).Upholds (depth + 1) := by
  rw [upholds_expr]
  simp

/-- A group upholds them through what it holds. -/
theorem upholds_group : (expr (.group ty base)).Upholds depth ↔
    depth ≤ 512 ∧ (expr base).Upholds (depth + 1) := by
  rw [upholds_expr]
  simp

end

end Node

namespace Expr

variable {depth : Nat}

/-- A list of expressions has no defect if none of them has one. -/
theorem listDefect?_eq_none_iff {es : List Expr} :
    listDefect? depth es = none ↔ ∀ e ∈ es, e.defect? depth false = none := by
  induction es with
  | nil => simp [listDefect?]
  | cons e es ih => simp [listDefect?, ih]

/-- What is not written through is asked nothing more where it is written to. -/
theorem upholds_and_iff_of_stops {e : Expr} {target : Bool}
    (h : ∀ ty base mask, ¬e.WritesThrough (.swizzle ty base mask)) :
    (Node.expr e).Upholds depth ∧ (target = true → e.TakesWrites) ↔
      (Node.expr e).Upholds depth :=
  and_iff_left fun _ => takesWrites_of_stops h

/-- Walking over an expression finds nothing if every node is well formed where it stands, and
    nothing is written through a constant selector where the expression is written to. -/
theorem defect?_eq_none_iff {e : Expr} {target : Bool} :
    e.defect? depth target = none ↔
      (Node.expr e).Upholds depth ∧ (target = true → e.TakesWrites) := by
  -- The walk hands the flag on to what a write goes through, and sets it for what is assigned to.
  induction e generalizing depth target with
  -- The nodes that end the path of a write are no targets, so the flag must be off.
  | literal ty value =>
    rw [upholds_and_iff_of_stops (by rintro _ _ _ ⟨⟩), Node.upholds_literal, defect?,
      depthDefect?_eq_none_iff]
  | var ty name =>
    rw [upholds_and_iff_of_stops (by rintro _ _ _ ⟨⟩), Node.upholds_var, defect?,
      depthDefect?_eq_none_iff]
  | builtin ty which =>
    rw [upholds_and_iff_of_stops (by rintro _ _ _ ⟨⟩), Node.upholds_builtin, defect?,
      depthDefect?_eq_none_iff]
  | unary ty op operand ih =>
    rw [upholds_and_iff_of_stops (by rintro _ _ _ ⟨⟩), Node.upholds_unary, defect?,
      Option.orElse_eq_none, depthDefect?_eq_none_iff, ih]
    tauto
  | binary ty op left right ihl ihr =>
    rw [upholds_and_iff_of_stops (by rintro _ _ _ ⟨⟩), Node.upholds_binary, defect?,
      Option.orElse_eq_none, Option.orElse_eq_none, depthDefect?_eq_none_iff, ihl, ihr]
    tauto
  | ternary ty cond ifTrue ifFalse ihc iht ihf =>
    -- A choice hands the flag on to both arms.
    rw [takesWrites_ternary, imp_and, Node.upholds_ternary, defect?, Option.orElse_eq_none,
      Option.orElse_eq_none, Option.orElse_eq_none, depthDefect?_eq_none_iff, ihc, iht, ihf]
    tauto
  | call ty callee args ih =>
    rw [upholds_and_iff_of_stops (by rintro _ _ _ ⟨⟩), Node.upholds_call, defect?,
      Option.orElse_eq_none, depthDefect?_eq_none_iff, listDefect?_eq_none_iff]
    exact and_congr_right fun _ => forall₂_congr fun arg harg => (ih arg harg).trans (by simp)
  | construct ty args ih =>
    rw [upholds_and_iff_of_stops (by rintro _ _ _ ⟨⟩), Node.upholds_construct, defect?,
      Option.orElse_eq_none, depthDefect?_eq_none_iff, listDefect?_eq_none_iff]
    exact and_congr_right fun _ => forall₂_congr fun arg harg => (ih arg harg).trans (by simp)
  | swizzle ty base mask ih =>
    -- A swizzle, an index and a group hand it on to what is under them.
    rw [takesWrites_swizzle, imp_and, Node.upholds_swizzle, defect?, Option.orElse_eq_none,
      Option.orElse_eq_none, depthDefect?_eq_none_iff, Mask.defect?_eq_none_iff, ih]
    tauto
  | index ty base position ihb ihp =>
    rw [takesWrites_index, Node.upholds_index, defect?, Option.orElse_eq_none,
      Option.orElse_eq_none, depthDefect?_eq_none_iff, ihb, ihp]
    tauto
  | group ty inner ih =>
    rw [takesWrites_group, Node.upholds_group, defect?, Option.orElse_eq_none,
      depthDefect?_eq_none_iff, ih]
    tauto

/-- The same for an expression that is only read. -/
theorem defect?_false_eq_none_iff {e : Expr} :
    e.defect? depth false = none ↔ (Node.expr e).Upholds depth := by
  rw [defect?_eq_none_iff]
  simp

end Expr

namespace Stmt

variable {depth : Nat}

/-- A list of statements has no defect if none of them has one. -/
theorem listDefect?_eq_none_iff {ss : List Stmt} :
    listDefect? depth ss = none ↔ ∀ s ∈ ss, s.defect? depth = none := by
  induction ss with
  | nil => simp [listDefect?]
  | cons s ss ih => simp [listDefect?, ih]

/-- An optional statement has no defect if the one that is there has none. -/
theorem optionDefect?_eq_none_iff {o : Option Stmt} :
    optionDefect? depth o = none ↔ ∀ s ∈ o, s.defect? depth = none := by
  cases o <;> simp [optionDefect?]

/-- Cases have no defect if no statement in them has one. -/
theorem casesDefect?_eq_none_iff {cs : List Case} :
    casesDefect? depth cs = none ↔ ∀ s ∈ cs.flatMap Case.body, s.defect? depth = none := by
  induction cs with
  | nil => simp [casesDefect?]
  | cons c cs ih =>
    obtain ⟨label, body⟩ := c
    simp [casesDefect?, ih, listDefect?_eq_none_iff, Case.body, or_imp, forall_and]

/-- Walking over a statement is walking over what it holds. -/
theorem defect?_eq_none_iff_nested {s : Stmt} :
    s.defect? depth = none ↔ depth ≤ 512 ∧ s.StartsPlainly ∧
      (∀ e ∈ s.own, e.defect? (depth + 1) false = none) ∧
      ∀ t ∈ s.nested, t.defect? (depth + 1) = none := by
  cases s with
  | forLoop init cond step body =>
    cases init with
    | none => simp [defect?, own, nested, StartsPlainly, initDefect?, or_imp, forall_and, and_assoc]
    | some init =>
      -- A `for` that starts with anything else is where the walk stops.
      cases h : init.isLoopInitializer with
      | false => simp [defect?, own, nested, StartsPlainly, initDefect?, h]
      | true =>
        simp only [defect?, initDefect?, h, StartsPlainly, own, nested, if_true,
          Option.orElse_eq_orElse, Option.orElse_eq_or, Option.or_eq_none_iff,
          depthDefect?_eq_none_iff, Option.bind_eq_none_iff, List.forall_mem_append,
          Option.mem_toList, Option.toList_some, List.forall_mem_singleton, true_and]
        tauto
  | decl d => simp [defect?, own, nested, StartsPlainly, Decl.defect?]
  | block body => simp [defect?, own, nested, StartsPlainly, listDefect?_eq_none_iff]
  | ifElse cond thenBranch elseBranch =>
    simp [defect?, own, nested, StartsPlainly, optionDefect?_eq_none_iff]
  | switchOn value cases => simp [defect?, own, nested, StartsPlainly, casesDefect?_eq_none_iff]
  | _ => simp [defect?, own, nested, StartsPlainly]

/-- Walking over a statement finds nothing if every node is well formed where it stands. -/
theorem defect?_eq_none_iff {s : Stmt} :
    s.defect? depth = none ↔ (Node.stmt s).Upholds depth := by
  induction s using induction_nested generalizing depth with
  | h s ih =>
    rw [defect?_eq_none_iff_nested, Node.upholds_stmt]
    simp only [Expr.defect?_false_eq_none_iff]
    exact and_congr_right fun _ => and_congr_right fun _ => and_congr_right fun _ =>
      forall₂_congr fun t ht => ih t ht

end Stmt

/-! ### Programs -/

/-- An element has no defect if its roots uphold the rules. -/
theorem Element.defect?_eq_none_iff {el : Element} :
    el.defect? = none ↔ ∀ r ∈ el.roots, r.Upholds 1 := by
  cases el with
  | global d => simp [defect?, roots, Decl.defect?, Expr.defect?_false_eq_none_iff]
  | function f =>
    simp [defect?, roots, Stmt.listDefect?_eq_none_iff, Stmt.defect?_eq_none_iff]
  | layout l => simp [defect?, roots]

/-- The check accepts a program if and only if every node of it is well formed where it stands. -/
theorem Program.accepted_iff_wellFormed (p : Program) : p.defect? = none ↔ p.WellFormed := by
  simp only [defect?, List.findSome?_eq_none_iff, Element.defect?_eq_none_iff]
  constructor
  · rintro h _ n ⟨hel, hr, hn⟩
    -- The two sides add the levels to the depth of the root in different orders.
    have := h _ hel _ hr _ n hn
    rwa [Nat.add_comm] at this
  · intro h el hel r hr levels n hn
    rw [Nat.add_comm]
    exact h _ n (.intro hel hr hn)

end ShaderGen
