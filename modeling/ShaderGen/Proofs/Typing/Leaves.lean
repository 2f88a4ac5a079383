import ShaderGen.Proofs.Swizzle.Picking
import ShaderGen.Proofs.Typing.Derived

/-!
# Precision of derived types

The builders find the precision class of a node in several ways: they copy it from one operand, join
those of two, or join those of all arguments of a call and put the result on the shape of the widest
one. All of it comes to the same: a value is full as soon as one of those that it is computed from
is. `Expr.valueLeaves` are the expressions that a value is computed from by operators and functions
that pass on precision; conditions of choices and positions of indexing are not among them, and
neither are operands of comparisons, of logic, of lookups and of writes, which have a type of their
own.

## Key results

- `Ty.joinPrecision_eq_full_iff`: when several types have full precision together
- `Expr.precision_eq_full_iff`: the precision of a derived type
- `Expr.precision_of_valueLeaves`: it depends on nothing but which full values go in
-/

namespace ShaderGen

/-- Whether an operator computes numbers from numbers: arithmetic, shifts and bitwise operators. -/
def BinaryOp.computesNumber : BinaryOp → Bool
  | .add | .sub | .mul | .div | .mod | .shl | .shr | .bitAnd | .bitXor | .bitOr => true
  | _ => false

namespace Expr

mutual
/-- Expressions that a value is computed from, from left to right. -/
def valueLeaves : Expr → List Expr
  | e@(.unary _ op operand) => if op = .not then [e] else operand.valueLeaves
  | e@(.binary _ op left right) =>
    if op.computesNumber then left.valueLeaves ++ right.valueLeaves else [e]
  -- The condition decides between the arms and does not go into either.
  | .ternary _ _ ifTrue ifFalse => ifTrue.valueLeaves ++ ifFalse.valueLeaves
  | e@(.call _ (.intrinsic function) (arg :: args)) =>
    if function.isLookup then [e] else arg.valueLeaves ++ listValueLeaves args
  | .swizzle _ base _ | .index _ base _ | .group _ base => base.valueLeaves
  | e => [e]

/-- Expressions that several values are computed from. -/
def listValueLeaves : List Expr → List Expr
  | [] => []
  | e :: es => e.valueLeaves ++ listValueLeaves es
end

/-- An expression is a number that is written out. -/
def IsNumeral (e : Expr) : Prop := ∃ ty value, e = .literal ty value ∧ ∀ b, value ≠ .bool b

end Expr

/-! ### What each builder derives -/

/-- A precision is known from whether it is full. -/
theorem Precision.eq_of_eq_full_iff {a b : Precision} (h : a = .full ↔ b = .full) : a = b := by
  cases a <;> cases b <;> first | rfl | exact absurd h (by decide)

/-- Joined precisions are full iff one of them is. -/
theorem Ty.joinPrecision_eq_full_iff {tys : List Ty} :
    joinPrecision tys = .full ↔ ∃ ty ∈ tys, ty.precision = .full := by
  induction tys with
  | nil => simp [joinPrecision]
  | cons ty tys ih =>
    show ty.precision.join (joinPrecision tys) = .full ↔ _
    rw [Precision.join_eq_full_iff, ih, List.exists_mem_cons_iff]

/-- Of some types one is the widest. -/
theorem Ty.widest?_ne_none {tys : List Ty} (h : tys ≠ []) : widest? tys ≠ none := by
  cases tys with
  | nil => exact absurd rfl h
  | cons ty tys =>
    rw [widest?]
    cases widest? tys <;> exact nofun

/-- A number computed from two has the joined precision of both. -/
theorem BinaryOp.precision_resultTy {op : BinaryOp} (h : op.computesNumber = true)
    (left right : Ty) :
    (op.resultTy left right).precision = left.precision.join right.precision := by
  have hother : op.yieldsBool = false ∧ op.isAssignment = false ∧ op ≠ .comma := by
    cases op <;> first | exact absurd h (by decide) | decide
  unfold resultTy
  rw [if_neg (by simp [hother.1]), if_neg (by simp [hother.2.1]), if_neg hother.2.2]
  dsimp only
  -- Whatever shape is chosen, the precision is the joined one.
  split <;> rfl

/-- A function that is no lookup has the joined precision of its arguments. -/
theorem Intrinsic.precision_resultTy {function : Intrinsic} (h : function.isLookup = false)
    {tys : List Ty} (htys : tys ≠ []) :
    (function.resultTy tys).precision = Ty.joinPrecision tys := by
  unfold resultTy
  rw [if_neg (by simp [h])]
  -- A scalar of its own, a shape of its own, or that of the widest argument.
  split
  · rfl
  · rfl
  · split
    · rfl
    · next hnone => exact absurd hnone (Ty.widest?_ne_none htys)

namespace Expr

/-- Every unary operator but the logical one keeps the precision. -/
theorem precision_ofUnary {op : UnaryOp} (h : op ≠ .not) (operand : Expr) :
    (ofUnary op operand).ty.precision = operand.ty.precision := by
  rw [ofUnary, if_neg h, ty]

/-- An indexed expression has the precision of its base. -/
theorem precision_ofIndex (base position : Expr) :
    (ofIndex base position).ty.precision = base.ty.precision := by
  unfold ofIndex
  dsimp only [ty]
  split <;> rfl

/-! ### Whole expressions -/

/-- The leaves of a list are taken one by one. -/
theorem listValueLeaves_eq_flatMap (es : List Expr) :
    listValueLeaves es = es.flatMap valueLeaves := by
  induction es with
  | nil => rfl
  | cons e es ih => rw [listValueLeaves, ih, List.flatMap_cons]

/-- The arguments of a call that passes on precision are what goes in. -/
theorem valueLeaves_ofCall {function : Intrinsic} (h : function.isLookup = false)
    {args : List Expr} (hargs : args ≠ []) :
    (ofCall function args).valueLeaves = args.flatMap valueLeaves := by
  cases args with
  | nil => exact absurd rfl hargs
  | cons arg args =>
    rw [ofCall, valueLeaves, if_neg (by simp [h]), listValueLeaves_eq_flatMap, List.flatMap_cons]

/-- What is computed from itself has the precision that it has. -/
theorem precision_of_leaf {e : Expr} (h : e.valueLeaves = [e]) :
    e.ty.precision = .full ↔ ∃ l ∈ e.valueLeaves, l.ty.precision = .full := by
  rw [h]
  simp

/-- A value is full if and only if one of those that it is computed from is. -/
theorem precision_eq_full_iff {e : Expr} (he : e.Built) :
    e.ty.precision = .full ↔ ∃ l ∈ e.valueLeaves, l.ty.precision = .full := by
  -- A node either has a precision of its own, and is its only leaf, or joins the precisions of
  -- those children whose leaves it has.
  induction he with
  | float | int | uint | bool | var | builtin | userCall | construct => exact precision_of_leaf rfl
  | @unary operand op _ ih =>
    by_cases hop : op = .not
    · exact precision_of_leaf (if_pos hop)
    · rw [precision_ofUnary hop, ih, ofUnary, valueLeaves, if_neg hop]
  | @binary left right op _ _ ihl ihr =>
    cases hop : op.computesNumber with
    | false => exact precision_of_leaf (if_neg (by simp [hop]))
    | true =>
      rw [ofBinary, ty, BinaryOp.precision_resultTy hop, Precision.join_eq_full_iff, ihl, ihr,
        valueLeaves, if_pos hop]
      simp only [List.mem_append, or_and_right, exists_or]
  | @ternary cond ifTrue ifFalse _ _ _ _ iht ihf =>
    show ifTrue.ty.precision.join ifFalse.ty.precision = .full ↔ _
    rw [Precision.join_eq_full_iff, iht, ihf, ofTernary, valueLeaves]
    simp only [List.mem_append, or_and_right, exists_or]
  | @call args function _ ih =>
    by_cases hpasses : function.isLookup = false ∧ args ≠ []
    · obtain ⟨hlookup, hargs⟩ := hpasses
      rw [ofCall, ty, Intrinsic.precision_resultTy hlookup (by simpa using hargs),
        Ty.joinPrecision_eq_full_iff, ← ofCall, valueLeaves_ofCall hlookup hargs]
      simp only [List.mem_map, List.mem_flatMap, exists_exists_and_eq_and]
      constructor
      · rintro ⟨arg, harg, hfull⟩
        obtain ⟨l, hl, hl'⟩ := (ih arg harg).mp hfull
        exact ⟨l, ⟨arg, harg, hl⟩, hl'⟩
      · rintro ⟨l, ⟨arg, harg, hl⟩, hl'⟩
        exact ⟨arg, harg, (ih arg harg).mpr ⟨l, hl, hl'⟩⟩
    · -- A lookup, or a call without arguments, has a type of its own.
      refine precision_of_leaf ?_
      cases args with
      | nil => rfl
      | cons arg args => exact if_pos (by simpa using hpasses)
  | @swizzle base mask _ ih =>
    show (Ty.withComponents _ _ _).precision = .full ↔ _
    rw [Ty.precision_withComponents, ih, ofSwizzle, valueLeaves]
  | @index base position _ _ ihb _ => rw [precision_ofIndex, ihb, ofIndex, valueLeaves]
  | group _ ih => exact ih

/-! ### What goes in -/

/-- A leaf of an expression is it or a leaf of a child. -/
theorem eq_or_below_of_mem_valueLeaves {e l : Expr} (hl : l ∈ e.valueLeaves) :
    l = e ∨ ∃ c ∈ e.children, l ∈ c.valueLeaves := by
  -- Where precision is not passed on, the only leaf is the expression.
  have hself : l ∈ [e] → l = e ∨ ∃ c ∈ e.children, l ∈ c.valueLeaves :=
    fun h => .inl (List.mem_singleton.mp h)
  cases e with
  | literal | var | builtin | construct => exact hself hl
  | unary ty op operand =>
    rw [valueLeaves] at hl
    split at hl
    · exact hself hl
    · exact .inr ⟨operand, by simp [children], hl⟩
  | binary ty op left right =>
    rw [valueLeaves] at hl
    -- An operator that passes precision on has the leaves of both operands.
    split at hl
    · exact .inr (by simpa [children] using hl)
    · exact hself hl
  | ternary ty cond ifTrue ifFalse =>
    rw [valueLeaves, List.mem_append] at hl
    exact .inr (by simpa [children] using .inr hl)
  | call ty callee args =>
    cases callee with
    | user name => exact hself hl
    | intrinsic function =>
      cases args with
      | nil => exact hself hl
      | cons arg args =>
        rw [valueLeaves] at hl
        -- A lookup is a leaf itself, any other intrinsic passes on its arguments.
        split at hl
        · exact hself hl
        · rw [listValueLeaves_eq_flatMap, ← List.flatMap_cons] at hl
          exact .inr (List.mem_flatMap.mp hl)
  | swizzle ty base mask => exact .inr ⟨base, by simp [children], hl⟩
  | index ty base position => exact .inr ⟨base, by simp [children], hl⟩
  | group ty inner => exact .inr ⟨inner, by simp [children], hl⟩

/-- What an expression of the builders is computed from comes from the builders as well. -/
theorem Built.of_mem_valueLeaves {e l : Expr} (he : e.Built) (hl : l ∈ e.valueLeaves) :
    l.Built := by
  induction e using induction_children with
  | h e ih =>
    obtain rfl | ⟨c, hc, hl⟩ := eq_or_below_of_mem_valueLeaves hl
    · exact he
    · exact ih c hc (he.children c hc) hl

/-- A numeral that was built has reduced precision. -/
theorem Built.precision_of_isNumeral {e : Expr} (he : e.Built) (h : e.IsNumeral) :
    e.ty.precision = .reduced := by
  obtain ⟨ty, value, rfl, hvalue⟩ := h
  cases he with
  | float | int | uint => rfl
  | bool b => exact absurd rfl (hvalue b)

/-- The value of an expression of the builders has full precision if and only if one of those that
    it is computed from has. No number that is written out counts among these. So expressions that
    are computed from the same full values have the same precision, in whatever order and nesting
    they are put together, by whatever operators, and with whatever else. -/
theorem precision_of_valueLeaves {e : Expr} (he : e.Built) :
    (e.ty.precision = .full ↔ ∃ l ∈ e.valueLeaves, l.ty.precision = .full) ∧
      (e.ty.precision = .full ↔
        ∃ l ∈ e.valueLeaves, ¬l.IsNumeral ∧ l.ty.precision = .full) ∧
      ∀ e' : Expr, e'.Built →
        (∀ l : Expr, l.ty.precision = .full → (l ∈ e'.valueLeaves ↔ l ∈ e.valueLeaves)) →
        e'.ty.precision = e.ty.precision := by
  have hfull := precision_eq_full_iff he
  refine ⟨hfull, hfull.trans ?_, fun e' he' hsame => ?_⟩
  · -- A full leaf cannot be a numeral, so that leaving numerals out takes none away.
    refine exists_congr fun l => and_congr_right fun hl => (and_iff_right_of_imp ?_).symm
    intro hlfull hnumeral
    have hreduced := (he.of_mem_valueLeaves hl).precision_of_isNumeral hnumeral
    exact absurd (hlfull.symm.trans hreduced) nofun
  · have hiff : e'.ty.precision = .full ↔ e.ty.precision = .full := by
      rw [hfull, precision_eq_full_iff he']
      exact exists_congr fun l => and_congr_left fun hl => hsame l hl
    exact Precision.eq_of_eq_full_iff hiff

/-- A full position and a full condition leave a product reduced; a full summand does not, on
    whichever side and wherever the function is applied. -/
theorem condition_and_position_do_not_count :
    let lane := ofIndex (ofVar "lanes" (.halfVec 4)) (ofVar "i" .int)
    let scale := ofTernary (ofVar "flag" .bool) (ofVar "h" .half) (.float .half)
    let f := ofVar "f" (.vec 3)
    let product := ofBinary .mul lane scale
    let sum := ofBinary .add (ofCall .max [product, .float .one]) (ofSwizzle f [.x])
    let sum' := ofSwizzle (ofCall .max [f, ofUnary .neg (ofBinary .mul scale lane)]) [.y]
    product.Built ∧ product.ty.precision = .reduced ∧ sum.Built ∧ sum.ty.precision = .full ∧
      sum'.Built ∧ sum'.ty.precision = sum.ty.precision := by
  intro lane scale f product sum sum'
  have hlane : lane.Built := .index (.var _ _) (.var _ _)
  have hscale : scale.Built := .ternary (.var _ _) (.var _ _) (.float _)
  have hproduct : product.Built := .binary _ hlane hscale
  have hcall : (ofCall .max [product, .float .one]).Built :=
    .call _ (List.forall_mem_cons.mpr ⟨hproduct, List.forall_mem_singleton.mpr (.float _)⟩)
  have hsum : sum.Built := .binary _ hcall (.swizzle _ (.var _ _))
  have hcall' : (ofCall .max [f, ofUnary .neg (ofBinary .mul scale lane)]).Built :=
    .call _ (List.forall_mem_cons.mpr ⟨.var _ _,
      List.forall_mem_singleton.mpr (.unary _ (.binary _ hscale hlane))⟩)
  have hsum' : sum'.Built := .swizzle _ hcall'
  -- Neither the condition nor the position is among the leaves.
  have hleaves : product.valueLeaves =
      [ofVar "lanes" (.halfVec 4), ofVar "h" .half, .float .half] :=
    rfl
  have hleavesSum : sum.valueLeaves =
      [ofVar "lanes" (.halfVec 4), ofVar "h" .half, .float .half, .float .one, f] := rfl
  have hleavesSum' : sum'.valueLeaves =
      [f, ofVar "h" .half, .float .half, ofVar "lanes" (.halfVec 4)] := rfl
  obtain ⟨hiff, -, -⟩ := precision_of_valueLeaves hproduct
  obtain ⟨hiffSum, -, hsame⟩ := precision_of_valueLeaves hsum
  refine ⟨hproduct, ?_, hsum, hiffSum.mpr ⟨f, by simp [hleavesSum], rfl⟩, hsum',
    hsame sum' hsum' fun l hl => ?_⟩
  · -- The first product is reduced since none of its leaves is full.
    have hnot : product.ty.precision ≠ .full := by
      rw [Ne, hiff, hleaves]
      simp [ofVar, float, ty, Ty.halfVec, Ty.half, Ty.vector, Ty.scalar]
    cases h : product.ty.precision with
    | reduced => rfl
    | full => exact absurd h hnot
  · -- What is not common to both is reduced.
    have hone : l ≠ .float .one := by
      rintro rfl
      cases hl
    rw [hleavesSum, hleavesSum']
    simp only [List.mem_cons, List.not_mem_nil, or_false, hone, false_or]
    tauto

end Expr

end ShaderGen
