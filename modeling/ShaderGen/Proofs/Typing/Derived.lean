import ShaderGen.Expr.Build
import ShaderGen.Proofs.Precision.Twins
import ShaderGen.Proofs.Semantics.Evaluation
import ShaderGen.Proofs.WellFormed

/-!
# Typing rules and derived types

`Expr.HasShape` are the typing rules of the shading language for expressions without calls, save
that operands are of one kind of components: there are no conversions. They do not look at the
types on the nodes, those of variables apart. The builders derive the type of a node from those of
its operands (`Expr.Built`), and the two agree, with one exception: to a product of two matrices
the builders give the shape of the left factor, which has as many columns as the product only if
the right factor has as many as the left one.

## Key results

- `Expr.HasShape.unique`: an expression has one shape
- `BinaryOp.shape_resultTy`: the shape that is derived for an operation is the right one, if the
  operation is not a product that changes the number of columns
- `Expr.carriesShapes_iff`: all derived shapes in an expression are right if and only if no product
  of matrices in it changes the number of columns
-/

namespace ShaderGen

namespace Shape

/-- The shape holds numbers. -/
def IsNumeric (shape : Shape) : Prop := ∃ kind, shape.scalarKind? = some kind ∧ kind ≠ .bool

/-- The shape holds integers. -/
def IsIntegral (shape : Shape) : Prop :=
  shape.scalarKind? = some .int ∨ shape.scalarKind? = some .uint

/-- What a swizzle of so many components gives. -/
def ofCount (kind : ScalarKind) (count : Nat) : Shape :=
  if count = 1 then .scalar kind else .vector kind count

/-- Shapes of two operands that go together component by component, and of the result. -/
inductive Pairs (kind : ScalarKind) : Shape → Shape → Shape → Prop where
  | scalars : Pairs kind (.scalar kind) (.scalar kind) (.scalar kind)
  | vectors (size : Nat) : Pairs kind (.vector kind size) (.vector kind size) (.vector kind size)
  | scalarVector (size : Nat) :
    Pairs kind (.scalar kind) (.vector kind size) (.vector kind size)
  | vectorScalar (size : Nat) :
    Pairs kind (.vector kind size) (.scalar kind) (.vector kind size)

end Shape

/-- An operator takes an operand of the shape, and gives a result of the same shape. -/
inductive UnaryOp.Takes : UnaryOp → Shape → Prop where
  | neg {shape : Shape} (h : shape.IsNumeric) : Takes .neg shape
  | step {op : UnaryOp} {shape : Shape} (hop : op.writesOperand = true) (h : shape.IsNumeric) :
    Takes op shape
  | not : Takes .not (.scalar .bool)
  | complement {shape : Shape} (h : shape.IsIntegral) : Takes .complement shape

/-- An operator takes operands of two shapes and gives a result of a third. -/
inductive BinaryOp.Combines : BinaryOp → Shape → Shape → Shape → Prop where
  | arithmetic {op : BinaryOp} {kind : ScalarKind} {a b c : Shape}
    (hop : op ∈ [.add, .sub, .mul, .div]) (hkind : kind ≠ .bool) (h : Shape.Pairs kind a b c) :
    Combines op a b c
  | scalarMatrix {op : BinaryOp} (hop : op ∈ [.add, .sub, .mul, .div]) (columns rows : Nat) :
    Combines op (.scalar .float) (.matrix columns rows) (.matrix columns rows)
  | matrixScalar {op : BinaryOp} (hop : op ∈ [.add, .sub, .mul, .div]) (columns rows : Nat) :
    Combines op (.matrix columns rows) (.scalar .float) (.matrix columns rows)
  | matrices {op : BinaryOp} (hop : op ∈ [.add, .sub, .div]) (columns rows : Nat) :
    Combines op (.matrix columns rows) (.matrix columns rows) (.matrix columns rows)
  | matrixVector (columns rows : Nat) :
    Combines .mul (.matrix columns rows) (.vector .float columns) (.vector .float rows)
  | vectorMatrix (columns rows : Nat) :
    Combines .mul (.vector .float rows) (.matrix columns rows) (.vector .float columns)
  | matrixMatrix (columns inner rows : Nat) :
    Combines .mul (.matrix inner rows) (.matrix columns inner) (.matrix columns rows)
  | integral {op : BinaryOp} {kind : ScalarKind} {a b c : Shape}
    (hop : op ∈ [.mod, .bitAnd, .bitXor, .bitOr]) (hkind : kind = .int ∨ kind = .uint)
    (h : Shape.Pairs kind a b c) : Combines op a b c
  | shift {op : BinaryOp} {kind : ScalarKind} {a b : Shape} (hop : op ∈ [.shl, .shr])
    (hkind : kind = .int ∨ kind = .uint) (h : Shape.Pairs kind a b a) : Combines op a b a
  | order {op : BinaryOp} {kind : ScalarKind} (hop : op ∈ [.lt, .le, .gt, .ge])
    (hkind : kind ≠ .bool) : Combines op (.scalar kind) (.scalar kind) (.scalar .bool)
  | equality {op : BinaryOp} {kind : ScalarKind} {a : Shape} (hop : op ∈ [.eq, .ne])
    (hkind : a.scalarKind? = some kind) : Combines op a a (.scalar .bool)
  | logic {op : BinaryOp} (hop : op ∈ [.logicalAnd, .logicalXor, .logicalOr]) :
    Combines op (.scalar .bool) (.scalar .bool) (.scalar .bool)
  | assign (a : Shape) : Combines .assign a a a
  /-- A compound assignment writes what its operation gives. -/
  | compound {op : BinaryOp} {a b : Shape}
    (hop : op ∈ [.addAssign, .subAssign, .mulAssign, .divAssign]) (h : Combines op.applied a b a) :
    Combines op a b a
  | comma (a b : Shape) : Combines .comma a b b

namespace Expr

/-- An expression is well typed, and its value has the shape. -/
inductive HasShape : Expr → Shape → Prop where
  | float (ty : Ty) (value : Binary64) : HasShape (.literal ty (.float value)) (.scalar .float)
  | int (ty : Ty) (value : Int) : HasShape (.literal ty (.int value)) (.scalar .int)
  | uint (ty : Ty) (value : Nat) : HasShape (.literal ty (.uint value)) (.scalar .uint)
  | bool (ty : Ty) (value : Bool) : HasShape (.literal ty (.bool value)) (.scalar .bool)
  | var (ty : Ty) (name : String) : HasShape (.var ty name) ty.shape
  | builtin (ty : Ty) (which : Builtin) : HasShape (.builtin ty which) which.ty.shape
  | unary {operand : Expr} {a : Shape} {op : UnaryOp} (ty : Ty) (h : HasShape operand a)
    (hop : op.Takes a) : HasShape (.unary ty op operand) a
  | binary {left right : Expr} {a b c : Shape} {op : BinaryOp} (ty : Ty) (hl : HasShape left a)
    (hr : HasShape right b) (hop : op.Combines a b c) : HasShape (.binary ty op left right) c
  | ternary {cond ifTrue ifFalse : Expr} {a : Shape} (ty : Ty) (hc : HasShape cond (.scalar .bool))
    (ht : HasShape ifTrue a) (hf : HasShape ifFalse a) :
    HasShape (.ternary ty cond ifTrue ifFalse) a
  | swizzle {base : Expr} {a : Shape} {kind : ScalarKind} {mask : Mask} (ty : Ty)
    (h : HasShape base a) (hkind : a.scalarKind? = some kind) (hmask : mask.PicksFrom a) :
    HasShape (.swizzle ty base mask) (.ofCount kind mask.length)
  | component {base position : Expr} {kind i : ScalarKind} {size : Nat} (ty : Ty)
    (h : HasShape base (.vector kind size)) (hi : i = .int ∨ i = .uint)
    (hp : HasShape position (.scalar i)) : HasShape (.index ty base position) (.scalar kind)
  | column {base position : Expr} {columns rows : Nat} {i : ScalarKind} (ty : Ty)
    (h : HasShape base (.matrix columns rows)) (hi : i = .int ∨ i = .uint)
    (hp : HasShape position (.scalar i)) : HasShape (.index ty base position) (.vector .float rows)
  | group {inner : Expr} {a : Shape} (ty : Ty) (h : HasShape inner a) :
    HasShape (.group ty inner) a

/-- An expression that comes from the builders. -/
inductive Built : Expr → Prop where
  | float (value : Binary64) : Built (.float value)
  | int (value : Int) : Built (.int value)
  | uint (value : Nat) : Built (.uint value)
  | bool (value : Bool) : Built (.bool value)
  | var (name : String) (ty : Ty) : Built (ofVar name ty)
  | builtin (which : Builtin) : Built (ofBuiltin which)
  | unary {operand : Expr} (op : UnaryOp) (h : Built operand) : Built (ofUnary op operand)
  | binary {left right : Expr} (op : BinaryOp) (hl : Built left) (hr : Built right) :
    Built (ofBinary op left right)
  | ternary {cond ifTrue ifFalse : Expr} (hc : Built cond) (ht : Built ifTrue)
    (hf : Built ifFalse) : Built (ofTernary cond ifTrue ifFalse)
  | call {args : List Expr} (function : Intrinsic) (h : ∀ arg ∈ args, Built arg) :
    Built (ofCall function args)
  | userCall {args : List Expr} (name : String) (result : Ty) (h : ∀ arg ∈ args, Built arg) :
    Built (ofUserCall name args result)
  | swizzle {base : Expr} (mask : Mask) (h : Built base) : Built (ofSwizzle base mask)
  | index {base position : Expr} (hb : Built base) (hp : Built position) :
    Built (ofIndex base position)
  | construct {args : List Expr} (ty : Ty) (h : ∀ arg ∈ args, Built arg) :
    Built (ofConstruct ty args)
  | group {inner : Expr} (h : Built inner) : Built (ofGroup inner)

end Expr

/-! ### Operators -/

namespace BinaryOp

/-- Shape of the result of an operation, for operands that go with its operator. -/
def combined (op : BinaryOp) (a b : Shape) : Shape :=
  match op, a, b with
  | .mul, .matrix _ rows, .matrix columns _ => .matrix columns rows
  | _, _, _ => (op.resultTy ⟨a, .full⟩ ⟨b, .full⟩).shape

/-- Operands of two shapes combine to the shape that is computed from them. -/
theorem Combines.eq_combined {op : BinaryOp} {a b c : Shape} (h : op.Combines a b c) :
    c = op.combined a b := by
  -- Of all operators, those of the rule are left.
  cases h with
  | arithmetic hop hkind h | integral hop hkind h | shift hop hkind h =>
    cases h <;> cases op <;> first | exact absurd hop (by decide) | rfl
  | scalarMatrix hop | matrixScalar hop | matrices hop | order hop | equality hop | logic hop
  | compound hop => cases op <;> first | exact absurd hop (by decide) | rfl
  | matrixVector | vectorMatrix | matrixMatrix | assign | comma => rfl

/-- They combine to one shape only. -/
theorem Combines.unique {op : BinaryOp} {a b c c' : Shape} (h : op.Combines a b c)
    (h' : op.Combines a b c') : c = c' :=
  h.eq_combined.trans h'.eq_combined.symm

/-- What is derived for an operation is the shape of its result, if it is not a product of matrices
    that has more or fewer columns than the left factor. -/
theorem shape_resultTy_iff (op : BinaryOp) (left right : Ty) :
    (op.resultTy left right).shape = op.combined left.shape right.shape ↔
      ∀ inner rows columns inner', op = .mul → left.shape = .matrix inner rows →
        right.shape = .matrix columns inner' → columns = inner := by
  have hshapes : (op.resultTy left right).shape =
      (op.resultTy ⟨left.shape, .full⟩ ⟨right.shape, .full⟩).shape := Ty.Twin.binary op rfl rfl
  rw [hshapes]
  unfold combined
  split
  · next inner rows columns inner' hleft hright =>
    -- For two matrices, the shape of the left one is derived.
    have hderived : (resultTy .mul ⟨.matrix inner rows, .full⟩
        ⟨.matrix columns inner', .full⟩).shape = .matrix inner rows := rfl
    rw [hleft, hright, hderived]
    constructor
    · rintro heq _ _ _ _ - hl hr
      cases hl
      cases hr
      exact (Shape.matrix.inj heq).1.symm
    · intro h
      rw [h inner rows columns inner' rfl rfl rfl]
  · next hnot =>
    refine iff_of_true rfl fun inner rows columns inner' hop hleft hright => ?_
    exact absurd hright (hnot inner rows columns inner' hop hleft)

end BinaryOp

namespace Expr

/-! ### One shape -/

/-- An expression has one shape at most. -/
theorem HasShape.unique {e : Expr} {a b : Shape} (h : e.HasShape a) (h' : e.HasShape b) :
    a = b := by
  -- By induction on one derivation; the other one ends in the same rule, save for positions, where
  -- the shape of the base decides between two rules.
  induction h generalizing b with
  | float | int | uint | bool | var | builtin =>
    cases h'
    rfl
  | unary ty _ _ ih =>
    cases h' with
    | unary _ h _ => exact ih h
  | binary ty _ _ hop ihl ihr =>
    -- The shapes of both factors are unique, and so is the shape the operator gives them.
    cases h' with
    | binary _ hl hr hop' =>
      obtain rfl := ihl hl
      obtain rfl := ihr hr
      exact hop.unique hop'
  | ternary ty _ _ _ _ iht _ =>
    cases h' with
    | ternary _ _ ht _ => exact iht ht
  | swizzle ty _ hkind _ ih =>
    cases h' with
    | swizzle _ h hkind' _ =>
      obtain rfl := ih h
      obtain rfl := Option.some.inj (hkind.symm.trans hkind')
      rfl
  | component ty _ _ _ ih _ =>
    cases h' with
    | component _ h _ _ =>
      cases ih h
      rfl
    | column _ h _ _ => cases ih h
  | column ty _ _ _ ih _ =>
    cases h' with
    | component _ h _ _ => cases ih h
    | column _ h _ _ =>
      cases ih h
      rfl
  | group ty _ ih =>
    cases h' with
    | group _ h => exact ih h

/-! ### Derived shapes -/

/-- The type on a node has the shape of the value. -/
def CarriesShape (e : Expr) : Prop := ∀ a, e.HasShape a → e.ty.shape = a

/-- If the node is a product of two matrices, both have the same number of columns. -/
def KeepsColumns (e : Expr) : Prop :=
  ∀ ty left right inner rows columns, e = .binary ty .mul left right →
    left.HasShape (.matrix inner rows) → right.HasShape (.matrix columns inner) → columns = inner

/-- An expression that has a shape carries its shape just if that is the one it has. -/
theorem HasShape.carriesShape_iff {e : Expr} {a : Shape} (h : e.HasShape a) :
    e.CarriesShape ↔ e.ty.shape = a :=
  ⟨fun hc => hc a h, fun heq _ h' => heq.trans (h.unique h')⟩

/-- A node other than an operation with two operands is no product. -/
theorem keepsColumns_of_ne {e : Expr} (h : ∀ ty op left right, e ≠ .binary ty op left right) :
    e.KeepsColumns :=
  fun _ _ _ _ _ _ heq => absurd heq (h _ _ _ _)

/-- One to four components make the type of that many. -/
theorem shape_withComponents {kind : ScalarKind} {count : Nat} {p : Precision} (hpos : 1 ≤ count)
    (hle : count ≤ 4) : (Ty.withComponents kind count p).shape = .ofCount kind count := by
  unfold Ty.withComponents Shape.ofCount
  by_cases hone : count = 1
  · rw [if_pos (by omega), if_pos hone]
    rfl
  · rw [if_neg (by omega), if_neg hone, Nat.mod_eq_of_lt (by omega)]
    rfl

/-! What the builders derive from operands that carry their shapes. -/

section

variable {operand base : Expr} {mask : Mask} {kind : ScalarKind}

/-- The builder for unary operators keeps the shape of the operand. -/
theorem shape_ofUnary {op : UnaryOp} {a : Shape} (hop : op.Takes a) (h : operand.ty.shape = a) :
    (ofUnary op operand).ty.shape = a := by
  cases hop with
  | not => rfl
  | neg | complement => exact h
  | step hwrites =>
    cases op with
    | neg | not | complement => cases hwrites
    | _ => exact h

/-- The builder for swizzles makes as many components as the mask picks. -/
theorem shape_ofSwizzle {a : Shape} (hkind : a.scalarKind? = some kind) (hmask : mask.PicksFrom a)
    (h : base.ty.shape = a) : (ofSwizzle base mask).ty.shape = .ofCount kind mask.length := by
  have hcomponents : base.ty.componentKind = kind := by
    rw [Ty.componentKind, Ty.scalarKind?, h, hkind, Option.getD_some]
  rw [← hcomponents]
  exact shape_withComponents hmask.nonempty hmask.length_le

/-- A component of a vector is a scalar. -/
theorem shape_ofIndex_vector (position : Expr) {size : Nat}
    (h : base.ty.shape = .vector kind size) :
    (ofIndex base position).ty.shape = .scalar kind := by
  unfold ofIndex
  rw [h]
  rfl

/-- A column of a matrix is a vector. -/
theorem shape_ofIndex_matrix (position : Expr) {columns rows : Nat}
    (h : base.ty.shape = .matrix columns rows) :
    (ofIndex base position).ty.shape = .vector .float rows := by
  unfold ofIndex
  rw [h]
  rfl

end

/-- For an operation over operands that carry their shapes, the two say the same. -/
theorem shape_ofBinary_iff {left right : Expr} {op : BinaryOp} {a b c : Shape}
    (hl : left.HasShape a) (hr : right.HasShape b) (hop : op.Combines a b c)
    (hla : left.ty.shape = a) (hrb : right.ty.shape = b) :
    (ofBinary op left right).ty.shape = c ↔ (ofBinary op left right).KeepsColumns := by
  have hderived := BinaryOp.shape_resultTy_iff op left.ty right.ty
  rw [hla, hrb, ← hop.eq_combined] at hderived
  refine hderived.trans ⟨?_, ?_⟩
  · rintro h _ _ _ inner rows columns heq hl' hr'
    cases heq
    exact h inner rows columns inner rfl (hl.unique hl') (hr.unique hr')
  · rintro h inner rows columns inner' rfl rfl rfl
    -- The factors go together, so the inner dimension is the same on both sides.
    obtain rfl : inner' = inner := by
      cases hop with
      | matrixMatrix => rfl
      | arithmetic _ _ hp => cases hp
      | matrices hop => exact absurd hop (by decide)
      | integral hop => exact absurd hop (by decide)
      | compound hop => exact absurd hop (by decide)
      | equality hop => exact absurd hop (by decide)
      | shift hop => exact absurd hop (by decide)
    exact h _ _ _ _ _ _ rfl hl hr

/-- A node over children that carry their shapes carries its own, if it is not a product of
    matrices with other columns than the left factor. -/
theorem carriesShape_iff_keepsColumns {e : Expr} {a : Shape} (hb : e.Built) (h : e.HasShape a)
    (hc : ∀ c ∈ e.children, c.CarriesShape) : e.CarriesShape ↔ e.KeepsColumns := by
  rw [h.carriesShape_iff]
  -- Binary operators are the case in question. Every other builder derives the right type from
  -- operands with the right types.
  cases h with
  | binary ty hl hr hop =>
    cases hb with
    | binary op _ _ =>
      simp only [children, List.forall_mem_cons] at hc
      exact shape_ofBinary_iff hl hr hop (hc.1 _ hl) (hc.2.1 _ hr)
  | float | int | uint | bool | var | builtin =>
    cases hb
    exact iff_of_true rfl (keepsColumns_of_ne (by rintro _ _ _ _ ⟨⟩))
  | unary ty ho hop =>
    cases hb
    exact iff_of_true (shape_ofUnary hop (hc _ List.mem_cons_self _ ho))
      (keepsColumns_of_ne (by rintro _ _ _ _ ⟨⟩))
  | ternary ty _ ht _ =>
    cases hb
    simp only [children, List.forall_mem_cons] at hc
    exact iff_of_true (hc.2.1 _ ht) (keepsColumns_of_ne (by rintro _ _ _ _ ⟨⟩))
  | swizzle ty ho hkind hmask =>
    cases hb
    exact iff_of_true (shape_ofSwizzle hkind hmask (hc _ List.mem_cons_self _ ho))
      (keepsColumns_of_ne (by rintro _ _ _ _ ⟨⟩))
  | component ty ho _ _ =>
    cases hb
    exact iff_of_true (shape_ofIndex_vector _ (hc _ List.mem_cons_self _ ho))
      (keepsColumns_of_ne (by rintro _ _ _ _ ⟨⟩))
  | column ty ho _ _ =>
    cases hb
    exact iff_of_true (shape_ofIndex_matrix _ (hc _ List.mem_cons_self _ ho))
      (keepsColumns_of_ne (by rintro _ _ _ _ ⟨⟩))
  | group ty ho =>
    cases hb
    exact iff_of_true (hc _ List.mem_cons_self _ ho) (keepsColumns_of_ne (by rintro _ _ _ _ ⟨⟩))

/-- The operands of an expression made by builders are made by builders. -/
theorem Built.children {e : Expr} (h : e.Built) : ∀ c ∈ e.children, c.Built := by
  cases h with
  -- Each constructor asks the same of its operands.
  | float | int | uint | bool | var | builtin => exact fun c hc => absurd hc List.not_mem_nil
  | unary _ h | swizzle _ h | group h => exact List.forall_mem_singleton.mpr h
  | binary _ ha hb | index ha hb =>
    exact List.forall_mem_cons.mpr ⟨ha, List.forall_mem_singleton.mpr hb⟩
  | ternary hc ht hf =>
    exact List.forall_mem_cons.mpr
      ⟨hc, List.forall_mem_cons.mpr ⟨ht, List.forall_mem_singleton.mpr hf⟩⟩
  | call _ h | userCall _ _ h | construct _ h => exact h

/-- The operands of an expression with a shape have shapes. -/
theorem HasShape.children {e : Expr} {a : Shape} (h : e.HasShape a) :
    ∀ c ∈ e.children, ∃ b, c.HasShape b := by
  -- Each rule gives a shape to every operand.
  cases h with
  | float | int | uint | bool | var | builtin => exact fun c hc => absurd hc List.not_mem_nil
  | unary _ h | swizzle _ h | group _ h => exact List.forall_mem_singleton.mpr ⟨_, h⟩
  | binary _ ha hb | component _ ha _ hb | column _ ha _ hb =>
    exact List.forall_mem_cons.mpr ⟨⟨_, ha⟩, List.forall_mem_singleton.mpr ⟨_, hb⟩⟩
  | ternary _ hc ht hf =>
    exact List.forall_mem_cons.mpr
      ⟨⟨_, hc⟩, List.forall_mem_cons.mpr ⟨⟨_, ht⟩, List.forall_mem_singleton.mpr ⟨_, hf⟩⟩⟩

/-- All derived shapes in a well-typed expression are right if and only if no product of matrices in
    it has more or fewer columns than its left factor. -/
theorem carriesShapes_iff {e : Expr} {a : Shape} (hb : e.Built) (h : e.HasShape a) :
    e.Throughout CarriesShape ↔ e.Throughout KeepsColumns := by
  induction e using induction_children generalizing a with
  | h e ih =>
    -- Below the node this is the induction hypothesis, child by child.
    have hbelow : (∀ c ∈ e.children, c.Throughout CarriesShape) ↔
        ∀ c ∈ e.children, c.Throughout KeepsColumns := by
      refine forall₂_congr fun c hc => ?_
      obtain ⟨b, hshape⟩ := h.children c hc
      exact ih c hc (hb.children c hc) hshape
    -- At the node itself, the children carry their shapes by now.
    rw [throughout_iff, throughout_iff, ← hbelow]
    refine and_congr_left fun hc => carriesShape_iff_keepsColumns hb h fun c hmem => ?_
    exact (throughout_iff.mp (hc c hmem)).1

/-- A transformation by a product of matrices with as many columns as its left factor. -/
theorem square_factor_carries_shapes :
    let m := ofVar "m" ⟨.matrix 3 2, .full⟩
    let turn := ofVar "turn" ⟨.matrix 3 3, .full⟩
    let e := ofBinary .mul (ofBinary .mul m turn) (ofVar "v" (.vec 3))
    e.HasShape (.vector .float 2) ∧ e.Throughout CarriesShape := by
  intro m turn e
  have hm : m.HasShape (.matrix 3 2) := .var _ _
  have hturn : turn.HasShape (.matrix 3 3) := .var _ _
  have hproduct : (ofBinary .mul m turn).HasShape (.matrix 3 2) :=
    .binary _ hm hturn (.matrixMatrix 3 3 2)
  have hv : (ofVar "v" (.vec 3)).HasShape (.vector .float 3) := .var _ _
  have he : e.HasShape (.vector .float 2) := .binary _ hproduct hv (.matrixVector 3 2)
  have hb : e.Built := .binary _ (.binary _ (.var _ _) (.var _ _)) (.var _ _)
  refine ⟨he, (carriesShapes_iff hb he).mpr ?_⟩
  -- A variable has no product in it.
  have hleaf {name : String} {ty : Ty} : (ofVar name ty).Throughout KeepsColumns :=
    throughout_iff.mpr ⟨keepsColumns_of_ne (by rintro _ _ _ _ ⟨⟩),
      fun c hc => absurd hc List.not_mem_nil⟩
  -- Both products are taken apart, and the shapes of their factors are the ones above.
  have hinner : (ofBinary .mul m turn).Throughout KeepsColumns := by
    refine throughout_iff.mpr ⟨?_, List.forall_mem_cons.mpr
      ⟨hleaf, List.forall_mem_singleton.mpr hleaf⟩⟩
    intro _ _ _ inner rows columns heq hl hr
    cases heq
    cases hm.unique hl
    cases hturn.unique hr
    rfl
  refine throughout_iff.mpr ⟨?_, List.forall_mem_cons.mpr
    ⟨hinner, List.forall_mem_singleton.mpr hleaf⟩⟩
  intro _ _ _ inner rows columns heq hl hr
  obtain ⟨-, -, -, rfl⟩ := binary.inj heq
  cases hv.unique hr

/-- A matrix of two columns and three rows times one of four columns and two rows has four columns
    and three rows. What is derived for the product is the shape of the first. -/
theorem wider_factor_loses_columns :
    let e := ofBinary .mul (ofVar "a" ⟨.matrix 2 3, .full⟩) (ofVar "b" ⟨.matrix 4 2, .full⟩)
    e.Built ∧ e.HasShape (.matrix 4 3) ∧ e.ty.shape = .matrix 2 3 ∧
      ¬e.Throughout CarriesShape := by
  intro e
  have he : e.HasShape (.matrix 4 3) := .binary _ (.var _ _) (.var _ _) (.matrixMatrix 4 2 3)
  refine ⟨.binary _ (.var _ _) (.var _ _), he, rfl, fun hall => ?_⟩
  have hshape : e.ty.shape = .matrix 4 3 := (throughout_iff.mp hall).1 _ he
  exact absurd hshape (by decide)

end Expr

end ShaderGen
