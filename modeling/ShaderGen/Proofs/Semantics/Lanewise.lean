import ShaderGen.Proofs.Semantics.Congruence

/-!
# Machines that compute lane by lane

What the language says about arithmetic and most functions of numbers: the lanes of a vector are
computed separately, each by the same function of scalars, and a scalar that goes with a vector
stands for all of its lanes. Which functions of scalars these are is left open (`ScalarOps`).

## Main definitions

- `Ty.isLanes`: scalars and vectors of a kind
- `Machine.Lanewise`: a machine that computes lane by lane, with given functions of scalars
- `Machine.withOps`: such a machine
- `Expr.Maps`: an expression that computes a function of scalars in every lane of another

## Key results

- `Expr.values_function`, `values_lanes`, `values_scaled`, `values_negated`: what nodes compute
  in every lane
- `Expr.Maps.ofCall`, `Maps.combine`, `Maps.scaled`: expressions over one operand
-/

namespace ShaderGen

variable {α β : Type}

/-! ### Types with lanes -/

namespace Ty

/-- Whether a type is a scalar of a kind or a vector of two to four of them. -/
def isLanes (kind : ScalarKind) (ty : Ty) : Bool :=
  match ty.shape with
  | .scalar kind' => kind' == kind
  | .vector kind' n => kind' == kind && 2 ≤ n && n ≤ 4
  | _ => false

variable {s t : Ty} {kind : ScalarKind}

/-- Lanes of a kind are a scalar or a vector of it. -/
theorem isLanes_iff : t.isLanes kind = true ↔ t.shape = .scalar kind ∨
    ∃ n, 2 ≤ n ∧ n ≤ 4 ∧ t.shape = .vector kind n := by
  unfold isLanes
  split <;> simp_all
  grind

/-- Whether a type has lanes of a kind is told by its shape. -/
theorem isLanes_of_shape (h : s.isLanes kind = true) (hshape : t.shape = s.shape) :
    t.isLanes kind = true := by
  rw [isLanes] at h ⊢
  rwa [hshape]

/-- How many lanes a type has is told by its shape. -/
theorem laneCount_of_shape (h : t.shape = s.shape) : t.laneCount = s.laneCount := by
  rw [laneCount, laneCount, h]

/-- A difference or a product of operands of one shape has that shape. -/
theorem shape_resultTy_of_shape {op : BinaryOp} (hop : op = .sub ∨ op = .mul)
    (hs : s.isLanes kind = true) (hshape : t.shape = s.shape) :
    (op.resultTy s t).shape = s.shape := by
  unfold BinaryOp.resultTy
  obtain hs | ⟨n, -, -, hs⟩ := isLanes_iff.mp hs <;> obtain rfl | rfl := hop <;>
    simp [BinaryOp.yieldsBool, BinaryOp.isAssignment, hshape, hs]

/-- A difference or a product of a scalar and another operand has the shape of that one. -/
theorem shape_resultTy_of_scalar {op : BinaryOp} (hop : op = .sub ∨ op = .mul)
    (hs : s.shape = .scalar kind) (ht : t.isLanes kind = true) :
    (op.resultTy s t).shape = t.shape := by
  unfold BinaryOp.resultTy
  obtain ht | ⟨n, -, -, ht⟩ := isLanes_iff.mp ht <;> obtain rfl | rfl := hop <;>
    simp [BinaryOp.yieldsBool, BinaryOp.isAssignment, hs, ht]

end Ty

/-! ### Functions of scalars -/

/-- Functions of scalars that a machine uses in every lane. -/
structure ScalarOps (α : Type) where
  negate : ScalarKind → α → α
  binary : BinaryOp → ScalarKind → α → α → α
  function : Intrinsic → ScalarKind → α → α
  power : α → α → α

/-- Functions of one operand that are computed lane by lane, with a result like the operand. -/
def Intrinsic.isLanewise : Intrinsic → Bool
  | .abs | .sign | .fract | .exp2 | .log2 => true
  | _ => false

/-- The type of such a function is that of its operand. -/
theorem Intrinsic.resultTy_of_isLanewise {f : Intrinsic} (hf : f.isLanewise = true) (ty : Ty) :
    f.resultTy [ty] = ty := by
  obtain ⟨shape, p⟩ := ty
  cases f <;> cases p <;> first | rfl | cases hf

/-- A machine that computes lane by lane, whatever the precision: negations, differences and
    products, functions of one operand, and powers of floats. -/
structure Machine.Lanewise (m : Machine α) (ops : ScalarOps α) : Prop where
  negate {ty : Ty} {kind : ScalarKind} (h : ty.isLanes kind = true) {vs : List α}
    (hvs : vs.length = ty.laneCount) : m.unary .neg ty vs = vs.map (ops.negate kind)
  lanes {op : BinaryOp} (hop : op = .sub ∨ op = .mul) {s t : Ty} {kind : ScalarKind}
    (hs : s.isLanes kind = true) (hshape : t.shape = s.shape) {as bs : List α}
    (has : as.length = s.laneCount) (hbs : bs.length = s.laneCount) :
    m.binary op s as t bs = List.zipWith (ops.binary op kind) as bs
  scaled {op : BinaryOp} (hop : op = .sub ∨ op = .mul) {s t : Ty} {kind : ScalarKind}
    (hs : s.shape = .scalar kind) (ht : t.isLanes kind = true) (a : α) {bs : List α}
    (hbs : bs.length = t.laneCount) :
    m.binary op s [a] t bs = bs.map (ops.binary op kind a)
  function {f : Intrinsic} (hf : f.isLanewise = true) {ty : Ty} {kind : ScalarKind}
    (h : ty.isLanes kind = true) {vs : List α} (hvs : vs.length = ty.laneCount) :
    m.intrinsic f [(ty, vs)] = vs.map (ops.function f kind)
  power {s t : Ty} (hs : s.isLanes .float = true) (hshape : t.shape = s.shape) {as bs : List α}
    (has : as.length = s.laneCount) (hbs : bs.length = s.laneCount) :
    m.intrinsic .pow [(s, as), (t, bs)] = List.zipWith ops.power as bs

/-- The functions of the program have no part in it. -/
theorem Machine.Lanewise.withCalls {m : Machine α} {ops : ScalarOps α} (h : m.Lanewise ops)
    (call : String → List (Ty × List α) → (Variable → Nat → α) → Option (Reply α)) :
    (m.withCalls call).Lanewise ops :=
  ⟨h.negate, h.lanes, h.scaled, h.function, h.power⟩

/-! ### Machines made from functions of scalars -/

/-- The kind of the lanes is that of a component. -/
theorem Ty.componentKind_of_isLanes {ty : Ty} {kind : ScalarKind} (h : ty.isLanes kind = true) :
    ty.componentKind = kind := by
  rw [componentKind, scalarKind?]
  obtain h | ⟨n, -, -, h⟩ := isLanes_iff.mp h <;> rw [h] <;> rfl

/-- Pairing one value with each of a list is a map. -/
theorem zipWith_replicate_left {β γ δ : Type} (f : β → γ → δ) (b : β) (cs : List γ) :
    List.zipWith f (List.replicate cs.length b) cs = cs.map (f b) := by
  induction cs with
  | nil => rfl
  | cons c cs ih =>
    rw [List.length_cons, List.replicate_succ, List.zipWith_cons_cons, ih, List.map_cons]

namespace Machine

/-- The machine with other arithmetic: functions of scalars in every lane, where a scalar goes with
    all lanes of a vector. -/
def withOps (m : Machine α) (ops : ScalarOps α) : Machine α :=
  { m with
    unary := fun op ty vs =>
      if op = .neg then vs.map (ops.negate ty.componentKind) else m.unary op ty vs
    binary := fun op _ as t bs => List.zipWith (ops.binary op t.componentKind)
      (spread (max as.length bs.length) as) (spread (max as.length bs.length) bs)
    intrinsic := fun f args =>
      match args with
      | [(t, vs)] => vs.map (ops.function f t.componentKind)
      | [(_, as), (_, bs)] => List.zipWith ops.power as bs
      | _ => m.intrinsic f args }

/-- A machine that is given operations lane by lane is lanewise. -/
theorem lanewise_withOps (m : Machine α) (ops : ScalarOps α) : (m.withOps ops).Lanewise ops where
  negate := by
    -- The kind of lanes is read off the type.
    intro ty kind h vs hvs
    show vs.map (ops.negate ty.componentKind) = _
    rw [Ty.componentKind_of_isLanes h]
  lanes := by
    intro op hop s t kind hs hshape as bs has hbs
    have hlength : max as.length bs.length = s.laneCount := by rw [has, hbs, Nat.max_self]
    show List.zipWith (ops.binary op t.componentKind) (spread _ as) (spread _ bs) = _
    -- Operands of equal length are not spread at all.
    rw [hlength, spread_of_length has, spread_of_length hbs,
      Ty.componentKind_of_isLanes (Ty.isLanes_of_shape hs hshape)]
  scaled := by
    intro op hop s t kind hs ht a bs hbs
    -- A vector is not empty, so a scalar is spread over as many components as it has.
    have hpos : 1 ≤ bs.length := by
      rw [hbs, Ty.laneCount]
      obtain ht | ⟨n, hlow, -, ht⟩ := Ty.isLanes_iff.mp ht <;> rw [ht]
      · exact Nat.le_refl 1
      · exact Nat.le_of_succ_le hlow
    show List.zipWith (ops.binary op t.componentKind) (spread (max 1 bs.length) [a])
      (spread (max 1 bs.length) bs) = _
    rw [Nat.max_eq_right hpos, spread_of_length rfl, spread, zipWith_replicate_left,
      Ty.componentKind_of_isLanes ht]
  function := by
    intro f hf ty kind h vs hvs
    show vs.map (ops.function f ty.componentKind) = _
    rw [Ty.componentKind_of_isLanes h]
  power := by
    intros
    rfl

end Machine

/-! ### Values -/

namespace Expr

variable {m : Machine α} {ops : ScalarOps α} {kind : ScalarKind} {ty : Ty} {x a b : Expr}

/-- The value of a function of one operand. -/
theorem values_call_single (m : Machine α) (ty : Ty) (f : Intrinsic) (x : Expr) :
    (call ty (.intrinsic f) [x]).values m =
      (fun vs => (m.intrinsic f [(x.ty, vs)]).takeD ty.laneCount m.undefined) <$> x.values m := by
  simp [values, eval, evalArgs]

/-- The value of a function of two operands, from left to right. -/
theorem values_call_pair (m : Machine α) (ty : Ty) (f : Intrinsic) (a b : Expr) :
    (call ty (.intrinsic f) [a, b]).values m = a.values m >>= fun as => b.values m >>= fun bs =>
      pure ((m.intrinsic f [(a.ty, as), (b.ty, bs)]).takeD ty.laneCount m.undefined) := by
  simp [values, eval, evalArgs, map_bind]

/-- The value of a difference or a product, its operands from left to right. -/
theorem values_arithmetic (m : Machine α) {op : BinaryOp} (hop : op = .sub ∨ op = .mul) (ty : Ty)
    (a b : Expr) : (binary ty op a b).values m =
      a.values m >>= fun as => b.values m >>= fun bs =>
        pure ((m.binary op a.ty as b.ty bs).takeD ty.laneCount m.undefined) := by
  obtain rfl | rfl := hop <;>
    simp [values, eval, BinaryOp.isAssignment, BinaryOp.decided?, Machine.binaryResult, map_bind]

/-- The value of a negation. -/
theorem values_neg (m : Machine α) (ty : Ty) (x : Expr) : (unary ty .neg x).values m =
    (fun vs => (m.unary .neg x.ty vs).takeD ty.laneCount m.undefined) <$> x.values m := by
  simp [values, eval, UnaryOp.writesOperand, Machine.unaryResult]

/-- The value of a float literal. -/
theorem values_float (m : Machine α) (v : Binary64) :
    (Expr.float v).values m = pure [m.literal (.float v)] := by
  have hvalues : (Expr.float v).values m =
      pure (Lane.values (m.temporaries .half [m.literal (.float v)])) := map_pure _ _
  rw [hvalues, Machine.values_temporaries]
  rfl

section

variable (hm : m.Lanewise ops)

include hm

/-- A function of one operand, in every lane. -/
theorem values_function {f : Intrinsic} (hf : f.isLanewise = true)
    (hx : x.ty.isLanes kind = true) (hty : ty.shape = x.ty.shape) :
    (call ty (.intrinsic f) [x]).values m = List.map (ops.function f kind) <$> x.values m := by
  rw [values_call_single]
  refine map_values_congr m fun vs hvs => ?_
  rw [hm.function hf hx hvs]
  exact takeD_of_length _ (by rw [List.length_map, hvs, Ty.laneCount_of_shape hty])

/-- A negation, in every lane. -/
theorem values_negated (hx : x.ty.isLanes kind = true) (hty : ty.shape = x.ty.shape) :
    (unary ty .neg x).values m = List.map (ops.negate kind) <$> x.values m := by
  rw [values_neg]
  refine map_values_congr m fun vs hvs => ?_
  rw [hm.negate hx hvs]
  exact takeD_of_length _ (by rw [List.length_map, hvs, Ty.laneCount_of_shape hty])

/-- A difference or a product of operands of one shape, lane by lane. -/
theorem values_lanes {op : BinaryOp} (hop : op = .sub ∨ op = .mul) (ha : a.ty.isLanes kind = true)
    (hb : b.ty.shape = a.ty.shape) (hty : ty.shape = a.ty.shape) :
    (binary ty op a b).values m = a.values m >>= fun as => b.values m >>= fun bs =>
      pure (List.zipWith (ops.binary op kind) as bs) := by
  rw [values_arithmetic m hop]
  refine values_bind_congr m fun as has => values_bind_congr m fun bs hbs => ?_
  rw [Ty.laneCount_of_shape hb] at hbs
  rw [hm.lanes hop ha hb has hbs, takeD_of_length]
  rw [List.length_zipWith, has, hbs, Nat.min_self, Ty.laneCount_of_shape hty]

/-- A difference or a product with a literal on the left, in every lane. -/
theorem values_scaled {op : BinaryOp} (hop : op = .sub ∨ op = .mul) (v : Binary64)
    (hb : b.ty.isLanes .float = true) (hty : ty.shape = b.ty.shape) :
    (binary ty op (.float v) b).values m =
      List.map (ops.binary op .float (m.literal (.float v))) <$> b.values m := by
  rw [values_arithmetic m hop, values_float, pure_bind, ← bind_pure_comp]
  refine values_bind_congr m fun bs hbs => ?_
  rw [hm.scaled hop (t := b.ty) rfl hb _ hbs, takeD_of_length]
  rw [List.length_map, hbs, Ty.laneCount_of_shape hty]

/-- A power of floats, lane by lane. -/
theorem values_power (ha : a.ty.isLanes .float = true) (hb : b.ty.shape = a.ty.shape)
    (hty : ty.shape = a.ty.shape) :
    (call ty (.intrinsic .pow) [a, b]).values m = a.values m >>= fun as => b.values m >>= fun bs =>
      pure (List.zipWith ops.power as bs) := by
  rw [values_call_pair]
  refine values_bind_congr m fun as has => values_bind_congr m fun bs hbs => ?_
  rw [Ty.laneCount_of_shape hb] at hbs
  rw [hm.power ha hb has hbs, takeD_of_length]
  rw [List.length_zipWith, has, hbs, Nat.min_self, Ty.laneCount_of_shape hty]

end

/-! ### Expressions over one operand -/

/-- An expression has the shape of another, and each of its lanes comes from that lane of the other
    by a function of scalars. -/
structure Maps (m : Machine α) (x e : Expr) (f : α → α) : Prop where
  shape : e.ty.shape = x.ty.shape
  values : e.values m = List.map f <$> x.values m

namespace Maps

variable {e e₁ e₂ : Expr} {f f₁ f₂ : α → α}

/-- An expression is its own identity map. -/
theorem self (m : Machine α) (x : Expr) : Maps m x x id := ⟨rfl, by simp⟩

/-- From a state in which the other has a value, the expression has the value of every lane. -/
theorem run_eq (h : Maps m x e f) {σ τ : State α} {vs : List α}
    (hrun : x.run m σ = some (.ok vs, τ)) : e.run m σ = some (.ok (vs.map f), τ) := by
  have hvalues : (x.values m).run.run σ = some (.ok vs, τ) := hrun
  rw [run, h.values, ExceptT.run_map, StateT.run_map, hvalues]
  rfl

/-- A group is mapped as what it holds. -/
theorem group (h : Maps m x e f) : Maps m x (ofGroup e) f := by
  refine ⟨h.shape, ?_⟩
  have hvalues : (ofGroup e).values m = Lane.values <$> m.fit e.ty <$> e.eval m := rfl
  rw [hvalues, fit_eval]
  exact h.values

section

variable (hm : m.Lanewise ops) (hx : x.ty.isLanes kind = true)

include hm hx

/-- A lanewise function is applied to what is mapped. -/
theorem ofCall {g : Intrinsic} (hg : g.isLanewise = true) (h : Maps m x e f) :
    Maps m x (ofCall g [e]) fun a => ops.function g kind (f a) := by
  have hty : (Expr.ofCall g [e]).ty = e.ty := g.resultTy_of_isLanewise hg e.ty
  refine ⟨(congrArg Ty.shape hty).trans h.shape, ?_⟩
  have hvalues := values_function hm hg (Ty.isLanes_of_shape hx h.shape) (congrArg Ty.shape hty)
  have hcall : (Expr.ofCall g [e]).values m = List.map (ops.function g kind) <$> e.values m :=
    hvalues
  rw [hcall, h.values, Functor.map_map]
  simp only [List.map_map, Function.comp_def]

/-- A difference or a product of two expressions over the operand, which is read for both. -/
theorem combine {op : BinaryOp} (hop : op = .sub ∨ op = .mul)
    (hread : Eval.IsReadOnly (x.values m)) (h₁ : Maps m x e₁ f₁) (h₂ : Maps m x e₂ f₂) :
    Maps m x (ofBinary op e₁ e₂) fun a => ops.binary op kind (f₁ a) (f₂ a) := by
  have hlanes := Ty.isLanes_of_shape hx h₁.shape
  have hshape := h₂.shape.trans h₁.shape.symm
  have hty := Ty.shape_resultTy_of_shape hop hlanes hshape
  refine ⟨hty.trans h₁.shape, ?_⟩
  have hvalues : (ofBinary op e₁ e₂).values m = _ := values_lanes hm hop hlanes hshape hty
  rw [hvalues, h₁.values, h₂.values]
  simp only [bind_map_left]
  -- The operand is evaluated twice, which is as good as once since it only reads.
  rw [hread.bind_self]
  simp only [List.zipWith_map, List.zipWith_self, bind_pure_comp]

end

section

variable (hm : m.Lanewise ops) (hx : x.ty.isLanes .float = true) {op : BinaryOp}
  (hop : op = .sub ∨ op = .mul) (v : Binary64)

include hm hx hop

/-- A difference or a product with a float literal on the left, with any type of the same shape. -/
theorem scaledTo (hty : ty.shape = x.ty.shape) (h : Maps m x e f) :
    Maps m x ((ofBinary op (.float v) e).withTy ty) fun a =>
      ops.binary op .float (m.literal (.float v)) (f a) := by
  refine ⟨by rw [ty_withTy, hty], ?_⟩
  have hvalues : ((ofBinary op (.float v) e).withTy ty).values m = _ :=
    values_scaled hm hop v (Ty.isLanes_of_shape hx h.shape) (hty.trans h.shape.symm)
  rw [hvalues, h.values, Functor.map_map]
  simp only [List.map_map, Function.comp_def]

/-- A scalar factor is applied to each lane. -/
theorem scaled (h : Maps m x e f) : Maps m x (ofBinary op (.float v) e) fun a =>
    ops.binary op .float (m.literal (.float v)) (f a) := by
  have hshape : (ofBinary op (.float v) e).ty.shape = e.ty.shape :=
    Ty.shape_resultTy_of_scalar hop (s := .half) rfl (Ty.isLanes_of_shape hx h.shape)
  have hscaled := scaledTo hm hx hop v (hshape.trans h.shape) h
  rwa [withTy_ty] at hscaled

end

end Maps

end Expr

end ShaderGen
