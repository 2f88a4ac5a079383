import ShaderGen.Expr.Effect
import ShaderGen.Proofs.Induction
import ShaderGen.Proofs.Semantics.Machine

/-!
# What an expression computes

Operands are evaluated from left to right, each once; `&&`, `||` and a choice skip the operand they
do not need. A swizzle selects from the components of its base, a constant selector giving zero or
one of the kind of the base. What an expression computes keeps the cells behind the components, so
that the same definition says what a target is and what its value is.

## Key results

- `Expr.map_eval_congr`: an expression has as many components as its type says
- `Expr.isReadOnly_eval`: without side effects nothing is written and nothing is called
-/

namespace ShaderGen

variable {α β γ : Type}

/-- Zero or one of a kind, as it is written out. -/
def ScalarKind.unitLiteral (kind : ScalarKind) (one : Bool) : Literal :=
  match kind with
  | .float => .float (if one then .one else .zero)
  | .int => .int (if one then 1 else 0)
  | .uint => .uint (if one then 1 else 0)
  | .bool => .bool one

/-- What a selector picks among several components; `literal` gives the constants. -/
def Selector.pick (default : β) (literal : Bool → β) (xs : List β) (s : Selector) : β :=
  match s.lane? with
  | some lane => xs.getD lane default
  | none => literal (s == .one)

namespace BinaryOp

/-- The operation that a compound assignment applies before it writes. -/
def applied : BinaryOp → BinaryOp
  | .addAssign => .add
  | .subAssign => .sub
  | .mulAssign => .mul
  | .divAssign => .div
  | op => op

/-- The result that the left operand alone decides. -/
def decided? : BinaryOp → Bool → Option Bool
  | .logicalAnd, false => some false
  | .logicalOr, true => some true
  | _, _ => none

end BinaryOp

namespace Machine

variable (m : Machine α)

/-- What an operator makes of its operand; for increments and decrements, what they write. -/
def unaryResult (op : UnaryOp) (ty : Ty) (vs : List α) : List α :=
  if op = .not then [m.literal (.bool (!m.holds vs))] else m.unary op ty vs

/-- What an operator that writes nothing makes of operands that are both needed. -/
def binaryResult (op : BinaryOp) (left : Ty) (ls : List α) (right : Ty) (rs : List α) : List α :=
  match op with
  | .logicalAnd | .logicalOr | .comma => rs
  | .logicalXor => [m.literal (.bool (m.holds ls ^^ m.holds rs))]
  | _ => m.binary op left ls right rs

/-- What an assignment writes. -/
def assigned (op : BinaryOp) (target : Ty) (old : List α) (ty : Ty) (vs : List α) : List α :=
  (if op = .assign then vs else m.binary op.applied target old ty vs).takeD target.laneCount
    m.undefined

/-- Value that a selector picks, for a base whose components are of a kind. -/
def pick (kind : ScalarKind) (vs : List α) : Selector → α :=
  Selector.pick m.undefined (fun one => m.literal (kind.unitLiteral one)) vs

/-- Component that a selector picks. -/
def pickLane (kind : ScalarKind) (ls : List (Lane α)) : Selector → Lane α :=
  Selector.pick ⟨m.undefined, none⟩ (fun one => ⟨m.literal (kind.unitLiteral one), none⟩) ls

end Machine

namespace Expr

mutual
/-- What an expression computes: the components of its value, with the cells they stand for. -/
def eval (m : Machine α) : Expr → Eval α (List (Lane α))
  | .literal ty value => pure (m.temporaries ty [m.literal value])
  | .var ty name => Eval.load (.named name) ty
  | .builtin ty which => Eval.load (.builtin which) ty
  | .unary ty op operand =>
    if op.writesOperand then do
      let target ← operand.eval m
      let old := Lane.values target
      let new := m.unaryResult op operand.ty old
      Eval.store target new
      pure (m.temporaries ty (if op.followsOperand then old else new))
    else do
      let vs ← Lane.values <$> operand.eval m
      pure (m.temporaries ty (m.unaryResult op operand.ty vs))
  | .binary ty op left right =>
    if op.isAssignment then do
      let target ← left.eval m
      let vs ← Lane.values <$> right.eval m
      let new := m.assigned op left.ty (Lane.values target) right.ty vs
      Eval.store target new
      pure (m.temporaries ty new)
    else do
      let ls ← Lane.values <$> left.eval m
      match op.decided? (m.holds ls) with
      | some b => pure (m.temporaries ty [m.literal (.bool b)])
      | none => do
        let rs ← Lane.values <$> right.eval m
        pure (m.temporaries ty (m.binaryResult op left.ty ls right.ty rs))
  | .ternary ty cond ifTrue ifFalse => do
    let vs ← Lane.values <$> cond.eval m
    if m.holds vs then m.fit ty <$> ifTrue.eval m else m.fit ty <$> ifFalse.eval m
  | .call ty (.intrinsic function) args => do
    let vs ← evalArgs m args
    pure (m.temporaries ty (m.intrinsic function vs))
  | .call ty (.user name) args => do
    let vs ← evalArgs m args
    m.temporaries ty <$> Eval.call m name vs
  | .swizzle ty base mask =>
    (fun ls => m.fit ty (mask.map (m.pickLane base.ty.componentKind ls))) <$> base.eval m
  | .index ty base position => do
    let ls ← base.eval m
    let place ← Lane.values <$> position.eval m
    pure (m.fit ty (Machine.past ty.laneCount ls (m.asInteger place)))
  | .construct ty args => do
    let vs ← evalArgs m args
    pure (m.temporaries ty (m.construct ty vs))
  | .group ty inner => m.fit ty <$> inner.eval m

/-- What several expressions compute, from left to right, with their types. -/
def evalArgs (m : Machine α) : List Expr → Eval α (List (Ty × List α))
  | [] => pure []
  | e :: es => do
    let vs ← Lane.values <$> e.eval m
    let rest ← evalArgs m es
    pure ((e.ty, vs) :: rest)
end

/-- The components of the value of an expression, without the cells. -/
def values (m : Machine α) (e : Expr) : Eval α (List α) := Lane.values <$> e.eval m

/-- A run of an expression from a state: its value or the end of the fragment, and the state that
    it leaves with everything that was done. -/
def run (m : Machine α) (e : Expr) (σ : State α) : Option (Except Discarded (List α) × State α) :=
  (e.values m).run.run σ

/-- A run of an expression that is written to. It gives the cells behind the components as well. -/
def locate (m : Machine α) (e : Expr) (σ : State α) :
    Option (Except Discarded (List (Lane α)) × State α) :=
  (e.eval m).run.run σ

end Expr

/-! ### Numbers of components -/

/-- Padding and a map may be done in either order. -/
theorem map_takeD (f : β → γ) (n : Nat) (xs : List β) (d : β) :
    (xs.takeD n d).map f = (xs.map f).takeD n (f d) := by
  induction n generalizing xs with
  | zero => rfl
  | succ n ih => cases xs <;> simp [ih]

/-- A list of the length is not padded. -/
theorem takeD_of_length {n : Nat} {xs : List β} (d : β) (h : xs.length = n) :
    xs.takeD n d = xs := by
  rw [List.takeD_eq_take _ (by omega), ← h, List.take_length]

/-- Picking and a map may be done in either order. -/
theorem Selector.map_pick (f : β → γ) (d : β) (literal : Bool → β) (xs : List β) (s : Selector) :
    f (s.pick d literal xs) = s.pick (f d) (fun one => f (literal one)) (xs.map f) := by
  unfold Selector.pick
  cases s.lane? with
  | none => rfl
  | some lane => simp [List.getD_eq_getElem?_getD, Option.getD_map]

/-- The values past an index are those of the lanes past it. -/
@[simp] theorem Lane.values_past (n : Nat) (ls : List (Lane α)) (i : Int) :
    Lane.values (Machine.past n ls i) = Machine.past n (Lane.values ls) i := by
  cases i with
  | ofNat i => exact List.map_drop
  | negSucc i => rfl

namespace Machine

variable (m : Machine α) (ty : Ty)

/-- Lanes are fitted to as many as the type has. -/
@[simp] theorem length_fit (ls : List (Lane α)) : (m.fit ty ls).length = ty.laneCount :=
  List.takeD_length ..

/-- There is a temporary for each lane of the type. -/
@[simp] theorem length_temporaries (vs : List α) :
    (m.temporaries ty vs).length = ty.laneCount := by
  simp [temporaries]

variable {ty} in
/-- Lanes that fit are kept. -/
theorem fit_of_length {ls : List (Lane α)} (h : ls.length = ty.laneCount) : m.fit ty ls = ls :=
  takeD_of_length _ h

/-- Fitting twice is fitting once. -/
@[simp] theorem fit_fit (ls : List (Lane α)) : m.fit ty (m.fit ty ls) = m.fit ty ls :=
  m.fit_of_length (by simp)

/-- Temporaries fit. -/
@[simp] theorem fit_temporaries (vs : List α) :
    m.fit ty (m.temporaries ty vs) = m.temporaries ty vs :=
  m.fit_of_length (by simp)

/-- The lanes of a variable fit its type. -/
@[simp] theorem fit_lanes (v : Variable) (content : Nat → α) :
    m.fit ty (v.lanes ty content) = v.lanes ty content :=
  m.fit_of_length (by simp [Variable.lanes])

/-- The values of fitted lanes are the values, padded. -/
@[simp] theorem values_fit (ls : List (Lane α)) :
    Lane.values (m.fit ty ls) = (Lane.values ls).takeD ty.laneCount m.undefined :=
  map_takeD ..

/-- The values of temporaries are those they were made of, padded. -/
@[simp] theorem values_temporaries (vs : List α) :
    Lane.values (m.temporaries ty vs) = vs.takeD ty.laneCount m.undefined := by
  simp [Lane.values, temporaries, Function.comp_def]

/-- The values that are picked are picked from the values. -/
theorem values_pickLane (kind : ScalarKind) (ls : List (Lane α)) (mask : Mask) :
    Lane.values (mask.map (m.pickLane kind ls)) = mask.map (m.pick kind (Lane.values ls)) := by
  rw [Lane.values, List.map_map]
  exact List.map_congr_left fun s _ => s.map_pick Lane.value ..

end Machine

namespace Expr

variable (m : Machine α)

section

attribute [local simp] eval evalArgs

/-- An expression has as many lanes as its type. -/
theorem fit_eval (e : Expr) : m.fit e.ty <$> e.eval m = e.eval m := by
  -- Every node but a few ends with a fit to its type, and fitting twice is fitting once.
  cases e with
  | unary ty op operand =>
    simp only [eval, Expr.ty]
    split <;> simp [map_bind]
  | binary ty op left right =>
    simp only [eval, Expr.ty]
    split
    · simp [map_bind]
    · simp only [map_bind, bind_map_left]
      refine bind_congr fun ls => ?_
      split <;> simp
  | ternary ty cond ifTrue ifFalse =>
    simp only [eval, Expr.ty, map_bind]
    refine bind_congr fun vs => ?_
    split <;> simp
  | call ty callee args => cases callee <;> simp [Expr.ty]
  | _ => simp [Expr.ty, Eval.load]

end

/-- Functions that agree on lists of the length that the type tells agree on what is computed. -/
theorem map_eval_congr {e : Expr} {f g : List (Lane α) → γ}
    (h : ∀ ls, ls.length = e.ty.laneCount → f ls = g ls) : f <$> e.eval m = g <$> e.eval m := by
  rw [← e.fit_eval m, Functor.map_map, Functor.map_map]
  exact congrArg (· <$> e.eval m) (funext fun ls => h _ (m.length_fit _ ls))

/-- A function that keeps lanes that fit keeps those of an expression. -/
theorem map_eval_eq_self {e : Expr} {f : List (Lane α) → List (Lane α)}
    (h : ∀ ls, ls.length = e.ty.laneCount → f ls = ls) : f <$> e.eval m = e.eval m :=
  (map_eval_congr m h).trans (id_map' _)

/-- Functions that agree on values of the type agree on those of an expression. -/
theorem map_values_congr {e : Expr} {f g : List α → γ}
    (h : ∀ vs, vs.length = e.ty.laneCount → f vs = g vs) : f <$> e.values m = g <$> e.values m := by
  simp only [values, Functor.map_map]
  exact map_eval_congr m fun ls hls => h _ (by simpa [Lane.values] using hls)

/-- What comes after an expression may count on a value of the length that the type tells. -/
theorem values_bind_congr {e : Expr} {f g : List α → Eval α γ}
    (h : ∀ vs, vs.length = e.ty.laneCount → f vs = g vs) : e.values m >>= f = e.values m >>= g := by
  have hjoin (k : List α → Eval α γ) : e.values m >>= k = (k <$> e.values m) >>= id := by
    rw [bind_map_left]
    rfl
  rw [hjoin, hjoin, map_values_congr m h]

end Expr

/-- A comma evaluates both of its operands, and has the value of the second. -/
theorem Expr.values_comma (m : Machine α) (a b : Expr) :
    (ofBinary .comma a b).values m = a.values m >>= fun _ => b.values m := by
  have hfit : (fun vs => vs.takeD b.ty.laneCount m.undefined) <$> b.values m = b.values m :=
    (map_values_congr m fun vs hvs => takeD_of_length _ hvs).trans (id_map' _)
  conv_rhs => rw [← hfit]
  simp [ofBinary, BinaryOp.resultTy, BinaryOp.yieldsBool, BinaryOp.isAssignment, values, eval,
    BinaryOp.decided?, Machine.binaryResult, map_bind]

/-! ### Variables behind components -/

/-- Components that can be written belong to variables of a certain kind. -/
def Lane.Owned (W : Variable → Prop) (ls : List (Lane α)) : Prop :=
  ∀ l ∈ ls, ∀ cell, l.cell? = some cell → W cell.owner

namespace Lane

variable {W : Variable → Prop} {m : Machine α} {ls : List (Lane α)}

/-- Lanes that are owned by some variables are owned by more. -/
theorem Owned.mono {W' : Variable → Prop} (h : Owned W ls) (hmono : ∀ v, W v → W' v) :
    Owned W' ls :=
  fun l hl cell hcell => hmono _ (h l hl cell hcell)

/-- Temporaries are owned by none. -/
theorem owned_temporaries (ty : Ty) (vs : List α) : Owned W (m.temporaries ty vs) := by
  intro l hl cell hcell
  obtain ⟨v, -, rfl⟩ := List.mem_map.mp hl
  cases hcell

/-- The lanes of a variable are owned by it. -/
theorem owned_lanes {v : Variable} (h : W v) (ty : Ty) (content : Nat → α) :
    Owned W (v.lanes ty content) := by
  intro l hl cell hcell
  obtain ⟨i, -, rfl⟩ := List.mem_map.mp hl
  cases hcell
  exact h

/-- A member of a padded list is one of the list, or pads it. -/
theorem mem_takeD {β : Type} {n : Nat} {xs : List β} {x d : β} (h : x ∈ xs.takeD n d) :
    x ∈ xs ∨ x = d := by
  induction n generalizing xs with
  | zero => simp at h
  | succ n ih =>
    cases xs with
    | nil =>
      -- The list was too short, so it is filled up with the default.
      rw [List.takeD_nil] at h
      exact .inr (List.eq_of_mem_replicate h)
    | cons y ys =>
      rcases List.mem_cons.mp h with rfl | h
      · exact .inl List.mem_cons_self
      · exact (ih h).imp_left (List.mem_cons_of_mem _)

/-- Fitting adds no cell. -/
theorem Owned.fit (h : Owned W ls) (ty : Ty) : Owned W (m.fit ty ls) := by
  intro l hl cell hcell
  rcases mem_takeD hl with hl | rfl
  · exact h l hl cell hcell
  · cases hcell

/-- Indexing adds no cell. -/
theorem Owned.past (h : Owned W ls) (n : Nat) (i : Int) : Owned W (Machine.past n ls i) := by
  cases i with
  | ofNat i => exact fun l hl => h l (List.mem_of_mem_drop hl)
  | negSucc i => exact fun l hl => absurd hl List.not_mem_nil

/-- Picking adds no cell. -/
theorem Owned.pickLane (h : Owned W ls) (kind : ScalarKind) (mask : Mask) :
    Owned W (mask.map (m.pickLane kind ls)) := by
  intro l hl cell hcell
  obtain ⟨s, -, rfl⟩ := List.mem_map.mp hl
  unfold Machine.pickLane Selector.pick at hcell
  cases hs : s.lane? with
  | none => simp [hs] at hcell
  -- The lane that is picked is one of the given lanes, so its place is owned.
  | some lane =>
    simp only [hs, List.getD_eq_getElem?_getD] at hcell
    cases hget : ls[lane]? with
    | none => simp [hget] at hcell
    | some l =>
      rw [hget] at hcell
      exact h l (List.mem_of_getElem? hget) cell hcell

end Lane

/-! ### Evaluation without side effects -/

namespace Eval

/-- The computation returns and changes nothing. -/
def IsReadOnly (x : Eval α β) : Prop := ∀ σ, ∃ b, x.run.run σ = some (.ok b, σ)

/-- A value alone only reads. -/
theorem isReadOnly_pure (b : β) : IsReadOnly (pure b : Eval α β) := fun _ => ⟨b, rfl⟩

/-- A load only reads. -/
theorem isReadOnly_load (v : Variable) (ty : Ty) :
    IsReadOnly (load v ty : Eval α (List (Lane α))) :=
  fun _ => ⟨_, rfl⟩

variable {x : Eval α β}

/-- Computations that only read do so in a row. -/
theorem IsReadOnly.bind {f : β → Eval α γ} (hx : IsReadOnly x) (hf : ∀ b, IsReadOnly (f b)) :
    IsReadOnly (x >>= f) := by
  intro σ
  obtain ⟨b, hb⟩ := hx σ
  obtain ⟨c, hc⟩ := hf b σ
  refine ⟨c, ?_⟩
  rw [ExceptT.run_bind, StateT.run_bind, hb]
  exact hc

/-- A function of the result only reads if the computation does. -/
theorem IsReadOnly.map {f : β → γ} (hx : IsReadOnly x) : IsReadOnly (f <$> x) := by
  rw [← bind_pure_comp]
  exact hx.bind fun b => isReadOnly_pure _

/-- What only reads can be left out. -/
theorem IsReadOnly.bind_const (hx : IsReadOnly x) (k : Eval α γ) : (x >>= fun _ => k) = k := by
  refine ExceptT.ext (StateT.ext fun σ => ?_)
  obtain ⟨b, hb⟩ := hx σ
  rw [ExceptT.run_bind, StateT.run_bind, hb]
  rfl

/-- What only reads gives the same again. -/
theorem IsReadOnly.bind_self (hx : IsReadOnly x) (k : β → β → Eval α γ) :
    (x >>= fun a => x >>= fun b => k a b) = x >>= fun a => k a a := by
  refine ExceptT.ext (StateT.ext fun σ => ?_)
  obtain ⟨b, hb⟩ := hx σ
  rw [ExceptT.run_bind, StateT.run_bind, ExceptT.run_bind, StateT.run_bind, hb]
  show (x >>= fun c => k b c).run.run σ = (k b b).run.run σ
  rw [ExceptT.run_bind, StateT.run_bind, hb]
  rfl

end Eval

namespace Expr

open Eval

/-- Arguments only read if each does. -/
theorem isReadOnly_evalArgs (m : Machine α) {es : List Expr}
    (h : ∀ e ∈ es, IsReadOnly (e.eval m)) : IsReadOnly (evalArgs m es) := by
  induction es with
  | nil => exact isReadOnly_pure _
  | cons e es ih =>
    have hes := ih fun e' he' => h e' (List.mem_cons_of_mem e he')
    exact (h e List.mem_cons_self).map.bind fun _ => hes.bind fun _ => isReadOnly_pure _

/-- An expression without side effects only reads. -/
theorem isReadOnly_eval (m : Machine α) (e : Expr) :
    e.hasSideEffects = false → IsReadOnly (e.eval m) := by
  -- What has no side effects holds no operator that assigns and no call of a function of the
  -- program, so each case is a read or an operation on values.
  induction e with
  | literal ty value => exact fun _ => isReadOnly_pure _
  | var ty name => exact fun _ => isReadOnly_load _ _
  | builtin ty which => exact fun _ => isReadOnly_load _ _
  -- An operator that writes is a side effect, so this one computes.
  | unary ty op operand ih =>
    intro h
    simp only [hasSideEffects, Bool.or_eq_false_iff] at h
    obtain ⟨hop, hoperand⟩ := h
    simp only [eval, hop]
    exact (ih hoperand).map.bind fun _ => isReadOnly_pure _
  | binary ty op left right ihl ihr =>
    intro h
    simp only [hasSideEffects, Bool.or_eq_false_iff, and_assoc] at h
    obtain ⟨hop, hl, hr⟩ := h
    simp only [eval, hop]
    refine (ihl hl).map.bind fun ls => ?_
    split
    · exact isReadOnly_pure _
    · exact (ihr hr).map.bind fun _ => isReadOnly_pure _
  | ternary ty cond ifTrue ifFalse ihc iht ihf =>
    intro h
    simp only [hasSideEffects, Bool.or_eq_false_iff, and_assoc] at h
    obtain ⟨hc, ht, hf⟩ := h
    refine (ihc hc).map.bind fun vs => ?_
    split
    · exact (iht ht).map
    · exact (ihf hf).map
  -- An intrinsic evaluates its arguments and nothing else.
  | call ty callee args ih =>
    intro h
    cases callee with
    | user name => simp [hasSideEffects] at h
    | intrinsic function =>
      simp only [hasSideEffects, anySideEffects_eq_any, List.any_eq_false, Bool.not_eq_true] at h
      have hargs := isReadOnly_evalArgs m fun e he => ih e he (h e he)
      exact hargs.bind fun _ => isReadOnly_pure _
  | swizzle ty base mask ih => exact fun h => (ih h).map
  | index ty base position ihb ihp =>
    intro h
    simp only [hasSideEffects, Bool.or_eq_false_iff] at h
    obtain ⟨hb, hp⟩ := h
    exact (ihb hb).bind fun _ => (ihp hp).map.bind fun _ => isReadOnly_pure _
  | construct ty args ih =>
    intro h
    simp only [hasSideEffects, anySideEffects_eq_any, List.any_eq_false, Bool.not_eq_true] at h
    have hargs := isReadOnly_evalArgs m fun e he => ih e he (h e he)
    exact hargs.bind fun _ => isReadOnly_pure _
  | group ty inner ih => exact fun h => (ih h).map

end Expr

end ShaderGen
