import ShaderGen.Proofs.Semantics.Evaluation

/-!
# Expressions and what they look up

Where a run of an expression comes upon a variable, it looks the variable up: for its value, or only
for the cells that an assignment is about to write. `Expr.evalBy` leaves open what that does. A
lookup may leave a note in the trace, so expressions that compute the same by every lookup read the
same variables in the same order, between the same writes and the same calls.

Two expressions are alike under a lookup if they compute the same value from every state and do the
same on the way, and stand for the same cells where they are written to. Every node over children
that are alike is alike, so a rewriting rule only has to be looked at where it applies.

## Main definitions

- `Lookup`: what it does to look a variable up
- `Expr.evalBy`: what an expression computes by a lookup
- `Expr.RunsLike`: expressions whose runs cannot be told apart
- `Expr.AlikeBy`: expressions that can take each other's place

## Key results

- `Expr.evalBy_plain`: what an expression computes by looking its variables up and no more
- `Expr.AlikeBy.unary`, `.binary`, `.ternary` and so on: one for each kind of node
-/

namespace ShaderGen

variable {α : Type}

/-- What it does to look up a variable of a type, where its value is needed (`true`), and where it
    is about to be overwritten (`false`). -/
abbrev Lookup (α : Type) := Bool → Variable → Ty → Eval α (List (Lane α))

/-- Finds the components of the variable, and does nothing else. -/
def Lookup.plain : Lookup α := fun _ => Eval.load

namespace Expr

mutual
/-- What an expression computes by a lookup. An increment and a compound assignment need the value
    of what they write, a plain assignment does not. -/
def evalBy (lookup : Lookup α) (m : Machine α) (reads : Bool) : Expr → Eval α (List (Lane α))
  | .literal ty value => pure (m.temporaries ty [m.literal value])
  | .var ty name => lookup reads (.named name) ty
  | .builtin ty which => lookup reads (.builtin which) ty
  | .unary ty op operand =>
    if op.writesOperand then do
      let target ← operand.evalBy lookup m true
      let old := Lane.values target
      let new := m.unaryResult op operand.ty old
      Eval.store target new
      pure (m.temporaries ty (if op.followsOperand then old else new))
    else do
      let vs ← Lane.values <$> operand.evalBy lookup m true
      pure (m.temporaries ty (m.unaryResult op operand.ty vs))
  | .binary ty op left right =>
    if op.isAssignment then do
      let target ← left.evalBy lookup m (op != .assign)
      let vs ← Lane.values <$> right.evalBy lookup m true
      let new := m.assigned op left.ty (Lane.values target) right.ty vs
      Eval.store target new
      pure (m.temporaries ty new)
    else do
      let ls ← Lane.values <$> left.evalBy lookup m true
      match op.decided? (m.holds ls) with
      | some b => pure (m.temporaries ty [m.literal (.bool b)])
      | none => do
        let rs ← Lane.values <$> right.evalBy lookup m true
        pure (m.temporaries ty (m.binaryResult op left.ty ls right.ty rs))
  | .ternary ty cond ifTrue ifFalse => do
    let vs ← Lane.values <$> cond.evalBy lookup m true
    if m.holds vs then m.fit ty <$> ifTrue.evalBy lookup m reads
    else m.fit ty <$> ifFalse.evalBy lookup m reads
  | .call ty (.intrinsic function) args => do
    let vs ← evalArgsBy lookup m args
    pure (m.temporaries ty (m.intrinsic function vs))
  | .call ty (.user name) args => do
    let vs ← evalArgsBy lookup m args
    m.temporaries ty <$> Eval.call m name vs
  | .swizzle ty base mask =>
    (fun ls => m.fit ty (mask.map (m.pickLane base.ty.componentKind ls))) <$>
      base.evalBy lookup m reads
  | .index ty base position => do
    let ls ← base.evalBy lookup m reads
    let place ← Lane.values <$> position.evalBy lookup m true
    pure (m.fit ty (Machine.past ty.laneCount ls (m.asInteger place)))
  | .construct ty args => do
    let vs ← evalArgsBy lookup m args
    pure (m.temporaries ty (m.construct ty vs))
  | .group ty inner => m.fit ty <$> inner.evalBy lookup m reads

/-- What several expressions compute by a lookup, from left to right, with their types. -/
def evalArgsBy (lookup : Lookup α) (m : Machine α) : List Expr → Eval α (List (Ty × List α))
  | [] => pure []
  | e :: es => do
    let vs ← Lane.values <$> e.evalBy lookup m true
    let rest ← evalArgsBy lookup m es
    pure ((e.ty, vs) :: rest)
end

/-- The components of the value of an expression, where that is needed. -/
def valuesBy (lookup : Lookup α) (m : Machine α) (e : Expr) : Eval α (List α) :=
  Lane.values <$> e.evalBy lookup m true

/-- A run of an expression from a state, by a lookup. -/
def runBy (lookup : Lookup α) (m : Machine α) (e : Expr) (σ : State α) :
    Option (Except Discarded (List α) × State α) :=
  (e.valuesBy lookup m).run.run σ

/-- The second expression has the type of the first, and from every state it gives the same value,
    leaves the same state, and does the same in the same order on the way. -/
structure RunsLike (lookup : Lookup α) (m : Machine α) (e e' : Expr) : Prop where
  ty_eq : e'.ty = e.ty
  run_eq (σ : State α) : e'.runBy lookup m σ = e.runBy lookup m σ

/-- By the plain lookup, arguments are evaluated as usual. -/
theorem evalArgsBy_plain {m : Machine α} {es : List Expr}
    (h : ∀ e ∈ es, ∀ reads, e.evalBy .plain m reads = e.eval m) :
    evalArgsBy .plain m es = evalArgs m es := by
  induction es with
  | nil => rfl
  | cons e es ih =>
    obtain ⟨he, hes⟩ := List.forall_mem_cons.mp h
    simp only [evalArgsBy, evalArgs, he, ih hes]

/-- Where looking a variable up does nothing else, an expression computes what it computes. -/
theorem evalBy_plain (m : Machine α) (e : Expr) :
    ∀ reads, e.evalBy .plain m reads = e.eval m := by
  -- One case for each node, as both evaluations follow the expression in the same order.
  induction e with
  | literal | var | builtin => exact fun _ => rfl
  | unary ty op operand ih =>
    intro reads
    simp only [evalBy, eval, ih]
  | binary ty op left right ihl ihr =>
    intro reads
    simp only [evalBy, ihl, ihr]
    rfl
  | ternary ty cond ifTrue ifFalse ihc iht ihf =>
    intro reads
    simp only [evalBy, eval, ihc, iht, ihf]
  -- The arguments are looked up plainly, whoever is called.
  | call ty callee args ih =>
    intro reads
    cases callee <;> simp only [evalBy, eval, evalArgsBy_plain ih]
  | swizzle ty base mask ih =>
    intro reads
    simp only [evalBy, eval, ih]
  | index ty base position ihb ihp =>
    intro reads
    simp only [evalBy, eval, ihb, ihp]
  | construct ty args ih =>
    intro reads
    simp only [evalBy, eval, evalArgsBy_plain ih]
  | group ty inner ih =>
    intro reads
    simp only [evalBy, eval, ih]

/-- By the plain lookup, an expression has its usual values. -/
theorem valuesBy_plain (m : Machine α) (e : Expr) : e.valuesBy .plain m = e.values m :=
  congrArg (Lane.values <$> ·) (evalBy_plain m e true)

/-- The second expression can take the place of the first; `target` tells whether that place is
    written to. -/
structure AlikeBy (lookup : Lookup α) (m : Machine α) (target : Bool) (e e' : Expr) : Prop where
  ty_eq : e'.ty = e.ty
  values_eq : e'.valuesBy lookup m = e.valuesBy lookup m
  eval_eq (ht : target = true) (reads : Bool) :
    e'.evalBy lookup m reads = e.evalBy lookup m reads

/-- Several expressions can take the place of others, none of them written to. -/
abbrev AlikeArgsBy (lookup : Lookup α) (m : Machine α) : List Expr → List Expr → Prop :=
  List.Forall₂ (AlikeBy lookup m false)

namespace AlikeBy

variable {lookup : Lookup α} {m : Machine α} {t : Bool} {e e' e'' c c' a a' b b' : Expr}
  {es es' : List Expr} {ty : Ty}

/-- An expression runs like itself. -/
theorem refl (e : Expr) : AlikeBy lookup m t e e := ⟨rfl, rfl, fun _ _ => rfl⟩

/-- Running alike is transitive. -/
theorem trans (h : AlikeBy lookup m t e e') (h' : AlikeBy lookup m t e' e'') :
    AlikeBy lookup m t e e'' :=
  ⟨h'.ty_eq.trans h.ty_eq, h'.values_eq.trans h.values_eq,
    fun ht reads => (h'.eval_eq ht reads).trans (h.eval_eq ht reads)⟩

/-- Expressions that stand for the same cells have the same values. -/
theorem of_evalBy (hty : e'.ty = e.ty)
    (h : ∀ reads, e'.evalBy lookup m reads = e.evalBy lookup m reads) : AlikeBy lookup m t e e' :=
  ⟨hty, congrArg (Lane.values <$> ·) (h true), fun _ => h⟩

/-- Values are enough where nothing is written. -/
theorem of_valuesBy (hty : e'.ty = e.ty) (h : e'.valuesBy lookup m = e.valuesBy lookup m) :
    AlikeBy lookup m false e e' :=
  ⟨hty, h, fun ht => absurd ht Bool.false_ne_true⟩

/-- Expressions that are alike run alike. -/
theorem runsLike (h : AlikeBy lookup m t e e') : RunsLike lookup m e e' := by
  refine ⟨h.ty_eq, fun σ => ?_⟩
  unfold runBy
  rw [h.values_eq]

/-- Arguments that are alike are evaluated alike. -/
theorem evalArgsBy_eq (h : AlikeArgsBy lookup m es es') :
    evalArgsBy lookup m es' = evalArgsBy lookup m es := by
  induction h with
  | nil => rfl
  | cons he _ ih =>
    show (valuesBy lookup m _ >>= fun vs => _) = (valuesBy lookup m _ >>= fun vs => _)
    rw [he.values_eq, he.ty_eq, ih]

/-! ### Nodes over children that are alike -/

/-- A unary node keeps how it runs when its operand does. -/
theorem unary (op : UnaryOp) (h : AlikeBy lookup m op.writesOperand e e') :
    AlikeBy lookup m t (.unary ty op e) (.unary ty op e') := by
  refine of_evalBy rfl fun reads => ?_
  have hv := h.values_eq
  unfold valuesBy at hv
  simp only [evalBy, h.ty_eq]
  split
  · next hop => rw [h.eval_eq hop]
  · rw [hv]

/-- So does a binary node when both operands do. -/
theorem binary (op : BinaryOp) (ha : AlikeBy lookup m op.isAssignment a a')
    (hb : AlikeBy lookup m false b b') :
    AlikeBy lookup m t (.binary ty op a b) (.binary ty op a' b') := by
  refine of_evalBy rfl fun reads => ?_
  have hva := ha.values_eq
  have hvb := hb.values_eq
  unfold valuesBy at hva hvb
  -- The left side is evaluated to its components if it is written to, and for its values otherwise.
  simp only [evalBy, ha.ty_eq, hb.ty_eq, hvb]
  split
  · next hop => rw [ha.eval_eq hop]
  · rw [hva]

/-- So does a call when its arguments do. -/
theorem call (callee : Callee) (h : AlikeArgsBy lookup m es es') :
    AlikeBy lookup m t (.call ty callee es) (.call ty callee es') := by
  refine of_evalBy rfl fun reads => ?_
  cases callee <;> simp only [evalBy, evalArgsBy_eq h]

/-- So does a constructor. -/
theorem construct (h : AlikeArgsBy lookup m es es') :
    AlikeBy lookup m t (.construct ty es) (.construct ty es') := by
  refine of_evalBy rfl fun reads => ?_
  simp only [evalBy, evalArgsBy_eq h]

/-- The values of a choice: its condition first, then the chosen arm. -/
theorem valuesBy_ternary (c a b : Expr) :
    (Expr.ternary ty c a b).valuesBy lookup m = c.valuesBy lookup m >>= fun vs =>
      (fun xs => xs.takeD ty.laneCount m.undefined) <$>
        if m.holds vs then a.valuesBy lookup m else b.valuesBy lookup m := by
  simp only [valuesBy, evalBy, map_bind]
  refine bind_congr fun vs => ?_
  split <;> simp

/-- A choice keeps how it runs when its condition and its arms do. -/
theorem ternary (hc : AlikeBy lookup m false c c') (ha : AlikeBy lookup m t a a')
    (hb : AlikeBy lookup m t b b') :
    AlikeBy lookup m t (.ternary ty c a b) (.ternary ty c' a' b') where
  ty_eq := rfl
  values_eq := by
    rw [valuesBy_ternary, valuesBy_ternary, hc.values_eq, ha.values_eq, hb.values_eq]
  eval_eq ht reads := by
    have hvc := hc.values_eq
    unfold valuesBy at hvc
    simp only [evalBy, hvc, ha.eval_eq ht, hb.eval_eq ht]

/-- The values of a swizzle: those of its base, picked by the mask. -/
theorem valuesBy_swizzle (e : Expr) (mask : Mask) :
    (Expr.swizzle ty e mask).valuesBy lookup m =
      (fun vs => (mask.map (m.pick e.ty.componentKind vs)).takeD ty.laneCount m.undefined) <$>
        e.valuesBy lookup m := by
  simp only [valuesBy, evalBy, Functor.map_map, Machine.values_fit, Machine.values_pickLane]

/-- A swizzle keeps how it runs when its base does. -/
theorem swizzle (mask : Mask) (h : AlikeBy lookup m t e e') :
    AlikeBy lookup m t (.swizzle ty e mask) (.swizzle ty e' mask) where
  ty_eq := rfl
  values_eq := by rw [valuesBy_swizzle, valuesBy_swizzle, h.values_eq, h.ty_eq]
  eval_eq ht reads := by simp only [evalBy, h.eval_eq ht, h.ty_eq]

/-- The values of an index: the base first, then the position, then the lanes from there on. -/
theorem valuesBy_index (e position : Expr) :
    (Expr.index ty e position).valuesBy lookup m = e.valuesBy lookup m >>= fun vs =>
      (fun place => (Machine.past ty.laneCount vs (m.asInteger place)).takeD ty.laneCount
        m.undefined) <$> position.valuesBy lookup m := by
  simp only [valuesBy, evalBy, bind_map_left, map_bind, Functor.map_map, bind_pure_comp,
    Machine.values_fit, Lane.values_past]

/-- An index keeps how it runs when its base and its position do. -/
theorem index (h : AlikeBy lookup m t e e') (hp : AlikeBy lookup m false a a') :
    AlikeBy lookup m t (.index ty e a) (.index ty e' a') where
  ty_eq := rfl
  values_eq := by rw [valuesBy_index, valuesBy_index, h.values_eq, hp.values_eq]
  eval_eq ht reads := by
    have hvp := hp.values_eq
    unfold valuesBy at hvp
    simp only [evalBy, h.eval_eq ht, hvp]

/-- The values of a group are those of its inside. -/
theorem valuesBy_group (e : Expr) :
    (Expr.group ty e).valuesBy lookup m =
      (fun vs => vs.takeD ty.laneCount m.undefined) <$> e.valuesBy lookup m := by
  simp [valuesBy, evalBy]

/-- A group keeps how it runs when its inside does. -/
theorem group (h : AlikeBy lookup m t e e') :
    AlikeBy lookup m t (.group ty e) (.group ty e') where
  ty_eq := rfl
  values_eq := by rw [valuesBy_group, valuesBy_group, h.values_eq]
  eval_eq ht reads := by simp only [evalBy, h.eval_eq ht]

end AlikeBy

end Expr

end ShaderGen
