import Mathlib.Data.List.Forall2
import ShaderGen.Proofs.Children
import ShaderGen.Proofs.Semantics.Lookup

/-!
# Expressions that stand for one another

Two expressions are alike if they compute the same value from every state and do the same on the
way. Where one of them is written to, they have to stand for the same cells as well. This is to be
alike under the lookup that only reads, so every node over children that are alike is alike.
-/

namespace ShaderGen.Expr

variable {α : Type} {m : Machine α} {t : Bool}

/-- The second expression can take the place of the first; `target` tells whether that place is
    written to. -/
structure Alike (m : Machine α) (target : Bool) (e e' : Expr) : Prop where
  ty_eq : e'.ty = e.ty
  values_eq : e'.values m = e.values m
  eval_eq : target = true → e'.eval m = e.eval m

/-- Several expressions can take the place of others, none of them written to. -/
abbrev AlikeArgs (m : Machine α) : List Expr → List Expr → Prop := List.Forall₂ (Alike m false)

namespace Alike

variable {e e' e'' c c' a a' b b' : Expr} {es es' : List Expr} {ty : Ty}

/-- An expression is like itself. -/
theorem refl (e : Expr) : Alike m t e e := ⟨rfl, rfl, fun _ => rfl⟩

/-- Being alike is transitive. -/
theorem trans (h : Alike m t e e') (h' : Alike m t e' e'') : Alike m t e e'' :=
  ⟨h'.ty_eq.trans h.ty_eq, h'.values_eq.trans h.values_eq,
    fun ht => (h'.eval_eq ht).trans (h.eval_eq ht)⟩

/-- Expressions that stand for the same cells have the same values. -/
theorem of_eval (hty : e'.ty = e.ty) (h : e'.eval m = e.eval m) : Alike m t e e' :=
  ⟨hty, congrArg (Lane.values <$> ·) h, fun _ => h⟩

/-- Values are enough where nothing is written. -/
theorem of_values (hty : e'.ty = e.ty) (h : e'.values m = e.values m) : Alike m false e e' :=
  ⟨hty, h, fun ht => absurd ht Bool.false_ne_true⟩

/-- Expressions that are alike run in the same way. -/
theorem run_eq (h : Alike m t e e') (σ : State α) : e'.run m σ = e.run m σ := by
  unfold run
  rw [h.values_eq]

/-- As targets they have the same lanes. -/
theorem locate_eq (h : Alike m true e e') (σ : State α) : e'.locate m σ = e.locate m σ := by
  unfold locate
  rw [h.eval_eq rfl]

/-- Expressions are alike if they are under the lookup that only reads. -/
theorem iff_alikeBy : Alike m t e e' ↔ AlikeBy .plain m t e e' := by
  refine ⟨fun h => ⟨h.ty_eq, ?_, fun ht reads => ?_⟩,
    fun h => ⟨h.ty_eq, ?_, fun ht => ?_⟩⟩
  · rw [valuesBy_plain, valuesBy_plain, h.values_eq]
  · rw [evalBy_plain, evalBy_plain, h.eval_eq ht]
  · rw [← valuesBy_plain m, ← valuesBy_plain m, h.values_eq]
  · rw [← evalBy_plain m e' true, ← evalBy_plain m e true, h.eval_eq ht]

/-- Arguments that are alike are so under the plain lookup. -/
theorem alikeArgsBy (h : AlikeArgs m es es') : AlikeArgsBy .plain m es es' :=
  h.imp fun _ _ => iff_alikeBy.mp

/-! ### Nodes over children that are alike -/

/-- Unary nodes are alike when their operands are. -/
theorem unary (op : UnaryOp) (h : Alike m op.writesOperand e e') :
    Alike m t (.unary ty op e) (.unary ty op e') :=
  iff_alikeBy.mpr (.unary op (iff_alikeBy.mp h))

/-- Binary nodes are alike when both operands are. -/
theorem binary (op : BinaryOp) (ha : Alike m op.isAssignment a a') (hb : Alike m false b b') :
    Alike m t (.binary ty op a b) (.binary ty op a' b') :=
  iff_alikeBy.mpr (.binary op (iff_alikeBy.mp ha) (iff_alikeBy.mp hb))

/-- Calls are alike when their arguments are. -/
theorem call (callee : Callee) (h : AlikeArgs m es es') :
    Alike m t (.call ty callee es) (.call ty callee es') :=
  iff_alikeBy.mpr (.call callee (alikeArgsBy h))

/-- So are constructors. -/
theorem construct (h : AlikeArgs m es es') :
    Alike m t (.construct ty es) (.construct ty es') :=
  iff_alikeBy.mpr (.construct (alikeArgsBy h))

/-- Choices are alike when their conditions and their arms are. -/
theorem ternary (hc : Alike m false c c') (ha : Alike m t a a') (hb : Alike m t b b') :
    Alike m t (.ternary ty c a b) (.ternary ty c' a' b') :=
  iff_alikeBy.mpr (.ternary (iff_alikeBy.mp hc) (iff_alikeBy.mp ha) (iff_alikeBy.mp hb))

/-- Swizzles are alike when their bases are. -/
theorem swizzle (mask : Mask) (h : Alike m t e e') :
    Alike m t (.swizzle ty e mask) (.swizzle ty e' mask) :=
  iff_alikeBy.mpr (.swizzle mask (iff_alikeBy.mp h))

/-- Indexed expressions are alike when their bases and positions are. -/
theorem index (h : Alike m t e e') (hp : Alike m false a a') :
    Alike m t (.index ty e a) (.index ty e' a') :=
  iff_alikeBy.mpr (.index (iff_alikeBy.mp h) (iff_alikeBy.mp hp))

/-- Groups are alike when their insides are. -/
theorem group (h : Alike m t e e') : Alike m t (.group ty e) (.group ty e') :=
  iff_alikeBy.mpr (.group (iff_alikeBy.mp h))

/-- Expressions that stand for the same cells can take each other's place everywhere. -/
theorem anywhere (h : Alike m true e e') (t : Bool) : Alike m t e e' :=
  .of_eval h.ty_eq (h.eval_eq rfl)

/-- A node over children that stand for the same cells. -/
theorem withChildren {cs : List Expr} (h : List.Forall₂ (Alike m true) e.children cs) :
    Alike m true e (e.withChildren cs) := by
  -- Only on the path to cells have children to stand for the same ones; elsewhere values are
  -- enough.
  cases e with
  | literal | var | builtin =>
    cases h
    exact .refl _
  | unary ty op operand =>
    obtain _ | ⟨hoperand, _ | _⟩ := h
    exact .unary op (hoperand.anywhere _)
  | binary ty op left right =>
    obtain _ | ⟨hleft, _ | ⟨hright, _ | _⟩⟩ := h
    exact .binary op (hleft.anywhere _) (hright.anywhere _)
  | ternary ty cond ifTrue ifFalse =>
    obtain _ | ⟨hcond, _ | ⟨htrue, _ | ⟨hfalse, _ | _⟩⟩⟩ := h
    exact .ternary (hcond.anywhere _) htrue hfalse
  | call ty callee args => exact .call callee (h.imp fun _ _ hc => hc.anywhere _)
  | construct ty args => exact .construct (h.imp fun _ _ hc => hc.anywhere _)
  | swizzle ty base mask =>
    obtain _ | ⟨hbase, _ | _⟩ := h
    exact .swizzle mask hbase
  | index ty base position =>
    obtain _ | ⟨hbase, _ | ⟨hposition, _ | _⟩⟩ := h
    exact .index hbase (hposition.anywhere _)
  | group ty inner =>
    obtain _ | ⟨hinner, _ | _⟩ := h
    exact .group hinner

/-! ### Values of a choice and of a swizzle -/

/-- The values of a choice: its condition first, then the chosen arm. -/
theorem values_ternary (m : Machine α) (ty : Ty) (c a b : Expr) :
    (Expr.ternary ty c a b).values m = c.values m >>= fun vs =>
      (fun xs => xs.takeD ty.laneCount m.undefined) <$>
        if m.holds vs then a.values m else b.values m := by
  simp only [← valuesBy_plain m]
  exact AlikeBy.valuesBy_ternary c a b

/-- The values of a swizzle: those of its base, picked by the mask. -/
theorem values_swizzle (m : Machine α) (ty : Ty) (e : Expr) (mask : Mask) :
    (Expr.swizzle ty e mask).values m =
      (fun vs => (mask.map (m.pick e.ty.componentKind vs)).takeD ty.laneCount m.undefined) <$>
        e.values m := by
  simp only [← valuesBy_plain m]
  exact AlikeBy.valuesBy_swizzle e mask

end Alike

/-! ### Nodes that stand for no variable -/

/-- The components of what a node computes belong to no variable, so its value is all there is. -/
def IsBare (m : Machine α) (e : Expr) : Prop := m.temporaries e.ty <$> e.values m = e.eval m

/-- A temporary is taken for as many values as its type has lanes. -/
theorem temporaries_takeD (m : Machine α) (ty : Ty) (vs : List α) :
    m.temporaries ty (vs.takeD ty.laneCount m.undefined) = m.temporaries ty vs := by
  rw [Machine.temporaries, Machine.temporaries, takeD_of_length _ (List.takeD_length ..)]

/-- A call of an intrinsic is no target. -/
theorem isBare_intrinsic (m : Machine α) (ty : Ty) (f : Intrinsic) (args : List Expr) :
    IsBare m (.call ty (.intrinsic f) args) := by
  have hty : (call ty (.intrinsic f) args).ty = ty := rfl
  simp [IsBare, hty, values, eval, temporaries_takeD]

/-- Neither is a binary operation. -/
theorem isBare_binary (m : Machine α) (ty : Ty) (op : BinaryOp) (a b : Expr) :
    IsBare m (.binary ty op a b) := by
  have hty : (binary ty op a b).ty = ty := rfl
  simp only [IsBare, hty, values, eval]
  split
  · simp [map_bind, temporaries_takeD]
  · simp only [map_bind, bind_map_left]
    refine bind_congr fun ls => ?_
    split <;> simp [temporaries_takeD]

/-- A group is none when its inside is none. -/
theorem IsBare.group {e : Expr} (h : e.IsBare m) : (ofGroup e).IsBare m := by
  have hvalues : (ofGroup e).values m = e.values m := by
    show Lane.values <$> m.fit e.ty <$> e.eval m = _
    rw [fit_eval]
    rfl
  have heval : (ofGroup e).eval m = e.eval m := e.fit_eval m
  rw [IsBare, hvalues, heval]
  exact h

/-- Of nodes that stand for no variable, values are enough. -/
theorem Alike.of_bare {e e' : Expr} (hty : e'.ty = e.ty) (hbare : e.IsBare m)
    (hbare' : e'.IsBare m) (h : e'.values m = e.values m) : Alike m t e e' :=
  .of_eval hty (by rw [← hbare', ← hbare, h, hty])

end ShaderGen.Expr
