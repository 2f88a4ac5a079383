import ShaderGen.Legalize.AtanOperand
import ShaderGen.Legalize.ConstantPow
import ShaderGen.Proofs.Legalize.RetracedProgram
import ShaderGen.Proofs.Semantics.Lanewise
import ShaderGen.Proofs.Typing.Shapes

/-!
# Powers and negations in other words

A power with a constant exponent and a negated operand of `atan` are spelled with other functions of
numbers. Where the scalar functions agree the values do, lane by lane, and the operands are
evaluated as they were: the exponent now comes before the base, but it is a constant.

## Main definitions

- `Expr.isLaneTyped`: a node whose operands have the types that rules for numbers rely on
- `Expr.Restates`: an expression that computes the same as another, and can be rebuilt further

## Key results

- `Expr.bottomUpM_restates`: a walk restates an expression if it restates each node
- `Legalize.ConstantPow.legalize_retraces`, `Legalize.AtanOperand.legalize_retraces`: the program
  does what it did
-/

namespace ShaderGen

open List (Forall₂)

variable {α : Type}

namespace Expr

/-! ### Types of operands -/

/-- Whether the operands of a node go together with its type, as the language asks for: a negation
    keeps the shape, and functions of numbers take scalars and vectors of one shape. -/
def isLaneTyped : Expr → Bool
  | .unary ty .neg x => ty.shape == x.ty.shape
  | .call ty (.intrinsic .pow) [base, exponent] => base.ty.isLanes .float &&
    (exponent.ty.shape == base.ty.shape && ty.shape == base.ty.shape)
  | .call ty (.intrinsic .fract) [x] => x.ty.isLanes .float && ty.shape == x.ty.shape
  | .call ty (.intrinsic .abs) [x] =>
    (x.ty.isLanes .float || x.ty.isLanes .int) && ty.shape == x.ty.shape
  | .call _ (.intrinsic .abs) _ => false
  | .call _ (.intrinsic .atan) [_, x] => x.ty.isLanes .float
  | _ => true

/-- A unary node stays typed by lanes when its operand takes a type of the same shape. -/
theorem isLaneTyped_unary {ty : Ty} {op : UnaryOp} {x x' : Expr} (h : x.ty.Twin x'.ty) :
    (unary ty op x').isLaneTyped = (unary ty op x).isLaneTyped := by
  have hshape : x.ty.shape = x'.ty.shape := h
  cases op <;> simp only [isLaneTyped, hshape]

/-- So does a call of an intrinsic when its arguments do. -/
theorem isLaneTyped_intrinsic {ty : Ty} {f : Intrinsic} {args cs : List Expr}
    (h : Forall₂ (fun c c' : Expr => c.ty.Twin c'.ty) args cs) :
    (call ty (.intrinsic f) cs).isLaneTyped = (call ty (.intrinsic f) args).isLaneTyped := by
  have hlanes {c c' : Expr} (hc : c.ty.Twin c'.ty) (kind : ScalarKind) :
      c'.ty.isLanes kind = c.ty.isLanes kind := by
    rw [Ty.isLanes, Ty.isLanes, show c.ty.shape = c'.ty.shape from hc]
  have hshape {c c' : Expr} (hc : c.ty.Twin c'.ty) : c'.ty.shape = c.ty.shape := hc.symm
  -- No function looks at more than two operands.
  obtain _ | ⟨ha, _ | ⟨hb, _ | _⟩⟩ := h <;> cases f <;>
    first | rfl | simp only [isLaneTyped, hlanes ha, hlanes hb, hshape ha, hshape hb] |
      simp only [isLaneTyped, hlanes ha, hshape ha]

/-- Being typed by lanes is read off a node and the types of its children. -/
theorem isLocal_isLaneTyped : IsLocal isLaneTyped := by
  intro e cs hcs
  -- Only negations and intrinsics ask something of their operands.
  cases e with
  | unary ty op operand =>
    obtain _ | ⟨hx, _ | _⟩ := hcs
    exact isLaneTyped_unary hx
  | call ty callee args =>
    cases callee with
    | user name => rfl
    | intrinsic f => exact isLaneTyped_intrinsic hcs
  | _ => unfold withChildren; split <;> first | rfl | simp_all

/-! ### Walks -/

variable {m : Machine α} {ops : ScalarOps α} {e e' : Expr}

/-- The second expression computes what the first does, whatever functions of the program there are,
    and its type fits its operands. -/
structure Restates (m : Machine α) (e e' : Expr) : Prop where
  typed : e'.isLaneTyped = true
  alike : ∀ call, Alike (m.withCalls call) true e e'

/-- An expression typed by lanes restates itself. -/
theorem Restates.self (h : e.isLaneTyped = true) : Restates m e e := ⟨h, fun _ => .refl e⟩

section

variable {M : Type → Type} [Monad M] [LawfulMonad M]

/-- A walk that restates each node restates an expression. When it comes to a node, the types of the
    operands have not changed. -/
theorem bottomUpM_restates (J : Judgement M) {f : Expr → M Expr}
    (hf : ∀ e, e.isLaneTyped = true → (∀ c ∈ e.children, c.isLaneTyped = true) →
      J.Holds (Restates m e) (f e))
    {e : Expr} (he : e.Every isLaneTyped) : J.Holds (Restates m e) (e.bottomUpM f) := by
  induction e using induction_children with
  | h e ih =>
    rw [bottomUpM_eq]
    refine J.bind (J.mapM fun c hc => ih c hc (he.child hc)) fun cs hcs => ?_
    -- The children keep their shapes, so the node stays well typed when they are put in.
    have hshapes : Forall₂ (fun c c' : Expr => c.ty.Twin c'.ty) e.children cs :=
      hcs.imp fun c c' h => congrArg Ty.shape (h.alike m.call).ty_eq.symm
    have hnode := (isLocal_isLaneTyped e cs hshapes).trans he.node
    refine J.mono (hf (e.withChildren cs) hnode fun c' hc' => ?_) fun e' h => ⟨h.typed, fun call =>
      (Alike.withChildren (hcs.imp fun c c' hc => hc.alike call)).trans (h.alike call)⟩
    obtain ⟨c, -, hc⟩ := exists_related_child hcs c' hc'
    exact hc.typed

end

/-- When nothing is added, nothing refers to something added. -/
theorem any_refersTo_none (e : Expr) : e.any (refersTo fun _ => false) = false := by
  induction e using induction_children with
  | h e ih =>
    refine any_eq_false_iff.mpr ⟨?_, ih⟩
    unfold refersTo
    split <;> rfl

/-- What restates an expression takes its place, without helpers and without added names. -/
theorem Restates.traced (h : Restates m e e') : e.Traced (fun _ => false) [] m [] e' :=
  .trans_alike (fun _ _ hm _ => tracks_self hm e.any_refersTo_none) h.alike

/-! ### Constants -/

/-- A constant has its value from the start. -/
theorem eval_of_isConstant (m : Machine α) (e : Expr) :
    e.isConstant = true → ∃ ls, e.eval m = pure ls := by
  -- A constant is a literal under negations, groups and constructors, and none of these touches the
  -- state.
  induction e with
  | literal ty value => exact fun _ => ⟨_, rfl⟩
  | unary ty op operand ih =>
    intro h
    cases op with
    | neg =>
      obtain ⟨ls, hls⟩ := ih h
      simp only [eval, hls, UnaryOp.writesOperand]
      exact ⟨_, rfl⟩
    | _ => cases h
  | construct ty args ih =>
    intro h
    have hall : ∀ arg ∈ args, arg.isConstant = true := by
      rwa [isConstant, allConstant_eq_all, List.all_eq_true] at h
    have hargs : ∃ vs, evalArgs m args = pure vs := by
      clear h
      induction args with
      | nil => exact ⟨[], rfl⟩
      | cons arg args ihargs =>
        obtain ⟨ls, hls⟩ := ih arg List.mem_cons_self (hall arg List.mem_cons_self)
        obtain ⟨vs, hvs⟩ := ihargs (fun a ha => ih a (List.mem_cons_of_mem _ ha))
          fun a ha => hall a (List.mem_cons_of_mem _ ha)
        exact ⟨_, by simp [evalArgs, hls, hvs]; rfl⟩
    obtain ⟨vs, hvs⟩ := hargs
    exact ⟨_, by simp [eval, hvs]; rfl⟩
  | group ty inner ih =>
    intro h
    obtain ⟨ls, hls⟩ := ih h
    exact ⟨_, by simp [eval, hls]; rfl⟩
  | _ =>
    intro h
    cases h

end Expr

namespace Legalize

open ShaderGen.Expr

variable {m : Machine α} {ops : ScalarOps α} {p : Program}

/-! ### Powers with constant exponents -/

/-- The scalar identity behind the powers: `pow(b, k) = exp2(k * log2(b))`. -/
def ConstantPow.Identity (ops : ScalarOps α) : Prop :=
  ∀ b k, ops.power b k =
    ops.function .exp2 .float (ops.binary .mul .float k (ops.function .log2 .float b))

namespace ConstantPow

/-- The expansion of a power with a constant exponent. -/
theorem values_expanded (hm : m.Lanewise ops) (h : Identity ops) {ty : Ty} {base exponent : Expr}
    (hbase : base.ty.isLanes .float = true) (hexponent : exponent.ty.shape = base.ty.shape)
    (hty : ty.shape = base.ty.shape) (hconst : exponent.isConstant = true) :
    ((ofCall .exp2 [ofBinary .mul exponent (ofCall .log2 [base])]).withTy ty).values m =
      (call ty (.intrinsic .pow) [base, exponent]).values m := by
  -- The expansion evaluates the exponent before the base. It is a constant, so this cannot be seen.
  obtain ⟨ls, hls⟩ := eval_of_isConstant m exponent hconst
  have hvalue : exponent.values m = pure (Lane.values ls) := by
    rw [values, hls, map_pure]
  have hlogTy : (ofCall .log2 [base]).ty = base.ty :=
    Intrinsic.resultTy_of_isLanewise (f := .log2) rfl base.ty
  have hlog : (ofCall .log2 [base]).values m =
      List.map (ops.function .log2 .float) <$> base.values m :=
    values_function hm rfl hbase (congrArg Ty.shape hlogTy)
  have hlanes : exponent.ty.isLanes .float = true := Ty.isLanes_of_shape hbase hexponent
  have hlogShape : (ofCall .log2 [base]).ty.shape = exponent.ty.shape := by
    rw [hlogTy, hexponent]
  have hproductShape : (ofBinary .mul exponent (ofCall .log2 [base])).ty.shape =
      exponent.ty.shape := Ty.shape_resultTy_of_shape (.inr rfl) hlanes hlogShape
  have hproduct : (ofBinary .mul exponent (ofCall .log2 [base])).values m = _ :=
    values_lanes hm (.inr rfl) hlanes hlogShape hproductShape
  have hpower := values_function hm (f := .exp2) rfl (Ty.isLanes_of_shape hlanes hproductShape)
    (hty.trans (hexponent.symm.trans hproductShape.symm))
  show (call ty (.intrinsic .exp2) [ofBinary .mul exponent (ofCall .log2 [base])]).values m = _
  rw [hpower, hproduct, hlog, hvalue, values_power hm hbase hexponent hty, hvalue]
  simp only [pure_bind, map_bind, map_pure, bind_map_left]
  refine bind_congr fun bs => congrArg pure ?_
  -- The identity is used lane by lane.
  rw [List.map_zipWith, List.zipWith_map_right, List.zipWith_comm]
  exact congrArg (List.zipWith · bs _) (funext fun b => funext fun k => (h b k).symm)

/-- Where the exponent is a constant, the expanded power has the value of the power; any other node
is left as it is. -/
theorem expandNode_restates (hm : m.Lanewise ops) (h : Identity ops) {e : Expr}
    (he : e.isLaneTyped = true) : Yields (Restates m e) (expandNode e) := by
  unfold expandNode
  split
  · next ty base exponent =>
    split
    · next hconst =>
      obtain ⟨hbase, hexponent, hty⟩ : base.ty.isLanes .float = true ∧
          exponent.ty.shape = base.ty.shape ∧ ty.shape = base.ty.shape := by
        simpa [isLaneTyped] using he
      -- Neither call stands for a variable, so only the values are compared.
      refine .pure ⟨rfl, fun call => .of_bare rfl ?_ ?_ ?_⟩
      · exact isBare_intrinsic _ ty .pow [base, exponent]
      · exact isBare_intrinsic _ ty .exp2 _
      · exact values_expanded (hm.withCalls call) h hbase hexponent hty hconst
    · exact .pure (.self he)
  · exact .error _
  · exact .pure (.self he)

/-- A program that expands its constant powers can be traced back to the one it was made from. -/
theorem legalize_retraces (hm : m.Lanewise ops) (h : Identity ops)
    (htyped : p.All fun e => e.Every isLaneTyped) {p' : Program} (hrun : legalize p = .ok p') :
    p.Retraced (fun _ => false) [] m p' := by
  have hwalk : Yields (fun p' => p'.stage = p.stage ∧
      Forall₂ (Element.Mirrors (Traced (fun _ => false) [] m [])) p.elements p'.elements)
      (legalize p) := by
    -- Each expression is walked on its own, and nothing is declared.
    refine Program.mapExprsM_mirrors Judgement.yields.verdict (fun e he => ?_) htyped
    have hrestated := bottomUpM_restates (m := m) .yields
      (fun e hnode _ => expandNode_restates hm h hnode) he
    exact hrestated.mono fun e' h => h.traced
  obtain ⟨hstage, hmirrors⟩ := hwalk.of_ok hrun
  exact .of_mirrors hstage hmirrors

end ConstantPow

/-! ### Negated operands of `atan` -/

/-- The scalar identity behind the operands of `atan`: `-x = -1.0 * x`. -/
def AtanOperand.Identity (ops : ScalarOps α) (minusOne : α) : Prop :=
  ∀ x, ops.negate .float x = ops.binary .mul .float minusOne x

namespace AtanOperand

/-- A multiplication by minus one is like the negation. -/
theorem alike_multiply (hm : m.Lanewise ops)
    (h : Identity ops (m.literal (.float .minusOne))) {ty : Ty} {x : Expr}
    (hx : x.ty.isLanes .float = true) (hty : ty.shape = x.ty.shape) :
    Alike m false (.unary ty .neg x) (multiply ty x) := by
  refine .of_values (ty_withTy _ _) ?_
  have hproduct := ((Maps.self m x).scaledTo hm hx (.inr rfl) .minusOne hty).values
  rw [values_negated hm hx hty]
  refine hproduct.trans ?_
  exact congrArg (List.map · <$> x.values m) (funext fun a => (h a).symm)

/-- Only the second operand of an arc tangent is rewritten, and it keeps its value. -/
theorem multiplyNode_restates (hm : m.Lanewise ops)
    (h : Identity ops (m.literal (.float .minusOne))) {e : Expr} (he : e.isLaneTyped = true)
    (hchildren : ∀ c ∈ e.children, c.isLaneTyped = true) :
    Restates m e (multiplyNode e) := by
  unfold multiplyNode
  split
  · next ty y xTy x =>
    split
    · -- The negation has the lanes of its operand.
      have hshape : xTy.shape = x.ty.shape := by
        simpa [isLaneTyped] using hchildren (.unary xTy .neg x) (by simp [children])
      have hlanes : xTy.isLanes .float = true := he
      have hx : x.ty.isLanes .float = true := Ty.isLanes_of_shape hlanes hshape.symm
      refine ⟨?_, fun call => ?_⟩
      · show (multiply xTy x).ty.isLanes .float = true
        rwa [multiply, ty_withTy]
      · exact .call _ (.cons (.refl y)
          (.cons (alike_multiply (hm.withCalls call) h hx hshape) .nil))
    · exact .self he
  · exact .self he

/-- A program that multiplies by minus one can be traced back to the one it was made from. -/
theorem legalize_retraces (hm : m.Lanewise ops)
    (h : Identity ops (m.literal (.float .minusOne)))
    (htyped : p.All fun e => e.Every isLaneTyped) :
    p.Retraced (fun _ => false) [] m (legalize p) := by
  have hmirrors : Forall₂ (Element.Mirrors (Traced (fun _ => false) [] m [])) p.elements
      (legalize p).elements := by
    refine Program.mapNodes_mirrors (htyped.mono fun e he => ?_)
    have hrestated := bottomUpM_restates (m := m) (M := Id) .yields
      (fun e hnode hchildren => .pure (multiplyNode_restates hm h hnode hchildren)) he
    exact hrestated.of_id.traced
  exact .of_mirrors rfl hmirrors

end AtanOperand

end Legalize

end ShaderGen
