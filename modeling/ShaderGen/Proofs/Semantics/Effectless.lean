import ShaderGen.Proofs.Semantics.Alike
import ShaderGen.Proofs.Semantics.Congruence

/-!
# Expressions without side effects

An expression without side effects gives its value and does nothing else: no state is changed and no
function of the program is called. So it does not matter how often it is evaluated, and in a larger
expression (a `Context`, with the place that is looked at left open) it can be evaluated once more,
left out, or given way to any other expression without side effects that has its value.

## Main definitions

- `Expr.Frame`, `Expr.Context`: a larger expression around a place
- `Expr.Context.writes`: whether the larger expression writes to the place

## Key results

- `Expr.Context.alike`: expressions that are alike are alike inside a larger one
- `Expr.eval_withCalls`: without side effects the functions of the program do not matter
- `Expr.effectless_anywhere`: what can be seen of an expression without side effects
-/

namespace ShaderGen

variable {α β : Type}

namespace Eval

variable {x y : Eval α β}

/-- Of computations that only read, nothing but the results can be told apart. -/
theorem IsReadOnly.ext (hx : IsReadOnly x) (hy : IsReadOnly y)
    (h : ∀ σ, (x.run.run σ).map Prod.fst = (y.run.run σ).map Prod.fst) : x = y := by
  refine ExceptT.ext (StateT.ext fun σ => ?_)
  obtain ⟨a, ha⟩ := hx σ
  obtain ⟨b, hb⟩ := hy σ
  have hab := h σ
  rw [ha, hb] at hab ⊢
  rw [show (.ok a : Except Discarded β) = .ok b from Option.some.inj hab]

end Eval

namespace Expr

/-! ### Larger expressions -/

/-- A node with a place for one of its children. -/
inductive Frame where
  | operand (ty : Ty) (op : UnaryOp)
  | leftOperand (ty : Ty) (op : BinaryOp) (right : Expr)
  | rightOperand (ty : Ty) (op : BinaryOp) (left : Expr)
  | condition (ty : Ty) (ifTrue ifFalse : Expr)
  | trueArm (ty : Ty) (cond ifFalse : Expr)
  | falseArm (ty : Ty) (cond ifTrue : Expr)
  | callArg (ty : Ty) (callee : Callee) (before after : List Expr)
  | constructArg (ty : Ty) (before after : List Expr)
  | swizzled (ty : Ty) (mask : Mask)
  | indexed (ty : Ty) (position : Expr)
  | index (ty : Ty) (base : Expr)
  | grouped (ty : Ty)

namespace Frame

/-- The node with an expression at its place. -/
def fill : Frame → Expr → Expr
  | .operand ty op, e => .unary ty op e
  | .leftOperand ty op right, e => .binary ty op e right
  | .rightOperand ty op left, e => .binary ty op left e
  | .condition ty ifTrue ifFalse, e => .ternary ty e ifTrue ifFalse
  | .trueArm ty cond ifFalse, e => .ternary ty cond e ifFalse
  | .falseArm ty cond ifTrue, e => .ternary ty cond ifTrue e
  | .callArg ty callee before after, e => .call ty callee (before ++ e :: after)
  | .constructArg ty before after, e => .construct ty (before ++ e :: after)
  | .swizzled ty mask, e => .swizzle ty e mask
  | .indexed ty position, e => .index ty e position
  | .index ty base, e => .index ty base e
  | .grouped ty, e => .group ty e

/-- Whether the place is written to, if the node itself is (`target`) or is not. -/
def writes (target : Bool) : Frame → Bool
  | .operand _ op => op.writesOperand
  | .leftOperand _ op _ => op.isAssignment
  | .trueArm .. | .falseArm .. | .swizzled .. | .indexed .. | .grouped _ => target
  | .rightOperand .. | .condition .. | .callArg .. | .constructArg .. | .index .. => false

/-- A node over children that are alike. -/
theorem alike {m : Machine α} {target : Bool} {e e' : Expr} (f : Frame)
    (h : Alike m (f.writes target) e e') : Alike m target (f.fill e) (f.fill e') := by
  -- An argument is one of a list; the ones beside it are alike to themselves.
  have hargs (before after : List Expr) (he : Alike m false e e') :
      AlikeArgs m (before ++ e :: after) (before ++ e' :: after) :=
    List.rel_append (List.forall₂_same.mpr fun a _ => .refl a)
      (.cons he (List.forall₂_same.mpr fun a _ => .refl a))
  cases f with
  | operand ty op => exact .unary op h
  | leftOperand ty op right => exact .binary op h (.refl _)
  | rightOperand ty op left => exact .binary op (.refl _) h
  | condition => exact .ternary h (.refl _) (.refl _)
  | trueArm => exact .ternary (.refl _) h (.refl _)
  | falseArm => exact .ternary (.refl _) (.refl _) h
  | callArg ty callee before after => exact .call callee (hargs before after h)
  | constructArg ty before after => exact .construct (hargs before after h)
  | swizzled ty mask => exact .swizzle mask h
  | indexed => exact Alike.index h (.refl _)
  | index => exact Alike.index (.refl _) h
  | grouped => exact .group h

end Frame

/-- A larger expression with a place somewhere in it: the nodes around the place, from the outermost
    one on. -/
abbrev Context := List Frame

namespace Context

/-- The larger expression with an expression at its place. -/
def fill (C : Context) (e : Expr) : Expr := C.foldr Frame.fill e

/-- Whether the larger expression writes to its place, if it is itself written to or is not. -/
def writes (target : Bool) (C : Context) : Bool := C.foldl Frame.writes target

/-- Expressions that are alike are so inside a larger expression. -/
theorem alike {m : Machine α} {target : Bool} {e e' : Expr} (C : Context)
    (h : Alike m (C.writes target) e e') : Alike m target (C.fill e) (C.fill e') := by
  induction C generalizing target with
  | nil => exact h
  | cons f C ih => exact f.alike (ih h)

end Context

/-! ### Without side effects -/

/-- Arguments that do not look at the callees are evaluated alike under any callees. -/
theorem evalArgs_withCalls {m : Machine α}
    {call : String → List (Ty × List α) → (Variable → Nat → α) → Option (Reply α)} {es : List Expr}
    (h : ∀ e ∈ es, e.eval (m.withCalls call) = e.eval m) :
    evalArgs (m.withCalls call) es = evalArgs m es := by
  induction es with
  | nil => rfl
  | cons e es ih =>
    obtain ⟨he, hes⟩ := List.forall_mem_cons.mp h
    rw [evalArgs, evalArgs, he, ih hes]

/-- Without side effects the functions of the program do not matter: none is called. -/
theorem eval_withCalls (m : Machine α)
    (call : String → List (Ty × List α) → (Variable → Nat → α) → Option (Reply α)) (e : Expr) :
    e.hasSideEffects = false → e.eval (m.withCalls call) = e.eval m := by
  -- Only a call looks a function up, and a call of a function of the program counts as a side
  -- effect.
  induction e with
  | literal | var | builtin => exact fun _ => rfl
  | unary ty op operand ih =>
    intro h
    simp only [hasSideEffects, Bool.or_eq_false_iff] at h
    simp only [eval, ih h.2]
    rfl
  | binary ty op left right ihl ihr =>
    intro h
    simp only [hasSideEffects, Bool.or_eq_false_iff] at h
    simp only [eval, ihl h.1.2, ihr h.2]
    rfl
  | ternary ty cond ifTrue ifFalse ihc iht ihf =>
    intro h
    simp only [hasSideEffects, Bool.or_eq_false_iff] at h
    simp only [eval, ihc h.1.1, iht h.1.2, ihf h.2]
    rfl
  -- A user call is ruled out, and an intrinsic only depends on its arguments.
  | call ty callee args ih =>
    intro h
    cases callee with
    | user name => simp [hasSideEffects] at h
    | intrinsic function =>
      simp only [hasSideEffects, anySideEffects_eq_any, List.any_eq_false, Bool.not_eq_true] at h
      simp only [eval, evalArgs_withCalls fun e he => ih e he (h e he)]
      rfl
  | swizzle ty base mask ih =>
    intro h
    -- Indexing and selecting evaluate their base as it was.
    simp only [eval, ih h]
    rfl
  | index ty base position ihb ihp =>
    intro h
    simp only [hasSideEffects, Bool.or_eq_false_iff] at h
    simp only [eval, ihb h.1, ihp h.2]
    rfl
  | construct ty args ih =>
    intro h
    simp only [hasSideEffects, anySideEffects_eq_any, List.any_eq_false, Bool.not_eq_true] at h
    simp only [eval, evalArgs_withCalls fun e he => ih e he (h e he)]
    rfl
  | group ty inner ih =>
    intro h
    simp only [eval, ih h]
    rfl

variable {m : Machine α} {e f : Expr}

/-- A comma after something without side effects is its second operand. -/
theorem alike_comma (h : e.hasSideEffects = false) (f : Expr) :
    Alike m false f (ofBinary .comma e f) := by
  refine .of_values rfl ?_
  rw [values_comma]
  exact (isReadOnly_eval m e h).map.bind_const _

/-- Expressions without side effects are alike if they have the same value. -/
theorem alike_of_value (he : e.hasSideEffects = false) (hf : f.hasSideEffects = false)
    (hty : f.ty = e.ty) (h : ∀ σ, (f.run m σ).map Prod.fst = (e.run m σ).map Prod.fst) :
    Alike m false e f :=
  .of_values hty ((isReadOnly_eval m f hf).map.ext (isReadOnly_eval m e he).map h)

/-- Expressions without side effects are alike, even where they are written to, if they stand for
    the same cells as well. -/
theorem alike_of_cells (he : e.hasSideEffects = false) (hf : f.hasSideEffects = false)
    (hty : f.ty = e.ty) (h : ∀ σ, (f.locate m σ).map Prod.fst = (e.locate m σ).map Prod.fst)
    (target : Bool) : Alike m target e f :=
  .of_eval hty ((isReadOnly_eval m f hf).ext (isReadOnly_eval m e he) h)

/-- What can be seen of an expression without side effects is its value: it leaves every state as it
    was, and does the same whatever the functions of the program do. Whether it is evaluated at all,
    or twice, is the same to what comes after it. And a larger expression gives the same value and
    leaves the same state if the expression is evaluated once more anywhere in it, or is replaced by
    another one without side effects, which may have it in several places or in none. -/
theorem effectless_anywhere (m : Machine α) (e : Expr) (he : e.hasSideEffects = false) :
    (∀ σ, ∃ ls, ∀ call, e.locate (m.withCalls call) σ = some (.ok ls, σ)) ∧
    (∀ {γ : Type} (k : Eval α γ), (e.eval m >>= fun _ => k) = k) ∧
    (∀ {γ : Type} (k : List (Lane α) → List (Lane α) → Eval α γ),
      (e.eval m >>= fun a => e.eval m >>= fun b => k a b) = e.eval m >>= fun a => k a a) ∧
    (∀ (C : Context) (f : Expr), C.writes false = false →
      ∀ σ, (C.fill (ofBinary .comma e f)).run m σ = (C.fill f).run m σ) ∧
    (∀ f : Expr, f.hasSideEffects = false → f.ty = e.ty →
      (∀ σ, (f.run m σ).map Prod.fst = (e.run m σ).map Prod.fst) →
        ∀ C : Context, C.writes false = false → ∀ σ, (C.fill f).run m σ = (C.fill e).run m σ) ∧
    (∀ f : Expr, f.hasSideEffects = false → f.ty = e.ty →
      (∀ σ, (f.locate m σ).map Prod.fst = (e.locate m σ).map Prod.fst) →
        ∀ (C : Context) σ, (C.fill f).run m σ = (C.fill e).run m σ) := by
  -- All parts rest on this: evaluation reads the state, and does not change it.
  have hreads := isReadOnly_eval m e he
  refine ⟨fun σ => ?_, hreads.bind_const, hreads.bind_self, fun C f hC σ => ?_,
    fun f hf hty hvalue C hC σ => ?_, fun f hf hty hcells C σ => ?_⟩
  · obtain ⟨ls, hls⟩ := hreads σ
    refine ⟨ls, fun call => ?_⟩
    rw [locate, eval_withCalls m call e he]
    exact hls
  · exact (C.alike (hC ▸ alike_comma he f)).run_eq σ
  · exact (C.alike (hC ▸ alike_of_value he hf hty hvalue)).run_eq σ
  · exact (C.alike (alike_of_cells he hf hty hcells (C.writes false))).run_eq σ

/-- A sum that is evaluated once more between an increment and the call of a function whose result
    is written. -/
theorem effectless_anywhere_sum :
    let e := ofBinary .add (.var .float "a") (.var .float "b")
    let C : Context := [.rightOperand .float .assign (.var .float "y"),
      .callArg .float (.user "g") [.unary .float .postIncrement (.var .float "a")] []]
    e.hasSideEffects = false ∧ C.writes false = false ∧
      ∀ σ, (C.fill (ofBinary .comma e e)).run Machine.integers σ =
        (C.fill e).run Machine.integers σ :=
  have he : (ofBinary .add (.var .float "a") (.var .float "b")).hasSideEffects = false := by decide
  ⟨he, rfl, (effectless_anywhere Machine.integers _ he).2.2.2.1 _ _ rfl⟩

end Expr

end ShaderGen
