import ShaderGen.Expr.Basic

/-! # Walking over an expression

`Expr.bottomUpM` rebuilds an expression from its leaves: the children of a node are rebuilt first,
from left to right, and the node over the new children is handed to the given function. What the
function puts in its place is not visited again. `Expr.any` looks for a node that satisfies a
predicate. -/

namespace ShaderGen.Expr

mutual
/-- Rebuilds every node, children before parents. -/
def bottomUpM {m : Type → Type} [Monad m] (f : Expr → m Expr) : Expr → m Expr
  | .literal ty value => f (.literal ty value)
  | .var ty name => f (.var ty name)
  | .builtin ty which => f (.builtin ty which)
  | .unary ty op operand => do
    let operand ← operand.bottomUpM f
    f (.unary ty op operand)
  | .binary ty op left right => do
    let left ← left.bottomUpM f
    let right ← right.bottomUpM f
    f (.binary ty op left right)
  | .ternary ty cond ifTrue ifFalse => do
    let cond ← cond.bottomUpM f
    let ifTrue ← ifTrue.bottomUpM f
    let ifFalse ← ifFalse.bottomUpM f
    f (.ternary ty cond ifTrue ifFalse)
  | .call ty callee args => do
    let args ← bottomUpListM f args
    f (.call ty callee args)
  | .swizzle ty base mask => do
    let base ← base.bottomUpM f
    f (.swizzle ty base mask)
  | .index ty base position => do
    let base ← base.bottomUpM f
    let position ← position.bottomUpM f
    f (.index ty base position)
  | .construct ty args => do
    let args ← bottomUpListM f args
    f (.construct ty args)
  | .group ty inner => do
    let inner ← inner.bottomUpM f
    f (.group ty inner)

/-- Rebuilds several expressions, from left to right. -/
def bottomUpListM {m : Type → Type} [Monad m] (f : Expr → m Expr) : List Expr → m (List Expr)
  | [] => pure []
  | e :: es => do
    let e ← e.bottomUpM f
    let es ← bottomUpListM f es
    pure (e :: es)
end

/-- Rebuilds every node with a function that has no effects. -/
def bottomUp (f : Expr → Expr) (e : Expr) : Expr :=
  Id.run (e.bottomUpM fun node => pure (f node))

mutual
/-- Whether some node satisfies a predicate. -/
def any (p : Expr → Bool) : Expr → Bool
  | e@(.literal _ _) | e@(.var _ _) | e@(.builtin _ _) => p e
  | e@(.unary _ _ operand) => p e || operand.any p
  | e@(.binary _ _ left right) => p e || left.any p || right.any p
  | e@(.ternary _ cond ifTrue ifFalse) => p e || cond.any p || ifTrue.any p || ifFalse.any p
  | e@(.call _ _ args) => p e || anyList p args
  | e@(.swizzle _ base _) => p e || base.any p
  | e@(.index _ base position) => p e || base.any p || position.any p
  | e@(.construct _ args) => p e || anyList p args
  | e@(.group _ inner) => p e || inner.any p

/-- Whether some node of several expressions satisfies a predicate. -/
def anyList (p : Expr → Bool) : List Expr → Bool
  | [] => false
  | e :: es => e.any p || anyList p es
end

/-! ### `bottomUp`, node by node -/

section

variable (f : Expr → Expr) (ty : Ty)

/-- Leaves are given to the map as they are. -/
@[simp] theorem bottomUp_literal (value : Literal) :
    (literal ty value).bottomUp f = f (.literal ty value) := rfl

@[simp] theorem bottomUp_var (name : String) : (var ty name).bottomUp f = f (.var ty name) := rfl

@[simp] theorem bottomUp_builtin (which : Builtin) :
    (builtin ty which).bottomUp f = f (.builtin ty which) := rfl

/-- A node is given to the map after its children are mapped. -/
@[simp] theorem bottomUp_unary (op : UnaryOp) (e : Expr) :
    (unary ty op e).bottomUp f = f (.unary ty op (e.bottomUp f)) := rfl

@[simp] theorem bottomUp_binary (op : BinaryOp) (l r : Expr) :
    (binary ty op l r).bottomUp f = f (.binary ty op (l.bottomUp f) (r.bottomUp f)) := rfl

@[simp] theorem bottomUp_ternary (c a b : Expr) :
    (ternary ty c a b).bottomUp f =
      f (.ternary ty (c.bottomUp f) (a.bottomUp f) (b.bottomUp f)) := rfl

@[simp] theorem bottomUp_swizzle (base : Expr) (mask : Mask) :
    (swizzle ty base mask).bottomUp f = f (.swizzle ty (base.bottomUp f) mask) := rfl

@[simp] theorem bottomUp_index (base position : Expr) :
    (index ty base position).bottomUp f =
      f (.index ty (base.bottomUp f) (position.bottomUp f)) := rfl

@[simp] theorem bottomUp_group (inner : Expr) :
    (group ty inner).bottomUp f = f (.group ty (inner.bottomUp f)) := rfl

/-- A list is mapped member by member. -/
theorem bottomUpListM_pure (es : List Expr) :
    bottomUpListM (m := Id) (fun e => pure (f e)) es = es.map (bottomUp f) := by
  induction es with
  | nil => rfl
  | cons e es ih => exact congrArg (e.bottomUp f :: ·) ih

@[simp] theorem bottomUp_call (callee : Callee) (args : List Expr) :
    (call ty callee args).bottomUp f = f (.call ty callee (args.map (bottomUp f))) :=
  congrArg (fun es => f (.call ty callee es)) (bottomUpListM_pure f args)

@[simp] theorem bottomUp_construct (args : List Expr) :
    (construct ty args).bottomUp f = f (.construct ty (args.map (bottomUp f))) :=
  congrArg (fun es => f (.construct ty es)) (bottomUpListM_pure f args)

end

/-! ### Lists of expressions -/

/-- A list is walked member by member. -/
theorem bottomUpListM_eq_mapM {m : Type → Type} [Monad m] [LawfulMonad m] (f : Expr → m Expr)
    (es : List Expr) : bottomUpListM f es = es.mapM (bottomUpM f) := by
  induction es with
  | nil => simp [bottomUpListM]
  | cons e es ih => simp [bottomUpListM, ih]

/-- A search of a list finds what a member has. -/
theorem anyList_eq_any (p : Expr → Bool) (es : List Expr) : anyList p es = es.any (any p) := by
  induction es with
  | nil => rfl
  | cons e es ih => simp [anyList, ih]

end ShaderGen.Expr
