import ShaderGen.Proofs.Precision.Twins
import ShaderGen.Proofs.Swizzle.Stable

/-!
# Shapes that fit together

Nothing forces the type on a node to fit its children. `Expr.isTyped` says when it does, as far as a
rule relies on it, and asks for shapes only, which is less than what the builders derive. A rule
that puts an expression in the place of a node keeps what surrounds it typed if the expression has
the shape of the node (`Expr.Becomes`).

## Key results

- `Expr.bottomUpM_becomes`: a walk keeps shapes, and turns one property of nodes into another, if
  what it does to each node does
-/

namespace ShaderGen

open List (Forall₂)

namespace Ty.Twin

variable {t t' : Ty}

/-- Twin types are both scalars or vectors, or neither is. -/
theorem isScalarOrVector (h : t.Twin t') : t.isScalarOrVector = t'.isScalarOrVector := by
  unfold Ty.isScalarOrVector
  rw [h]

/-- What is selected from twin types has twin types. -/
theorem selected (h : t.Twin t') (n : Nat) : (t.selected n).Twin (t'.selected n) :=
  withComponents h.componentKind n _ _

end Ty.Twin

namespace Expr

/-! ### What a node asks of its children -/

/-- Whether an operand has the shape of a result, or is a scalar of its kind. -/
def spreadsTo (ty : Ty) (arg : Expr) : Bool :=
  arg.ty.shape == ty.shape || arg.ty.shape == .scalar ty.componentKind

/-- Whether the type on a node has the shape that goes with its children: built-in variables have
    their own, `&&` and `||` take and give booleans, a choice is not looked at, a minimum is taken
    of values of one shape or of scalars along with them, and a swizzle of a scalar or a short
    vector selects as many components as its mask is long. -/
def agrees : Expr → Bool
  | .builtin ty which => ty.shape == which.ty.shape
  | .binary ty op _ right =>
    match op with
    | .logicalAnd | .logicalOr => ty.shape == .scalar .bool && right.ty.shape == .scalar .bool
    | _ => true
  | .call ty (.intrinsic .min) args => ty.isScalarOrVector && args.all (spreadsTo ty)
  | .swizzle ty base mask =>
    base.ty.isScalarOrVector && ty.shape == (base.ty.selected mask.length).shape
  | _ => true

/-- Whether a node that assigns has the shape of what it assigns to. -/
def assignsInShape : Expr → Bool
  | .binary ty op left _ => !op.isAssignment || ty.shape == left.ty.shape
  | _ => true

/-- Whether a node of the program is typed. -/
def isTyped (e : Expr) : Bool := e.agrees && e.assignsInShape

/-- Whether a mask has one to four selectors, none past the end of the value under it. -/
def masksInRange : Expr → Bool
  | .swizzle _ base mask => (maskDefect? base.ty mask).isNone
  | _ => true

/-! ### Walks -/

/-- Of the children of a node, a predicate looks at the shapes alone. -/
def IsLocal (P : Expr → Bool) : Prop :=
  ∀ e cs, Forall₂ (fun c c' : Expr => c.ty.Twin c'.ty) e.children cs → P (e.withChildren cs) = P e

/-- Two local properties are local together. -/
theorem IsLocal.and {P P' : Expr → Bool} (h : IsLocal P) (h' : IsLocal P') :
    IsLocal fun n => P n && P' n :=
  fun e cs hcs => congrArg₂ (· && ·) (h e cs hcs) (h' e cs hcs)

/-- Whether an operand spreads depends on its shape alone. -/
theorem spreadsTo_congr {ty : Ty} {c c' : Expr} (h : c.ty.Twin c'.ty) :
    spreadsTo ty c = spreadsTo ty c' := by
  rw [spreadsTo, show c.ty.shape = c'.ty.shape from h, spreadsTo]

/-- Agreeing types are told by a node and the shapes of its children. -/
theorem isLocal_agrees : IsLocal agrees := by
  intro e cs hcs
  cases e with
  | binary ty op left right =>
    obtain _ | ⟨-, _ | ⟨hright, _ | _⟩⟩ := hcs
    cases op <;> first | rfl | simp only [withChildren, agrees, show _ = _ from hright]
  | call ty callee args =>
    cases callee with
    | user name => rfl
    | intrinsic f =>
      have hall : cs.all (spreadsTo ty) = args.all (spreadsTo ty) := by
        rw [List.all_eq_not_any_not, List.all_eq_not_any_not]
        refine congrArg (!·) (any_eq_of_forall₂ hcs fun c _ c' hc => ?_).symm
        rw [spreadsTo_congr hc]
      cases f <;> first | rfl | simp only [withChildren, agrees, hall]
  | swizzle ty base mask =>
    obtain _ | ⟨hbase, _ | _⟩ := hcs
    simp only [withChildren, agrees, hbase.isScalarOrVector,
      show _ = _ from hbase.selected mask.length]
  -- The other nodes do not look at the types of their children.
  | literal | var | builtin | construct => rfl
  | unary | group => obtain _ | ⟨-, _ | _⟩ := hcs; rfl
  | index => obtain _ | ⟨-, _ | ⟨-, _ | _⟩⟩ := hcs; rfl
  | ternary => obtain _ | ⟨-, _ | ⟨-, _ | ⟨-, _ | _⟩⟩⟩ := hcs; rfl

/-- So are assignments in shape. -/
theorem isLocal_assignsInShape : IsLocal assignsInShape := by
  intro e cs hcs
  cases e with
  | binary ty op left right =>
    obtain _ | ⟨hleft, _ | ⟨-, _ | _⟩⟩ := hcs
    simp only [withChildren, assignsInShape, show _ = _ from hleft]
  | _ => unfold withChildren; split <;> first | rfl | simp_all

/-- So are masks in range. -/
theorem isLocal_masksInRange : IsLocal masksInRange := by
  intro e cs hcs
  cases e with
  | swizzle ty base mask =>
    obtain _ | ⟨hbase, _ | _⟩ := hcs
    simp only [withChildren, masksInRange, maskDefect?, hbase.swizzleWidth?]
  | _ => unfold withChildren; split <;> first | rfl | simp_all

/-- What a node is replaced by has a property throughout, and the shape of the node. -/
structure Becomes (P : Expr → Bool) (e e' : Expr) : Prop where
  every : e'.Every P
  shape : e.ty.Twin e'.ty

section

variable {m : Type → Type} [Monad m] [LawfulMonad m] {P P' : Expr → Bool} {f : Expr → m Expr}

/-- A walk goes on with children of the same shapes, so a node still has what a local predicate asks
    for when the walk comes to it. -/
theorem bottomUpM_becomes (J : Judgement m) (hP : IsLocal P)
    (hf : ∀ e, P e = true → (∀ c ∈ e.children, c.Every P') → J.Holds (e.Becomes P') (f e))
    {e : Expr} (he : e.Every P) : J.Holds (e.Becomes P') (e.bottomUpM f) := by
  induction e using induction_children with
  | h e ih =>
    rw [bottomUpM_eq]
    refine J.bind (J.mapM fun c hc => ih c hc (he.child hc)) fun cs hcs => ?_
    -- The children keep their shapes, so the node over them is as it was.
    have hshapes : Forall₂ (fun c c' : Expr => c.ty.Twin c'.ty) e.children cs :=
      hcs.imp fun _ _ h => h.shape
    have hnode : P (e.withChildren cs) = true := (hP e cs hshapes).trans he.node
    have hchildren : ∀ c ∈ (e.withChildren cs).children, c.Every P' := by
      intro c' hc'
      obtain ⟨c, -, hc⟩ := exists_related_child hcs c' hc'
      exact hc.every
    refine J.mono (hf _ hnode hchildren) fun e' h => ⟨h.every, ?_⟩
    rw [← ty_withChildren e cs]
    exact h.shape

end

/-- The same for a function that has no effects. -/
theorem bottomUp_becomes {P P' : Expr → Bool} {f : Expr → Expr} (hP : IsLocal P)
    (hf : ∀ e, P e = true → (∀ c ∈ e.children, c.Every P') → e.Becomes P' (f e)) {e : Expr}
    (he : e.Every P) : e.Becomes P' (e.bottomUp f) :=
  Yields.of_id (bottomUpM_becomes (m := Id) .yields hP (fun e hnode hchildren =>
    .pure (hf e hnode hchildren)) he)

/-- A node that is left alone. -/
theorem Becomes.same {P : Expr → Bool} {e : Expr} (hnode : P e = true)
    (hchildren : ∀ c ∈ e.children, c.Every P) : e.Becomes P e :=
  ⟨every_iff.mpr ⟨hnode, hchildren⟩, .refl _⟩

end Expr

end ShaderGen
