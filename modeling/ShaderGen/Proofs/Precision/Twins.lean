import ShaderGen.Proofs.Induction
import ShaderGen.Proofs.Pairing
import ShaderGen.Proofs.Rewriting

/-!
# Programs that differ in precision alone

Twins are the same but for the precision classes of their types. The precision class of a type is
not looked at by anything that builds an expression, so what is built of twins are twins
(`Expr.Twin.ofBinary` and so on), and what is asked of twins has one answer.

## Key results

- `Expr.Twin.ofBinary`, `.ofCall` and so on: what is built of twins are twins
- `Expr.Twin.bottomUpM`, `Stmt.Twin.mapExprsM`, `Stmt.Twin.expandM`: walks over twins make twins,
  if what they do to one node or to one statement does
-/

namespace ShaderGen

open List (Forall₂)

/-- Where related values answer alike, so do related lists. -/
theorem any_eq_of_forall₂ {α : Type} {R : α → α → Prop} {p : α → Bool} {as bs : List α}
    (h : Forall₂ R as bs) (hp : ∀ a ∈ as, ∀ b, R a b → p a = p b) : as.any p = bs.any p := by
  induction h with
  | nil => rfl
  | cons hab _ ih =>
    rw [List.any_cons, List.any_cons, hp _ List.mem_cons_self _ hab,
      ih fun a ha => hp a (List.mem_cons_of_mem _ ha)]

/-- A test that does not tell related values apart does not tell optional ones apart. -/
theorem any_eq_of_rel {α : Type} {R : α → α → Prop} {p : α → Bool} {o o' : Option α}
    (h : Option.Rel R o o') (hp : ∀ a b, R a b → p a = p b) : o.any p = o'.any p := by
  cases h with
  | none => rfl
  | some hab => exact hp _ _ hab

/-- Lists of related members have one image under a function that does not tell them apart. -/
theorem map_eq_of_forall₂ {α β : Type} {R : α → α → Prop} {f : α → β} {as bs : List α}
    (h : Forall₂ R as bs) (hf : ∀ a ∈ as, ∀ b, R a b → f a = f b) : as.map f = bs.map f := by
  induction h with
  | nil => rfl
  | cons hab _ ih =>
    rw [List.map_cons, List.map_cons, hf _ List.mem_cons_self _ hab,
      ih fun a ha => hf a (List.mem_cons_of_mem _ ha)]

/-- In lists of related members, a search that does not tell them apart finds the same. -/
theorem findSome?_eq_of_forall₂ {α β : Type} {R : α → α → Prop} {f g : α → Option β}
    {as bs : List α}
    (h : Forall₂ R as bs) (hf : ∀ a b, R a b → f a = g b) : as.findSome? f = bs.findSome? g := by
  induction h with
  | nil => rfl
  | cons hab _ ih => rw [List.findSome?_cons, List.findSome?_cons, hf _ _ hab, ih]

/-! ### Types -/

/-- Types of the same shape. -/
def Ty.Twin (t t' : Ty) : Prop := t.shape = t'.shape

namespace Ty.Twin

variable {t t' u u' : Ty}

/-- A type is its own twin. -/
@[refl] theorem refl (t : Ty) : t.Twin t := Eq.refl t.shape

/-- Changing precisions keeps types twins. -/
theorem withPrecision (h : t.Twin t') (p p' : Precision) :
    (t.withPrecision p).Twin (t'.withPrecision p') := h

/-- Twins are scalars alike. -/
theorem isScalar (h : t.Twin t') : t.isScalar = t'.isScalar := by
  unfold Ty.isScalar
  rw [h]

/-- Twins have scalars of the same kind. -/
theorem scalarKind? (h : t.Twin t') : t.scalarKind? = t'.scalarKind? := congrArg Shape.scalarKind? h

/-- Twins are floats alike. -/
theorem isFloat (h : t.Twin t') : t.isFloat = t'.isFloat := by
  rw [Ty.isFloat, h.scalarKind?, Ty.isFloat]

/-- Twins have components of the same kind. -/
theorem componentKind (h : t.Twin t') : t.componentKind = t'.componentKind := by
  rw [Ty.componentKind, h.scalarKind?, Ty.componentKind]

/-- Twins have as many components. -/
theorem componentCount (h : t.Twin t') : t.componentCount = t'.componentCount :=
  congrArg Shape.componentCount h

/-- Twins are swizzled alike. -/
theorem swizzleWidth? (h : t.Twin t') : t.swizzleWidth? = t'.swizzleWidth? :=
  congrArg Shape.swizzleWidth? h

/-- Vectors of one kind and size are twins. -/
theorem withComponents {k k' : ScalarKind} (hk : k = k') (n : Nat) (p p' : Precision) :
    (Ty.withComponents k n p).Twin (Ty.withComponents k' n p') := by
  subst hk
  unfold Ty.withComponents
  split <;> rfl

/-- The shape of the result of a binary operation depends on the shapes of its operands. -/
theorem binary (op : BinaryOp) (h : t.Twin t') (hu : u.Twin u') :
    (op.resultTy t u).Twin (op.resultTy t' u') := by
  obtain ⟨s, p⟩ := t
  obtain ⟨s', p'⟩ := t'
  obtain ⟨r, q⟩ := u
  obtain ⟨r', q'⟩ := u'
  -- With one shape on each side, the results can only differ in precision.
  obtain rfl : s = s' := h
  obtain rfl : r = r' := hu
  unfold BinaryOp.resultTy
  split
  · rfl
  split
  · rfl
  split
  · rfl
  dsimp only
  split <;> rfl

/-- The widest of several types is found by their shapes. -/
theorem widest? {ts ts' : List Ty} (h : Forall₂ Ty.Twin ts ts') :
    Option.Rel Ty.Twin (Ty.widest? ts) (Ty.widest? ts') := by
  -- Which of several types is widest is told by numbers of components, with ties resolved alike.
  induction h with
  | nil => exact .none
  | @cons t t' ts ts' ht _ ih =>
    unfold Ty.widest?
    generalize Ty.widest? ts = best, Ty.widest? ts' = best' at ih
    cases ih with
    | none => exact .some ht
    | some hbest =>
      dsimp only
      rw [ht.componentCount, hbest.componentCount]
      split
      · exact .some ht
      · exact .some hbest

/-- The shape of the result of a call depends on the shapes of its arguments. -/
theorem intrinsic (f : Intrinsic) {ts ts' : List Ty} (h : Forall₂ Ty.Twin ts ts') :
    (f.resultTy ts).Twin (f.resultTy ts') := by
  have hwidest := widest? h
  -- Some results are scalars of the kind of the first argument.
  have hfirst : (ts.head?.bind Ty.scalarKind?) = ts'.head?.bind Ty.scalarKind? := by
    cases h with
    | nil => rfl
    | cons ht _ => exact ht.scalarKind?
  unfold Intrinsic.resultTy
  rw [hfirst]
  generalize Ty.widest? ts = best, Ty.widest? ts' = best' at hwidest
  dsimp only
  split
  · rfl
  split
  · rfl
  · rfl
  · -- The others are the widest argument.
    cases hwidest with
    | none => rfl
    | some hbest => exact hbest

end Ty.Twin

/-! ### Expressions -/

/-- Expressions that are the same but for precision classes. -/
inductive Expr.Twin : Expr → Expr → Prop
  | literal {t t' : Ty} (ht : t.Twin t') (value : Literal) :
    Twin (.literal t value) (.literal t' value)
  | var {t t' : Ty} (ht : t.Twin t') (name : String) : Twin (.var t name) (.var t' name)
  | builtin {t t' : Ty} (ht : t.Twin t') (which : Builtin) :
    Twin (.builtin t which) (.builtin t' which)
  | unary {t t' : Ty} {e e' : Expr} (ht : t.Twin t') (op : UnaryOp) (he : Twin e e') :
    Twin (.unary t op e) (.unary t' op e')
  | binary {t t' : Ty} {l l' r r' : Expr} (ht : t.Twin t') (op : BinaryOp) (hl : Twin l l')
    (hr : Twin r r') : Twin (.binary t op l r) (.binary t' op l' r')
  | ternary {t t' : Ty} {c c' a a' b b' : Expr} (ht : t.Twin t') (hc : Twin c c')
    (ha : Twin a a') (hb : Twin b b') : Twin (.ternary t c a b) (.ternary t' c' a' b')
  | call {t t' : Ty} {args args' : List Expr} (ht : t.Twin t') (callee : Callee)
    (hargs : List.Forall₂ Twin args args') : Twin (.call t callee args) (.call t' callee args')
  | swizzle {t t' : Ty} {e e' : Expr} (ht : t.Twin t') (he : Twin e e') (mask : Mask) :
    Twin (.swizzle t e mask) (.swizzle t' e' mask)
  | index {t t' : Ty} {e e' i i' : Expr} (ht : t.Twin t') (he : Twin e e') (hi : Twin i i') :
    Twin (.index t e i) (.index t' e' i')
  | construct {t t' : Ty} {args args' : List Expr} (ht : t.Twin t')
    (hargs : List.Forall₂ Twin args args') : Twin (.construct t args) (.construct t' args')
  | group {t t' : Ty} {e e' : Expr} (ht : t.Twin t') (he : Twin e e') :
    Twin (.group t e) (.group t' e')

namespace Expr

/-- An expression is its own twin. -/
theorem Twin.refl (e : Expr) : e.Twin e := by
  have hlist : ∀ {args : List Expr}, (∀ a ∈ args, a.Twin a) → Forall₂ Twin args args :=
    fun h => List.forall₂_same.mpr h
  -- One constructor each: every node is built from the twins of its children.
  induction e with
  | literal t value => exact .literal (.refl t) value
  | var t name => exact .var (.refl t) name
  | builtin t which => exact .builtin (.refl t) which
  | unary t op e ih => exact .unary (.refl t) op ih
  | binary t op l r ihl ihr => exact .binary (.refl t) op ihl ihr
  | ternary t c a b ihc iha ihb => exact .ternary (.refl t) ihc iha ihb
  | call t callee args ih => exact .call (.refl t) callee (hlist ih)
  | swizzle t e mask ih => exact .swizzle (.refl t) ih mask
  | index t e i ihe ihi => exact .index (.refl t) ihe ihi
  | construct t args ih => exact .construct (.refl t) (hlist ih)
  | group t e ih => exact .group (.refl t) ih

namespace Twin

variable {e e' l l' r r' : Expr} {t t' : Ty}

/-- Twins have twin types. -/
theorem ty (h : e.Twin e') : e.ty.Twin e'.ty := by
  cases h <;> assumption

/-- So do lists of twins. -/
theorem tys {es es' : List Expr} (h : Forall₂ Twin es es') :
    Forall₂ Ty.Twin (es.map Expr.ty) (es'.map Expr.ty) := by
  rw [List.forall₂_map_left_iff, List.forall₂_map_right_iff]
  exact h.imp fun _ _ he => he.ty

/-- With twin types put in, twins stay twins. -/
theorem withTy (h : e.Twin e') (ht : t.Twin t') : (e.withTy t).Twin (e'.withTy t') := by
  -- The types on the nodes are all that changes.
  cases h with
  | literal _ value => exact .literal ht value
  | var _ name => exact .var ht name
  | builtin _ which => exact .builtin ht which
  | unary _ op he => exact .unary ht op he
  | binary _ op hl hr => exact .binary ht op hl hr
  | ternary _ hc ha hb => exact .ternary ht hc ha hb
  | call _ callee hargs => exact .call ht callee hargs
  | swizzle _ he mask => exact .swizzle ht he mask
  | index _ he hi => exact .index ht he hi
  | construct _ hargs => exact .construct ht hargs
  | group _ he => exact .group ht he

/-- An expression with another precision class on it is a twin. -/
theorem withTy_right (h : e.Twin e') (ht : e'.ty.Twin t) : e.Twin (e'.withTy t) := by
  have hown := h.withTy (t := e.ty) (h.ty.trans ht)
  rwa [withTy_ty] at hown

/-- The children of twins are twins. -/
theorem children (h : e.Twin e') : Forall₂ Twin e.children e'.children := by
  cases h with
  | literal | var | builtin => exact .nil
  | unary _ _ he | swizzle _ he _ | group _ he => exact .cons he .nil
  | binary _ _ ha hb | index _ ha hb => exact .cons ha (.cons hb .nil)
  | ternary _ ha hb hc => exact .cons ha (.cons hb (.cons hc .nil))
  | call _ _ hargs | construct _ hargs => exact hargs

/-- Nodes over twins are twins; other numbers of children than a node has make no difference. -/
theorem withChildren (h : e.Twin e') {cs cs' : List Expr} (hcs : Forall₂ Twin cs cs') :
    (e.withChildren cs).Twin (e'.withChildren cs') := by
  have hself := h
  cases h with
  -- The twin has the same number of children; with any other number neither changes.
  | literal | var | builtin => cases hcs <;> exact hself
  | call ht callee _ => exact .call ht callee hcs
  | construct ht _ => exact .construct ht hcs
  -- A node with one child takes a list of one and no other.
  | unary ht op _ =>
    obtain _ | ⟨ha, _ | _⟩ := hcs
    · exact hself
    · exact .unary ht op ha
    · exact hself
  | swizzle ht _ mask =>
    obtain _ | ⟨ha, _ | _⟩ := hcs
    · exact hself
    · exact .swizzle ht ha mask
    · exact hself
  | group ht _ =>
    obtain _ | ⟨ha, _ | _⟩ := hcs
    · exact hself
    · exact .group ht ha
    · exact hself
  -- A node with two children likewise.
  | binary ht op _ _ =>
    obtain _ | ⟨ha, _ | ⟨hb, _ | _⟩⟩ := hcs
    · exact hself
    · exact hself
    · exact .binary ht op ha hb
    · exact hself
  | index ht _ _ =>
    obtain _ | ⟨ha, _ | ⟨hb, _ | _⟩⟩ := hcs
    · exact hself
    · exact hself
    · exact .index ht ha hb
    · exact hself
  -- And one with three.
  | ternary ht _ _ _ =>
    obtain _ | ⟨ha, _ | ⟨hb, _ | ⟨hc, _ | _⟩⟩⟩ := hcs
    · exact hself
    · exact hself
    · exact hself
    · exact .ternary ht ha hb hc
    · exact hself

/-! ### What is built of twins -/

/-- The builder for unary operators makes twins of twins. -/
theorem ofUnary (op : UnaryOp) (h : e.Twin e') : (Expr.ofUnary op e).Twin (.ofUnary op e') := by
  refine .unary ?_ op h
  split
  · rfl
  · exact h.ty

/-- So does the one for binary operators. -/
theorem ofBinary (op : BinaryOp) (hl : l.Twin l') (hr : r.Twin r') :
    (Expr.ofBinary op l r).Twin (.ofBinary op l' r') :=
  .binary (.binary op hl.ty hr.ty) op hl hr

/-- So does the one for assignments. -/
theorem assign (hl : l.Twin l') (hr : r.Twin r') : (Expr.assign l r).Twin (.assign l' r') :=
  ofBinary .assign hl hr

/-- So does the one for choices. -/
theorem ofTernary {c c' a a' b b' : Expr} (hc : c.Twin c') (ha : a.Twin a') (hb : b.Twin b') :
    (Expr.ofTernary c a b).Twin (.ofTernary c' a' b') :=
  .ternary (ha.ty.withPrecision _ _) hc ha hb

/-- So does the one for calls of built-in functions. -/
theorem ofCall (f : Intrinsic) {args args' : List Expr} (h : Forall₂ Twin args args') :
    (Expr.ofCall f args).Twin (.ofCall f args') :=
  .call (.intrinsic f (tys h)) _ h

/-- So does the one for swizzles. -/
theorem ofSwizzle (h : e.Twin e') (mask : Mask) :
    (Expr.ofSwizzle e mask).Twin (.ofSwizzle e' mask) :=
  .swizzle (.withComponents h.ty.componentKind _ _ _) h mask

/-- So does the one for groups. -/
theorem ofGroup (h : e.Twin e') : (Expr.ofGroup e).Twin (.ofGroup e') := .group h.ty h

/-! ### What is asked of twins -/

/-- What depends on the outermost nodes of twins in the same way depends in the same way on all of
    their nodes. -/
theorem any_eq {p : Expr → Bool} (hp : ∀ e e', e.Twin e' → p e = p e') (h : e.Twin e') :
    e.any p = e'.any p := by
  induction e using induction_children generalizing e' with
  | h e ih =>
    rw [Expr.any_eq, Expr.any_eq, hp e e' h]
    congr 1
    exact any_eq_of_forall₂ h.children fun c hc _ hchild => ih c hc hchild

/-! ### Walks -/

section

variable {m : Type → Type} [Monad m] [LawfulMonad m] (J : Pairing m)

/-- Walks from the leaves up keep twins, if the work at a node does. -/
theorem bottomUpM {f g : Expr → m Expr} (hf : ∀ e e', e.Twin e' → J.Holds Twin (f e) (g e'))
    (h : e.Twin e') : J.Holds Twin (e.bottomUpM f) (e'.bottomUpM g) := by
  induction e using induction_children generalizing e' with
  | h e ih =>
    rw [bottomUpM_eq, bottomUpM_eq]
    refine J.bind (J.mapM h.children fun c hc _ hchild => ih c hc hchild) fun cs cs' hcs => ?_
    exact hf _ _ (h.withChildren hcs)

end

/-- The same without effects. -/
theorem bottomUp {f g : Expr → Expr} (hf : ∀ e e', e.Twin e' → (f e).Twin (g e'))
    (h : e.Twin e') : (e.bottomUp f).Twin (e'.bottomUp g) :=
  bottomUpM (f := fun e => (pure (f e) : Id Expr)) .values hf h

end Twin

/-- Replacing every node by itself changes nothing. -/
theorem bottomUp_id (e : Expr) : e.bottomUp id = e := by
  refine (Expr.bottomUp_related (R := Eq) (fun e cs hcs => ?_) e).symm
  rw [List.forall₂_eq_eq_eq] at hcs
  rw [← hcs, id, Expr.withChildren_children]

end Expr

end ShaderGen
