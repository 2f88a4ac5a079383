import ShaderGen.Proofs.Swizzle.Step

/-!
# Normal swizzles mean the same

`Expr.normalizeSwizzles` succeeds on every expression whose masks fit, and what it makes of the
expression can take its place: it computes the same components, writes and calls the same in the
same order, and where it is written to it stands for the same cells.
-/

namespace ShaderGen.Expr

variable {α : Type} (m : Machine α)

mutual
/-- Whether every mask fits what it is applied to, and the type on every swizzle is the one derived
    from its base. `target` is set for what is written to: the left side of an assignment, the
    operand of an increment, and what those write through. -/
def swizzlesFit (target : Bool) : Expr → Bool
  | .literal _ _ | .var _ _ | .builtin _ _ => true
  | .unary _ op operand => operand.swizzlesFit op.writesOperand
  | .binary _ op left right => left.swizzlesFit op.isAssignment && right.swizzlesFit false
  | .ternary _ cond ifTrue ifFalse =>
    cond.swizzlesFit false && ifTrue.swizzlesFit target && ifFalse.swizzlesFit target
  | .call _ _ args | .construct _ args => listSwizzlesFit args
  | .swizzle ty base mask => decide (mask.Fits target base.ty ty) && base.swizzlesFit target
  | .index _ base position => base.swizzlesFit target && position.swizzlesFit false
  | .group _ inner => inner.swizzlesFit target

/-- Whether the masks of several expressions fit, none of them written to. -/
def listSwizzlesFit : List Expr → Bool
  | [] => true
  | e :: es => e.swizzlesFit false && listSwizzlesFit es
end

/-- The swizzles of a list fit if those of its members do. -/
theorem listSwizzlesFit_eq_all (es : List Expr) :
    listSwizzlesFit es = es.all (swizzlesFit false) := by
  induction es with
  | nil => rfl
  | cons e es ih => simp [listSwizzlesFit, ih]

/-- The normal form of the expression exists and can take its place. -/
def HasAlikeNormalForm (t : Bool) (e : Expr) : Prop :=
  ∃ e', e.normalizeSwizzles = .ok e' ∧ Alike m t e e' ∧ e'.Settled

/-- Arguments are normalized one after the other. -/
theorem exists_normalizeArgs {es : List Expr}
    (h : ∀ e ∈ es, HasAlikeNormalForm m false e) :
    ∃ es', bottomUpListM normalizeSwizzle es = .ok es' ∧ AlikeArgs m es es' := by
  induction es with
  | nil => exact ⟨[], rfl, .nil⟩
  | cons e es ih =>
    obtain ⟨e', he, halike, -⟩ := h e List.mem_cons_self
    obtain ⟨es', hes, halikes⟩ := ih fun e hmem => h e (List.mem_cons_of_mem _ hmem)
    refine ⟨e' :: es', ?_, .cons halike halikes⟩
    -- The pass is a computation that may fail, so its steps are taken one by one.
    show (e.normalizeSwizzles >>= fun e' => _) = _
    rw [he]
    show (bottomUpListM normalizeSwizzle es >>= fun es' => _) = _
    rw [hes]
    rfl

/-- A tree whose swizzles fit has a normal form that does the same. -/
theorem hasAlikeNormalForm (e : Expr) :
    ∀ t, e.swizzlesFit t = true → HasAlikeNormalForm m t e := by
  -- The flag says whether the expression is written to. It is handed on to what a write goes
  -- through, and set for what is assigned to.
  induction e with
  -- A leaf is normal already.
  | literal ty value => exact fun t _ => ⟨_, rfl, .refl _, trivial⟩
  | var ty name => exact fun t _ => ⟨_, rfl, .refl _, trivial⟩
  | builtin ty which => exact fun t _ => ⟨_, rfl, .refl _, trivial⟩
  | unary ty op operand ih =>
    intro t h
    obtain ⟨e', he, halike, -⟩ := ih op.writesOperand h
    refine ⟨.unary ty op e', ?_, .unary op halike, trivial⟩
    show (operand.normalizeSwizzles >>= fun e' => normalizeSwizzle (.unary ty op e')) = _
    rw [he]
    rfl
  | binary ty op left right ihl ihr =>
    intro t h
    obtain ⟨hl, hr⟩ := Bool.and_eq_true_iff.mp h
    obtain ⟨l', hl', hla, -⟩ := ihl op.isAssignment hl
    obtain ⟨r', hr', hra, -⟩ := ihr false hr
    refine ⟨.binary ty op l' r', ?_, .binary op hla hra, trivial⟩
    show (left.normalizeSwizzles >>= fun l' => right.normalizeSwizzles >>= fun r' =>
      normalizeSwizzle (.binary ty op l' r')) = _
    rw [hl', hr']
    rfl
  -- An arm of a choice is written to if the choice is.
  | ternary ty cond ifTrue ifFalse ihc iht ihf =>
    intro t h
    obtain ⟨h, hf⟩ := Bool.and_eq_true_iff.mp h
    obtain ⟨hc, ht⟩ := Bool.and_eq_true_iff.mp h
    obtain ⟨c', hc', hca, -⟩ := ihc false hc
    obtain ⟨a', ha', haa, -⟩ := iht t ht
    obtain ⟨b', hb', hba, -⟩ := ihf t hf
    refine ⟨.ternary ty c' a' b', ?_, .ternary hca haa hba, trivial⟩
    show (cond.normalizeSwizzles >>= fun c' => ifTrue.normalizeSwizzles >>= fun a' =>
      ifFalse.normalizeSwizzles >>= fun b' => normalizeSwizzle (.ternary ty c' a' b')) = _
    rw [hc', ha', hb']
    rfl
  | call ty callee args ih =>
    intro t h
    have h := (listSwizzlesFit_eq_all args).symm.trans h
    obtain ⟨args', hargs, halike⟩ := exists_normalizeArgs m fun e he =>
      ih e he false (List.all_eq_true.mp h e he)
    refine ⟨.call ty callee args', ?_, .call callee halike, trivial⟩
    show (bottomUpListM normalizeSwizzle args >>= fun args' =>
      normalizeSwizzle (.call ty callee args')) = _
    rw [hargs]
    rfl
  -- A swizzle alone is changed at the node itself, by one step on the normalized base.
  | swizzle ty base mask ih =>
    intro t h
    obtain ⟨hmask, hbase⟩ := Bool.and_eq_true_iff.mp h
    obtain ⟨b', hb', hba, hsettled⟩ := ih t hbase
    -- The base may be another expression now, but of the same type.
    have hfits : mask.Fits t b'.ty ty := hba.ty_eq ▸ of_decide_eq_true hmask
    obtain ⟨e', he', halike, hdone⟩ := exists_normalizeSwizzle m hsettled hfits
    refine ⟨e', ?_, (Alike.swizzle mask hba).trans halike, hdone⟩
    show (base.normalizeSwizzles >>= fun b' => normalizeSwizzle (.swizzle ty b' mask)) = _
    rw [hb']
    exact he'
  | index ty base position ihb ihp =>
    intro t h
    obtain ⟨hb, hp⟩ := Bool.and_eq_true_iff.mp h
    obtain ⟨b', hb', hba, -⟩ := ihb t hb
    obtain ⟨p', hp', hpa, -⟩ := ihp false hp
    refine ⟨.index ty b' p', ?_, .index hba hpa, trivial⟩
    show (base.normalizeSwizzles >>= fun b' => position.normalizeSwizzles >>= fun p' =>
      normalizeSwizzle (.index ty b' p')) = _
    rw [hb', hp']
    rfl
  | construct ty args ih =>
    intro t h
    have h := (listSwizzlesFit_eq_all args).symm.trans h
    obtain ⟨args', hargs, halike⟩ := exists_normalizeArgs m fun e he =>
      ih e he false (List.all_eq_true.mp h e he)
    refine ⟨.construct ty args', ?_, .construct halike, trivial⟩
    show (bottomUpListM normalizeSwizzle args >>= fun args' =>
      normalizeSwizzle (.construct ty args')) = _
    rw [hargs]
    rfl
  | group ty inner ih =>
    intro t h
    obtain ⟨e', he, halike, -⟩ := ih t h
    refine ⟨.group ty e', ?_, .group halike, trivial⟩
    show (inner.normalizeSwizzles >>= fun e' => normalizeSwizzle (.group ty e')) = _
    rw [he]
    rfl

/-- Bringing swizzles into normal form succeeds and changes neither the type of an expression nor
    anything that a run of it computes, writes or calls, from any state; nor, where the expression
    is written to, the cells that it stands for. -/
theorem normalizeSwizzles_keeps_meaning (e : Expr) (t : Bool) (h : e.swizzlesFit t = true) :
    ∃ e', e.normalizeSwizzles = .ok e' ∧ e'.ty = e.ty ∧ (∀ σ, e'.run m σ = e.run m σ) ∧
      (t = true → ∀ σ, e'.locate m σ = e.locate m σ) := by
  obtain ⟨e', he, halike, -⟩ := hasAlikeNormalForm m e t h
  refine ⟨e', he, halike.ty_eq, halike.run_eq, fun ht => ?_⟩
  subst ht
  exact halike.locate_eq

/-- The masks `.wzyx.xy` of what is written become one, and in `.x0y1.wx` of what a call returns the
    constants move into a constructor; the call is made once, before the two components are
    written. -/
theorem normalized_assignment_keeps_meaning :
    let v : Expr := .ofVar "v" (.vec 4)
    let next : Expr := .ofUserCall "next" [] (.vec 4)
    let e : Expr := .assign (.ofSwizzle (.ofSwizzle v [.w, .z, .y, .x]) [.x, .y])
      (.ofSwizzle (.ofSwizzle next [.x, .zero, .y, .one]) [.w, .x])
    let e' : Expr := .assign (.ofSwizzle v [.w, .z])
      (.ofSwizzle (.ofConstruct (.vec 4) [.ofSwizzle next [.x, .y], .float .zero, .float .one])
        [.w, .x])
    e.swizzlesFit false = true ∧ e.normalizeSwizzles = .ok e' ∧
      ∀ σ, e'.run .integers σ = e.run .integers σ := by
  intro v next e e'
  have hfit : e.swizzlesFit false = true := by decide
  -- The normal form is computed, so it is the one that is claimed to exist.
  obtain ⟨_, he, -, hrun, -⟩ := normalizeSwizzles_keeps_meaning .integers e false hfit
  have hnormal : e.normalizeSwizzles = .ok e' := rfl
  cases hnormal.symm.trans he
  exact ⟨hfit, hnormal, hrun⟩

end ShaderGen.Expr
