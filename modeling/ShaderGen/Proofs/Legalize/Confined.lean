import ShaderGen.Proofs.Legalize.Outline

/-!
# Where absolute values and fractions are left

A target without absolute values of integers gets calls of a helper instead, and one whose `fract`
is wrong below zero gets `fract(abs(x))` for `fract(x)`. The second rule runs after the first and
takes the absolute value of whatever stands there, so an integer that a `fract` was given ends up in
an absolute value of integers after all; there is none anywhere else.

## Key results

- `Legalize.legalize_confines_abs`: absolute values of integers in a legalized program
- `Legalize.legalize_guards_fract`: operands of `fract` in a legalized program
-/

namespace ShaderGen

open List (Forall₂)

namespace Expr

/-- Absolute value of an integer. -/
def isIntAbs : Expr → Bool
  | .call ty (.intrinsic .abs) _ => ty.scalarKind? == some .int
  | _ => false

/-- Absolute value. -/
def isAbs : Expr → Bool
  | .call _ (.intrinsic .abs) _ => true
  | _ => false

/-- Fraction of one operand. -/
def isFract : Expr → Bool
  | .call _ (.intrinsic .fract) [_] => true
  | _ => false

/-- Float `fract` of an operand that is no absolute value. -/
def isBareFract : Expr → Bool
  | .call ty (.intrinsic .fract) [x] => ty.isFloat && !x.isAbs
  | _ => false

/-- Where an absolute value of integers may stand, if at all: below a `fract`. -/
def isHome (guards : Bool) (e : Expr) : Bool := guards && e.isFract

/-- Below the outermost node, those of one kind stand only directly below nodes of another kind. -/
def OnlyBelow (q home : Expr → Bool) (e : Expr) : Prop :=
  e.Every fun n => home n || n.children.all fun c => !q c

/-- No node is of one kind, unless it stands directly below one of another kind. -/
structure Confines (q home : Expr → Bool) (e : Expr) : Prop where
  outermost : q e = false
  below : e.OnlyBelow q home

section

variable {q home : Expr → Bool} {e : Expr}

/-- What is nowhere is confined to any place. -/
theorem confines_of_any (h : e.any q = false) : e.Confines q home := by
  refine ⟨(any_eq_false_iff.mp h).1, ?_⟩
  induction e using induction_children with
  | h e ih =>
    obtain ⟨-, hchildren⟩ := any_eq_false_iff.mp h
    refine every_iff.mpr ⟨?_, fun c hc => ih c hc (hchildren c hc)⟩
    -- No child is such a node, so no child is out of place.
    have hbelow : e.children.all (fun c => !q c) = true :=
      List.all_eq_true.mpr fun c hc => by rw [(any_eq_false_iff.mp (hchildren c hc)).1]; rfl
    rw [hbelow, Bool.or_true]

/-- A node over confined children is confined if it is not of the kind itself. -/
theorem confines_node (h : q e = false) (hchildren : ∀ c ∈ e.children, c.Confines q home) :
    e.Confines q home := by
  refine ⟨h, every_iff.mpr ⟨?_, fun c hc => (hchildren c hc).below⟩⟩
  have hbelow : e.children.all (fun c => !q c) = true :=
    List.all_eq_true.mpr fun c hc => by rw [(hchildren c hc).outermost]; rfl
  rw [hbelow, Bool.or_true]

/-- Children of a node that is no place for the kind are confined themselves. -/
theorem OnlyBelow.confines_child (h : e.OnlyBelow q home) (hhome : home e = false) :
    ∀ c ∈ e.children, c.Confines q home := by
  intro c hc
  have hnode := Every.node h
  rw [hhome, Bool.false_or, List.all_eq_true] at hnode
  exact ⟨(Bool.not_eq_true' _).mp (hnode c hc), Every.child h hc⟩

/-- What is put together of confined parts, without calls, is confined. -/
theorem MadeOf.confines (h : MadeOf false (Confines q home) e)
    (hfiller : ∀ n, n.isFiller false = true → q n = false)
    (hassign : ∀ ty target value, q (.binary ty .assign target value) = false) :
    e.Confines q home := by
  induction h with
  | part hd => exact hd
  | node filler _ _ ih => exact confines_node (hfiller _ filler) ih
  | temp _ ih =>
    refine confines_node (hassign _ _ _) (List.forall_mem_cons.mpr ⟨?_, ?_⟩)
    · exact confines_node (hfiller _ rfl) nofun
    · exact List.forall_mem_singleton.mpr ih

end

/-- Whether a node is an integer absolute value is told by the node. -/
theorem isIntAbs_withChildren (e : Expr) (cs : List Expr) :
    (e.withChildren cs).isIntAbs = e.isIntAbs := by
  unfold withChildren
  split
  case h_4 callee _ =>
    cases callee with
    | user => rfl
    | intrinsic f => cases f <;> rfl
  all_goals rfl

/-- So is whether it is any absolute value. -/
theorem isAbs_withChildren (e : Expr) (cs : List Expr) :
    (e.withChildren cs).isAbs = e.isAbs := by
  unfold withChildren
  split
  case h_4 callee _ =>
    cases callee with
    | user => rfl
    | intrinsic f => cases f <;> rfl
  all_goals rfl

/-- A fraction is told by its head. -/
theorem isFract_iff {e : Expr} : e.isFract = true ↔ e.head = .call (.intrinsic .fract) 1 := by
  constructor
  · intro h
    unfold isFract at h
    split at h
    · rfl
    · cases h
  · intro h
    -- A call is told by its head, and the number of its arguments is part of that.
    obtain ⟨ty, args, rfl, hlength⟩ := eq_call_of_head h
    obtain ⟨x, rfl⟩ := List.length_eq_one_iff.mp hlength
    rfl

/-- So its children do not matter, if they stay as many. -/
theorem isFract_withChildren {e : Expr} {cs : List Expr} (h : cs.length = e.children.length) :
    (e.withChildren cs).isFract = e.isFract := by
  rw [Bool.eq_iff_iff, isFract_iff, isFract_iff, head_withChildren h]

/-- No node that fills a tree is an integer absolute value. -/
theorem not_isIntAbs_of_isFiller {e : Expr} (h : e.isFiller false = true) :
    e.isIntAbs = false := by
  cases e with
  | call => exact absurd h (by simp [isFiller, isCall])
  | _ => rfl

end Expr

open ShaderGen.Expr

namespace Legalize

/-! ### Node by node -/

/-- After emulation no integer absolute value is left. -/
theorem emulate_avoids (e : Expr) :
    Yields (fun e' => e'.any isIntAbs = false) (e.bottomUpM IntAbs.emulateNode) := by
  refine bottomUpM_yields (R := fun _ e' => e'.any isIntAbs = false) (fun e cs hcs => ?_) e
  -- The children have been rewritten before, so the node alone is left.
  have hchildren : ∀ c ∈ (e.withChildren cs).children, c.any isIntAbs = false := fun c hc =>
    have ⟨_, _, h⟩ := exists_related_child hcs c hc
    h
  generalize e.withChildren cs = node at hchildren
  unfold IntAbs.emulateNode
  split
  · next ty args =>
    split
    · exact .after fun _ => .pure (any_eq_false_iff.mpr ⟨rfl, hchildren⟩)
    · next hint => exact .pure (any_eq_false_iff.mpr ⟨by simpa [isIntAbs] using hint, hchildren⟩)
  · next hother =>
    refine .pure (any_eq_false_iff.mpr ⟨?_, hchildren⟩)
    unfold isIntAbs
    split
    · exact absurd rfl (hother _ _)
    · rfl

/-- Splitting a minimum brings in no call. -/
theorem refits_avoids_intAbs (replaced : Expr → Bool) :
    Refits false replaced fun e e' => e.any isIntAbs = false → e'.any isIntAbs = false :=
  refits_avoids replaced isIntAbs_withChildren (fun _ => not_isIntAbs_of_isFiller)
    fun _ _ _ => rfl

/-- The guard takes the absolute value of its operand in a `fract`. -/
theorem confines_guarded {x : Expr} (ty : Ty) (hx : x.Confines isIntAbs (isHome true)) :
    (Fract.guarded x ty).Confines isIntAbs (isHome true) := by
  have hsign : Confines isIntAbs (isHome true) (.ofCall .sign [x]) :=
    confines_node rfl (List.forall_mem_singleton.mpr hx)
  have hfract : Confines isIntAbs (isHome true) (.ofCall .fract [.ofCall .abs [x]]) := by
    -- The absolute value may be one of an integer here.
    refine ⟨rfl, every_iff.mpr ⟨rfl, List.forall_mem_singleton.mpr (every_iff.mpr ⟨?_, ?_⟩)⟩⟩
    · simp [ofCall, children, hx.outermost]
    · exact List.forall_mem_singleton.mpr hx.below
  exact (Refits.madeOf_guarded ty (.part hsign) (.part hfract)).confines
    (fun _ => not_isIntAbs_of_isFiller) fun _ _ _ => rfl

section

variable {Q : Expr → Prop} {node : Expr}

/-- What holds of a node that is guarded, with a temporary or without, if it holds of its
    operand. -/
theorem guardNode_holds (hvar : ∀ ty name, Q (.var ty name))
    (hbinary : ∀ {ty op l r}, Q l → Q r → Q (.binary ty op l r))
    (hguarded : ∀ {x} ty, Q x → Q (Fract.guarded x ty))
    (hchildren : ∀ c ∈ node.children, Q c) (hnode : Fract.operand? node = none → Q node) :
    unvalued.Holds Q (Fract.guardNode node) := by
  unfold Fract.guardNode
  split
  · next x hx =>
    obtain ⟨ty, -, rfl⟩ := Fract.eq_of_operand? hx
    have hx' := hchildren x List.mem_cons_self
    -- An operand with side effects is read from the temporary that it was written to.
    split
    · refine unvalued.bind (unvalued_freshTemp _ _) ?_
      rintro _ ⟨name, rfl⟩
      exact unvalued.pure (hbinary (hbinary (hvar _ _) hx') (hguarded _ (hvar _ _)))
    · exact unvalued.pure (hguarded _ hx')
  · next hnone => exact unvalued.pure (hnode hnone)

/-- What holds of guarded fractions and of other nodes holds after guarding. -/
theorem guardPure_holds (hguarded : ∀ {x} ty, Q x → Q (Fract.guarded x ty))
    (hchildren : ∀ c ∈ node.children, Q c) (hnode : Fract.operand? node = none → Q node) :
    Q (Fract.guardPure node) := by
  unfold Fract.guardPure
  split
  · next x hx =>
    obtain ⟨ty, -, rfl⟩ := Fract.eq_of_operand? hx
    exact hguarded _ (hchildren x List.mem_cons_self)
  · next hnone => exact hnode hnone

end

/-- An expression without absolute values of integers is guarded: they may stand below `fract`
    then. -/
def Guarding (e e' : Expr) : Prop :=
  e.any isIntAbs = false → e'.Confines isIntAbs (isHome true)

/-- A node over guarded children. -/
theorem confines_withChildren {e : Expr} {cs : List Expr} (he : e.any isIntAbs = false)
    (hcs : Forall₂ Guarding e.children cs) :
    (∀ c ∈ (e.withChildren cs).children, c.Confines isIntAbs (isHome true)) ∧
      (e.withChildren cs).Confines isIntAbs (isHome true) := by
  obtain ⟨hnode, hchildren⟩ := any_eq_false_iff.mp he
  have hconfines : ∀ c ∈ (e.withChildren cs).children, c.Confines isIntAbs (isHome true) := by
    intro c' hc'
    obtain ⟨c, hc, hrelated⟩ := exists_related_child hcs c' hc'
    exact hrelated (hchildren c hc)
  exact ⟨hconfines, confines_node ((isIntAbs_withChildren e cs).trans hnode) hconfines⟩

/-- An expression without absolute values of integers has them only below `fract` once it is
    guarded. -/
theorem guard_confines (e : Expr) : unvalued.Holds (Guarding e) (e.bottomUpM Fract.guardNode) := by
  refine bottomUpM_holds unvalued (fun e cs hcs => ?_) e
  -- What holds of expressions without an integer `abs` is asked of those only.
  by_cases he : e.any isIntAbs = false
  · obtain ⟨hchildren, hnode⟩ := confines_withChildren he hcs
    refine unvalued.mono (guardNode_holds ?_ ?_ ?_ hchildren fun _ => hnode) fun _ h _ => h
    · exact fun _ _ => confines_node rfl nofun
    · exact fun hl hr =>
        confines_node rfl (List.forall_mem_cons.mpr ⟨hl, List.forall_mem_singleton.mpr hr⟩)
    · exact confines_guarded
  · have hany : unvalued.Holds (fun _ => True) (Fract.guardNode (e.withChildren cs)) :=
      guardNode_holds (fun _ _ => trivial) (fun _ _ => trivial) (fun _ _ => trivial)
        (fun _ _ => trivial) fun _ => trivial
    exact unvalued.mono hany fun _ _ h => absurd h he

/-- Guarding without temporaries keeps the rest confined. -/
theorem guardPure_confines (e : Expr) : Guarding e (e.bottomUp Fract.guardPure) := by
  refine bottomUp_related (fun e cs hcs he => ?_) e
  obtain ⟨hchildren, hnode⟩ := confines_withChildren he hcs
  exact guardPure_holds confines_guarded hchildren fun _ => hnode

/-- What the rules after the one for fractions do to an expression that keeps absolute values of
    integers below `fract`, if that is where they may be. -/
def Confining (guards : Bool) (e e' : Expr) : Prop :=
  e.OnlyBelow isIntAbs (isHome guards) →
    e'.OnlyBelow isIntAbs (isHome guards) ∧ (e.isIntAbs = false → e'.isIntAbs = false)

section

variable {guards : Bool}

/-- A confining rewrite leaves what was confined in its place. -/
theorem Confining.confines {e e' : Expr} (h : Confining guards e e')
    (he : e.Confines isIntAbs (isHome guards)) :
    e'.Confines isIntAbs (isHome guards) :=
  have hbelow := h he.below
  ⟨hbelow.2 he.outermost, hbelow.1⟩

/-- Sub-expressions may change in a confining way. -/
theorem isCongruence_confining : IsCongruence (Confining guards) where
  trans h h' he := by
    obtain ⟨hbelow, hroot⟩ := h he
    obtain ⟨hbelow', hroot'⟩ := h' hbelow
    exact ⟨hbelow', hroot' ∘ hroot⟩
  congr {e cs} hcs he := by
    refine ⟨every_iff.mpr ⟨?_, fun c' hc' => ?_⟩, fun hroot =>
      (isIntAbs_withChildren e cs).trans hroot⟩
    · -- A node that is no place for them is over none of them.
      rw [isHome, isFract_withChildren hcs.length_eq.symm, ← isHome]
      rcases Bool.or_eq_true_iff.mp (Every.node he) with hhome | hnone
      · rw [hhome, Bool.true_or]
      · refine Bool.or_eq_true_iff.mpr (.inr (List.all_eq_true.mpr fun c' hc' => ?_))
        obtain ⟨c, hc, hrelated⟩ := exists_related_child hcs c' hc'
        have hc' := List.all_eq_true.mp hnone c hc
        rw [Bool.not_eq_true'] at hc' ⊢
        exact (hrelated (Every.child he hc)).2 hc'
    · obtain ⟨c, hc, hrelated⟩ := exists_related_child hcs c' hc'
      exact (hrelated (Every.child he hc)).1

/-- An expression confines what it did. -/
theorem confining_refl (e : Expr) : Confining guards e e := fun he => ⟨he, id⟩

/-- A product in the place of a negated operand. -/
theorem multiply_related {R : Expr → Expr → Prop} (hR : IsCongruence R) (hrefl : ∀ e, R e e)
    (hneg : ∀ ty x, R (.unary ty .neg x) (AtanOperand.multiply ty x)) (e : Expr) :
    R e (AtanOperand.multiplyNode e) := by
  refine AtanOperand.multiplyNode_holds (P := R e) (hrefl e) ?_
  rintro ty y xTy x rfl -
  exact hR.congr (e := .call ty (.intrinsic .atan) [y, .unary xTy .neg x])
    (.cons (hrefl y) (.cons (hneg xTy x) .nil))

/-- Multiplying the operand of an arc tangent is confining. -/
theorem multiply_confining (e : Expr) : Confining guards e (AtanOperand.multiplyNode e) := by
  refine multiply_related isCongruence_confining confining_refl (fun ty x he => ?_) e
  have hx := he.confines_child (by simp [isHome, isFract]) x List.mem_cons_self
  have hone : Confines isIntAbs (isHome guards) (.float .minusOne) :=
    confines_node rfl nofun
  have hproduct : Confines isIntAbs (isHome guards) (AtanOperand.multiply ty x) :=
    confines_node rfl (List.forall_mem_cons.mpr ⟨hone, List.forall_mem_singleton.mpr hx⟩)
  exact ⟨hproduct.below, fun _ => hproduct.outermost⟩

/-- Normalizing a swizzle is confining. -/
theorem normalize_confining (e : Expr) :
    Yields (Confining guards e) (Expr.normalizeSwizzle e) := by
  refine .of_forall_ok fun e' he' he => ?_
  unfold Expr.normalizeSwizzle at he'
  split at he'
  · next ty base mask =>
    have hbase := he.confines_child (by simp [isHome, isFract]) base List.mem_cons_self
    have hflat : (flattenSwizzle base mask).1.Confines isIntAbs (isHome guards) := by
      -- A swizzle is no home, so what is confined in it is confined in its base.
      unfold flattenSwizzle
      split
      · split
        · exact hbase.below.confines_child (by simp [isHome, isFract]) _ List.mem_cons_self
        · exact hbase
      · exact hbase
    dsimp only at he'
    split at he'
    · cases he'
    · obtain rfl := Except.ok.inj he'
      have hpart : MadeOf false (Confines isIntAbs (isHome guards)) (flattenSwizzle base mask).1 :=
        .part hflat
      obtain ⟨hmade, -⟩ := Refits.madeOf_selectWithLiterals (flattenSwizzle base mask).2 ty hpart
      have hconfines := hmade.confines (fun _ => not_isIntAbs_of_isFiller) fun _ _ _ => rfl
      exact ⟨hconfines.below, fun _ => hconfines.outermost⟩
  · obtain rfl := Except.ok.inj he'
    exact ⟨he, id⟩

end

/-! ### Operands of `fract` -/

/-- No node that fills a tree is a bare fraction. -/
theorem not_isBareFract_of_isFiller {e : Expr} (h : e.isFiller false = true) :
    e.isBareFract = false := by
  cases e with
  | call => exact absurd h (by simp [isFiller, isCall])
  | _ => rfl

/-- A fraction is bare if its operand is not guarded. -/
theorem isBareFract_eq_false_iff {e : Expr} :
    e.isBareFract = false ↔ ∀ x, Fract.operand? e = some x → x.isAbs = true := by
  constructor
  · intro h x hx
    obtain ⟨ty, hfloat, rfl⟩ := Fract.eq_of_operand? hx
    simpa [isBareFract, hfloat] using h
  · intro h
    unfold isBareFract
    split
    · next ty x =>
      cases hfloat : ty.isFloat with
      | false => rfl
      | true => simp [h x (if_pos hfloat)]
    · rfl

/-- What is no float `fract` is no bare one. -/
theorem not_isBareFract_of_operand? {e : Expr} (h : Fract.operand? e = none) :
    e.isBareFract = false :=
  isBareFract_eq_false_iff.mpr fun x hx => by
    rw [h] at hx
    cases hx

/-- The guard gives `fract` an absolute value. -/
theorem guarded_avoids {x : Expr} (ty : Ty) (hx : x.any isBareFract = false) :
    (Fract.guarded x ty).any isBareFract = false := by
  have hcall : ∀ {callTy f y}, isBareFract (.call callTy (.intrinsic f) [y]) = false →
      y.any isBareFract = false → (call callTy (.intrinsic f) [y]).any isBareFract = false :=
    fun hnode hy => any_eq_false_iff.mpr ⟨hnode, List.forall_mem_singleton.mpr hy⟩
  -- The inner call has an absolute value for its operand, so it is not bare.
  have hfract : isBareFract (.ofCall .fract [.ofCall .abs [x]]) = false := by
    refine isBareFract_eq_false_iff.mpr fun y hy => ?_
    obtain ⟨_, -, heq⟩ := Fract.eq_of_operand? hy
    obtain ⟨-, -, ⟨rfl, -⟩⟩ := Expr.call.inj heq
    rfl
  exact (Refits.madeOf_guarded (P := fun d => d.any isBareFract = false) ty
    (.part (hcall rfl hx)) (.part (hcall hfract (hcall rfl hx)))).any_eq_false
      (fun _ => not_isBareFract_of_isFiller) (fun _ _ _ => rfl) fun _ hd => hd

/-- Guarding leaves no float `fract` without an absolute value. -/
theorem guard_avoids (e : Expr) :
    unvalued.Holds (fun e' => e'.any isBareFract = false) (e.bottomUpM Fract.guardNode) := by
  refine bottomUpM_holds (R := fun _ e' => e'.any isBareFract = false) unvalued
    (fun e cs hcs => ?_) e
  -- The children that were put in avoid it by induction.
  have hchildren : ∀ c ∈ (e.withChildren cs).children, c.any isBareFract = false := fun c hc =>
    have ⟨_, _, h⟩ := exists_related_child hcs c hc
    h
  refine guardNode_holds ?_ ?_ guarded_avoids hchildren fun hnone => ?_
  · exact fun _ _ => rfl
  · exact fun hl hr => any_eq_false_iff.mpr
      ⟨rfl, List.forall_mem_cons.mpr ⟨hl, List.forall_mem_singleton.mpr hr⟩⟩
  · exact any_eq_false_iff.mpr ⟨not_isBareFract_of_operand? hnone, hchildren⟩

/-- After guarding no fraction is bare. -/
theorem guardPure_avoids (e : Expr) : (e.bottomUp Fract.guardPure).any isBareFract = false := by
  refine bottomUp_related (R := fun _ e' => e'.any isBareFract = false) (fun e cs hcs => ?_) e
  have hchildren : ∀ c ∈ (e.withChildren cs).children, c.any isBareFract = false := fun c hc =>
    have ⟨_, _, h⟩ := exists_related_child hcs c hc
    h
  exact guardPure_holds guarded_avoids hchildren fun hnone =>
    any_eq_false_iff.mpr ⟨not_isBareFract_of_operand? hnone, hchildren⟩

/-- A rule after the one for fractions leaves what is an absolute value one, and so every operand of
    `fract`. -/
structure KeepsGuards (e e' : Expr) : Prop where
  bare : e.any isBareFract = false → e'.any isBareFract = false
  abs : e.isAbs = true → e'.isAbs = true

/-- A swizzle or a negation. -/
def isSelectionOrNegation : Expr → Bool
  | .swizzle _ _ _ | .unary _ .neg _ => true
  | _ => false

/-- The rules after the guard keep the operands guarded. -/
theorem refits_keepsGuards : Refits false isSelectionOrNegation KeepsGuards where
  refl _ := ⟨id, id⟩
  trans h h' := ⟨h'.bare ∘ h.bare, h'.abs ∘ h.abs⟩
  congr {e cs} hcs := by
    refine ⟨fun he => ?_, fun habs => (isAbs_withChildren e cs).trans habs⟩
    obtain ⟨hnode, hchildren⟩ := any_eq_false_iff.mp he
    refine any_eq_false_iff.mpr ⟨isBareFract_eq_false_iff.mpr fun x' hx' => ?_, fun c' hc' => ?_⟩
    · -- A fraction is rewritten to one, and its operand stays an absolute value.
      obtain ⟨ty, hfloat, heq⟩ := Fract.eq_of_operand? hx'
      have hhead : e.head = .call (.intrinsic .fract) 1 := by
        rw [← head_withChildren hcs.length_eq.symm, heq]
        rfl
      obtain ⟨eTy, args, rfl, -⟩ := eq_call_of_head hhead
      obtain ⟨rfl, -, rfl⟩ := Expr.call.inj heq
      obtain _ | ⟨hrelated, _ | _⟩ := hcs
      exact hrelated.abs (isBareFract_eq_false_iff.mp hnode _ (if_pos hfloat))
    · obtain ⟨c, hc, hrelated⟩ := exists_related_child hcs c' hc'
      exact hrelated.bare (hchildren c hc)
  remake {e e'} he hmade _ := by
    refine ⟨fun hbare => ?_, fun habs => ?_⟩
    · exact hmade.any_eq_false (fun _ => not_isBareFract_of_isFiller) (fun _ _ _ => rfl)
        fun _ hd => hd.any_eq_false hbare
    · -- What is replaced is a selection or a negation, and so no absolute value.
      cases e with
      | call => exact absurd he (by simp [isSelectionOrNegation])
      | _ => exact absurd habs (by simp [isAbs])

/-- Multiplying the operand of an arc tangent keeps fractions guarded. -/
theorem multiply_keepsGuards (e : Expr) : KeepsGuards e (AtanOperand.multiplyNode e) := by
  refine multiply_related refits_keepsGuards.toIsCongruence refits_keepsGuards.refl
    (fun ty x => ?_) e
  have hx : Inside (.unary ty .neg x) x := .child .self rfl List.mem_cons_self
  exact refits_keepsGuards.remake_unreached rfl (.binary rfl (.literal _) (.part hx)) rfl

/-! ### Programs -/

variable {t : Target} {p : Program}

/-- A call of a function without arguments. -/
theorem confines_userCall {q home : Expr → Bool} {name : String} {ty : Ty}
    (hq : q (.ofUserCall name [] ty) = false) : (Expr.ofUserCall name [] ty).Confines q home :=
  confines_node hq nofun

/-- Once the rule for them has run, there are no absolute values of integers until fractions are
    guarded. -/
theorem emulated (hneeds : t.profile.needs .emulateIntAbs = true) :
    Yields (Program.All fun e => e.any isIntAbs = false)
      ((rulesBefore "negative_fract").foldlM (Rule.step t) p) := by
  have hsplit : rulesBefore "negative_fract" = rulesBefore "int_abs" ++
      .workaround "int_abs" .emulateIntAbs (fun p => liftM (IntAbs.legalize p)) ::
        rulesBetween "int_abs" "negative_fract" := rfl
  refine foldlM_yields_at (P := fun _ => True) hsplit (.of_forall (fun _ => trivial) _)
    (fun p _ => ?_) fun r hr p hp => ?_
  · refine step_workaround hneeds (Yields.lift ?_)
    exact Program.mapExprsM_yields (Q := fun _ => True) (fun e _ => emulate_avoids e)
      (Program.all_iff_meets.mpr p.meets_anything)
  · -- Between the two rules only minima are split, which adds no call.
    obtain rfl := List.mem_singleton.mp hr
    have hR := refits_avoids_intAbs isCall
    have hsplit : ∀ e : Expr, unvalued.Holds
        (fun e' : Expr => e.any isIntAbs = false → e'.any isIntAbs = false)
        (e.bottomUpM MinAbs.splitNode) := fun e =>
      unvalued_of_declaring (hR.bottomUpM_holds _ (hR.split (fun _ _ => rfl) fun _ _ => trivial) e)
    exact yields_step hp ((Replaces.minAbs hsplit fun _ _ => id).all id (fun _ _ => rfl) hp)

/-- On a target without absolute values of integers, those that are left stand directly below a
    `fract`, and only if the target needs its operand guarded. -/
theorem legalize_confines_abs (hneeds : t.profile.needs .emulateIntAbs = true) :
    Yields (Program.All (Confines isIntAbs (isHome (t.profile.needs .guardFract))))
      (legalize t p) := by
  refine foldlM_yields_at (pipeline_eq "negative_fract" rfl) (emulated hneeds) (fun p hp => ?_)
    fun r hr p hp => ?_
  · -- The rule itself puts absolute values under its fractions, and only there.
    refine yields_step_cases (fun henabled => ?_) fun _ => hp.mono fun e he => confines_of_any he
    have hguards : t.profile.needs .guardFract = true := henabled
    rw [hguards]
    exact (Replaces.fract guard_confines guardPure_confines).all id (fun _ _ => rfl) hp
  · refine yields_step hp ?_
    simp only [rulesAfter, pipeline, List.dropWhile, Rule.name_always, Rule.name_workaround,
      String.reduceBNe, List.tail_cons, List.mem_cons, List.not_mem_nil, or_false] at hr
    obtain rfl | rfl := hr
    · -- After it the arc tangents and the swizzles are rewritten.
      exact (Replaces.mapNodes (isCongruence_confining.bottomUp multiply_confining)).all
        Confining.confines (fun _ _ => confines_userCall rfl) hp
    · exact (Replaces.mapNodesM
        (isCongruence_confining.bottomUpM_holds .yields normalize_confining)).all
          Confining.confines (fun _ _ => confines_userCall rfl) hp

/-- On a target whose `fract` needs its operand guarded, every float one is given an absolute
    value. -/
theorem legalize_guards_fract (hneeds : t.profile.needs .guardFract = true) :
    Yields (Program.All fun e => e.any isBareFract = false) (legalize t p) := by
  refine foldlM_yields_at (P := fun _ => True) (pipeline_eq "negative_fract" rfl)
    (.of_forall (fun _ => trivial) _) (fun p _ => ?_) fun r hr p hp => ?_
  · -- Whatever the fractions were before, the rule guards all of them.
    exact step_workaround hneeds ((Replaces.fract guard_avoids guardPure_avoids).all
      (Q := fun _ => True) (fun h _ => h) (fun _ _ => trivial)
        (Program.all_iff_meets.mpr p.meets_anything))
  · refine yields_step hp ?_
    have hnormalize := refits_keepsGuards.bottomUpM_holds .yields
      (refits_keepsGuards.normalize fun _ _ _ => rfl)
    simp only [rulesAfter, pipeline, List.dropWhile, Rule.name_always, Rule.name_workaround,
      String.reduceBNe, List.tail_cons, List.mem_cons, List.not_mem_nil, or_false] at hr
    obtain rfl | rfl := hr
    · exact (Replaces.mapNodes (refits_keepsGuards.bottomUp multiply_keepsGuards)).all
        KeepsGuards.bare (fun _ _ => rfl) hp
    · exact (Replaces.mapNodesM hnormalize).all KeepsGuards.bare (fun _ _ => rfl) hp

end Legalize

end ShaderGen
