import ShaderGen.Proofs.Rewriting
import ShaderGen.Proofs.Swizzle.Step

/-!
# Normal swizzles are normal

`Expr.isNormal` says what a normal form is without saying how one is made. What
`Expr.normalizeSwizzles` returns is normal, and is returned unchanged if it is given back, with
the type on every node. A node that is left unchanged is *stable*: besides being normal, its mask
fits what it is applied to, and the type on it is the one that its base gives it. Every new
swizzle has its type derived from its base, so it is stable even where the type of the swizzle
that it stands for is not the one that the normal base would give it.

## Key results

- `Expr.normalizeSwizzles_stable`: the result is normal and its own normal form, and constants that
  were selected are in constructors with at most one swizzle on top
-/

namespace ShaderGen.Expr

/-- Whether the type on a swizzle is the one that its base and the length of its mask give it, as
    it is where the builder made the swizzle. -/
def derivesSwizzle : Expr → Bool
  | .swizzle ty base mask => ty == base.ty.selected mask.length
  | _ => true

/-- Whether a swizzle is a mask of lanes other than the identity, over what is neither a swizzle
    nor a scalar. -/
def isNormalNode : Expr → Bool
  | .swizzle _ base mask =>
    !base.isSwizzle && !base.ty.isScalar && !mask.any Selector.isLiteral &&
      !base.ty.swizzleWidth?.any mask.isIdentity
  | _ => true

/-- Whether every swizzle of an expression is in normal form. -/
def isNormal (e : Expr) : Bool := !e.any fun n => !n.isNormalNode

/-- Whether an expression selects constants. -/
def selectsLiterals : Expr → Bool
  | .swizzle _ _ mask => mask.any Selector.isLiteral
  | _ => false

/-- Whether an expression is a constructor with at most one swizzle on top, or a constructor that
    is only reached after something else was evaluated. -/
def isLowered : Expr → Bool
  | .construct _ _ | .swizzle _ (.construct _ _) _ | .binary _ .comma _ (.construct _ _) => true
  | _ => false

/-- Whether a node is its own normal form. -/
def isStable : Expr → Bool
  | .swizzle ty base mask =>
    (swizzle ty base mask).isNormalNode && (swizzle ty base mask).derivesSwizzle &&
      (maskDefect? base.ty mask).isNone
  | _ => true

/-- Whether all nodes of an expression are stable. -/
def AllStable (e : Expr) : Prop := e.any (fun n => !n.isStable) = false

/-! ### Stable expressions are left unchanged -/

/-- A stable node is in normal form. -/
theorem isNormalNode_of_isStable {e : Expr} (h : e.isStable = true) : e.isNormalNode = true := by
  cases e with
  | swizzle ty base mask =>
    rw [isStable, Bool.and_eq_true, Bool.and_eq_true] at h
    exact h.1.1
  | _ => rfl

/-- A tree of stable nodes is in normal form. -/
theorem AllStable.isNormal {e : Expr} (h : e.AllStable) : e.isNormal = true := by
  rw [Expr.isNormal, Bool.not_eq_true']
  refine any_mono (fun n hn => ?_) h
  rw [Bool.not_eq_true'] at hn ⊢
  rw [Bool.eq_false_iff] at hn ⊢
  exact fun hstable => hn (isNormalNode_of_isStable hstable)

/-- A stable node is its own normal form. -/
theorem normalizeSwizzle_of_isStable {e : Expr} (h : e.isStable = true) :
    e.normalizeSwizzle = .ok e := by
  cases e with
  | swizzle ty base mask =>
    simp only [isStable, isNormalNode, derivesSwizzle, Bool.and_eq_true, Bool.not_eq_true',
      beq_iff_eq, Option.isNone_iff_eq_none] at h
    obtain ⟨⟨⟨⟨⟨hbase, hscalar⟩, hlanes⟩, hidentity⟩, hty⟩, hdefect⟩ := h
    -- There is nothing to flatten, no literal to restore and no identity to elide.
    have hflat : flattenSwizzle base mask = (base, mask) := by
      cases base <;> first | rfl | exact absurd hbase (by simp [isSwizzle])
    have hselect : base.select mask = .swizzle ty base mask := by
      rw [select, if_neg (by simp [hscalar]), if_neg (by simp [hidentity]), hty]
      rfl
    simp [normalizeSwizzle, hflat, hdefect, selectWithLiterals, hlanes, hselect]
  | _ => rfl

/-- A stable expression is its own normal form. -/
theorem AllStable.normalizeSwizzles {e : Expr} (h : e.AllStable) :
    e.normalizeSwizzles = .ok e := by
  induction e using induction_children with
  | h e ih =>
    obtain ⟨hnode, hchildren⟩ := any_eq_false_iff.mp h
    -- Stable children are left as they are, so only the node itself can change.
    have hargs : ∀ {cs : List Expr}, (∀ c ∈ cs, c.normalizeSwizzles = .ok c) →
        cs.mapM (bottomUpM normalizeSwizzle) = (.ok cs : Except Malformation (List Expr)) := by
      intro cs hcs
      induction cs with
      | nil => rfl
      | cons c cs ihs =>
        rw [List.mapM_cons, show bottomUpM normalizeSwizzle c = .ok c from hcs c List.mem_cons_self,
          ihs fun d hd => hcs d (List.mem_cons_of_mem _ hd)]
        rfl
    rw [Expr.normalizeSwizzles, bottomUpM_eq, hargs fun c hc => ih c hc (hchildren c hc)]
    show normalizeSwizzle (e.withChildren e.children) = _
    rw [withChildren_children]
    exact normalizeSwizzle_of_isStable (by simpa using hnode)

/-! ### Normal forms are stable -/

section

variable {base : Expr} {mask : Mask} {ty : Ty}

/-- A tree is stable if its root is and its subtrees are. -/
theorem allStable_iff {e : Expr} :
    e.AllStable ↔ e.isStable = true ∧ ∀ c ∈ e.children, c.AllStable := by
  rw [AllStable, any_eq_false_iff, Bool.not_eq_false']
  rfl

/-- What is wrong with no mask of a value. -/
theorem maskDefect?_eq_none_iff {base : Ty} :
    maskDefect? base mask = none ↔ ∃ width, base.swizzleWidth? = some width ∧ mask ≠ [] ∧
      mask.length ≤ Mask.maxLength ∧ ∀ s ∈ mask, s.reachesPast width = false := by
  unfold maskDefect?
  cases base.swizzleWidth? with
  | none => simp
  | some width =>
    -- Of a base with a width, the length is checked first and the lanes after it.
    simp only [Mask.firstPast?, Option.some.injEq, exists_eq_left']
    split
    · next h =>
      simp only [reduceCtorEq, false_iff, not_and]
      intro hne hlen
      simp only [Bool.or_eq_true, List.isEmpty_iff, decide_eq_true_eq] at h
      rcases h with h | h
      · exact absurd h hne
      · exact absurd hlen (Nat.not_le.mpr h)
    · next h =>
      simp only [Bool.or_eq_true, List.isEmpty_iff, decide_eq_true_eq, not_or, Nat.not_lt] at h
      simp [List.find?_eq_none, h.1, h.2]

/-- A mask of lanes over a stable expression that is no swizzle gives a stable one. -/
theorem allStable_select (hbase : base.AllStable) (hswizzle : base.isSwizzle = false)
    (hlanes : mask.any Selector.isLiteral = false) (hdefect : maskDefect? base.ty mask = none) :
    (base.select mask).AllStable := by
  unfold select
  split
  · split
    · exact hbase
    · exact allStable_iff.mpr ⟨rfl, by simpa [children, ofConstruct] using hbase⟩
  · next hscalar =>
    split
    · exact hbase
    · next hidentity =>
      -- The new swizzle has lanes only, selects less than all of a vector, and is over no swizzle.
      refine allStable_iff.mpr ⟨?_, by simpa [children, ofSwizzle] using hbase⟩
      simp [ofSwizzle, isStable, isNormalNode, derivesSwizzle, hswizzle, hscalar, hlanes, hdefect,
        hidentity, Ty.selected]

/-- A unit is stable. -/
theorem allStable_unit (kind : ScalarKind) (one : Bool) : (unit kind one).AllStable := by
  cases kind <;> exact allStable_iff.mpr ⟨rfl, fun c hc => absurd hc List.not_mem_nil⟩

/-- Arguments of a constructor. -/
theorem allStable_construct {args : List Expr} (h : ∀ arg ∈ args, arg.AllStable) :
    (ofConstruct ty args).AllStable :=
  allStable_iff.mpr ⟨rfl, h⟩

/-- The literals of a mask are stable. -/
theorem allStable_literalArgs (kind : ScalarKind) (mask : Mask) :
    ∀ arg ∈ literalArgs kind mask, arg.AllStable := by
  intro arg harg
  obtain ⟨s, -, rfl⟩ := List.mem_map.mp harg
  exact allStable_unit kind _

/-- Type of what a mask of two to four selectors selects. -/
private theorem vector_of_derived {ty b : Ty} (hty : ty = b.selected mask.length)
    (htwo : 2 ≤ mask.length) (hshort : mask.length ≤ 4) :
    ty.isScalar = false ∧ ty.swizzleWidth? = some mask.length ∧ ty.selected mask.length = ty := by
  have hvector : ty = .vector b.componentKind mask.length b.precision := by
    rw [hty, Ty.selected, Ty.withComponents, if_neg (by omega), Nat.mod_eq_of_lt (by omega)]
  have hself : ty.selected mask.length = ty := by rw [hty, Ty.selected_selected]
  exact ⟨by rw [hvector]; rfl, by rw [hvector]; rfl, hself⟩

/-- The mask that restores the order of lanes and constants fits what holds them. -/
private theorem restoring_fits {b : Ty} (hty : ty = b.selected mask.length)
    (htwo : 2 ≤ mask.length) (hshort : mask.length ≤ 4) :
    (mask.restoring 0 mask.lanes.length).any Selector.isLiteral = false ∧
      maskDefect? ty (mask.restoring 0 mask.lanes.length) = none := by
  have hsum := mask.length_lanes_add_literals
  -- What restores the order selects lanes only, none of them past the mask.
  have hmem : ∀ s ∈ mask.restoring 0 mask.lanes.length, ∃ i < mask.length, s = .ofLane i :=
    fun s hs => Mask.lane_of_mem_restoring hs (by omega) (by omega)
  have hlane : ∀ s ∈ mask.restoring 0 mask.lanes.length, ∃ i < mask.length, s.lane? = some i := by
    intro s hs
    obtain ⟨i, hi, rfl⟩ := hmem s hs
    exact ⟨i, hi, Selector.lane?_ofLane (by omega)⟩
  constructor
  · rw [List.any_eq_false]
    intro s hs
    obtain ⟨i, -, hi⟩ := hlane s hs
    simp [Selector.isLiteral, hi]
  · refine maskDefect?_eq_none_iff.mpr
      ⟨mask.length, (vector_of_derived hty htwo hshort).2.1, ?_, ?_, fun s hs => ?_⟩
    · exact List.ne_nil_of_length_pos (by rw [Mask.length_restoring]; omega)
    · rw [Mask.length_restoring]
      exact hshort
    · obtain ⟨i, hi, hs⟩ := hlane s hs
      simp [Selector.reachesPast, hs, hi]

/-- A mask over a stable expression that is no swizzle gives a stable one; where it has constants,
    it gives a constructor with at most one swizzle on top. -/
theorem allStable_selectWithLiterals {b : Ty} (hbase : base.AllStable)
    (hswizzle : base.isSwizzle = false) (hdefect : maskDefect? base.ty mask = none)
    (hty : ty = b.selected mask.length) :
    (base.selectWithLiterals mask ty).AllStable ∧
      (mask.any Selector.isLiteral = true →
        (base.selectWithLiterals mask ty).isLowered = true) := by
  unfold selectWithLiterals
  split
  · next hnone =>
    rw [Bool.not_eq_true'] at hnone
    -- With no literal this is a plain selection.
    exact ⟨allStable_select hbase hswizzle hnone hdefect, fun h => absurd h (by simp [hnone])⟩
  · next hsome =>
    have hconstants := allStable_literalArgs base.ty.componentKind mask
    dsimp only
    split
    · -- With no lane it is a constant, and the base is kept for its effects if it has some.
      have hconstant : (ofConstruct ty (literalArgs base.ty.componentKind mask)).AllStable :=
        allStable_construct hconstants
      split
      · refine ⟨allStable_iff.mpr ⟨rfl, ?_⟩, fun _ => rfl⟩
        simpa [children, ofBinary] using ⟨hbase, hconstant⟩
      · exact ⟨hconstant, fun _ => rfl⟩
    · next hlanes =>
      obtain ⟨width, hwidth, -, hshort, hrange⟩ := maskDefect?_eq_none_iff.mp hdefect
      -- There is a lane, and there is a constant, so the mask has two selectors at least.
      have hsum := mask.length_lanes_add_literals
      have hlane : 1 ≤ mask.lanes.length :=
        List.length_pos_iff.mpr fun hnil => hlanes (List.isEmpty_iff.mpr hnil)
      have hliteral : 1 ≤ mask.literals.length := by
        obtain ⟨s, hs, hslit⟩ := List.any_eq_true.mp (by simpa using hsome)
        exact List.length_pos_iff.mpr (List.ne_nil_of_mem (List.mem_filter.mpr ⟨hs, hslit⟩))
      have hlanesDefect : maskDefect? base.ty mask.lanes = none := by
        refine maskDefect?_eq_none_iff.mpr ⟨width, hwidth, List.length_pos_iff.mp hlane, ?_, ?_⟩
        · exact Nat.le_trans (by omega) hshort
        · exact fun s hs => hrange s (List.mem_filter.mp hs).1
      have hselected : (base.select mask.lanes).AllStable := by
        refine allStable_select hbase hswizzle ?_ hlanesDefect
        rw [List.any_eq_false]
        exact fun s hs => by simpa using (List.mem_filter.mp hs).2
      have hgathered : (ofConstruct ty (base.select mask.lanes ::
          literalArgs base.ty.componentKind mask)).AllStable :=
        allStable_construct (List.forall_mem_cons.mpr ⟨hselected, hconstants⟩)
      obtain ⟨hrestoring, hfits⟩ := restoring_fits hty (by omega) hshort
      obtain ⟨hvector, -, hself⟩ := vector_of_derived hty (by omega) hshort
      -- What restores the order has the type of the swizzle already.
      have hordered : ∀ args : List Expr, ((ofConstruct ty args).select
          (mask.restoring 0 mask.lanes.length)).ty = ty := by
        intro args
        have hscalar : (ofConstruct ty args).ty.isScalar = false := hvector
        rw [select, if_neg (by simp [hscalar])]
        split
        · rfl
        · show (ofConstruct ty args).ty.selected (mask.restoring 0 mask.lanes.length).length = ty
          rw [Mask.length_restoring]
          exact hself
      refine ⟨?_, fun _ => ?_⟩
      · show Expr.AllStable (withTy ty (select _ (mask.restoring 0 mask.lanes.length)))
        rw [withTy_of_ty_eq (hordered _)]
        exact allStable_select hgathered rfl hrestoring hfits
      · show Expr.isLowered (withTy ty (select _ (mask.restoring 0 mask.lanes.length))) = true
        rw [withTy_of_ty_eq (hordered _), select]
        have hscalar : ∀ args, (ofConstruct ty args).ty.isScalar = false := fun _ => hvector
        rw [if_neg (by simp [hscalar])]
        split <;> rfl

/-- A mask over a stable expression, taken together with a swizzle directly under it, is over one
    that is no swizzle. -/
theorem flattenSwizzle_stable (hbase : base.AllStable) :
    ∃ base' mask', flattenSwizzle base mask = (base', mask') ∧
      (maskDefect? base'.ty mask' = none → base'.AllStable ∧ base'.isSwizzle = false ∧
        mask'.length = mask.length ∧
        mask'.any Selector.isLiteral = mask.any Selector.isLiteral) := by
  cases base with
  | swizzle innerTy inner innerMask =>
    obtain ⟨hnode, hchildren⟩ := allStable_iff.mp hbase
    simp only [isStable, isNormalNode, derivesSwizzle, Bool.and_eq_true, Bool.not_eq_true',
      beq_iff_eq, Option.isNone_iff_eq_none] at hnode
    obtain ⟨⟨⟨⟨⟨hinner, -⟩, hlanes⟩, -⟩, hty⟩, hdefect⟩ := hnode
    cases hcompose : innerMask.compose? mask with
    | some composed =>
      refine ⟨inner, composed, by simp [flattenSwizzle, hcompose], fun _ => ?_⟩
      exact ⟨hchildren inner (by simp [children]), hinner, Mask.shape_of_compose? hlanes hcompose⟩
    | none =>
      refine ⟨_, mask, by simp [flattenSwizzle, hcompose]; rfl, fun hnone => ?_⟩
      -- The inner swizzle has as many lanes as its mask, and the outer mask reaches past them.
      obtain ⟨_, -, hne, hshort, -⟩ := maskDefect?_eq_none_iff.mp hdefect
      have hlen : 1 ≤ innerMask.length := List.length_pos_iff.mpr hne
      obtain ⟨width, hwidth, -, -, hrange⟩ := maskDefect?_eq_none_iff.mp hnone
      rw [show (swizzle innerTy inner innerMask).ty = innerTy from rfl, hty,
        Ty.swizzleWidth?_eq (Ty.isScalarOrVector_selected _ hshort),
        Ty.laneCount_selected _ hlen hshort, Option.some.injEq] at hwidth
      subst hwidth
      obtain ⟨composed, hsome, -⟩ := Mask.exists_compose? hrange
      exact absurd (hcompose.symm.trans hsome) (by simp)
  | _ => exact ⟨_, mask, rfl, fun _ => ⟨hbase, rfl, rfl, rfl⟩⟩

end

/-- What a node becomes whose children are stable and whose swizzle has a derived type. -/
theorem normalizeSwizzle_stable {e e' : Expr} (hchildren : ∀ c ∈ e.children, c.AllStable)
    (hty : ∀ ty base mask, e = .swizzle ty base mask → ∃ b : Ty, ty = b.selected mask.length)
    (h : e.normalizeSwizzle = .ok e') :
    e'.AllStable ∧ (e.selectsLiterals = true → e'.isLowered = true) := by
  cases e with
  | swizzle ty base mask =>
    obtain ⟨b, hb⟩ := hty ty base mask rfl
    obtain ⟨base', mask', hflat, hrest⟩ :=
      @flattenSwizzle_stable base mask (hchildren base (by simp [children]))
    -- The mask is checked after the swizzles under it are merged into one.
    rw [normalizeSwizzle, hflat] at h
    cases hdefect : maskDefect? base'.ty mask' with
    | some defect => exact absurd h (by simp [hdefect])
    | none =>
      obtain ⟨hbase, hswizzle, hlen, hany⟩ := hrest hdefect
      obtain rfl : base'.selectWithLiterals mask' ty = e' := by simpa [hdefect] using h
      rw [← hlen] at hb
      have hstable := allStable_selectWithLiterals hbase hswizzle hdefect hb
      exact ⟨hstable.1, fun hlit => hstable.2 (hany.trans hlit)⟩
  | _ =>
    cases h
    exact ⟨allStable_iff.mpr ⟨rfl, hchildren⟩, fun hlit => absurd hlit Bool.false_ne_true⟩

/-- Only a swizzle becomes one over other children. -/
private theorem exists_swizzle_of_withChildren {e base : Expr} {cs : List Expr} {ty : Ty}
    {mask : Mask} (h : e.withChildren cs = .swizzle ty base mask) :
    ∃ base', e = .swizzle ty base' mask := by
  unfold withChildren at h
  split at h <;> cases h <;> exact ⟨_, rfl⟩

/-- Whether a node selects literals is told by the node itself. -/
@[simp] theorem selectsLiterals_withChildren (e : Expr) (cs : List Expr) :
    (e.withChildren cs).selectsLiterals = e.selectsLiterals := by
  unfold withChildren
  split <;> rfl

/-- What an expression whose swizzles have derived types becomes. -/
def BecomesStable (e e' : Expr) : Prop :=
  e.any (fun n => !n.derivesSwizzle) = false →
    e'.AllStable ∧ (e.selectsLiterals = true → e'.isLowered = true)

/-- What the pass returns is stable. -/
theorem normalizeSwizzles_yields (e : Expr) :
    Yields (BecomesStable e) (e.bottomUpM normalizeSwizzle) := by
  refine bottomUpM_yields (fun e cs hcs => .of_forall_ok fun e' he' hty => ?_) e
  obtain ⟨hnode, hbelow⟩ := any_eq_false_iff.mp hty
  have hstable : ∀ c ∈ cs, c.AllStable := by
    intro c hc
    obtain ⟨i, hi, rfl⟩ := List.getElem_of_mem hc
    have hi' : i < e.children.length := hcs.length_eq ▸ hi
    exact (hcs.get hi' hi (hbelow _ (List.getElem_mem hi'))).1
  -- The node stands over the new children by now, and what it selects has not changed.
  rw [← children_withChildren hcs.length_eq.symm] at hstable
  rw [← selectsLiterals_withChildren e cs]
  refine normalizeSwizzle_stable hstable (fun ty base mask heq => ?_) he'
  obtain ⟨base', rfl⟩ := exists_swizzle_of_withChildren heq
  exact ⟨base'.ty, by simpa [derivesSwizzle] using hnode⟩

/-- `d.Within e` says that `d` is `e` or stands somewhere in it. -/
inductive Within (d : Expr) : Expr → Prop where
  | self : Within d d
  | inChild {e c} (hc : c ∈ e.children) (h : Within d c) : Within d e

/-- If all of several computations succeed, each of them does. -/
private theorem exists_ok_of_mapM {α β ε : Type} {f : α → Except ε β} {as : List α} {bs : List β}
    (h : as.mapM f = .ok bs) : ∀ a ∈ as, ∃ b, f a = .ok b := by
  induction as generalizing bs with
  | nil => exact fun a ha => absurd ha List.not_mem_nil
  | cons a as ih =>
    rw [List.mapM_cons] at h
    -- The first computation succeeds, since otherwise all would have failed.
    cases ha : f a with
    | error defect => exact absurd (ha ▸ h) (by simp [bind, Except.bind])
    | ok b =>
      cases has : as.mapM f with
      | error defect => exact absurd (has ▸ ha ▸ h) (by simp [bind, Except.bind])
      | ok bs' => exact List.forall_mem_cons.mpr ⟨⟨b, ha⟩, ih has⟩

/-- What stands in an expression that has a normal form has one as well. -/
theorem Within.exists_normal {d e e' : Expr} (h : d.Within e) (he : e.normalizeSwizzles = .ok e')
    (hty : e.any (fun n => !n.derivesSwizzle) = false) :
    d.any (fun n => !n.derivesSwizzle) = false ∧ ∃ d', d.normalizeSwizzles = .ok d' := by
  induction h generalizing e' with
  | self => exact ⟨hty, e', he⟩
  | @inChild e c hc h ih =>
    rw [normalizeSwizzles, bottomUpM_eq] at he
    -- A child of something with a normal form has one, by the walk over the children.
    cases hcs : e.children.mapM (bottomUpM normalizeSwizzle) with
    | error defect => exact absurd (hcs ▸ he) (by simp [bind, Except.bind])
    | ok cs =>
      obtain ⟨c', hc'⟩ := exists_ok_of_mapM hcs c hc
      exact ih hc' ((any_eq_false_iff.mp hty).2 c hc)

/-- What bringing the swizzles of an expression into normal form returns, if it succeeds and the
    swizzles have the types that their builder gives them: an expression that is in normal form
    and its own normal form. Wherever in the expression constants are selected, they have become
    arguments of a constructor with at most one swizzle on top. -/
theorem normalizeSwizzles_stable {e e' : Expr} (hty : e.any (fun n => !n.derivesSwizzle) = false)
    (h : e.normalizeSwizzles = .ok e') :
    e'.isNormal = true ∧ e'.normalizeSwizzles = .ok e' ∧
      ∀ d : Expr, d.Within e → d.selectsLiterals = true →
        ∃ d', d.normalizeSwizzles = .ok d' ∧ d'.isLowered = true := by
  obtain ⟨hstable, -⟩ := (normalizeSwizzles_yields e).of_ok h hty
  refine ⟨hstable.isNormal, hstable.normalizeSwizzles, fun d hd hlit => ?_⟩
  obtain ⟨hdty, d', hd'⟩ := hd.exists_normal h hty
  exact ⟨d', hd', ((normalizeSwizzles_yields d).of_ok hd' hdty).2 hlit⟩

/-- Constants move into a constructor, with the mask that puts them in order on top. -/
theorem permuted_constants_are_stable :
    let v : Expr := .ofVar "v" (.vec 4)
    let e : Expr := .ofSwizzle v [.x, .zero, .y, .one]
    let e' : Expr := .ofSwizzle
      (.ofConstruct (.vec 4) [.ofSwizzle v [.x, .y], .float .zero, .float .one]) [.x, .z, .y, .w]
    e.any (fun n => !n.derivesSwizzle) = false ∧ e.normalizeSwizzles = .ok e' ∧
      e'.isNormal = true ∧ e'.normalizeSwizzles = .ok e' := by
  intro v e e'
  have hty : e.any (fun n => !n.derivesSwizzle) = false := by decide
  have h : e.normalizeSwizzles = .ok e' := rfl
  obtain ⟨hnormal, hself, -⟩ := normalizeSwizzles_stable hty h
  exact ⟨hty, h, hnormal, hself⟩

end ShaderGen.Expr
