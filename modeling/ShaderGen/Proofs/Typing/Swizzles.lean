import ShaderGen.Proofs.Typing.Nodes

/-!
# Typed swizzles have a normal form

The normal form of a swizzle exists if the swizzle and all below it are sound, for only the shapes
of values decide whether masks can be composed and applied. What comes out is sound again and has no
constant selector.

## Key results

- `Expr.normalizeSwizzle_becomes`: the normal form of one node over children in normal form
- `Legalize.exists_normal_program`: the rule for swizzles succeeds on a sound program
-/

namespace ShaderGen

namespace Expr

/-- Whether a node is sound and selects no constants. -/
def isClean (e : Expr) : Bool := e.isSound && !e.selectsLiterals

/-- All nodes of an expression are sound, and none selects constants. -/
def Clean (e : Expr) : Prop := e.Every isClean

section

variable {ty : Ty} {a b base : Expr} {args : List Expr} {mask : Mask}

/-- Clean is sound and without selected literals. -/
theorem clean_iff : a.Clean ↔ a.Sound ∧ a.Every fun n => !n.selectsLiterals := every_and

/-- A literal is clean. -/
theorem clean_literal (value : Literal) : (literal ty value).Clean :=
  every_iff.mpr ⟨rfl, by simp [children]⟩

/-- A constructor of clean arguments is clean. -/
theorem clean_construct (h : ∀ arg ∈ args, arg.Clean) : (ofConstruct ty args).Clean :=
  every_iff.mpr ⟨rfl, h⟩

/-- A comma of clean operands is clean. -/
theorem clean_comma (ha : a.Clean) (hb : b.Clean) : (ofBinary .comma a b).Clean :=
  every_iff.mpr ⟨rfl, by simpa [ofBinary, children] using ⟨ha, hb⟩⟩

/-- A swizzle is clean when its mask fits, selects no literal, and its base is clean. -/
theorem clean_swizzle : (swizzle ty base mask).Clean ↔
    base.ty.isScalarOrVector = true ∧ ty.shape = (base.ty.selected mask.length).shape ∧
      maskDefect? base.ty mask = none ∧ mask.any Selector.isLiteral = false ∧ base.Clean := by
  refine every_iff.trans ?_
  simp [children, isClean, isSound, agrees, masksInRange, isSize, selectsLiterals, Clean, and_assoc]

/-- A mask with nothing wrong about it fits what it is over. -/
theorem fits_of_maskDefect? (hty : base.ty.isScalarOrVector = true)
    (hdefect : maskDefect? base.ty mask = none) :
    mask.Fits false base.ty (base.ty.selected mask.length) := by
  obtain ⟨width, hwidth, hne, hshort, hrange⟩ := maskDefect?_eq_none_iff.mp hdefect
  obtain rfl := Option.some.inj ((Ty.swizzleWidth?_eq hty).symm.trans hwidth)
  exact ⟨rfl, hty, List.length_pos_iff.mpr hne, hshort, hrange, nofun⟩

/-- Applying a mask of lanes. -/
theorem clean_select (hbase : base.Clean) (hfits : mask.Fits false base.ty ty)
    (hlanes : mask.any Selector.isLiteral = false) : (base.select mask).Clean := by
  refine select_holds hbase (fun ty => clean_construct (by simpa using hbase)) ?_
  exact clean_swizzle.mpr ⟨hfits.base_ok, rfl, maskDefect?_of_fits hfits, hlanes, hbase⟩

/-- The literals that a mask stands for are clean. -/
theorem clean_literalArgs (kind : ScalarKind) (mask : Mask) :
    ∀ arg ∈ literalArgs kind mask, arg.Clean := by
  intro arg harg
  obtain ⟨s, -, rfl⟩ := List.mem_map.mp harg
  cases kind <;> exact clean_literal _

/-- Applying a mask that may select constants, at a type of the shape that goes with it. -/
theorem clean_selectWithLiterals (hbase : base.Clean) (hty : base.ty.isScalarOrVector = true)
    (hshape : ty.shape = (base.ty.selected mask.length).shape)
    (hdefect : maskDefect? base.ty mask = none) :
    (base.selectWithLiterals mask ty).Clean ∧ ty.Twin (base.selectWithLiterals mask ty).ty := by
  have hfits := fits_of_maskDefect? hty hdefect
  unfold selectWithLiterals
  split
  · -- Without constants the mask selects lanes only.
    next hnone =>
    rw [Bool.not_eq_true'] at hnone
    refine ⟨clean_select hbase hfits hnone, ?_⟩
    rw [ty_select hfits]
    exact hshape
  · next hsome =>
    have hconstants := clean_literalArgs base.ty.componentKind mask
    dsimp only
    split
    · -- Constants only: the base is kept for its effects, if it has any.
      split
      · exact ⟨clean_comma hbase (clean_construct hconstants), .refl _⟩
      · exact ⟨clean_construct hconstants, .refl _⟩
    · next hlanes =>
      -- The lanes are selected first, and the constants follow them in a constructor.
      have hlane : 1 ≤ mask.lanes.length :=
        List.length_pos_iff.mpr fun hnil => hlanes (List.isEmpty_iff.mpr hnil)
      have hsum := mask.length_lanes_add_literals
      have hshort := hfits.short
      have hlanesFit : mask.lanes.Fits false base.ty (base.ty.selected mask.lanes.length) :=
        ⟨rfl, hty, hlane, by omega, fun s hs => hfits.inRange s (List.mem_filter.mp hs).1, nofun⟩
      have hselected : (base.select mask.lanes).Clean := by
        refine clean_select hbase hlanesFit (List.any_eq_false.mpr fun s hs => ?_)
        simpa using (List.mem_filter.mp hs).2
      have hgathered : (gathered base mask ty).Clean :=
        clean_construct (List.forall_mem_cons.mpr ⟨hselected, hconstants⟩)
      have hresult : ty.Twin (base.ty.selected mask.length) := hshape
      have hok : ty.isScalarOrVector = true := hresult.isScalarOrVector.trans hfits.result_ok
      have hlength : mask.length = ty.laneCount := by
        rw [hfits.length_eq, Ty.laneCount, Ty.laneCount, show _ = _ from hshape]
      obtain ⟨hrestoring, hmem⟩ := fits_restoring hlength hok hfits.nonempty
      have hordered : Mask.Fits _ false (gathered base mask ty).ty ty := hrestoring
      have hclean := clean_select hgathered hordered (List.any_eq_false.mpr (by simpa using hmem))
      rw [← withTy_of_ty_eq (ty_select hordered)] at hclean
      exact ⟨hclean, by rw [ty_withTy]⟩

/-- A mask taken together with the one directly under it. -/
theorem exists_flattened (hbase : base.Clean) (hok : base.ty.isScalarOrVector = true)
    (hshape : ty.shape = (base.ty.selected mask.length).shape)
    (hdefect : maskDefect? base.ty mask = none) :
    ∃ base' mask', flattenSwizzle base mask = (base', mask') ∧ base'.Clean ∧
      base'.ty.isScalarOrVector = true ∧ ty.shape = (base'.ty.selected mask'.length).shape ∧
        maskDefect? base'.ty mask' = none := by
  cases base with
  | swizzle innerTy inner innerMask =>
    obtain ⟨hinner, hinnerShape, hinnerDefect, -, hinnerClean⟩ := clean_swizzle.mp hbase
    have hinnerFits := fits_of_maskDefect? hinner hinnerDefect
    have hfits := fits_of_maskDefect? hok hdefect
    have hrange := hfits.inRange
    -- The outer mask selects among the lanes of the inner swizzle.
    have hcount : Ty.laneCount (swizzle innerTy inner innerMask).ty = innerMask.length := by
      rw [hinnerFits.length_eq, Ty.laneCount, Ty.laneCount, ← hinnerShape]
      rfl
    rw [hcount] at hrange
    obtain ⟨composed, hcomposed, hlength, hmem⟩ := Mask.exists_compose? hrange
    refine ⟨inner, composed, by simp [flattenSwizzle, hcomposed], hinnerClean, hinner, ?_, ?_⟩
    · have htwin := (show innerTy.Twin _ from hinnerShape).selected mask.length
      rw [Ty.selected_selected] at htwin
      rw [hshape, hlength]
      exact htwin
    · -- The composed mask selects what both masks select, so it fits the innermost base.
      have hcomposedFits : composed.Fits false inner.ty (inner.ty.selected composed.length) := by
        refine ⟨rfl, hinner, hlength ▸ hfits.nonempty, hlength ▸ hfits.short, fun c hc => ?_, ?_⟩
        · rcases hmem c hc with hc | ⟨-, hliteral⟩
          · exact hinnerFits.inRange c hc
          · exact Selector.reachesPast_of_isLiteral hliteral
        · rintro ⟨⟩
      exact maskDefect?_of_fits hcomposedFits
  | _ => exact ⟨_, mask, rfl, hbase, hok, hshape, hdefect⟩

end

/-- A sound node over children in normal form has a normal form of its shape. -/
theorem normalizeSwizzle_becomes {e : Expr} (hnode : e.isSound = true)
    (hchildren : ∀ c ∈ e.children, c.Clean) :
    Judgement.succeeding.Holds (e.Becomes isClean) e.normalizeSwizzle := by
  cases e with
  | swizzle ty base mask =>
    have hbase : base.Clean := hchildren base (by simp [children])
    obtain ⟨hok, hshape, hdefect, -⟩ :=
      sound_swizzle.mp (every_iff.mpr ⟨hnode, fun c hc => (clean_iff.mp (hchildren c hc)).1⟩)
    obtain ⟨base', mask', hflat, hbase', hok', hshape', hdefect'⟩ :=
      exists_flattened hbase hok hshape hdefect
    obtain ⟨hclean, htwin⟩ := clean_selectWithLiterals hbase' hok' hshape' hdefect'
    exact ⟨_, by simp [normalizeSwizzle, hflat, hdefect'], hclean, htwin⟩
  -- Any other node is left.
  | _ =>
    refine ⟨_, rfl, .same ?_ hchildren⟩
    simp only [isClean, hnode]
    rfl

/-- A sound expression has a normal form. -/
theorem normalizeSwizzles_succeeds {e : Expr} (h : e.Sound) :
    Judgement.succeeding.Holds Clean (e.bottomUpM normalizeSwizzle) :=
  Judgement.succeeding.mono
    (bottomUpM_becomes _ isLocal_isSound (fun _ => normalizeSwizzle_becomes) h) fun _ he => he.every

end Expr

/-- The rule for swizzles succeeds on a sound program. -/
theorem Legalize.exists_normal_program {p : Program} (h : p.All Expr.Sound) :
    ∃ p', p.mapNodesM Expr.normalizeSwizzle = .ok p' ∧ p'.All Expr.Clean := by
  obtain ⟨p', hp', hclean⟩ := Program.mapExprsM_meets Judgement.succeeding
    (fun e he => Expr.normalizeSwizzles_succeeds he) rfl (Program.all_iff_meets.mp h)
  exact ⟨p', hp', Program.all_iff_meets.mpr hclean⟩

end ShaderGen
