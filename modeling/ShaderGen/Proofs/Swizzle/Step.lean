import ShaderGen.Proofs.Semantics.Alike
import ShaderGen.Proofs.Swizzle.Picking

/-!
# One swizzle in normal form

The steps of `normalizeSwizzle` are looked at one by one. Taking a swizzle into the mask over it
(`exists_flattenSwizzle`) and applying a mask of lanes (`alike_select`) keep even the cells, save
for a scalar that is spread. Constants become arguments of a constructor
(`alike_selectWithLiterals`), which leaves values only; nothing is written through them. Together
they say that the normal form of a swizzle can take its place (`exists_normalizeSwizzle`).
-/

namespace ShaderGen

variable {α : Type} (m : Machine α)

/-! ### Constructors -/

namespace Machine

/-- A cast to the same kind changes nothing. -/
@[simp] theorem cast_self (kind : ScalarKind) : m.cast kind kind = id := funext fun _ => if_pos rfl

/-- Without conversions a constructor puts its arguments one after the other. -/
theorem construct_of_kind {ty : Ty} {args : List (Ty × List α)} (hty : ty.isScalarOrVector = true)
    (h : ∀ arg ∈ args, arg.1.componentKind = ty.componentKind) :
    m.construct ty args = spread ty.laneCount (args.flatMap Prod.snd) := by
  -- The arguments are of the kind of the type, so no value is cast.
  have hflat : (args.flatMap fun arg => arg.2.map (m.cast arg.1.componentKind ty.componentKind)) =
      args.flatMap Prod.snd := by
    rw [List.flatMap_def, List.flatMap_def]
    refine congrArg List.flatten (List.map_congr_left fun arg harg => ?_)
    simp [h arg harg]
  obtain ⟨shape, p⟩ := ty
  cases shape with
  | matrix columns rows => simp [Ty.isScalarOrVector] at hty
  | _ => exact congrArg (spread _) hflat

end Machine

namespace Expr

variable {t : Bool} {base : Expr} {mask : Mask} {ty : Ty}

/-- A constructor evaluates its arguments and builds the value from them. -/
theorem values_construct (ty : Ty) (args : List Expr) :
    (construct ty args).values m =
      (fun vs => (m.construct ty vs).takeD ty.laneCount m.undefined) <$> evalArgs m args := by
  simp [values, eval]

/-- One argument is evaluated to its type and value. -/
theorem evalArgs_singleton (e : Expr) :
    evalArgs m [e] = (fun vs => [(e.ty, vs)]) <$> e.values m := by
  simp [evalArgs, values]

/-- A unit has the kind it is asked for. -/
theorem componentKind_unit (kind : ScalarKind) (one : Bool) :
    (unit kind one).ty.componentKind = kind := by
  cases kind <;> rfl

/-- A unit has the value of its literal. -/
theorem values_unit (kind : ScalarKind) (one : Bool) :
    (unit kind one).values m = pure [m.literal (kind.unitLiteral one)] := by
  cases kind <;> rfl

/-- The constants of a mask are what its constant selectors pick. -/
theorem evalArgs_literalArgs (kind : ScalarKind) (mask : Mask) :
    ∃ args, (∀ arg ∈ args, arg.1.componentKind = kind) ∧
      (∀ vs, args.flatMap Prod.snd = mask.literals.map (m.pick kind vs)) ∧
      evalArgs m (literalArgs kind mask) = pure args := by
  unfold literalArgs
  rw [← Mask.literals]
  have hliteral : ∀ s ∈ mask.literals, s.isLiteral = true := fun s hs => (List.mem_filter.mp hs).2
  generalize mask.literals = literals at hliteral
  induction literals with
  | nil => exact ⟨[], by simp, by simp, rfl⟩
  | cons s literals ih =>
    -- The literals are evaluated from the first on, each to one lane.
    obtain ⟨args, hkind, hpick, heval⟩ := ih fun s' hs' => hliteral s' (List.mem_cons_of_mem s hs')
    refine ⟨((unit kind (s == .one)).ty, [m.literal (kind.unitLiteral (s == .one))]) :: args,
      ?_, fun vs => ?_, ?_⟩
    · intro arg harg
      rcases List.mem_cons.mp harg with rfl | harg
      · exact componentKind_unit kind _
      · exact hkind arg harg
    · have hlane : s.lane? = none := by
        simpa [Selector.isLiteral] using hliteral s List.mem_cons_self
      simp [hpick vs, Machine.pick, Selector.pick, hlane]
    · show ((unit kind _).values m >>= fun vs => evalArgs m _ >>= fun rest => _) = _
      rw [values_unit, heval]
      rfl

/-! ### Masks over a value -/

/-- A fitting swizzle picks its lanes from those of the base. -/
theorem eval_swizzle (h : mask.Fits t base.ty ty) :
    (swizzle ty base mask).eval m =
      (fun ls => mask.map (m.pickLane base.ty.componentKind ls)) <$> base.eval m := by
  refine congrArg (· <$> base.eval m) (funext fun ls => m.fit_of_length ?_)
  rw [List.length_map, h.derived, base.ty.laneCount_selected h.nonempty h.short]

/-- Its value is picked from the value of the base. -/
theorem values_swizzle (h : mask.Fits t base.ty ty) :
    (swizzle ty base mask).values m =
      (fun vs => mask.map (m.pick base.ty.componentKind vs)) <$> base.values m := by
  rw [values, eval_swizzle m h, values, Functor.map_map, Functor.map_map]
  simp only [m.values_pickLane]

/-- A mask of lanes over a scalar repeats it. -/
theorem map_pick_of_scalar {β : Type} {d : β} {literal : Bool → β} {vs : List β}
    (hvs : vs.length = 1)
    (hlanes : ∀ s ∈ mask, s.isLiteral = false) (hrange : ∀ s ∈ mask, s.reachesPast 1 = false) :
    Machine.spread mask.length vs = mask.map (Selector.pick d literal vs) := by
  obtain ⟨v, rfl⟩ := List.length_eq_one_iff.mp hvs
  show List.replicate mask.length v = _
  symm
  rw [List.eq_replicate_iff]
  refine ⟨List.length_map _, fun v' hv' => ?_⟩
  -- The only lane within reach is the first one.
  obtain ⟨s, hs, rfl⟩ := List.mem_map.mp hv'
  obtain ⟨lane, hlane⟩ := Selector.isLiteral_eq_false.mp (hlanes s hs)
  have hlt := Selector.lane_lt (hrange s hs) hlane
  obtain rfl : lane = 0 := by omega
  simp [Selector.pick, hlane]

/-- A selection has the type of the swizzle. -/
theorem ty_select (h : mask.Fits t base.ty ty) : (base.select mask).ty = ty := by
  unfold select
  split
  · -- A scalar, an identity and any other mask each have the type of the selected lanes.
    rename_i hscalar
    split
    · rename_i hlen
      rw [h.derived, hlen, ← Ty.laneCount_of_isScalar hscalar, Ty.selected_laneCount h.base_ok]
    · exact h.derived.symm
  · split
    · rename_i hid
      rw [Ty.swizzleWidth?_eq h.base_ok, Option.any_some] at hid
      rw [h.derived, Mask.length_of_isIdentity hid, Ty.selected_laneCount h.base_ok]
    · exact h.derived.symm

/-- A selection of lanes is the swizzle, if it need not spread a scalar that is written. -/
theorem alike_select (h : mask.Fits false base.ty ty) (hlanes : ∀ s ∈ mask, s.isLiteral = false)
    (hspread : t = true → base.ty.isScalar = true → mask.length = 1) :
    Alike m t (.swizzle ty base mask) (base.select mask) := by
  have hty := ty_select h
  unfold select at hty ⊢
  split
  · -- A scalar is spread over the lanes by a constructor, unless there is only one lane; that is no
    -- longer something to write to, which `hspread` excludes.
    rename_i hscalar
    have hone := Ty.laneCount_of_isScalar hscalar
    have hrange := h.inRange
    rw [hone] at hrange
    rw [if_pos hscalar] at hty
    split
    · rename_i hlen
      rw [if_pos hlen] at hty
      refine .of_eval hty ?_
      rw [eval_swizzle m h]
      refine (map_eval_eq_self m fun ls hls => ?_).symm
      rw [hone] at hls
      exact (map_pick_of_scalar hls hlanes hrange).symm.trans
        (Machine.spread_of_length (hls.trans hlen.symm))
    · rename_i hlen
      cases t with
      | true => exact absurd (hspread rfl hscalar) hlen
      | false =>
        rw [if_neg hlen] at hty
        refine .of_values hty ?_
        rw [values_swizzle m h]
        show (construct (base.ty.selected mask.length) [base]).values m = _
        rw [← h.derived, values_construct, evalArgs_singleton, Functor.map_map]
        refine map_values_congr m fun vs hvs => ?_
        rw [hone] at hvs
        rw [m.construct_of_kind h.result_ok (by simp [h.kind_eq]), ← h.length_eq]
        simp only [List.flatMap_singleton]
        rw [map_pick_of_scalar hvs hlanes hrange, takeD_of_length _ (List.length_map _)]
        rfl
  · rename_i hscalar
    rw [if_neg hscalar] at hty
    split
    · rename_i hid
      rw [if_pos hid] at hty
      rw [Ty.swizzleWidth?_eq h.base_ok, Option.any_some] at hid
      refine .of_eval hty ?_
      rw [eval_swizzle m h]
      exact (map_eval_eq_self m fun ls hls => Mask.map_pick_of_isIdentity _ _ _ hid hls).symm
    · rw [h.derived]
      exact .refl _

/-! ### Masks with constants -/

/-- Setting the type it has changes nothing. -/
theorem withTy_of_ty_eq {e : Expr} (h : e.ty = ty) : e.withTy ty = e := h ▸ withTy_ty e

/-- A constructor of arguments of its own kind and as many lanes joins their values. -/
theorem values_construct_of_args {β : Type} {args : List Expr} {x : Eval α β}
    {f : β → List (Ty × List α)} (hargs : evalArgs m args = f <$> x)
    (hty : ty.isScalarOrVector = true)
    (hkind : ∀ b, ∀ arg ∈ f b, arg.1.componentKind = ty.componentKind)
    (hlen : ∀ b, ((f b).flatMap Prod.snd).length = ty.laneCount) :
    (construct ty args).values m = (fun b => (f b).flatMap Prod.snd) <$> x := by
  rw [values_construct, hargs, Functor.map_map]
  refine congrArg (· <$> x) (funext fun b => ?_)
  rw [m.construct_of_kind hty (hkind b), Machine.spread_of_length (hlen b),
    takeD_of_length _ (hlen b)]

/-- The right operand of a comma is its value. -/
theorem fits_restoring (hlen : mask.length = ty.laneCount) (hty : ty.isScalarOrVector = true)
    (hne : 1 ≤ mask.length) :
    (mask.restoring 0 mask.lanes.length).Fits false ty ty ∧
      ∀ s ∈ mask.restoring 0 mask.lanes.length, s.isLiteral = false := by
  have hsum := mask.length_lanes_add_literals
  have hle := Ty.laneCount_le hty
  -- Each selector of the new mask is a lane of the constructed vector.
  have hmem : ∀ s ∈ mask.restoring 0 mask.lanes.length,
      ∃ i < ty.laneCount, s = .ofLane i :=
    fun s hs => Mask.lane_of_mem_restoring hs (by omega) (by omega)
  refine ⟨⟨?_, hty, by simpa using hne, by simp [hlen, hle], fun s hs => ?_, nofun⟩, fun s hs => ?_⟩
  · rw [Mask.length_restoring, hlen, Ty.selected_laneCount hty]
  · obtain ⟨i, hi, rfl⟩ := hmem s hs
    simp [Selector.reachesPast, Selector.lane?_ofLane (show i < 4 by omega), hi]
  · obtain ⟨i, hi, rfl⟩ := hmem s hs
    simp [Selector.isLiteral, Selector.lane?_ofLane (show i < 4 by omega)]

/-- A mask of constants gives a constant; what its base does is kept by a comma. -/
theorem alike_of_constants (h : mask.Fits false base.ty ty)
    (hall : mask.literals = mask) :
    Alike m false (.swizzle ty base mask)
      (if base.hasSideEffects then
        ofBinary .comma base (ofConstruct ty (literalArgs base.ty.componentKind mask))
      else ofConstruct ty (literalArgs base.ty.componentKind mask)) := by
  obtain ⟨args, hkind, hargs, heval⟩ := evalArgs_literalArgs m base.ty.componentKind mask
  rw [hall] at hargs
  have hconstant : ∀ vs, (ofConstruct ty (literalArgs base.ty.componentKind mask)).values m =
      pure (mask.map (m.pick base.ty.componentKind vs)) := by
    intro vs
    rw [← hargs vs, ← map_pure]
    refine values_construct_of_args m (f := fun _ : Unit => args) (x := pure ()) ?_ h.result_ok
      (fun _ arg harg => (hkind arg harg).trans h.kind_eq.symm) fun _ => ?_
    · rw [heval]
      rfl
    · rw [hargs vs, List.length_map, h.length_eq]
  -- No lane is picked, so the base is evaluated for its effects alone.
  have hvalues : (swizzle ty base mask).values m = base.values m >>= fun _ =>
      (ofConstruct ty (literalArgs base.ty.componentKind mask)).values m := by
    rw [values_swizzle m h, ← bind_pure_comp]
    exact bind_congr fun vs => (hconstant vs).symm
  split
  · exact .of_values rfl ((values_comma m _ _).trans hvalues.symm)
  · -- Without side effects, what the base evaluates to does not matter.
    rename_i hpure
    have hread := (isReadOnly_eval m base (by simpa using hpure)).map (f := Lane.values)
    exact .of_values rfl (hvalues.trans (hread.bind_const _)).symm

/-- The constructor that holds what a mask selects, the lanes first and the constants behind. -/
def gathered (base : Expr) (mask : Mask) (ty : Ty) : Expr :=
  ofConstruct ty (base.select mask.lanes :: literalArgs base.ty.componentKind mask)

/-- The lanes come first and the literals after them. -/
theorem values_gathered (h : mask.Fits false base.ty ty) (hne : 1 ≤ mask.lanes.length) :
    (gathered base mask ty).values m =
      (fun vs => mask.lanes.map (m.pick base.ty.componentKind vs) ++
        mask.literals.map (m.pick base.ty.componentKind vs)) <$> base.values m := by
  obtain ⟨args, hkind, hargs, heval⟩ := evalArgs_literalArgs m base.ty.componentKind mask
  have hsum := mask.length_lanes_add_literals
  have hshort := h.short
  have hlanes : mask.lanes.Fits false base.ty (base.ty.selected mask.lanes.length) :=
    ⟨rfl, h.base_ok, hne, by omega, fun s hs => h.inRange s (List.mem_filter.mp hs).1, nofun⟩
  have hselect := alike_select m (t := false) hlanes
    (fun s hs => by simpa using (List.mem_filter.mp hs).2) nofun
  refine (values_construct_of_args m (x := base.values m)
    (f := fun vs => (base.ty.selected mask.lanes.length,
      mask.lanes.map (m.pick base.ty.componentKind vs)) :: args) ?_ h.result_ok ?_ ?_).trans ?_
  · show ((base.select _).values m >>= fun vs => evalArgs m _ >>= fun rest => _) = _
    rw [hselect.values_eq, hselect.ty_eq, values_swizzle m hlanes, heval]
    simp [Expr.ty]
  · -- Every argument has the kind of the base, as a selection or as a unit.
    intro vs arg harg
    rcases List.mem_cons.mp harg with rfl | harg
    · simp [Ty.selected, h.kind_eq]
    · exact (hkind arg harg).trans h.kind_eq.symm
  · intro vs
    simp [hargs vs, hsum, h.length_eq]
  · exact congrArg (· <$> base.values m) (funext fun vs => by simp [hargs vs])

/-- The gathered components only need to be put in order. -/
theorem alike_gathered (h : mask.Fits false base.ty ty) (hne : 1 ≤ mask.lanes.length) :
    Alike m false (.swizzle ty base mask)
      (((gathered base mask ty).select (mask.restoring 0 mask.lanes.length)).withTy ty) := by
  have hsum := mask.length_lanes_add_literals
  have hshort := h.short
  obtain ⟨hrestoring, hmem⟩ := fits_restoring h.length_eq h.result_ok h.nonempty
  have hordered : Alike m false (.swizzle ty (gathered base mask ty) _) _ :=
    alike_select m hrestoring hmem nofun
  have hty : ((gathered base mask ty).select (mask.restoring 0 mask.lanes.length)).ty = ty :=
    hordered.ty_eq
  rw [withTy_of_ty_eq hty]
  refine .of_values hty (hordered.values_eq.trans ?_)
  rw [values_swizzle m hrestoring, values_gathered m h hne, values_swizzle m h, Functor.map_map]
  -- Picking again from what was gathered puts lanes and literals in order.
  refine congrArg (· <$> base.values m) (funext fun vs => ?_)
  show (mask.restoring 0 mask.lanes.length).map (m.pick ty.componentKind _) = _
  rw [h.kind_eq]
  refine Mask.map_pick_restoring _ _ _ 0 _ (List.prefix_append _ _) ?_ ?_
  · rw [List.drop_left' (List.length_map _)]
    exact List.prefix_rfl
  · simp only [List.length_append, List.length_map]
    omega

/-- A swizzle with literals is what the pass puts in its place. -/
theorem alike_selectWithLiterals (h : mask.Fits false base.ty ty)
    (hwritten : t = true → (∀ s ∈ mask, s.isLiteral = false) ∧
      (base.ty.isScalar = true → mask.length = 1)) :
    Alike m t (.swizzle ty base mask) (base.selectWithLiterals mask ty) := by
  unfold selectWithLiterals
  split
  · rename_i hnone
    exact alike_select m h (by simpa using hnone) fun ht => (hwritten ht).2
  · rename_i hsome
    -- What is written to has no constants.
    cases t with
    | true =>
      have hlanes := (hwritten rfl).1
      simp_all
    | false =>
      dsimp only
      split
      · rename_i hempty
        have hnil : mask.lanes = [] := List.isEmpty_iff.mp hempty
        have hsum := mask.length_lanes_add_literals
        rw [hnil, List.length_nil, Nat.zero_add] at hsum
        exact alike_of_constants m h (List.filter_sublist.eq_of_length hsum)
      · rename_i hne
        exact alike_gathered m h
          (List.length_pos_iff.mpr fun hnil => hne (List.isEmpty_iff.mpr hnil))

/-! ### One swizzle over a base in normal form -/

/-- Whether the expression is a swizzle. -/
def isSwizzle : Expr → Bool
  | .swizzle _ _ _ => true
  | _ => false

/-- A swizzle that is left is a mask of lanes over a vector that is no swizzle itself. -/
def Settled : Expr → Prop
  | .swizzle ty base mask =>
    base.isSwizzle = false ∧ base.ty.isScalar = false ∧ mask.Fits false base.ty ty ∧
      ∀ s ∈ mask, s.isLiteral = false
  | _ => True

/-- What is no swizzle is settled. -/
theorem settled_of_not_isSwizzle {e : Expr} (h : e.isSwizzle = false) : e.Settled := by
  cases e <;> first | exact trivial | simp [isSwizzle] at h

/-- A selection of lanes is settled. -/
theorem settled_select (hb : base.isSwizzle = false) (h : mask.Fits false base.ty ty)
    (hlanes : ∀ s ∈ mask, s.isLiteral = false) : (base.select mask).Settled := by
  unfold select
  -- No result is a swizzle of a swizzle: either the base is kept, or one is put on it.
  split
  · split
    · exact settled_of_not_isSwizzle hb
    · exact trivial
  · rename_i hscalar
    split
    · exact settled_of_not_isSwizzle hb
    · exact ⟨hb, by simpa using hscalar, { h with derived := rfl }, hlanes⟩

/-- So is what stands for a swizzle with literals. -/
theorem settled_selectWithLiterals (hb : base.isSwizzle = false) (h : mask.Fits false base.ty ty) :
    (base.selectWithLiterals mask ty).Settled := by
  unfold selectWithLiterals
  split
  · rename_i hnone
    exact settled_select hb h (by simpa using hnone)
  · dsimp only
    split
    · split <;> exact trivial
    · -- The lanes are gathered by a constructor, which is no swizzle.
      obtain ⟨hrestoring, hmem⟩ := fits_restoring h.length_eq h.result_ok h.nonempty
      have hordered : Mask.Fits _ false (gathered base mask ty).ty ty := hrestoring
      have hsettled := settled_select rfl hordered hmem
      rwa [← withTy_of_ty_eq (ty_select hordered)] at hsettled

/-- A mask that fits has no defect. -/
theorem maskDefect?_of_fits (h : mask.Fits t base.ty ty) : maskDefect? base.ty mask = none := by
  unfold maskDefect?
  rw [Ty.swizzleWidth?_eq h.base_ok]
  -- No selector reaches past the base.
  have hnone : mask.firstPast? base.ty.laneCount = none := by
    rw [Mask.firstPast?, List.find?_eq_none]
    exact fun s hs => by simp [h.inRange s hs]
  have hshort : ¬Mask.maxLength < mask.length := Nat.not_lt.mpr h.short
  have hne : mask ≠ [] := List.length_pos_iff.mp h.nonempty
  simp [hne, hshort, hnone]

/-- A scalar has only one lane to write. -/
theorem length_of_writable (h : mask.Fits true base.ty ty) (hscalar : base.ty.isScalar = true) :
    mask.length = 1 := by
  obtain ⟨hnodup, hlanes⟩ := h.writable rfl
  -- A scalar has one lane, and a target names each lane at most once.
  have hx : ∀ s ∈ mask, s = .x := by
    intro s hs
    obtain ⟨lane, hlane⟩ := Selector.isLiteral_eq_false.mp (hlanes s hs)
    have hlt := Selector.lane_lt (h.inRange s hs) hlane
    rw [Ty.laneCount_of_isScalar hscalar] at hlt
    cases s <;> simp [Selector.lane?] at hlane <;> first | rfl | omega
  have hne := h.nonempty
  have hle := (List.eq_replicate_of_mem hx ▸ hnodup : (List.replicate mask.length Selector.x).Nodup)
  rw [List.nodup_replicate] at hle
  omega

/-- A swizzle over a settled base is flattened to one that does the same. -/
theorem exists_flattenSwizzle (hb : base.Settled) (h : mask.Fits t base.ty ty) :
    ∃ base' mask', flattenSwizzle base mask = (base', mask') ∧ base'.isSwizzle = false ∧
      mask'.Fits false base'.ty ty ∧
      (t = true → (∀ s ∈ mask', s.isLiteral = false) ∧
        (base'.ty.isScalar = true → mask'.length = 1)) ∧
      Alike m t (.swizzle ty base mask) (.swizzle ty base' mask') := by
  -- A base that is no swizzle is flat, and one that is gives its own base and the composed mask.
  cases hswizzle : base.isSwizzle with
  | false =>
    refine ⟨base, mask, ?_, hswizzle, h.read, fun ht => ?_, .refl _⟩
    · cases base <;> first | rfl | simp [isSwizzle] at hswizzle
    · subst ht
      exact ⟨(h.writable rfl).2, length_of_writable h⟩
  | true =>
    cases base with
    | swizzle innerTy inner innerMask =>
      obtain ⟨hinner, hvector, hinnerFits, hinnerLanes⟩ := hb
      have hrange := h.inRange
      rw [show (swizzle innerTy inner innerMask).ty = innerTy from rfl, ← hinnerFits.length_eq]
        at hrange
      obtain ⟨composed, hcomposed, hlen, hmem⟩ := Mask.exists_compose? hrange
      -- The composed mask picks from the inner base what the two masks pick one after the other.
      have hkind : innerTy.componentKind = inner.ty.componentKind := hinnerFits.kind_eq
      have hfits : composed.Fits false inner.ty ty := by
        refine ⟨?_, hinnerFits.base_ok, hlen ▸ h.nonempty, hlen ▸ h.short, fun c hc => ?_, nofun⟩
        · rw [h.derived, hlen, show (swizzle innerTy inner innerMask).ty = innerTy from rfl,
            hinnerFits.derived, Ty.selected_selected]
        · rcases hmem c hc with hc | ⟨-, hliteral⟩
          · exact hinnerFits.inRange c hc
          · exact Selector.reachesPast_of_isLiteral hliteral
      -- Writing asks for no repeated scalar, and the base of a settled swizzle is a vector.
      refine ⟨inner, composed, by simp [flattenSwizzle, hcomposed], hinner, hfits, fun ht => ?_, ?_⟩
      · refine ⟨fun c hc => ?_, fun hscalar => absurd hscalar (by simp [hvector])⟩
        rcases hmem c hc with hc | ⟨hc, -⟩
        · exact hinnerLanes c hc
        · exact (h.writable ht).2 c hc
      · -- Picking twice is picking once with the composed mask.
        refine .of_eval rfl ?_
        rw [eval_swizzle m h, eval_swizzle m hinnerFits, eval_swizzle m hfits, Functor.map_map]
        refine congrArg (· <$> inner.eval m) (funext fun ls => ?_)
        show _ = mask.map (m.pickLane innerTy.componentKind _)
        rw [hkind]
        exact (Mask.map_pick_compose? _ _ _ hcomposed).symm
    | _ => simp [isSwizzle] at hswizzle

/-- A swizzle over a settled base is normalized, and does the same. -/
theorem exists_normalizeSwizzle (hb : base.Settled) (h : mask.Fits t base.ty ty) :
    ∃ e', normalizeSwizzle (.swizzle ty base mask) = .ok e' ∧
      Alike m t (.swizzle ty base mask) e' ∧ e'.Settled := by
  obtain ⟨base', mask', hflat, hb', hfits, hwritten, halike⟩ := exists_flattenSwizzle m hb h
  refine ⟨base'.selectWithLiterals mask' ty, ?_,
    halike.trans (alike_selectWithLiterals m hfits hwritten), settled_selectWithLiterals hb' hfits⟩
  simp only [normalizeSwizzle, hflat, maskDefect?_of_fits hfits]

end Expr

end ShaderGen
