import ShaderGen.Proofs.Legalize.Carried
import ShaderGen.Proofs.Typing.Shapes

/-!
# What rules do to typed nodes

A node is sound (`Expr.isSound`) if its shape goes with its children, its mask is in range, and it
is no size of the render target, which a uniform has replaced by then. Each rule puts in the place
of a sound node a sound expression of the same shape.

## Key results

- `splitNode_becomes`: the lanes of a minimum exist
- `guardNode_becomes`, `expandNode_becomes`, `unfoldNode_becomes` and so on: the same for the other
  rules
-/

namespace ShaderGen

namespace Expr

/-- Whether the node is the size of the render target. -/
def isSize : Expr → Bool
  | .builtin _ .width | .builtin _ .height => true
  | _ => false

/-- Whether a node is typed, as far as the rules after the size is settled rely on it. -/
def isSound (e : Expr) : Bool := e.agrees && (e.masksInRange && !e.isSize)

/-- All nodes of an expression are sound. -/
def Sound (e : Expr) : Prop := e.Every isSound

/-- Being a size is told by the node. -/
theorem isLocal_isSize : IsLocal fun e => !e.isSize := by
  intro e cs hcs
  cases e with
  | builtin ty which => rfl
  | _ => unfold withChildren; split <;> rfl

/-- Soundness of a node is told by the node and the types of its children. -/
theorem isLocal_isSound : IsLocal isSound :=
  isLocal_agrees.and (isLocal_masksInRange.and isLocal_isSize)

section

variable {ty : Ty} {a b c : Expr} {args : List Expr}

/-- Literals are sound. -/
@[simp] theorem sound_literal (value : Literal) : (literal ty value).Sound :=
  every_iff.mpr ⟨rfl, by simp [children]⟩

/-- Variables are sound. -/
@[simp] theorem sound_var (name : String) : (var ty name).Sound :=
  every_iff.mpr ⟨rfl, by simp [children]⟩

/-- An operator with one operand is sound if the operand is. -/
@[simp] theorem sound_unary (op : UnaryOp) : (unary ty op a).Sound ↔ a.Sound :=
  every_iff.trans (by simp [children, isSound, agrees, masksInRange, isSize, Sound])

/-- A group is sound if what it holds is. -/
@[simp] theorem sound_group : (group ty a).Sound ↔ a.Sound :=
  every_iff.trans (by simp [children, isSound, agrees, masksInRange, isSize, Sound])

/-- A choice is sound if its parts are. -/
@[simp] theorem sound_ternary : (ternary ty a b c).Sound ↔ a.Sound ∧ b.Sound ∧ c.Sound :=
  every_iff.trans (by simp [children, isSound, agrees, masksInRange, isSize, Sound])

/-- A constructor is sound if its arguments are. -/
@[simp] theorem sound_construct : (construct ty args).Sound ↔ ∀ arg ∈ args, arg.Sound :=
  every_iff.trans (by simp [children, isSound, agrees, masksInRange, isSize, Sound])

/-- A call of a user function is sound if its arguments are. -/
@[simp] theorem sound_userCall (name : String) :
    (call ty (.user name) args).Sound ↔ ∀ arg ∈ args, arg.Sound :=
  every_iff.trans (by simp [children, isSound, agrees, masksInRange, isSize, Sound])

/-- So is a call of any other function, but for the minimum. -/
theorem sound_intrinsic {f : Intrinsic} (hf : f ≠ .min) :
    (call ty (.intrinsic f) args).Sound ↔ ∀ arg ∈ args, arg.Sound := by
  refine every_iff.trans (and_iff_right ?_)
  cases f <;> first | rfl | exact absurd rfl hf

/-- So is an operator with two operands, but for the short-circuit ones. -/
theorem sound_binary {op : BinaryOp} (hop : op ≠ .logicalAnd ∧ op ≠ .logicalOr) :
    (binary ty op a b).Sound ↔ a.Sound ∧ b.Sound := by
  have hnode : (binary ty op a b).isSound = true := by
    cases op <;> first | rfl | exact absurd rfl hop.1 | exact absurd rfl hop.2
  exact every_iff.trans (by simp [children, hnode, Sound])

/-- A swizzle is sound if its mask fits and its type is what the mask selects. -/
theorem sound_swizzle {mask : Mask} : (swizzle ty a mask).Sound ↔
    a.ty.isScalarOrVector = true ∧ ty.shape = (a.ty.selected mask.length).shape ∧
      maskDefect? a.ty mask = none ∧ a.Sound := by
  refine every_iff.trans ?_
  simp [children, isSound, agrees, masksInRange, isSize, Sound, and_assoc]

end

end Expr

namespace Legalize

open ShaderGen.Expr

variable {e : Expr}

/-- A sound node over sound children is a sound tree. -/
theorem sound_of_node (hnode : e.isSound = true) (hchildren : ∀ c ∈ e.children, c.Sound) :
    e.Sound := every_iff.mpr ⟨hnode, hchildren⟩

/-- A resolved lookup is sound, of the type it had. -/
theorem resolveNode_becomes (profile : Profile) (hnode : e.isSound = true)
    (hchildren : ∀ c ∈ e.children, c.Sound) :
    Yields (e.Becomes isSound) (TextureLookup.resolveNode profile e) := by
  unfold TextureLookup.resolveNode
  split
  · next ty args =>
    refine .bind (.of_forall (fun _ => trivial) _) fun r _ => .pure ⟨?_, .refl _⟩
    -- No entry point is a minimum, of which more would be demanded.
    have hf : TextureLookup.entryPoint profile.isLegacy r.1 r.2 ≠ .min := by
      unfold TextureLookup.entryPoint
      split <;> nofun
    refine (sound_intrinsic hf).mpr ?_
    unfold TextureLookup.biased
    split
    · exact List.forall_mem_append.mpr ⟨hchildren, by simp [TextureLookup.sharpenBias, Expr.float]⟩
    · exact hchildren
  · exact .pure (.same hnode hchildren)

/-- The counter has the type of what it replaces. -/
theorem readCounter_becomes (hnode : e.isSound = true) (hchildren : ∀ c ∈ e.children, c.Sound) :
    e.Becomes isSound (Invocations.readCounter e) := by
  unfold Invocations.readCounter
  split
  · next ty =>
    have hshape : ty.shape = Builtin.invocationId.ty.shape := by
      simpa [isSound, agrees, masksInRange, isSize] using hnode
    exact ⟨sound_var _, hshape⟩
  · exact .same hnode hchildren

/-- Of a choice, the arm that is selected is part of it. -/
theorem sound_collapse (h : e.Sound) : (TernaryTarget.collapse e).Sound :=
  TernaryTarget.collapse_holds h (fun h => (sound_ternary.mp h).2.1)
    fun h => (sound_ternary.mp h).2.2

/-- A collapsed target is sound, and the assignment keeps its type. -/
theorem collapseNode_becomes (hnode : e.isSound = true) (hchildren : ∀ c ∈ e.children, c.Sound) :
    e.Becomes isSound (TernaryTarget.collapseNode e) := by
  refine TernaryTarget.collapseNode_holds (P := e.Becomes isSound) (.same hnode hchildren) ?_ ?_
  · -- Only an assignment is collapsed on its left, and it takes the shape of what it assigns to.
    rintro ty op left right rfl hop
    refine ⟨(sound_binary (by cases op <;> simp_all [BinaryOp.isAssignment])).mpr ?_, .refl _⟩
    simp only [children, List.forall_mem_cons] at hchildren
    exact ⟨sound_collapse hchildren.1, hchildren.2.1⟩
  · rintro ty op operand rfl -
    refine ⟨(sound_unary _).mpr (sound_collapse ?_), .refl _⟩
    simpa [children] using hchildren

/-- Both operands of a short-circuit operator are booleans, as is its result. -/
theorem unfoldNode_becomes (hnode : e.isSound = true) (hchildren : ∀ c ∈ e.children, c.Sound) :
    e.Becomes isSound (ShortCircuit.unfoldNode e) := by
  unfold ShortCircuit.unfoldNode
  split
  · next ty left right =>
    simp only [children, List.forall_mem_cons] at hchildren
    simp only [isSound, agrees, Bool.and_eq_true, beq_iff_eq] at hnode
    -- A conjunction is a choice between its right side and `false`.
    refine ⟨sound_ternary.mpr ⟨hchildren.1, hchildren.2.1, sound_literal _⟩, ?_⟩
    exact hnode.1.1.trans hnode.1.2.symm
  · next ty left right =>
    simp only [children, List.forall_mem_cons] at hchildren
    simp only [isSound, agrees, Bool.and_eq_true, beq_iff_eq] at hnode
    -- A disjunction is one between `true` and its right side.
    exact ⟨sound_ternary.mpr ⟨hchildren.1, sound_literal _, hchildren.2.1⟩, hnode.1.1⟩
  · exact .same hnode hchildren

/-- An expanded power is sound. -/
theorem expandNode_becomes (hnode : e.isSound = true) (hchildren : ∀ c ∈ e.children, c.Sound) :
    Yields (e.Becomes isSound) (ConstantPow.expandNode e) := by
  unfold ConstantPow.expandNode
  split
  · next ty base exponent =>
    split
    · simp only [children, List.forall_mem_cons] at hchildren
      -- From the inside out, each step over sound operands.
      have hlog : (ofCall .log2 [base]).Sound :=
        (sound_intrinsic (by decide)).mpr (by simpa using hchildren.1)
      have hproduct : (ofBinary .mul exponent (ofCall .log2 [base])).Sound :=
        (sound_binary (by decide)).mpr ⟨hchildren.2.1, hlog⟩
      have hpower : (ofCall .exp2 [ofBinary .mul exponent (ofCall .log2 [base])]).Sound :=
        (sound_intrinsic (by decide)).mpr (by simpa using hproduct)
      exact .pure ⟨hpower, .refl _⟩
    · exact .pure (.same hnode hchildren)
  · exact .error _
  · exact .pure (.same hnode hchildren)

/-- A call of the helper is sound, of the type of the absolute value. -/
theorem emulateNode_becomes (hnode : e.isSound = true) (hchildren : ∀ c ∈ e.children, c.Sound) :
    Yields (e.Becomes isSound) (IntAbs.emulateNode e) := by
  refine IntAbs.emulateNode_holds (P := Yields (e.Becomes isSound))
    (.pure (.same hnode hchildren)) ?_
  rintro ty args rfl -
  exact .after fun _ => .pure ⟨(sound_userCall _).mpr hchildren, .refl _⟩

/-- What guards a `fract` has the type that it is given. -/
theorem sound_guarded {x : Expr} (hx : x.Sound) (ty : Ty) : (Fract.guarded x ty).Sound := by
  have hcall : ∀ {f : Intrinsic} {y : Expr}, f ≠ .min → y.Sound → (ofCall f [y]).Sound :=
    fun hf hy => (sound_intrinsic hf).mpr (by simpa using hy)
  -- From the inside out: the distance from a half, the product with the sign, the difference.
  have hdistance :
      (ofBinary .sub (.float .half) (ofCall .fract [ofCall .abs [x]])).Sound :=
    (sound_binary (by decide)).mpr
      ⟨sound_literal _, hcall (f := .fract) (by decide) (hcall (f := .abs) (by decide) hx)⟩
  have hproduct : (ofBinary .mul (ofCall .sign [x])
      (ofBinary .sub (.float .half) (ofCall .fract [ofCall .abs [x]]))).Sound :=
    (sound_binary (by decide)).mpr ⟨hcall (f := .sign) (by decide) hx, hdistance⟩
  refine sound_group.mpr ((sound_binary (by decide)).mpr ⟨?_, hproduct⟩)
  exact sound_literal _

/-- The operand of a fraction is sound if the fraction is. -/
theorem sound_operand {x : Expr} (h : Fract.operand? e = some x)
    (hchildren : ∀ c ∈ e.children, c.Sound) : x.Sound := by
  obtain ⟨ty, -, rfl⟩ := Fract.eq_of_operand? h
  exact hchildren x List.mem_cons_self

/-- A guarded fraction is sound. -/
theorem guardPure_becomes (hnode : e.isSound = true) (hchildren : ∀ c ∈ e.children, c.Sound) :
    e.Becomes isSound (Fract.guardPure e) := by
  unfold Fract.guardPure
  split
  · next x hx => exact ⟨sound_guarded (sound_operand hx hchildren) _, .refl _⟩
  · exact .same hnode hchildren

/-- So is one with a temporary, which is a variable of any name. -/
theorem guardNode_becomes {N : String → Prop} (hN : ∀ n, N (Stem.fractTemp.nth n))
    (hnode : e.isSound = true) (hchildren : ∀ c ∈ e.children, c.Sound) :
    (declaring N).Holds (e.Becomes isSound) (Fract.guardNode e) := by
  unfold Fract.guardNode
  split
  · next x hx =>
    have hsound := sound_operand hx hchildren
    split
    · -- An operand with side effects is written to a temporary first, any other is guarded in
      -- place.
      refine (declaring N).bind (declaring_freshTemp hN x.ty) ?_
      rintro _ ⟨n, rfl⟩
      refine (declaring N).pure ⟨?_, .refl _⟩
      have hwrite : (assign (ofVar (Stem.fractTemp.nth n) x.ty) x).Sound :=
        (sound_binary (by decide)).mpr ⟨sound_var _, hsound⟩
      exact (sound_binary (by decide)).mpr ⟨hwrite, sound_guarded (sound_var _) _⟩
    · exact (declaring N).pure ⟨sound_guarded hsound _, .refl _⟩
  · exact (declaring N).pure (.same hnode hchildren)

/-- A product in place of a negation is sound. -/
theorem multiplyNode_becomes (hnode : e.isSound = true) (hchildren : ∀ c ∈ e.children, c.Sound) :
    e.Becomes isSound (AtanOperand.multiplyNode e) := by
  refine AtanOperand.multiplyNode_holds (P := e.Becomes isSound) (.same hnode hchildren) ?_
  rintro ty y xTy x rfl -
  simp only [children, List.forall_mem_cons, sound_unary] at hchildren
  refine ⟨(sound_intrinsic (by decide)).mpr ?_, .refl _⟩
  -- The factor is a constant, so it takes any operand.
  have hproduct : (AtanOperand.multiply xTy x).Sound :=
    (sound_binary (by decide)).mpr ⟨sound_literal _, hchildren.2.1⟩
  simpa using ⟨hchildren.1, hproduct⟩

/-- A negated derivative is sound. -/
theorem negateDerivative_becomes (hnode : e.isSound = true)
    (hchildren : ∀ c ∈ e.children, c.Sound) :
    e.Becomes isSound (FlipY.negateDerivative e) := by
  have hself := sound_of_node hnode hchildren
  unfold FlipY.negateDerivative
  split
  · exact ⟨(sound_unary _).mpr hself, .refl _⟩
  · exact ⟨hself, .refl _⟩

/-! ### Minima of absolute values -/

/-- A lane that a value has, or the value itself where it is a scalar. -/
theorem sound_lane {value : Expr} {n : Nat} (h : value.Sound)
    (hty : value.ty.isScalarOrVector = true)
    (hn : value.ty.isScalar = false → n < value.ty.laneCount) : (MinAbs.lane value n).Sound := by
  unfold MinAbs.lane
  split
  · exact h
  · next hscalar =>
    have hlt := hn (by simpa using hscalar)
    have hle := Ty.laneCount_le hty
    -- A lane that exists is selected by a mask within range.
    refine sound_swizzle.mpr ⟨hty, rfl, ?_, h⟩
    refine maskDefect?_eq_none_iff.mpr
      ⟨_, Ty.swizzleWidth?_eq hty, by simp, by simp [Mask.maxLength], ?_⟩
    simp [Selector.reachesPast, Selector.lane?_ofLane (show n < 4 by omega), hlt]

/-- An operand of a minimum that is a vector has as many components as the result. -/
theorem laneCount_of_spreadsTo {ty : Ty} (hty : ty.isScalarOrVector = true)
    (h : spreadsTo ty e = true) : e.ty.isScalarOrVector = true ∧
      (e.ty.isScalar = false → e.ty.laneCount = ty.componentCount) := by
  rw [spreadsTo, Bool.or_eq_true, beq_iff_eq, beq_iff_eq] at h
  rcases h with h | h
  · refine ⟨(Ty.Twin.isScalarOrVector h).trans hty, fun _ => ?_⟩
    rw [Ty.laneCount, h, Ty.componentCount]
    cases hs : ty.shape <;> first | rfl | simp [Ty.isScalarOrVector, hs] at hty
  · exact ⟨by simp [Ty.isScalarOrVector, h], by simp [Ty.isScalar, h]⟩

/-- The comparison of the temporaries is sound, of the shape of the minimum. -/
theorem compareTemps_becomes {ty : Ty} {first second a b : Expr} (hty : ty.isScalarOrVector = true)
    (hfirst : first.Sound) (hsecond : second.Sound) (ha : a.Sound) (hb : b.Sound)
    (hspread : spreadsTo ty first = true) (hspread' : spreadsTo ty second = true) :
    (MinAbs.compareTemps ty first second a b).Sound ∧
      ty.Twin (MinAbs.compareTemps ty first second a b).ty := by
  have hwrite : ∀ {x v : Expr}, x.Sound → v.Sound → (assign x v).Sound :=
    fun hx hv => (sound_binary (by decide)).mpr ⟨hx, hv⟩
  have hless : ∀ {x y : Expr}, x.Sound → y.Sound → (ofBinary .lt x y).Sound :=
    fun hx hy => (sound_binary (by decide)).mpr ⟨hx, hy⟩
  have hcomma : ∀ {x y : Expr}, x.Sound → y.Sound → (ofBinary .comma x y).Sound :=
    fun hx hy => (sound_binary (by decide)).mpr ⟨hx, hy⟩
  unfold MinAbs.compareTemps
  dsimp only
  split
  · next hscalar =>
    refine ⟨sound_group.mpr (sound_ternary.mpr
      ⟨hless (hwrite hfirst ha) (hwrite hsecond hb), hfirst, hsecond⟩), ?_⟩
    -- The operands of a scalar minimum are scalars of its kind.
    obtain ⟨s, p⟩ := ty
    cases s <;> simp_all [spreadsTo, Ty.isScalar, Ty.componentKind, Ty.scalarKind?,
      Shape.scalarKind?, Ty.Twin, ofGroup, ofTernary, Expr.ty]
  · obtain ⟨hvalue, hcount⟩ := laneCount_of_spreadsTo hty hspread
    obtain ⟨hvalue', hcount'⟩ := laneCount_of_spreadsTo hty hspread'
    refine ⟨sound_group.mpr (hcomma (hcomma (hwrite hfirst ha) (hwrite hsecond hb))
      -- A vector is compared lane by lane, after both temporaries are written.
      (sound_construct.mpr fun arg harg => ?_)), .refl _⟩
    obtain ⟨n, hn, rfl⟩ := List.mem_map.mp harg
    rw [List.mem_range] at hn
    have hlane := sound_lane (n := n) hfirst hvalue fun h => by rwa [hcount h]
    have hlane' := sound_lane (n := n) hsecond hvalue' fun h => by rwa [hcount' h]
    exact sound_ternary.mpr ⟨hless hlane hlane', hlane, hlane'⟩

/-- A split minimum is sound, of the shape it had. -/
theorem splitNode_becomes {N : String → Prop} (hN : ∀ n, N (Stem.minAbsTemp.nth n))
    (hnode : e.isSound = true) (hchildren : ∀ c ∈ e.children, c.Sound) :
    (declaring N).Holds (e.Becomes isSound) (MinAbs.splitNode e) := by
  unfold MinAbs.splitNode
  split
  · next ty absTy args other =>
    simp only [children, List.forall_mem_cons] at hchildren
    simp only [isSound, agrees, List.all_cons, List.all_nil, Bool.and_eq_true, and_true] at hnode
    obtain ⟨⟨hty, hspread, hspread'⟩, -⟩ := hnode
    refine (declaring N).bind (declaring_freshTemp hN absTy) ?_
    -- Both temporaries have the types of what they store.
    rintro _ ⟨n, rfl⟩
    refine (declaring N).bind (declaring_freshTemp hN other.ty) ?_
    rintro _ ⟨n', rfl⟩
    have hfirst : (ofVar (Stem.minAbsTemp.nth n) absTy).Sound := sound_var _
    have hsecond : (ofVar (Stem.minAbsTemp.nth n') other.ty).Sound := sound_var _
    obtain ⟨hsound, hshape⟩ := compareTemps_becomes hty hfirst hsecond hchildren.1 hchildren.2.1
      hspread hspread'
    exact (declaring N).pure ⟨hsound, hshape⟩
  · exact (declaring N).pure (.same hnode hchildren)

end Legalize

end ShaderGen
