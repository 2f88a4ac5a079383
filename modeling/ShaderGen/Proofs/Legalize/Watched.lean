import ShaderGen.Proofs.Legalize.Kept
import ShaderGen.Proofs.Legalize.Watch
import ShaderGen.Proofs.Swizzle.Picking

/-!
# Rules go no further

No rule brings something of a watched shape into a watched place (`Watch.kept`), with the exception
of the flip, which negates derivatives (`Watch.flip`).
-/

namespace ShaderGen.Legalize.Watch

open ShaderGen.Expr

variable {w : Watch} {degree : Nat} {ty : Ty}

/-! ### Nodes that rules bring in -/

/-- A variable is of no watched shape. -/
@[simp] theorem look_var (name : String) : w.look (.var ty name) = 0 := by
  rw [look_eq]
  cases w <;> rfl

/-- In a variable there is no watched place. -/
@[simp] theorem avoids_var (name : String) : w.Avoids degree (.var ty name) :=
  (avoids_of_placeless (by cases w <;> rfl)).mpr nofun

/-- In a built-in variable there is none either. -/
@[simp] theorem avoids_builtin (which : Builtin) : w.Avoids degree (.builtin ty which) :=
  (avoids_of_placeless (by cases w <;> rfl)).mpr nofun

/-- A literal may be of a watched shape, but has no place in it. -/
@[simp] theorem avoids_literal (value : Literal) : w.Avoids degree (.literal ty value) :=
  (avoids_of_placeless (by cases w <;> rfl)).mpr nofun

/-- A group has no watched place of its own. -/
@[simp] theorem avoids_group {e : Expr} :
    w.Avoids degree (.group ty e) ↔ w.Avoids degree e := by
  rw [avoids_of_placeless (by cases w <;> rfl)]
  simp [children]

/-- A swizzle has no watched place of its own. -/
@[simp] theorem avoids_swizzle {e : Expr} {mask : Mask} :
    w.Avoids degree (.swizzle ty e mask) ↔ w.Avoids degree e := by
  rw [avoids_of_placeless (by cases w <;> rfl)]
  simp [children]

/-- A choice has no watched place of its own. -/
@[simp] theorem avoids_ternary {c a b : Expr} :
    w.Avoids degree (.ternary ty c a b) ↔
      w.Avoids degree c ∧ w.Avoids degree a ∧ w.Avoids degree b := by
  rw [avoids_of_placeless (by cases w <;> rfl)]
  simp [children]

/-- A constructor has no watched place of its own. -/
@[simp] theorem avoids_construct {es : List Expr} :
    w.Avoids degree (.construct ty es) ↔ ∀ e ∈ es, w.Avoids degree e :=
  avoids_of_placeless (by cases w <;> rfl)

/-- What an assignment writes is watched. -/
theorem avoids_binary {op : BinaryOp} {a b : Expr} :
    w.Avoids degree (.binary ty op a b) ↔
      (w = .choiceTarget → op.isAssignment = true → w.look a ≤ degree) ∧
        w.Avoids degree a ∧ w.Avoids degree b := by
  rw [avoids_iff, hits_eq_false_iff]
  refine and_congr ?_ (by simp [children])
  cases w with
  | choiceTarget => cases h : op.isAssignment <;> simp [watched, head, place?, h, children]
  | _ => simp [watched, head, place?]

/-- What an increment writes is watched. -/
theorem avoids_unary {op : UnaryOp} {e : Expr} :
    w.Avoids degree (.unary ty op e) ↔
      (w = .choiceTarget → op.writesOperand = true → w.look e ≤ degree) ∧
        w.Avoids degree e := by
  rw [avoids_iff, hits_eq_false_iff]
  refine and_congr ?_ (by simp [children])
  cases w with
  | choiceTarget => cases h : op.writesOperand <;> simp [watched, head, place?, h, children]
  | _ => simp [watched, head, place?]

/-- Operations that write nothing go as far as their operands. -/
theorem avoids_operation {op : BinaryOp} {a b : Expr} (h : op.isAssignment = false) :
    w.Avoids degree (.binary ty op a b) ↔ w.Avoids degree a ∧ w.Avoids degree b := by
  simp [avoids_binary, h]

/-- A function that no watch is about goes as far as its arguments. -/
theorem avoids_call {callee : Callee} {args : List Expr}
    (h : w.place? (.call callee args.length) = none) :
    w.Avoids degree (.call ty callee args) ↔ ∀ e ∈ args, w.Avoids degree e :=
  avoids_of_placeless h

/-- An operation is of no watched shape, save for the operators that become choices. -/
theorem look_binary {op : BinaryOp} (a b : Expr) (hand : op ≠ .logicalAnd) (hor : op ≠ .logicalOr) :
    w.look (.binary ty op a b) = 0 := by
  rw [look_eq]
  cases w <;> cases op <;> first | rfl | contradiction

/-- What is of no watched shape goes no further, if the places in it do not. -/
theorem follows_of_look (e : Expr) {e' : Expr} (hlook : w.look e' = 0)
    (h : w.Avoids degree e → w.Avoids degree e') : Follows w w degree e e' :=
  ⟨by omega, h⟩

/-- A variable may stand anywhere. -/
theorem follows_var (e : Expr) (name : String) : Follows w w degree e (.var ty name) :=
  follows_of_look e (look_var name) fun _ => avoids_var name

/-- Another type on a node makes no difference where it does not change what is asked of the
    node. -/
theorem follows_of_judge {e : Expr} (hplace : w.place? (e.withTy ty).head = w.place? e.head)
    (hjudge : ∀ ns, w.judge (e.withTy ty).head ns = w.judge e.head ns) :
    Follows w w degree e (e.withTy ty) := by
  refine ⟨?_, fun he => ?_⟩
  · exact Nat.le_of_eq (by rw [look_eq, look_eq, hjudge, children_withTy])
  · rw [avoids_iff, children_withTy]
    refine ⟨hits_eq_false_iff.mpr fun c hc => he.look_le ?_, (avoids_iff.mp he).2⟩
    rwa [watched, hplace, children_withTy] at hc

/-- A change of type goes no further if nothing that is watched depends on the type. -/
theorem follows_of_head {e : Expr} (hhead : (e.withTy ty).head = e.head) :
    Follows w w degree e (e.withTy ty) :=
  follows_of_judge (by rw [hhead]) fun ns => by rw [hhead]

/-- Of the type on a node, only whether it is one of floats is asked. -/
theorem follows_withTy (e : Expr) (h : ty.isFloat = e.ty.isFloat) :
    Follows w w degree e (e.withTy ty) := by
  refine follows_of_judge ?_ ?_
  · cases e with
    | unary => cases w <;> rfl
    | _ => rfl
  · cases e with
    | unary ty' op operand =>
      intro ns
      replace h : ty.isFloat = ty'.isFloat := h
      cases w with
      -- A negation is one of floats before and after.
      | negatedOperand pending => cases op <;> simp [withTy, head, judge, h]
      | constantExponent => cases op <;> rfl
      | _ => rfl
    | _ => exact fun _ => rfl

/-! ### Rule by rule -/

/-- Uniforms for sizes go no further than the built-in variables. -/
theorem follows_substitute (e : Expr) :
    Follows w w degree e (TargetSize.substituteNode e) := by
  unfold TargetSize.substituteNode
  split
  · exact follows_var e _
  · split
    · exact follows_var e _
    · exact .refl e

/-- A local goes no further than the coordinate that it stands for. -/
theorem follows_readLocal (prologue : FragCoord.Prologue) (e : Expr) :
    Follows w w degree e (FragCoord.readLocal prologue e) := by
  unfold FragCoord.readLocal
  split
  · exact follows_var e _
  · exact .refl e

/-- The counter goes no further than the built-in variable. -/
theorem follows_readCounter (e : Expr) : Follows w w degree e (Invocations.readCounter e) := by
  unfold Invocations.readCounter
  split
  · exact follows_var _ _
  · exact .refl _

/-- An assignment to a variable goes as far as its value. -/
theorem avoids_assign_var {name : String} {ty' : Ty} {e : Expr} :
    w.Avoids degree (.assign (.var ty' name) e) ↔ w.Avoids degree e := by
  simp [Expr.assign, Expr.ofBinary, avoids_binary]

/-- An assignment that is passed on goes as far as before. -/
theorem follows_forward (e : Expr) : Follows w w degree e (FragCoord.forwardNode e) := by
  unfold FragCoord.forwardNode
  split
  · exact follows_of_look e (look_binary _ _ nofun nofun) avoids_assign_var.mpr
  · exact .refl e

/-- Resolving a lookup moves nothing into a watched place. -/
theorem follows_resolve (profile : Profile) (e : Expr) :
    Yields (Follows w w degree e) (TextureLookup.resolveNode profile e) := by
  unfold TextureLookup.resolveNode
  split
  · next ty args =>
    refine (Yields.of_forall (fun _ => trivial) (Q := fun _ => True) _).bind fun r _ => .pure ?_
    obtain ⟨dim, projective⟩ := r
    -- No watch looks at the arguments of a lookup, under the old name or the new one.
    have hplace : ∀ n, w.place? (.call (.intrinsic
        (TextureLookup.entryPoint profile.isLegacy dim projective)) n) = none := by
      intro n
      cases w <;> unfold TextureLookup.entryPoint <;> split <;> rfl
    refine follows_of_look _ ?_ fun h => ?_
    · -- Neither is the call of the entry point any watched shape.
      rw [look_eq]
      cases w with
      | negatedOperand pending =>
        cases pending <;> unfold TextureLookup.entryPoint <;> dsimp only <;> split <;> rfl
      | _ => unfold TextureLookup.entryPoint; dsimp only; split <;> rfl
    · rw [avoids_call (hplace _)]
      -- The arguments stay, and the bias that may be added is a literal.
      intro e he
      unfold TextureLookup.biased at he
      have hargs := (avoids_call (by cases w <;> rfl)).mp h
      split at he
      · rcases List.mem_append.mp he with he | he
        · exact hargs e he
        · rw [List.mem_singleton.mp he]
          exact avoids_literal _
      · exact hargs e he
  · exact .pure (.refl _)

/-- A choice between what may be written is one that may be split. -/
theorem look_ternary (ty : Ty) (cond a b : Expr) :
    look .choiceTarget (.ternary ty cond a b) =
      if look .choiceTarget a ≤ 1 ∧ look .choiceTarget b ≤ 1 then 1 else 2 := by
  rw [look_eq]
  simp [children, head, judge]

/-- Following a choice to one of its arms goes no further. -/
theorem look_collapse (e : Expr) :
    Watch.choiceTarget.look (TernaryTarget.collapse e) ≤ Watch.choiceTarget.look e := by
  -- If the condition is known, one arm is taken, and a choice goes at least as far as its arms.
  have harms (ty cond a b) : Watch.choiceTarget.look a ≤ Watch.choiceTarget.look
      (.ternary ty cond a b) ∧ Watch.choiceTarget.look b ≤ Watch.choiceTarget.look
        (.ternary ty cond a b) := by
    have hlook := look_ternary ty cond a b
    have htrue := look_le .choiceTarget a
    have hfalse := look_le .choiceTarget b
    split at hlook <;> omega
  exact TernaryTarget.collapse_holds
    (P := fun e' => Watch.choiceTarget.look e' ≤ Watch.choiceTarget.look e) (Nat.le_refl _)
    (fun h => Nat.le_trans (harms _ _ _ _).1 h) fun h => Nat.le_trans (harms _ _ _ _).2 h

/-- In an arm the watched places go no further than in the choice. -/
theorem avoids_collapse (e : Expr) (h : w.Avoids degree e) :
    w.Avoids degree (TernaryTarget.collapse e) :=
  TernaryTarget.collapse_holds h (fun h => (avoids_ternary.mp h).2.1)
    fun h => (avoids_ternary.mp h).2.2

/-- Taking an arm as a target goes no further. -/
theorem follows_collapse (e : Expr) :
    Follows w w degree e (TernaryTarget.collapseNode e) := by
  refine TernaryTarget.collapseNode_holds (P := Follows w w degree e) (.refl e) ?_ ?_
  · rintro ty op left right rfl hop
    refine ⟨?_, fun h => ?_⟩
    · rw [look_eq, look_eq]
      -- The shape of the node is told by its operator, which stays.
      cases w <;> cases op <;> exact Nat.le_refl _
    · obtain ⟨hplace, hleft, hright⟩ := avoids_binary.mp h
      -- What is written to goes no further than the choice did.
      refine avoids_binary.mpr ⟨fun hw hop => ?_, avoids_collapse left hleft, hright⟩
      subst hw
      exact Nat.le_trans (look_collapse left) (hplace rfl hop)
  · -- The same for operators that write to their only operand.
    rintro ty op operand rfl hop
    refine ⟨?_, fun h => ?_⟩
    · rw [look_eq, look_eq]
      cases w <;> cases op <;> first | exact Nat.le_refl _ | contradiction
    · obtain ⟨hplace, hoperand⟩ := avoids_unary.mp h
      refine avoids_unary.mpr ⟨fun hw hop => ?_, avoids_collapse operand hoperand⟩
      subst hw
      exact Nat.le_trans (look_collapse operand) (hplace rfl hop)

/-- An unfolded operator goes no further: it counted as a choice before. -/
theorem follows_unfold (e : Expr) : Follows w w degree e (ShortCircuit.unfoldNode e) := by
  unfold ShortCircuit.unfoldNode
  split
  · next ty left right =>
    refine ⟨?_, fun h => ?_⟩
    · cases w with
      | choiceTarget => exact look_le _ _
      | constantExponent | absOperand | negatedOperand => simp [look_eq, head, judge, ofTernary]
    · rw [avoids_operation rfl] at h
      simpa [ofTernary, Expr.bool] using h
  · -- The other operator is unfolded with the arms exchanged.
    next ty left right =>
    refine ⟨?_, fun h => ?_⟩
    · cases w with
      | choiceTarget => exact look_le _ _
      | constantExponent | absOperand | negatedOperand => simp [look_eq, head, judge, ofTernary]
    · rw [avoids_operation rfl] at h
      simpa [ofTernary, Expr.bool] using h
  · exact .refl _

/-- The operations that a power is expanded to go as far as its operands. -/
theorem avoids_expanded {base exponent : Expr} (hbase : w.Avoids degree base)
    (hexponent : w.Avoids degree exponent) :
    w.Avoids degree ((ofCall .exp2 [ofBinary .mul exponent (ofCall .log2 [base])]).withTy ty) := by
  have hlog : w.Avoids degree (ofCall .log2 [base]) :=
    (avoids_call (by cases w <;> rfl)).mpr (by simpa using hbase)
  have hproduct : w.Avoids degree (ofBinary .mul exponent (ofCall .log2 [base])) :=
    (avoids_operation rfl).mpr ⟨hexponent, hlog⟩
  exact (avoids_call (by cases w <;> rfl)).mpr (by simpa using hproduct)

/-- An expanded power goes no further. -/
theorem follows_expand (e : Expr) :
    Yields (Follows w w degree e) (ConstantPow.expandNode e) := by
  refine .of_forall_ok fun e' he' => ?_
  unfold ConstantPow.expandNode at he'
  split at he'
  · next ty base exponent =>
    split at he'
    · obtain rfl := Except.ok.inj he'
      -- A product of base and logarithm is of no watched shape.
      refine follows_of_look _ (by rw [look_eq]; cases w <;> rfl) fun h => ?_
      exact avoids_expanded (h.child List.mem_cons_self)
        (h.child (List.mem_cons_of_mem _ List.mem_cons_self))
    · obtain rfl := Except.ok.inj he'
      exact .refl _
  · exact absurd he' (by simp)
  · obtain rfl := Except.ok.inj he'
    exact .refl _

/-- A call of a helper goes no further than the call of `abs`. -/
theorem follows_emulate (e : Expr) : Yields (Follows w w degree e) (IntAbs.emulateNode e) := by
  refine IntAbs.emulateNode_holds (P := Yields (Follows w w degree e)) (.pure (.refl e)) ?_
  rintro ty args rfl -
  -- A call is followed operand by operand, whatever it calls.
  refine .after fun _ => .pure ?_
  refine follows_of_look _ (by rw [look_eq]; cases w <;> rfl) fun h => ?_
  rw [avoids_call (by cases w <;> rfl)] at h ⊢
  exact h

/-- A component of a temporary has no watched place in it. -/
theorem avoids_lane (name : String) (ty : Ty) (n : Nat) :
    w.Avoids degree (MinAbs.lane (.ofVar name ty) n) := by
  unfold MinAbs.lane ofVar
  split
  · exact avoids_var name
  · exact avoids_swizzle.mpr (avoids_var name)

/-- Comparing two values brings no watched place. -/
theorem avoids_lesser {a b : Expr} (ha : w.Avoids degree a) (hb : w.Avoids degree b) :
    w.Avoids degree (MinAbs.lesser a b) :=
  avoids_ternary.mpr ⟨(avoids_operation rfl).mpr ⟨ha, hb⟩, ha, hb⟩

/-- Comparing two temporaries brings no watched place, whatever is assigned to them. -/
theorem avoids_compareTemps {a b : String} {tyA tyB : Ty} {x y : Expr} (hx : w.Avoids degree x)
    (hy : w.Avoids degree y) :
    w.Avoids degree (MinAbs.compareTemps ty (.ofVar a tyA) (.ofVar b tyB) x y) := by
  have hfirst : w.Avoids degree (.assign (.ofVar a tyA) x) := avoids_assign_var.mpr hx
  have hsecond : w.Avoids degree (.assign (.ofVar b tyB) y) := avoids_assign_var.mpr hy
  unfold MinAbs.compareTemps
  -- Scalars are compared at once, vectors component by component.
  split
  · refine avoids_group.mpr (avoids_ternary.mpr ⟨?_, avoids_var a, avoids_var b⟩)
    exact (avoids_operation rfl).mpr ⟨hfirst, hsecond⟩
  · refine avoids_group.mpr ((avoids_operation rfl).mpr ⟨?_, avoids_construct.mpr fun e he => ?_⟩)
    · exact (avoids_operation rfl).mpr ⟨hfirst, hsecond⟩
    · obtain ⟨n, -, rfl⟩ := List.mem_map.mp he
      exact avoids_lesser (avoids_lane a tyA n) (avoids_lane b tyB n)

/-- A choice in parentheses is no more than the minimum that it stands for. -/
theorem look_compareTemps_le (ty' : Ty) (first second x y : Expr) (args : List Expr) :
    w.look (MinAbs.compareTemps ty' first second x y) ≤
      w.look (.call ty (.intrinsic .min) args) := by
  -- Only where choices are watched does a minimum go far itself.
  cases w with
  | choiceTarget => exact look_le _ _
  | constantExponent =>
    unfold MinAbs.compareTemps
    split <;> exact Nat.zero_le _
  | absOperand =>
    unfold MinAbs.compareTemps
    split <;> exact Nat.zero_le _
  | negatedOperand pending =>
    unfold MinAbs.compareTemps
    cases pending <;> split <;> exact Nat.zero_le _

/-- Splitting a minimum goes no further. -/
theorem follows_split (e : Expr) : unvalued.Holds (Follows w w degree e) (MinAbs.splitNode e) := by
  unfold MinAbs.splitNode
  split
  · next ty absTy args other =>
    refine unvalued.bind (unvalued_freshTemp _ _) fun first hfirst => ?_
    refine unvalued.bind (unvalued_freshTemp _ _) fun second hsecond => unvalued.pure ?_
    obtain ⟨a, rfl⟩ := hfirst
    obtain ⟨b, rfl⟩ := hsecond
    refine ⟨look_compareTemps_le .., fun h => avoids_compareTemps ?_ ?_⟩
    · -- The two values are what stood in the minimum.
      exact h.child List.mem_cons_self
    · exact h.child (List.mem_cons_of_mem _ List.mem_cons_self)
  · exact unvalued.pure (.refl _)

/-- A guarded fraction has no watched places but those of its operand. -/
theorem avoids_guarded {x : Expr} (h : w.Avoids degree x) :
    w.Avoids degree (Fract.guarded x ty) := by
  -- The calls in it have no watched operand.
  have hcall : ∀ f ∈ [Intrinsic.sign, .abs, .fract], ∀ {y : Expr}, w.Avoids degree y →
      w.Avoids degree (.ofCall f [y]) := by
    intro f hf y hy
    refine (avoids_call ?_).mpr (by simpa using hy)
    simp only [List.mem_cons, List.not_mem_nil, or_false] at hf
    obtain rfl | rfl | rfl := hf <;> cases w <;> rfl
  have habs := hcall .fract (by simp) (hcall .abs (by simp) h)
  unfold Fract.guarded ofGroup
  refine avoids_group.mpr ((avoids_operation rfl).mpr ⟨avoids_literal _, ?_⟩)
  refine (avoids_operation rfl).mpr ⟨hcall .sign (by simp) h, ?_⟩
  exact (avoids_operation rfl).mpr ⟨avoids_literal _, habs⟩

/-- It is of no watched shape. -/
theorem look_guarded (x : Expr) : w.look (Fract.guarded x ty) = 0 := by
  cases w with
  | negatedOperand pending => cases pending <;> rfl
  | _ => rfl

/-- The operand of a `fract` goes as far as the `fract`. -/
theorem avoids_operand {e x : Expr} (hx : Fract.operand? e = some x) (h : w.Avoids degree e) :
    w.Avoids degree x := by
  obtain ⟨ty, -, rfl⟩ := Fract.eq_of_operand? hx
  exact h.child List.mem_cons_self

/-- Guarding a fraction goes no further, with a temporary or without. -/
theorem follows_guard (e : Expr) : unvalued.Holds (Follows w w degree e) (Fract.guardNode e) := by
  unfold Fract.guardNode
  split
  · next x hx =>
    split
    · -- With a temporary the operand is assigned first, and the fraction reads the temporary.
      refine unvalued.bind (unvalued_freshTemp _ _) fun temp htemp => unvalued.pure ?_
      obtain ⟨name, rfl⟩ := htemp
      refine follows_of_look e (look_binary _ _ nofun nofun) fun h => ?_
      have hx := avoids_operand hx h
      exact (avoids_operation rfl).mpr
        ⟨avoids_assign_var.mpr hx, avoids_guarded (avoids_var name)⟩
    · exact unvalued.pure (follows_of_look e (look_guarded x) fun h =>
        avoids_guarded (avoids_operand hx h))
  · exact unvalued.pure (.refl e)

/-- The same where there are no temporaries. -/
theorem follows_guardPure (e : Expr) : Follows w w degree e (Fract.guardPure e) := by
  unfold Fract.guardPure
  split
  · next x hx =>
    exact follows_of_look e (look_guarded x) fun h => avoids_guarded (avoids_operand hx h)
  · exact .refl e

/-- A product is no negation. -/
theorem avoids_multiplied {y x : Expr} {xTy : Ty} (hy : w.Avoids degree y)
    (hx : w.Avoids degree x) :
    w.Avoids degree (.call ty (.intrinsic .atan) [y, AtanOperand.multiply xTy x]) := by
  -- The product stands in the watched place; it is no negation.
  have hproduct : w.Avoids degree (AtanOperand.multiply xTy x) :=
    (avoids_operation rfl).mpr ⟨avoids_literal _, hx⟩
  have hlook : w.look (AtanOperand.multiply xTy x) = 0 := look_binary _ _ nofun nofun
  refine avoids_iff.mpr ⟨hits_eq_false_iff.mpr fun c hc => ?_, ?_⟩
  · cases w with
    | negatedOperand pending =>
      obtain rfl : AtanOperand.multiply xTy x = c := Option.some.inj hc
      omega
    | _ => exact absurd hc nofun
  · exact List.forall_mem_cons.mpr ⟨hy, by simpa using hproduct⟩

/-- Multiplying an operand of `atan` goes no further. -/
theorem follows_multiply (e : Expr) : Follows w w degree e (AtanOperand.multiplyNode e) := by
  refine AtanOperand.multiplyNode_holds (P := Follows w w degree e) (.refl e) ?_
  rintro ty y xTy x rfl -
  refine ⟨?_, fun h => ?_⟩
  · -- The call is no watched shape before or after.
    rw [look_eq]
    cases w with
    | negatedOperand pending => cases pending <;> exact Nat.zero_le _
    | _ => exact Nat.zero_le _
  · -- What remains of the second operand is the inside of the negation.
    have hy := h.child List.mem_cons_self
    have hx := (h.child (List.mem_cons_of_mem _ List.mem_cons_self)).child List.mem_cons_self
    exact avoids_multiplied hy hx

/-! ### Swizzles -/

/-- Literals that a mask picks have no watched places in them. -/
theorem avoids_literalArgs (kind : ScalarKind) (mask : Mask) :
    ∀ e ∈ literalArgs kind mask, w.Avoids degree e := by
  intro e he
  obtain ⟨s, -, rfl⟩ := List.mem_map.mp he
  unfold Expr.unit
  split <;> exact avoids_literal _

/-- A selection goes as far as what is selected from. -/
theorem avoids_select {base : Expr} (mask : Mask) (h : w.Avoids degree base) :
    w.Avoids degree (base.select mask) :=
  select_holds h (fun _ => avoids_construct.mpr (by simpa using h)) (avoids_swizzle.mpr h)

/-- A swizzle may disappear, and constants that it selects may leave nothing but constants. -/
theorem look_swizzle (base : Expr) (mask : Mask) :
    w.look (.swizzle ty base mask) =
      if w.look base = 0 ∧ (w = .constantExponent → mask.any Selector.isLiteral = false) then 0
      else 2 := by
  rw [look_eq]
  cases w with
  | constantExponent =>
    cases h : mask.any Selector.isLiteral <;> simp [head, children, judge, veil, h]
  | _ => simp [head, children, judge, veil]

/-- What a mask without constants selects from something that is not of the shape is not. -/
theorem look_select {base : Expr} {mask : Mask} (h : w.look base = 0)
    (hmask : w = .constantExponent → mask.any Selector.isLiteral = false) :
    w.look (base.select mask) = 0 := by
  refine select_holds (P := fun e => w.look e = 0) h (fun ty => ?_) ?_
  · -- A constructor is a constant if all it is made of are constants.
    rw [look_eq]
    cases w with
    | constantExponent => simp [ofConstruct, head, children, judge, h]
    | _ => rfl
  · exact (look_swizzle base mask).trans (if_pos ⟨h, hmask⟩)

/-- A constructor is of no watched shape, unless constants are watched. -/
theorem look_construct (hw : w ≠ .constantExponent) (args : List Expr) :
    w.look (.construct ty args) = 0 := by
  rw [look_eq]
  cases w with
  | constantExponent => exact absurd rfl hw
  | _ => rfl

/-- The type of a selection from a constructor is told by no head. -/
theorem head_withTy_select (args : List Expr) (argsTy : Ty) (mask : Mask) :
    (((ofConstruct argsTy args).select mask).withTy ty).head =
      ((ofConstruct argsTy args).select mask).head :=
  select_holds (P := fun e => (e.withTy ty).head = e.head) rfl (fun _ => rfl) rfl

/-- What a mask selects from something that is not of the shape is not, unless constants could make
    it a constant. -/
theorem look_selectWithLiterals {base : Expr} {mask : Mask} (h : w.look base = 0)
    (hmask : w = .constantExponent → mask.any Selector.isLiteral = false) :
    w.look (base.selectWithLiterals mask ty) = 0 := by
  unfold selectWithLiterals
  split
  · exact look_select h hmask
  · next hliteral =>
    -- The mask has constants here, and only for exponents would they matter.
    have hw : w ≠ .constantExponent := fun hw => by simp [hmask hw] at hliteral
    dsimp only
    split
    · split
      · exact look_binary _ _ nofun nofun
      · exact look_construct hw _
    · have hzero {args : List Expr} {argsTy : Ty} {mask : Mask} :
          w.look (((ofConstruct argsTy args).select mask).withTy ty) = 0 := by
        have hfollows : Follows w w 0 ((ofConstruct argsTy args).select mask)
            (((ofConstruct argsTy args).select mask).withTy ty) :=
          follows_of_head (head_withTy_select args argsTy mask)
        have hselect : w.look ((ofConstruct argsTy args).select mask) = 0 :=
          look_select (look_construct hw args) fun hw' => absurd hw' hw
        exact Nat.le_zero.mp (Nat.le_trans hfollows.look_le (Nat.le_of_eq hselect))
      exact hzero

/-- A selection that mixes in literals goes as far as its base. -/
theorem avoids_selectWithLiterals {base : Expr} (mask : Mask) (h : w.Avoids degree base) :
    w.Avoids degree (base.selectWithLiterals mask ty) := by
  have hconstant : w.Avoids degree (ofConstruct ty (literalArgs base.ty.componentKind mask)) :=
    avoids_construct.mpr (avoids_literalArgs _ _)
  unfold selectWithLiterals
  split
  · exact avoids_select mask h
  · dsimp only
    split
    · split
      · -- A base with side effects is evaluated first, for nothing.
        exact (avoids_operation rfl).mpr ⟨h, hconstant⟩
      · exact hconstant
    · -- Otherwise the literals are arguments next to the components.
      refine (follows_of_head (head_withTy_select _ _ _)).avoids (avoids_select _ ?_)
      refine avoids_construct.mpr (List.forall_mem_cons.mpr ⟨avoids_select _ h, ?_⟩)
      exact avoids_literalArgs _ _

/-- Taking in a swizzle below changes neither what stands there nor that constants are selected. -/
theorem flattenSwizzle_follows {base base' : Expr} {mask mask' : Mask}
    (hflat : flattenSwizzle base mask = (base', mask')) :
    (w.Avoids degree base → w.Avoids degree base') ∧
      (w.look base = 0 → w.look base' = 0 ∧
        (w = .constantExponent → mask.any Selector.isLiteral = false →
          mask'.any Selector.isLiteral = false)) := by
  unfold flattenSwizzle at hflat
  split at hflat
  · next ty inner innerMask =>
    split at hflat
    · next composed hcompose =>
      obtain ⟨rfl, rfl⟩ := Prod.mk.inj hflat
      refine ⟨avoids_swizzle.mp, fun hlook => ?_⟩
      -- That the inner swizzle is of degree 0 says the same about what it selects from, and that it
      -- brings no constants into the mask.
      rw [look_swizzle] at hlook
      split at hlook
      · next hinner =>
        refine ⟨hinner.1, fun hw hmask => ?_⟩
        rw [(Mask.shape_of_compose? (hinner.2 hw) hcompose).2, hmask]
      · exact absurd hlook (by simp)
    · obtain ⟨rfl, rfl⟩ := Prod.mk.inj hflat
      exact ⟨id, fun h => ⟨h, fun _ => id⟩⟩
  · obtain ⟨rfl, rfl⟩ := Prod.mk.inj hflat
    exact ⟨id, fun h => ⟨h, fun _ => id⟩⟩

/-- Normalizing a swizzle goes no further. -/
theorem follows_normalize (e : Expr) :
    Yields (Follows w w degree e) (Expr.normalizeSwizzle e) := by
  refine .of_forall_ok fun e' he' => ?_
  unfold Expr.normalizeSwizzle at he'
  split at he'
  · next ty base mask =>
    -- Swizzles of swizzles become one mask over one base.
    obtain ⟨base', mask', hflat⟩ : ∃ b m, flattenSwizzle base mask = (b, m) := ⟨_, _, rfl⟩
    obtain ⟨havoids, hlook⟩ := @flattenSwizzle_follows w degree _ _ _ _ hflat
    rw [hflat] at he'
    dsimp only at he'
    split at he'
    · exact absurd he' (by simp)
    · obtain rfl := Except.ok.inj he'
      refine ⟨?_, fun h => avoids_selectWithLiterals _ (havoids (avoids_swizzle.mp h))⟩
      rw [look_swizzle]
      split
      · -- If the swizzle is of no watched shape, then neither is what becomes of it.
        next hbase =>
        obtain ⟨hbase', hmask'⟩ := hlook hbase.1
        exact Nat.le_of_eq (look_selectWithLiterals hbase' fun hw => hmask' hw (hbase.2 hw))
      · exact look_le _ _
  · obtain rfl := Except.ok.inj he'
    exact .refl _

/-! ### All rules -/

/-- Raising the precision of a node goes no further. -/
theorem follows_raise (e : Expr) : Follows w w degree e (HighPrecision.raiseNode e) :=
  follows_withTy e rfl

/-- Flipping a program negates derivatives, and makes no other negation. -/
theorem follows_flip (hw : w ≠ .negatedOperand false) (e : Expr) :
    Follows w w.afterFlip degree e (e.bottomUp FlipY.negateDerivative) := by
  refine bottomUp_related (fun e cs hcs => ?_) e
  have hnode := Follows.congr (eases_afterFlip w) hcs
  have hhead := head_withChildren hcs.length_eq.symm
  -- From here on only the node over its new children matters.
  generalize e.withChildren cs = node at hnode hhead
  unfold FlipY.negateDerivative
  split
  · next ty args =>
    refine ⟨?_, fun h => avoids_unary.mpr ⟨nofun, hnode.avoids h⟩⟩
    rw [look_eq, look_eq, ← hhead]
    cases w with
    | negatedOperand pending =>
      cases pending with
      | false => exact absurd rfl hw
      | true =>
        -- The derivative was counted as the negation that it becomes.
        have hdegree : ∀ isFloat : Bool, (if isFloat = true then 1 else 0) ≤ 1 := by decide
        exact hdegree _
    | _ => exact Nat.zero_le _
  · exact hnode

/-- After the flip, negations that were pending are there. -/
theorem avoids_afterFlip (e : Expr) (h : w.Avoids degree e) : w.afterFlip.Avoids degree e := by
  suffices h : Follows w w.afterFlip degree e e from h.avoids ‹_›
  clear h
  induction e using induction_children with
  | h e ih =>
    have hchildren : List.Forall₂ (Follows w w.afterFlip degree) e.children e.children :=
      List.forall₂_same.mpr ih
    simpa using Follows.congr (eases_afterFlip w) hchildren

/-- Splitting an assignment to a choice leaves each arm with the watched places of the whole. -/
theorem avoids_arms {choiceTy : Ty} {op : BinaryOp} {cond a b value : Expr}
    (h : w.Avoids degree (.binary ty op (.ternary choiceTy cond a b) value)) :
    w.Avoids degree cond ∧ ∀ ty, w.Avoids degree (.binary ty op a value) ∧
      w.Avoids degree (.binary ty op b value) := by
  obtain ⟨hplace, htarget, hvalue⟩ := avoids_binary.mp h
  obtain ⟨hcond, ha, hb⟩ := avoids_ternary.mp htarget
  refine ⟨hcond, fun ty => ⟨avoids_binary.mpr ⟨fun hw hop => ?_, ha, hvalue⟩,
    avoids_binary.mpr ⟨fun hw hop => ?_, hb, hvalue⟩⟩⟩
  all_goals
    subst hw
    -- A choice that may be split has arms that are at most choices that may be split.
    have hchoice := hplace rfl hop
    rw [look_ternary] at hchoice
    have ha := look_le .choiceTarget a
    have hb := look_le .choiceTarget b
    split at hchoice <;> omega

/-- No rule but the flip brings anything of a watched shape into a watched place. -/
theorem kept (w : Watch) (degree : Nat) : Kept (w.Avoids degree) where
  -- The rules that replace nodes, each by what it does to one node.
  raise e := (Follows.isCongruence.bottomUp follows_raise e).avoids
  substitute e := (Follows.isCongruence.bottomUp follows_substitute e).avoids
  readLocal prologue e := (Follows.isCongruence.bottomUp (follows_readLocal prologue) e).avoids
  forward e := (Follows.isCongruence.bottomUp follows_forward e).avoids
  resolve profile e he :=
    .mono (Follows.isCongruence.bottomUpM_holds .yields (follows_resolve profile) e)
      fun _ h => h.avoids he
  readCounter e := (Follows.isCongruence.bottomUp follows_readCounter e).avoids
  collapse e := (Follows.isCongruence.bottomUp follows_collapse e).avoids
  unfold e := (Follows.isCongruence.bottomUp follows_unfold e).avoids
  expand e he :=
    .mono (Follows.isCongruence.bottomUpM_holds .yields follows_expand e) fun _ h => h.avoids he
  emulate e he :=
    .mono (Follows.isCongruence.bottomUpM_holds .yields follows_emulate e) fun _ h => h.avoids he
  split e he :=
    unvalued.mono (Follows.isCongruence.bottomUpM_holds unvalued follows_split e)
      fun _ h => h.avoids he
  guard e he :=
    unvalued.mono (Follows.isCongruence.bottomUpM_holds unvalued follows_guard e)
      fun _ h => h.avoids he
  guardPure e := (Follows.isCongruence.bottomUp follows_guardPure e).avoids
  multiply e := (Follows.isCongruence.bottomUp follows_multiply e).avoids
  normalize e he :=
    .mono (Follows.isCongruence.bottomUpM_holds .yields follows_normalize e) fun _ h => h.avoids he
  -- What the rules put into statements besides.
  arms _ _ _ _ _ _ _ _ := avoids_arms
  negated _ _ := avoids_unary.trans (and_iff_right nofun)
  andTrue _ he := (avoids_operation rfl).mpr ⟨he, avoids_literal _⟩
  bool _ := avoids_literal _
  flag _ := ⟨avoids_var _, avoids_assign_var.mpr (avoids_literal _)⟩
  userCall _ _ := (avoids_call (by cases w <;> rfl)).mpr nofun
  flipped := by
    -- The prologue reads a coordinate and the uniform for the height, and declares one local.
    have hcoord : ∀ s, w.Avoids degree (.ofSwizzle (.ofBuiltin .fragCoord) [s]) :=
      fun s => avoids_swizzle.mpr (avoids_builtin _)
    have hflipped : w.Avoids degree (.ofBinary .sub TargetSize.height
        (.ofSwizzle (.ofBuiltin .fragCoord) [.y])) :=
      (avoids_operation rfl).mpr ⟨avoids_var _, hcoord .y⟩
    refine List.forall_mem_singleton.mpr (Stmt.all_decl.mpr fun e he => ?_)
    obtain rfl := Option.some.inj he
    exact avoids_construct.mpr (by simp [hcoord, hflipped])
  resolved := by
    -- The other prologue divides by the last component, which it keeps in a local.
    have hholder : ∀ name mask, w.Avoids degree (.ofSwizzle (.ofVar name (.vec 4)) mask) :=
      fun name mask => avoids_swizzle.mpr (avoids_var name)
    have hinverse : w.Avoids degree (.ofVar FragCoord.inverseWName .float) := avoids_var _
    refine List.forall_mem_cons.mpr ⟨Stmt.all_decl.mpr fun e he => ?_, ?_⟩
    · obtain rfl := Option.some.inj he
      exact (avoids_operation rfl).mpr ⟨avoids_literal _, hholder _ _⟩
    refine List.forall_mem_cons.mpr ⟨Stmt.all_decl.mpr fun e he => ?_, ?_⟩
    · obtain rfl := Option.some.inj he
      refine avoids_construct.mpr (List.forall_mem_cons.mpr ⟨?_, by simpa using hinverse⟩)
      exact (avoids_operation rfl).mpr ⟨hholder _ _, hinverse⟩
    refine List.forall_mem_singleton.mpr (Stmt.all_expr.mpr ?_)
    refine avoids_binary.mpr ⟨fun hw _ => ?_, hholder _ _, (avoids_operation rfl).mpr ⟨?_, ?_⟩⟩
    · subst hw
      exact Nat.zero_le degree
    · exact (avoids_call (by cases w <;> rfl)).mpr (by simp [hholder])
    · exact avoids_construct.mpr (by simp [Expr.float])
  negatePosition := by
    have hy : w.Avoids degree (.ofSwizzle (.ofBuiltin .position) [.y]) :=
      avoids_swizzle.mpr (avoids_builtin _)
    -- What is written is a swizzle of a variable, which is no choice.
    refine Stmt.all_expr.mpr (avoids_binary.mpr ⟨fun hw _ => ?_, hy, ?_⟩)
    · subst hw
      exact Nat.zero_le degree
    · exact (avoids_operation rfl).mpr ⟨avoids_literal _, hy⟩
  runAll count := by
    -- The loop calls the entry function, ends the primitive and counts.
    have hcall : (Stmt.expr (.ofUserCall Invocations.invokeName [] .void)).All
        (w.Avoids degree) :=
      Stmt.all_expr.mpr ((avoids_call (by cases w <;> rfl)).mpr nofun)
    have hend : Stmt.endPrimitive.All (w.Avoids degree) :=
      .intro (by simp [Stmt.own]) (by simp [Stmt.nested])
    have hinit : (Stmt.assign Invocations.counter (.int 0)).All (w.Avoids degree) :=
      Stmt.all_expr.mpr (avoids_assign_var.mpr (avoids_literal _))
    have hcond : w.Avoids degree (.ofBinary .lt Invocations.counter (.int count)) :=
      (avoids_operation rfl).mpr ⟨avoids_var _, avoids_literal _⟩
    have hstep : w.Avoids degree (.ofUnary .postIncrement Invocations.counter) := by
      refine avoids_unary.mpr ⟨fun hw _ => ?_, avoids_var _⟩
      exact Nat.le_trans (Nat.le_of_eq (look_var _)) (Nat.zero_le degree)
    have hbody := Stmt.all_block.mpr (List.forall_mem_cons.mpr
      ⟨hcall, List.forall_mem_singleton.mpr hend⟩)
    refine List.forall_mem_singleton.mpr (Stmt.all_forLoop.mpr ⟨?_, ?_, ?_, hbody⟩)
    · simpa using hinit
    · simpa using hcond
    · simpa using hstep

end ShaderGen.Legalize.Watch
