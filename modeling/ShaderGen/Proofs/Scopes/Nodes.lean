import ShaderGen.Proofs.Legalize.Carried
import ShaderGen.Proofs.Legalize.Supply
import ShaderGen.Proofs.Scopes.Symbols

/-!
# What rules refer to

Each rewriting of nodes puts in the place of a node an expression that is bound wherever the node
is, once the symbols that the rule brings in are in scope: a uniform for the size of the render
target, the variable of a prologue, the counter of invocations, helper functions, and temporaries.

## Key results

- `grants_guardNode`, `grants_splitNode`: nodes that are replaced with the help of temporaries
- `granting_emulateNode`: nodes that are replaced with the help of a helper function
-/

namespace ShaderGen.Legalize

open ShaderGen.Expr

variable {brought : List Symbol} {e : Expr}

/-! ### Rules that bring in nothing -/

/-- Raising a precision needs no more names. -/
theorem grants_raiseNode (e : Expr) : Grants brought e (HighPrecision.raiseNode e) := by
  refine grants_of_same ?_ ?_
  · cases e with
    | call ty callee args => cases callee <;> rfl
    | _ => rfl
  · cases e <;> rfl

/-- Negating a derivative needs no more names. -/
theorem grants_negateDerivative (e : Expr) : Grants brought e (FlipY.negateDerivative e) := by
  unfold FlipY.negateDerivative
  split
  · exact fun scope _ he => (bound_ofUnary _).mpr he
  · exact .refl _

/-- A resolved lookup needs the names of its arguments. -/
theorem grants_resolveNode (profile : Profile) (e : Expr) :
    Yields (Grants brought e) (TextureLookup.resolveNode profile e) := by
  unfold TextureLookup.resolveNode
  split
  · next ty args =>
    refine .after fun r => .pure fun scope _ he => ?_
    rw [bound_intrinsic] at he ⊢
    -- A bias is a constant, so it needs nothing in scope.
    unfold TextureLookup.biased
    split
    · exact List.forall_mem_append.mpr ⟨he, by simp [TextureLookup.sharpenBias]⟩
    · exact he
  · exact .pure (.refl _)

/-- The arm that is selected is part of the choice. -/
theorem grants_collapse (e : Expr) : Grants brought e (TernaryTarget.collapse e) :=
  TernaryTarget.collapse_holds (P := Grants brought e) (.refl e)
    (fun h scope hbrought he => (bound_ternary.mp (h scope hbrought he)).2.1)
    fun h scope hbrought he => (bound_ternary.mp (h scope hbrought he)).2.2

/-- A collapsed target needs the names of an arm of it. -/
theorem grants_collapseNode (e : Expr) : Grants brought e (TernaryTarget.collapseNode e) := by
  refine TernaryTarget.collapseNode_holds (P := Grants brought e) (.refl e) ?_ ?_
  · -- The target is collapsed, and the value is kept.
    rintro ty op left right rfl - scope hbrought he
    rw [bound_binary] at he ⊢
    exact ⟨grants_collapse _ scope hbrought he.1, he.2⟩
  · rintro ty op operand rfl - scope hbrought he
    rw [bound_unary] at he ⊢
    exact grants_collapse _ scope hbrought he

/-- A choice in place of a short-circuit operator needs the names of the operands. -/
theorem grants_unfoldNode (e : Expr) : Grants brought e (ShortCircuit.unfoldNode e) := by
  unfold ShortCircuit.unfoldNode
  split
  · intro scope _ he
    simpa using he
  · intro scope _ he
    simpa using he
  · exact .refl _

/-- An expanded power needs the names of the power. -/
theorem grants_expandNode (e : Expr) : Yields (Grants brought e) (ConstantPow.expandNode e) := by
  unfold ConstantPow.expandNode
  split
  · next ty base exponent =>
    split
    · refine .pure fun scope _ he => ?_
      -- A call of an intrinsic is in scope when its arguments are.
      rw [bound_intrinsic] at he
      have hpower : (ofCall .exp2 [ofBinary .mul exponent (ofCall .log2 [base])]).Bound scope := by
        simpa [and_comm] using he
      exact bound_withTy hpower fun _ _ _ => by simp [ofCall]
    · exact .pure (.refl _)
  · exact .error _
  · exact .pure (.refl _)

/-- The product needs the names of what was negated. -/
theorem grants_multiplyNode (e : Expr) : Grants brought e (AtanOperand.multiplyNode e) := by
  refine AtanOperand.multiplyNode_holds (P := Grants brought e) (.refl e) ?_
  rintro ty y xTy x rfl - scope - he
  obtain ⟨hy, hx⟩ : y.Bound scope ∧ x.Bound scope := by simpa using he
  -- The factor is a constant, which needs nothing in scope.
  have hproduct : (AtanOperand.multiply xTy x).Bound scope :=
    bound_withTy ((bound_ofBinary _).mpr ⟨bound_float _, hx⟩) nofun
  simpa using ⟨hy, hproduct⟩

/-- The constant after a condition needs no name. -/
theorem grants_andTrue {cond : Expr} (h : Grants brought e cond) :
    Grants brought e (LoopCondition.andTrue cond) := fun scope hbrought he =>
  (bound_ofBinary _).mpr ⟨h scope hbrought he, bound_bool true⟩

/-! ### Swizzles -/

/-- A selection needs the names of its base. -/
theorem grants_select (base : Expr) (mask : Mask) : Grants brought base (base.select mask) := by
  intro scope _ he
  exact select_holds he (fun ty => by simpa using he) (by simpa using he)

/-- A selection is no call, unless it is the base itself. -/
theorem select_ne_call {base : Expr} {mask : Mask}
    (h : ∀ ty name args, base ≠ .call ty (.user name) args) (ty : Ty) (name : String)
    (args : List Expr) : base.select mask ≠ .call ty (.user name) args :=
  select_holds (P := (· ≠ .call ty (.user name) args)) (h ty name args) (fun _ => nofun) nofun

/-- Neither do literals need a name. -/
theorem grants_selectWithLiterals (base : Expr) (mask : Mask) (ty : Ty) :
    Grants brought base (base.selectWithLiterals mask ty) := by
  intro scope hbrought he
  -- The literals are in scope everywhere.
  have hconstants : ∀ arg ∈ literalArgs base.ty.componentKind mask, arg.Bound scope := by
    intro arg harg
    obtain ⟨s, -, rfl⟩ := List.mem_map.mp harg
    cases base.ty.componentKind <;> exact bound_literal _
  unfold selectWithLiterals
  dsimp only
  split
  · exact grants_select base mask scope hbrought he
  split
  · split
    · exact (bound_ofBinary _).mpr ⟨he, bound_ofConstruct.mpr hconstants⟩
    · exact bound_ofConstruct.mpr hconstants
  · -- The lanes that are selected go first, and the literals behind them.
    have hlanes := grants_select base (mask.filter fun s => !s.isLiteral) scope hbrought he
    refine bound_withTy (grants_select _ _ scope hbrought ?_) (select_ne_call nofun)
    exact bound_ofConstruct.mpr (List.forall_mem_cons.mpr ⟨hlanes, hconstants⟩)

/-- A normalized swizzle needs the names of its base. -/
theorem grants_normalizeSwizzle (e : Expr) :
    Yields (Grants brought e) (Expr.normalizeSwizzle e) := by
  unfold Expr.normalizeSwizzle
  split
  · next ty base mask =>
    -- Merging two swizzles keeps the base of the inner one.
    have hflat : Grants brought (.swizzle ty base mask) (flattenSwizzle base mask).1 := by
      intro scope _ he
      rw [bound_swizzle] at he
      unfold flattenSwizzle
      split
      · split
        · exact (bound_swizzle _).mp he
        · exact he
      · exact he
    dsimp only
    split
    · exact .error _
    · exact .pure fun scope hbrought he =>
        grants_selectWithLiterals _ _ _ scope hbrought (hflat scope hbrought he)
  · exact .pure (.refl _)

/-! ### Rules that bring in variables -/

/-- Reading a coordinate needs the local that holds it. -/
theorem grants_readLocal {prologue : FragCoord.Prologue} (h : .variable prologue.holder ∈ brought)
    (e : Expr) : Grants brought e (FragCoord.readLocal prologue e) := by
  unfold FragCoord.readLocal
  split
  · exact fun scope hbrought _ => bound_ofVar (hbrought h)
  · exact .refl _

/-- Writing a position needs the varying. -/
theorem grants_forwardNode (h : .variable FragCoord.varyingName ∈ brought) (e : Expr) :
    Grants brought e (FragCoord.forwardNode e) := by
  unfold FragCoord.forwardNode
  split
  · exact fun scope hbrought he => bound_assign.mpr ⟨bound_ofVar (hbrought h), he⟩
  · exact .refl _

/-- Reading the invocation needs the counter. -/
theorem grants_readCounter (h : .variable Invocations.counterName ∈ brought) (e : Expr) :
    Grants brought e (Invocations.readCounter e) := by
  unfold Invocations.readCounter
  split
  · exact fun scope hbrought _ => bound_ofVar (hbrought h)
  · exact .refl _

/-! ### Rules that bring in the size of the render target -/

/-- An expression whose sizes of the render target are among the uniforms in scope. -/
def SizesIn (brought : List Symbol) (e : Expr) : Prop :=
  e.Every fun n => (!TargetSize.isWidth n || brought.contains (.variable TargetSize.widthName)) &&
    (!TargetSize.isHeight n || brought.contains (.variable TargetSize.heightName))

/-- Reading a size needs the uniform for that size. -/
theorem grants_substituteNode {n : Expr} (h : SizesIn brought e)
    (hwidth : TargetSize.isWidth n = TargetSize.isWidth e)
    (hheight : TargetSize.isHeight n = TargetSize.isHeight e) :
    Grants brought n (TargetSize.substituteNode n) := by
  have hnode := h.node
  simp only [← hwidth, ← hheight, Bool.and_eq_true, Bool.or_eq_true, Bool.not_eq_true',
    List.contains_iff_mem] at hnode
  obtain ⟨hw, hh⟩ := hnode
  unfold TargetSize.substituteNode
  split
  · -- The width becomes the name of its uniform, which was brought in; so does the height.
    next hsize =>
    exact fun scope hbrought _ => bound_ofVar (hbrought (hw.resolve_left (by simp [hsize])))
  split
  · next hsize =>
    exact fun scope hbrought _ => bound_ofVar (hbrought (hh.resolve_left (by simp [hsize])))
  · exact .refl _

/-- So it is throughout an expression. -/
theorem grants_substitute (h : SizesIn brought e) :
    Grants brought e (e.bottomUp TargetSize.substituteNode) := by
  revert h
  refine bottomUp_related (R := fun e e' => SizesIn brought e → Grants brought e e')
    (fun e cs hcs h => ?_) e
  -- The children are granted what they need, each on its own.
  have hchildren : List.Forall₂ (Grants brought) e.children cs := by
    refine List.forall₂_iff_get.mpr ⟨hcs.length_eq, fun i hi hi' => ?_⟩
    exact hcs.get hi hi' (h.child (List.get_mem _ _))
  refine isCongruence_grants.trans (isCongruence_grants.congr hchildren)
    (grants_substituteNode h ?_ ?_)
  · cases e <;> unfold withChildren <;> split <;> simp_all [TargetSize.isWidth]
  · cases e <;> unfold withChildren <;> split <;> simp_all [TargetSize.isHeight]

/-! ### Rules that bring in temporaries -/

/-- A guarded fraction needs the names of its operand. -/
theorem bound_guarded {scope : List Symbol} {x : Expr} (h : x.Bound scope) (ty : Ty) :
    (Fract.guarded x ty).Bound scope := by
  refine bound_ofGroup.mpr (bound_withTy ?_ nofun)
  simpa using h

/-- The operand of a fraction is bound where the fraction is. -/
theorem bound_of_operand? {scope : List Symbol} {x : Expr} (h : Fract.operand? e = some x)
    (he : e.Bound scope) : x.Bound scope := by
  obtain ⟨ty, -, rfl⟩ := Fract.eq_of_operand? h
  simpa using he

/-- A guarded fraction without a temporary needs no more names. -/
theorem grants_guardPure (e : Expr) : Grants brought e (Fract.guardPure e) := by
  unfold Fract.guardPure
  split
  · next x hx => exact fun scope _ he => bound_guarded (bound_of_operand? hx he) _
  · exact .refl _

/-- What a node is replaced by is bound where its temporaries are declared. -/
theorem grants_guardNode (e : Expr) :
    Supplies .fractTemp (fun own e' => Grants (Symbol.ofNames own) e e') (Fract.guardNode e) := by
  unfold Fract.guardNode
  split
  · next x hx =>
    split
    · -- The temporary is in scope once it is declared.
      refine (supplies_freshTemp x.ty).bind fun own temp htemp => .pure fun _ => ?_
      obtain ⟨n, rfl, rfl⟩ := htemp
      intro scope hown he
      have htemp : (var x.ty (Stem.fractTemp.nth n)).Bound scope := bound_var (hown (by simp))
      simpa using ⟨⟨htemp, bound_of_operand? hx he⟩, bound_guarded htemp _⟩
    · exact .pure fun scope _ he => bound_guarded (bound_of_operand? hx he) _
  · exact .pure (.refl _)

/-- What compares the temporaries needs them, and the names of what they store. -/
theorem bound_compareTemps {scope : List Symbol} {ty : Ty} {first second a b : Expr}
    (hfirst : first.Bound scope) (hsecond : second.Bound scope) (ha : a.Bound scope)
    (hb : b.Bound scope) : (MinAbs.compareTemps ty first second a b).Bound scope := by
  -- A lane of a temporary needs the name of the temporary.
  have hlane : ∀ {value : Expr} (n : Nat), value.Bound scope →
      (MinAbs.lane value n).Bound scope := by
    intro value n h
    unfold MinAbs.lane
    split
    · exact h
    · exact (bound_ofSwizzle _).mpr h
  unfold MinAbs.compareTemps
  dsimp only
  split
  · simp [*]
  · simp only [bound_ofGroup, bound_ofBinary, bound_assign, bound_ofConstruct, List.mem_map]
    refine ⟨⟨⟨hfirst, ha⟩, hsecond, hb⟩, ?_⟩
    rintro _ ⟨n, -, rfl⟩
    simp [MinAbs.lesser, hlane n hfirst, hlane n hsecond]

/-- A split minimum needs two fresh names, which it declares. -/
theorem grants_splitNode (e : Expr) :
    Supplies .minAbsTemp (fun own e' => Grants (Symbol.ofNames own) e e') (MinAbs.splitNode e) := by
  unfold MinAbs.splitNode
  split
  · next ty absTy args other =>
    refine (supplies_freshTemp absTy).bind fun own first hfirst => ?_
    refine (supplies_freshTemp other.ty).bind fun own' second hsecond => .pure ?_
    obtain ⟨n, rfl, rfl⟩ := hfirst
    obtain ⟨n', rfl, rfl⟩ := hsecond
    intro _ _ scope hown he
    -- Both temporaries are new, and the operands are as they were.
    obtain ⟨ha, hb⟩ : (call absTy (.intrinsic .abs) args).Bound scope ∧ other.Bound scope := by
      simpa using he
    exact bound_compareTemps (bound_var (hown (by simp))) (bound_var (hown (by simp))) ha hb
  · exact .pure (.refl _)

/-! ### The rule that brings in helper functions -/

/-- The verdict on work that gives out no names, if what it puts in front of the program is among
    certain symbols. -/
def granting (brought : List Symbol) : Verdict ScratchM where
  Holds Q x := ∀ s, (x.run s).2.counters = s.counters ∧ s.symbols ⊆ (x.run s).2.symbols ∧
    ((x.run s).2.symbols ⊆ brought → Q (x.run s).1)
  pure h s := ⟨rfl, List.Subset.refl _, fun _ => h⟩
  bind {_ _ _ _ x f} h hf s := by
    obtain ⟨hcounters, hsymbols, hresult⟩ := h s
    obtain ⟨hcounters', hsymbols', hresult'⟩ := hf (x.run s).1 (x.run s).2
    exact ⟨hcounters'.trans hcounters, List.Subset.trans hsymbols hsymbols', fun hbrought =>
      hresult' hbrought (hresult (List.Subset.trans hsymbols' hbrought))⟩

/-- Adding a helper brings in its symbol. -/
theorem granting_addHelper {α : Type} {Q : α → Prop} (shape : Shape) (helper : Function) {a : α}
    (h : .helper shape ∈ brought → Q a) :
    (granting brought).Holds Q (do modify (Scratch.addHelper shape helper); pure a) := by
  intro s
  refine ⟨?_, s.symbols_addHelper _ _, fun hbrought => ?_⟩
  · show (s.addHelper _ _).counters = _
    unfold Scratch.addHelper
    split <;> rfl
  · exact h (hbrought (s.mem_symbols_addHelper shape helper))

/-- An emulated absolute value needs the helper, which is added with it. -/
theorem granting_emulateNode (e : Expr) :
    (granting brought).Holds (Grants brought e) (IntAbs.emulateNode e) := by
  refine IntAbs.emulateNode_holds (P := (granting brought).Holds (Grants brought e))
    ((granting brought).pure (.refl e)) ?_
  rintro ty args rfl -
  -- The call refers to the helper, which is brought in.
  refine granting_addHelper ty.shape _ fun hmem scope hscope he => ?_
  exact bound_userCall (hscope hmem) ((bound_intrinsic _).mp he)

end ShaderGen.Legalize
