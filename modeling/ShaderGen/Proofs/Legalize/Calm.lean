import ShaderGen.Proofs.Legalize.Confined
import ShaderGen.Proofs.Legalize.Lenient

/-!
# Expressions without side effects

An expression without side effects gets some from two rules only: the one for absolute values of
integers calls a helper function, and the one for minima assigns to temporaries. An expression that
has no node for either (`Expr.Calm`) stays as it is without side effects under all other rules.

## Key results

- `Legalize.rewrites_staysCalm`: rules up to the one for constant exponents
- `Legalize.emulate_calm`, `split_calm`: the two rules have nothing to do
- `Legalize.guard_quiet`, `multiply_quiet`, `normalize_quiet`: rules after them
-/

namespace ShaderGen

open List (Forall₂)
open Legalize.MinAbs (isMinAbs)

namespace Expr

/-- A node that writes, or calls a function of the program. -/
def acts : Expr → Bool
  | .unary _ op _ => op.writesOperand
  | .binary _ op _ _ => op.isAssignment
  | .call _ (.user _) _ => true
  | _ => false

/-- An expression has side effects if one of its nodes acts. -/
theorem hasSideEffects_eq_any (e : Expr) : e.hasSideEffects = e.any acts := by
  -- Operands in a list have side effects if one of them does.
  have hlist : ∀ {es : List Expr}, (∀ e ∈ es, e.hasSideEffects = e.any acts) →
      anySideEffects es = es.any (Expr.any acts) := by
    intro es ih
    rw [anySideEffects_eq_any]
    induction es with
    | nil => rfl
    | cons e es ihes =>
      rw [List.any_cons, List.any_cons, ih e List.mem_cons_self,
        ihes fun e he => ih e (List.mem_cons_of_mem _ he)]
  induction e with
  | literal | var | builtin => rfl
  | unary ty op operand ih =>
    rw [any_eq]
    simp [hasSideEffects, acts, children, ih]
  | binary ty op left right ihl ihr =>
    rw [any_eq]
    simp [hasSideEffects, acts, children, ihl, ihr, Bool.or_assoc]
  | ternary ty cond ifTrue ifFalse ihc iht ihf =>
    rw [any_eq]
    simp [hasSideEffects, acts, children, ihc, iht, ihf, Bool.or_assoc]
  -- A call of a function is an effect whatever its arguments do.
  | call ty callee args ih =>
    rw [any_eq]
    cases callee with
    | intrinsic f => simp [hasSideEffects, acts, children, hlist ih]
    | user name => simp [hasSideEffects, acts]
  | swizzle ty base mask ih =>
    rw [any_eq]
    simp [hasSideEffects, acts, children, ih]
  | index ty base position ihb ihp =>
    rw [any_eq]
    simp [hasSideEffects, acts, children, ihb, ihp]
  | construct ty args ih =>
    rw [any_eq]
    simp [hasSideEffects, acts, children, hlist ih]
  | group ty inner ih =>
    rw [any_eq]
    simp [hasSideEffects, acts, children, ih]

/-- A node that has side effects, or gets some if absolute values of integers are emulated and if
    minima are split. -/
def stirs (emulates splits : Bool) (e : Expr) : Bool :=
  e.acts || (e.isIntAbs && emulates) || (isMinAbs e && splits)

/-- There is no such node in an expression. -/
def Calm (emulates splits : Bool) (e : Expr) : Prop := e.any (stirs emulates splits) = false

/-- An expression without side effects has the nodes that stir it if the other one has. -/
structure StaysCalm (e e' : Expr) : Prop where
  calm {emulates splits : Bool} (h : e.Calm false false) :
    e'.Calm emulates splits ↔ e.Calm emulates splits
  abs : e'.isAbs = e.isAbs

section

variable {emulates splits : Bool} {e : Expr}

/-- An expression is calm if its root is and its sub-expressions are. -/
theorem calm_iff : e.Calm emulates splits ↔
    e.stirs emulates splits = false ∧ ∀ c ∈ e.children, c.Calm emulates splits :=
  any_eq_false_iff

/-- The shape of a minimum of an absolute value. -/
theorem isMinAbs_iff : isMinAbs e = true ↔
    ∃ ty a b, e = .call ty (.intrinsic .min) [a, b] ∧ a.isAbs = true := by
  constructor
  · -- The node is a minimum of two operands, and the first is an `abs`.
    intro h
    unfold isMinAbs at h
    split at h
    · exact ⟨_, _, _, rfl, rfl⟩
    · cases h
  · rintro ⟨ty, a, b, rfl, ha⟩
    unfold isAbs at ha
    split at ha
    · rfl
    · cases ha

/-- Whether a node acts does not depend on its children. -/
theorem acts_withChildren (e : Expr) (cs : List Expr) : (e.withChildren cs).acts = e.acts := by
  cases e with
  | call ty callee args => cases callee <;> rfl
  | _ => unfold withChildren; split <;> simp_all [acts]

/-- Whether a node is such a minimum depends on its first operand alone. -/
theorem isMinAbs_withChildren {cs : List Expr}
    (hcs : Forall₂ (fun c c' => c'.isAbs = c.isAbs) e.children cs) :
    isMinAbs (e.withChildren cs) = isMinAbs e := by
  cases e with
  | call ty callee args =>
    rw [Bool.eq_iff_iff, isMinAbs_iff, isMinAbs_iff]
    constructor
    · -- The callee and the number of arguments are the same, so only the first argument matters.
      rintro ⟨ty, a', b', heq, ha'⟩
      obtain ⟨rfl, rfl, rfl⟩ := Expr.call.inj heq
      obtain _ | ⟨ha, _ | ⟨-, _ | _⟩⟩ := hcs
      exact ⟨_, _, _, rfl, ha.symm.trans ha'⟩
    · rintro ⟨ty, a, b, heq, habs⟩
      obtain ⟨rfl, rfl, rfl⟩ := Expr.call.inj heq
      obtain _ | ⟨ha, _ | ⟨-, _ | _⟩⟩ := hcs
      exact ⟨_, _, _, rfl, ha.trans habs⟩
  | _ => unfold withChildren; split <;> simp_all [isMinAbs]

/-- A calm node does not act. -/
theorem Calm.not_acts (h : e.Calm emulates splits) : e.acts = false := by
  have hnode := (calm_iff.mp h).1
  simp only [stirs, Bool.or_eq_false_iff] at hnode
  exact hnode.1.1

/-- The parts of a calm expression are calm. -/
theorem Calm.child (h : e.Calm emulates splits) : ∀ c ∈ e.children, c.Calm emulates splits :=
  (calm_iff.mp h).2

/-- Sub-expressions may change to others that are just as calm. -/
theorem isCongruence_staysCalm : IsCongruence StaysCalm where
  trans h h' := ⟨fun he => (h'.calm ((h.calm he).mpr he)).trans (h.calm he), h'.abs.trans h.abs⟩
  congr {e cs} hcs := by
    refine ⟨fun {emulates splits} he => ?_, isAbs_withChildren e cs⟩
    have hmin := isMinAbs_withChildren (hcs.imp fun _ _ h => h.abs)
    have hchildren : (∀ c ∈ cs, c.Calm emulates splits) ↔
        ∀ c ∈ e.children, c.Calm emulates splits := by
      -- Being calm is stated of all children at once, by going through both lists.
      have hquiet := he.child
      clear hmin he
      generalize e.children = bs at hcs hquiet
      induction hcs with
      | nil => rfl
      | cons h _ ih =>
        obtain ⟨hb, hbs⟩ := List.forall_mem_cons.mp hquiet
        rw [List.forall_mem_cons, List.forall_mem_cons]
        exact and_congr (h.calm hb) (ih hbs)
    rw [calm_iff, calm_iff, children_withChildren hcs.length_eq.symm, hchildren, stirs, stirs,
      acts_withChildren, isIntAbs_withChildren, hmin]

/-- A node that is neither a call nor writes. -/
theorem calm_node (hacts : e.acts = false) (hcall : e.isCall = false) :
    e.Calm emulates splits ↔ ∀ c ∈ e.children, c.Calm emulates splits := by
  have hstirs : e.stirs emulates splits = false := by
    cases e with
    | call => cases hcall
    | _ => simp [stirs, hacts, isIntAbs, isMinAbs]
  exact calm_iff.trans (and_iff_right hstirs)

/-- A call of an intrinsic function that computes neither. -/
theorem calm_call {ty : Ty} {f : Intrinsic} {args : List Expr} (habs : f ≠ .abs) (hmin : f ≠ .min) :
    (call ty (.intrinsic f) args).Calm emulates splits ↔ ∀ a ∈ args, a.Calm emulates splits := by
  -- The two calls that are rewritten are of the two excluded functions.
  have hIntAbs : (call ty (.intrinsic f) args).isIntAbs = false := by
    unfold isIntAbs
    split
    · next heq =>
      obtain ⟨-, ⟨rfl⟩, -⟩ := Expr.call.inj heq
      exact absurd rfl habs
    · rfl
  have hMinAbs : isMinAbs (call ty (.intrinsic f) args) = false := by
    rw [Bool.eq_false_iff]
    intro h
    obtain ⟨_, _, _, heq, -⟩ := isMinAbs_iff.mp h
    obtain ⟨-, ⟨rfl⟩, -⟩ := Expr.call.inj heq
    exact hmin rfl
  exact calm_iff.trans (and_iff_right (by simp [stirs, acts, hIntAbs, hMinAbs]))

/-- Only calls of `abs` are absolute values. -/
theorem isAbs_call {ty : Ty} {f : Intrinsic} {args : List Expr} (habs : f ≠ .abs) :
    (call ty (.intrinsic f) args).isAbs = false := by
  unfold isAbs
  split
  · next heq =>
    obtain ⟨-, ⟨rfl⟩, -⟩ := Expr.call.inj heq
    exact absurd rfl habs
  · rfl

/-- A calm expression has no side effects; without the two rules it need have no more. -/
theorem calm_mono {emulates' splits' : Bool} (h : e.Calm emulates splits)
    (hemulates : emulates' = true → emulates = true) (hsplits : splits' = true → splits = true) :
    e.Calm emulates' splits' := by
  refine any_mono (fun n hn => ?_) h
  simp only [stirs, Bool.or_eq_true, Bool.and_eq_true] at hn ⊢
  exact hn.imp (Or.imp_right (And.imp_right hemulates)) (And.imp_right hsplits)

/-- An expression is calm if it has no side effects and no node that gets some. -/
theorem calm_iff_any : e.Calm emulates splits ↔ e.hasSideEffects = false ∧
    (emulates = true → e.any isIntAbs = false) ∧ (splits = true → e.any isMinAbs = false) := by
  rw [hasSideEffects_eq_any]
  constructor
  · intro h
    refine ⟨any_mono (fun n hn => ?_) h, fun hemulates => any_mono (fun n hn => ?_) h,
      fun hsplits => any_mono (fun n hn => ?_) h⟩
    · -- The three reasons to stir are three separate searches of the same tree.
      simp [stirs, hn]
    · simp [stirs, hn, hemulates]
    · simp [stirs, hn, hsplits]
  · rintro ⟨hacts, habs, hmin⟩
    induction e using induction_children with
    | h e ih =>
      simp only [any_eq_false_iff (e := e)] at hacts habs hmin
      refine calm_iff.mpr ⟨?_, fun c hc => ih c hc (hacts.2 c hc) (fun h => (habs h).2 c hc)
        fun h => (hmin h).2 c hc⟩
      simp only [stirs, Bool.or_eq_false_iff, Bool.and_eq_false_imp]
      refine ⟨⟨hacts.1, fun h => eq_false_of_ne_true fun hemulates => ?_⟩,
        fun h => eq_false_of_ne_true fun hsplits => ?_⟩
      · exact absurd h (by simp [(habs hemulates).1])
      · exact absurd h (by simp [(hmin hsplits).1])

/-- Calm without a workaround means free of side effects. -/
theorem hasSideEffects_eq_false_iff : e.hasSideEffects = false ↔ e.Calm false false := by
  simp [calm_iff_any]

end

end Expr

namespace Legalize

open ShaderGen.Expr

variable {emulates splits : Bool} {e : Expr}

/-! ### Rules up to the one for constant exponents -/

/-- A node stirs as much at a higher precision. -/
theorem stirs_raiseNode (e : Expr) :
    (HighPrecision.raiseNode e).stirs emulates splits = e.stirs emulates splits := by
  have hacts : (HighPrecision.raiseNode e).acts = e.acts := by
    cases e with
    | call ty callee args => cases callee <;> rfl
    | _ => rfl
  -- Only the type changes, and both are told by the kind of the call.
  have hIntAbs : (HighPrecision.raiseNode e).isIntAbs = e.isIntAbs := by
    cases e with
    | call ty callee args =>
      cases callee with
      | intrinsic f => cases f <;> rfl
      | user name => rfl
    | _ => rfl
  have hMinAbs : isMinAbs (HighPrecision.raiseNode e) = isMinAbs e := by
    cases e with
    | call ty callee args =>
      rw [Bool.eq_iff_iff, isMinAbs_iff, isMinAbs_iff]
      simp [HighPrecision.raiseNode, withTy]
    | _ => rfl
  rw [stirs, stirs, hacts, hIntAbs, hMinAbs]

/-- A node that is put together anew. -/
theorem staysCalm_of_ne {e' : Expr} (habs : e.isAbs = false) (habs' : e'.isAbs = false)
    (h : ∀ {emulates splits}, e.Calm false false →
      (e'.Calm emulates splits ↔ e.Calm emulates splits)) : StaysCalm e e' :=
  ⟨h, habs'.trans habs.symm⟩

/-- An expression stays as calm as it is. -/
theorem staysCalm_refl (e : Expr) : StaysCalm e e := ⟨fun _ => Iff.rfl, rfl⟩

/-- A rule that only does something to what writes does nothing to what is calm. -/
theorem staysCalm_of_acts {e' : Expr} (hacts : e.acts = true) (habs' : e'.isAbs = false) :
    StaysCalm e e' := by
  -- A node that acts is an assignment, an increment or a call of a user function.
  have habs : e.isAbs = false := by
    cases e with
    | call ty callee args =>
      cases callee with
      | intrinsic f => cases hacts
      | user name => rfl
    | _ => rfl
  exact staysCalm_of_ne habs habs' fun h => absurd hacts (by simp [h.not_acts])

/-- A variable is calm. -/
theorem calm_variable (name : String) (ty : Ty) : (Expr.ofVar name ty).Calm emulates splits :=
  (calm_node rfl rfl).mpr nofun

/-- A variable in the place of a built-in one. -/
theorem staysCalm_builtin (ty : Ty) (b : Builtin) (name : String) (ty' : Ty) :
    StaysCalm (.builtin ty b) (.ofVar name ty') :=
  staysCalm_of_ne rfl rfl fun _ => iff_of_true (calm_variable _ _) ((calm_node rfl rfl).mpr nofun)

/-- A resolved lookup is as calm as its arguments. -/
theorem resolve_staysCalm (profile : Profile) (e : Expr) :
    Yields (StaysCalm e) (TextureLookup.resolveNode profile e) := by
  -- No entry point is one of the calls that are watched.
  have hname : ∀ legacy dim projective,
      TextureLookup.entryPoint legacy dim projective ≠ .abs ∧
        TextureLookup.entryPoint legacy dim projective ≠ .min := by
    intro legacy dim projective
    cases legacy <;> cases dim <;> cases projective <;> exact ⟨nofun, nofun⟩
  unfold TextureLookup.resolveNode
  split
  · next ty args =>
    refine .after fun r => .pure (staysCalm_of_ne rfl (isAbs_call (hname _ _ _).1) fun _ => ?_)
    rw [calm_call (hname _ _ _).1 (hname _ _ _).2, calm_call (f := .sample) nofun nofun]
    unfold TextureLookup.biased
    split
    · rw [List.forall_mem_append]
      exact and_iff_left (List.forall_mem_singleton.mpr ((calm_node rfl rfl).mpr nofun))
    · rfl
  · exact .pure (staysCalm_refl _)

/-- A collapsed target is as calm as the part that is kept. -/
theorem collapse_staysCalm (e : Expr) :
    StaysCalm e (TernaryTarget.collapseNode e) := by
  refine TernaryTarget.collapseNode_holds (P := StaysCalm e) (staysCalm_refl e) ?_ ?_
  -- Only what is written to changes, and a node that writes has an effect.
  · rintro ty op left right rfl hop
    exact staysCalm_of_acts hop rfl
  · rintro ty op operand rfl hop
    exact staysCalm_of_acts hop rfl

/-- A choice in place of a short-circuit operator is as calm. -/
theorem unfold_staysCalm (e : Expr) :
    StaysCalm e (ShortCircuit.unfoldNode e) := by
  have hbool : ∀ {emulates splits} value, (Expr.bool value).Calm emulates splits :=
    fun _ => (calm_node rfl rfl).mpr nofun
  -- An operator becomes a choice with its operands and a constant, which is calm.
  unfold ShortCircuit.unfoldNode
  split
  · refine staysCalm_of_ne rfl rfl fun _ => ?_
    rw [calm_node rfl rfl, calm_node rfl rfl]
    simp [children, ofTernary, hbool]
  · refine staysCalm_of_ne rfl rfl fun _ => ?_
    rw [calm_node rfl rfl, calm_node rfl rfl]
    simp [children, ofTernary, hbool]
  · exact staysCalm_refl _

/-- An expanded power is as calm as the base and the exponent. -/
theorem expand_staysCalm (e : Expr) :
    Yields (StaysCalm e) (ConstantPow.expandNode e) := by
  unfold ConstantPow.expandNode
  split
  · next ty base exponent =>
    split
    · -- The expanded power calls only functions that are not rewritten again.
      refine .pure (staysCalm_of_ne rfl rfl fun {emulates splits} _ => ?_)
      have hlog : (Expr.ofCall .log2 [base]).Calm emulates splits ↔ base.Calm emulates splits :=
        (calm_call (by decide) (by decide)).trans List.forall_mem_singleton
      have hproduct : (Expr.ofBinary .mul exponent (.ofCall .log2 [base])).Calm emulates splits ↔
          exponent.Calm emulates splits ∧ base.Calm emulates splits := by
        rw [calm_node rfl rfl]
        simp [children, ofBinary, hlog]
      rw [ofCall, withTy, calm_call (by decide) (by decide), calm_call (by decide) (by decide),
        List.forall_mem_singleton, hproduct, and_comm]
      simp
    · exact .pure (staysCalm_refl _)
  · exact .error _
  · exact .pure (staysCalm_refl _)

/-- All the rules before the calls are emulated keep expressions calm. -/
theorem rewrites_staysCalm : Rewrites StaysCalm where
  toIsCongruence := isCongruence_staysCalm
  refl := staysCalm_refl
  -- Each of these gives back the node or puts one in its place that does no more.
  raise e := by
    refine ⟨fun _ => ?_, ?_⟩
    · rw [calm_iff, calm_iff, stirs_raiseNode, HighPrecision.raiseNode, children_withTy]
    · cases e with
      | call ty callee args =>
        cases callee with
        | intrinsic f => cases f <;> rfl
        | user name => rfl
      | _ => rfl
  -- The replaced builtins are no calls and act on nothing.
  substitute e := by
    unfold TargetSize.substituteNode
    cases e with
    | builtin ty b =>
      split
      · exact staysCalm_builtin ty b _ _
      · split
        · exact staysCalm_builtin ty b _ _
        · exact staysCalm_refl _
    | _ => exact staysCalm_refl _
  readLocal prologue e := by
    unfold FragCoord.readLocal
    cases e with
    | builtin ty b =>
      split
      · exact staysCalm_builtin ty b _ _
      · exact staysCalm_refl _
    | _ => exact staysCalm_refl _
  forward e := by
    unfold FragCoord.forwardNode
    split
    · next h =>
      refine staysCalm_of_acts ?_ rfl
      unfold FragCoord.assignsPosition at h
      split at h
      · exact h
      · cases h
    · exact staysCalm_refl _
  -- A derivative is negated, so the call stays where it was.
  negateDerivative e := by
    unfold FlipY.negateDerivative
    split
    · refine staysCalm_of_ne rfl rfl fun _ => ?_
      exact (calm_node rfl rfl).trans List.forall_mem_singleton
    · exact staysCalm_refl _
  resolve := resolve_staysCalm
  readCounter e := by
    unfold Invocations.readCounter
    split
    · exact staysCalm_builtin _ _ _ _
    · exact staysCalm_refl _
  collapse := collapse_staysCalm
  unfold := unfold_staysCalm
  expand := expand_staysCalm

/-! ### The two rules that bring in side effects -/

/-- Work that leaves a node with a property as it is leaves an expression as it is, if its parts
    have the property. -/
theorem isCongruence_still {P : Expr → Prop} (hP : ∀ e, P e → ∀ c ∈ e.children, P c) :
    IsCongruence fun e e' => P e → e' = e where
  trans h h' he := by
    obtain rfl := h he
    exact h' he
  congr {e cs} hcs he := by
    -- What holds of a tree holds of its children, so none of them changed.
    have hsame : cs = e.children := by
      have hchildren := hP e he
      generalize e.children = bs at hcs hchildren
      induction hcs with
      | nil => rfl
      | cons h _ ih =>
        obtain ⟨hb, hbs⟩ := List.forall_mem_cons.mp hchildren
        rw [h hb, ih hbs]
    rw [hsame, withChildren_children]

/-- An expression without absolute values of integers needs no helper. -/
theorem emulate_calm (e : Expr) :
    Yields (fun e' => e.Calm true splits → e' = e) (e.bottomUpM IntAbs.emulateNode) := by
  refine (isCongruence_still fun e he => he.child).bottomUpM_holds .yields (fun e => ?_) e
  refine IntAbs.emulateNode_holds (P := Yields fun e' => e.Calm true splits → e' = e)
    (.pure fun _ => rfl) ?_
  rintro ty args rfl hint
  -- A call with integers would be stirred, so the expression was not calm.
  refine .after fun _ => .pure fun h => ?_
  have hnode := (calm_iff.mp h).1
  simp [stirs, isIntAbs, hint] at hnode

/-- An expression without minima of absolute values needs no temporaries. -/
theorem split_calm (e : Expr) :
    unvalued.Holds (fun e' => e.Calm emulates true → e' = e) (e.bottomUpM MinAbs.splitNode) := by
  refine (isCongruence_still fun e he => he.child).bottomUpM_holds unvalued (fun e => ?_) e
  unfold MinAbs.splitNode
  split
  · refine unvalued.bind (unvalued_freshTemp _ _) fun _ _ => ?_
    refine unvalued.bind (unvalued_freshTemp _ _) fun _ _ => unvalued.pure fun h => ?_
    -- A minimum of an `abs` would be stirred, so the expression was not calm.
    have hnode := (calm_iff.mp h).1
    simp [stirs, isMinAbs] at hnode
  · exact unvalued.pure fun _ => rfl

/-! ### The rules after them -/

/-- An expression without side effects becomes one without. -/
def StaysQuiet (e e' : Expr) : Prop := e.hasSideEffects = false → e'.hasSideEffects = false

/-- What is quiet may change to what is quiet, in any place. -/
theorem isCongruence_staysQuiet : IsCongruence StaysQuiet := by
  have h := isCongruence_avoids acts_withChildren
  simp only [← hasSideEffects_eq_any] at h
  exact h

/-- A guarded fraction is as quiet as its operand. -/
theorem quiet_guarded {x : Expr} (ty : Ty) (hx : x.hasSideEffects = false) :
    (Fract.guarded x ty).hasSideEffects = false := by
  simp [Fract.guarded, ofGroup, ofBinary, ofCall, withTy, Expr.float, hasSideEffects,
    anySideEffects, BinaryOp.isAssignment, hx]

/-- An operand without side effects is guarded without a temporary. -/
theorem guard_quiet (e : Expr) :
    unvalued.Holds (StaysQuiet e) (e.bottomUpM Fract.guardNode) := by
  refine isCongruence_staysQuiet.bottomUpM_holds unvalued (fun e => ?_) e
  unfold Fract.guardNode
  split
  · next x hx =>
    obtain ⟨ty, -, rfl⟩ := Fract.eq_of_operand? hx
    have hsame : (call ty (.intrinsic .fract) [x]).hasSideEffects = x.hasSideEffects := by
      simp [hasSideEffects, anySideEffects]
    split
    · -- An operand with effects is stored first, but this one has none.
      next hacts =>
      refine unvalued.bind (unvalued_freshTemp _ _) fun _ _ => unvalued.pure fun h => ?_
      exact absurd (hsame.symm.trans h) (by simp [hacts])
    · exact unvalued.pure fun h => quiet_guarded _ (hsame.symm.trans h)
  · exact unvalued.pure id

/-- The same without temporaries. -/
theorem guardPure_quiet (e : Expr) : StaysQuiet e (e.bottomUp Fract.guardPure) := by
  refine isCongruence_staysQuiet.bottomUp (fun e => ?_) e
  unfold Fract.guardPure
  split
  · next x hx =>
    obtain ⟨ty, -, rfl⟩ := Fract.eq_of_operand? hx
    exact fun h => quiet_guarded _ (by simpa [hasSideEffects, anySideEffects] using h)
  · exact id

/-- Multiplying the operand of an arc tangent adds no effect. -/
theorem multiply_quiet (e : Expr) : StaysQuiet e (e.bottomUp AtanOperand.multiplyNode) := by
  refine isCongruence_staysQuiet.bottomUp (fun e => ?_) e
  refine multiply_related isCongruence_staysQuiet (fun _ => id) (fun ty x h => ?_) e
  have hx : x.hasSideEffects = false := by simpa [hasSideEffects, UnaryOp.writesOperand] using h
  simp [AtanOperand.multiply, ofBinary, withTy, Expr.float, hasSideEffects,
    BinaryOp.isAssignment, hx]

/-- Selecting adds no effect. -/
theorem quiet_select {base : Expr} (mask : Mask) (h : base.hasSideEffects = false) :
    (base.select mask).hasSideEffects = false := by
  refine select_holds (P := fun e => e.hasSideEffects = false) h (fun ty => ?_) ?_
  · simp [ofConstruct, hasSideEffects, anySideEffects, h]
  · simp [ofSwizzle, hasSideEffects, h]

/-- Literals have no effects. -/
theorem quiet_literalArgs (kind : ScalarKind) (mask : Mask) :
    anySideEffects (literalArgs kind mask) = false := by
  rw [anySideEffects_eq_any, List.any_eq_false]
  intro e he
  obtain ⟨s, -, rfl⟩ := List.mem_map.mp he
  unfold Expr.unit
  split <;> exact Bool.false_ne_true

/-- A type says nothing about effects. -/
theorem hasSideEffects_withTy (e : Expr) (ty : Ty) :
    (e.withTy ty).hasSideEffects = e.hasSideEffects := by
  cases e with
  | call _ callee _ => cases callee <;> rfl
  | _ => rfl

/-- Selecting literals adds no effect. -/
theorem quiet_selectWithLiterals {base : Expr} (mask : Mask) (ty : Ty)
    (h : base.hasSideEffects = false) :
    (base.selectWithLiterals mask ty).hasSideEffects = false := by
  have hconstants := quiet_literalArgs base.ty.componentKind mask
  unfold Expr.selectWithLiterals
  split
  · exact quiet_select mask h
  · dsimp only
    -- With no lane left the base is dropped, which is allowed since it has no side effects.
    split
    · rw [if_neg (by simp [h])]
      exact hconstants
    · rw [hasSideEffects_withTy]
      refine quiet_select _ ?_
      simp [ofConstruct, hasSideEffects, anySideEffects, quiet_select _ h, hconstants]

/-- Swizzles are put together anew without side effects. -/
theorem normalize_quiet (e : Expr) :
    Yields (StaysQuiet e) (e.bottomUpM Expr.normalizeSwizzle) := by
  refine isCongruence_staysQuiet.bottomUpM_holds .yields (fun e => .of_forall_ok ?_) e
  intro e' he' he
  unfold Expr.normalizeSwizzle at he'
  split at he'
  · next ty base mask =>
    -- Merging two swizzles keeps the base, and with it its effects.
    have hflat : (flattenSwizzle base mask).1.hasSideEffects = false := by
      unfold flattenSwizzle
      split
      · split <;> exact he
      · exact he
    dsimp only at he'
    split at he'
    · cases he'
    · obtain rfl := Except.ok.inj he'
      exact quiet_selectWithLiterals _ _ hflat
  · obtain rfl := Except.ok.inj he'
    exact he

end Legalize

end ShaderGen
