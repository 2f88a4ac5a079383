import ShaderGen.Proofs.Precision.Rules

/-!
# The pipeline on programs that differ in precision alone

The other rules make twins of twins as well: temporaries get types of the same shape, and what is
asked of an expression (whether it has side effects, is a constant, or which mask fits it) is asked
of its nodes and shapes alone.

## Key results

- `Legalize.twin_legalize`: the program that the pipeline makes for a target, and the one that it
  makes for the same target with full precision throughout, are twins, or both runs fail in the
  same way
-/

namespace ShaderGen

open List (Forall₂)

namespace Expr.Twin

variable {e e' : Expr}

/-- Twins have the same side effects. -/
theorem hasSideEffects (h : e.Twin e') : e.hasSideEffects = e'.hasSideEffects := by
  -- Arguments have side effects if one of them has.
  have hlist : ∀ {es es' : List Expr}, Forall₂ Twin es es' →
      (∀ e ∈ es, ∀ e', e.Twin e' → e.hasSideEffects = e'.hasSideEffects) →
      anySideEffects es = anySideEffects es' := by
    intro es es' hes ih
    rw [anySideEffects_eq_any, anySideEffects_eq_any]
    exact any_eq_of_forall₂ hes ih
  -- Side effects are told by operators and callees, which twins share.
  induction e generalizing e' with
  | literal | var | builtin =>
    cases h
    rfl
  | unary t op e ih =>
    cases h with
    | unary _ _ he => rw [Expr.hasSideEffects, Expr.hasSideEffects, ih he]
  | binary t op l r ihl ihr =>
    cases h with
    | binary _ _ hl hr => rw [Expr.hasSideEffects, Expr.hasSideEffects, ihl hl, ihr hr]
  | ternary t c a b ihc iha ihb =>
    cases h with
    | ternary _ hc ha hb =>
      rw [Expr.hasSideEffects, Expr.hasSideEffects, ihc hc, iha ha, ihb hb]
  -- A call of a function has side effects whatever its arguments.
  | call t callee args ih =>
    cases h with
    | call _ _ hargs =>
      cases callee with
      | user name => rfl
      | intrinsic f => exact hlist hargs fun e he _ => ih e he
  | swizzle t e mask ih =>
    cases h with
    | swizzle _ he _ => rw [Expr.hasSideEffects, Expr.hasSideEffects, ih he]
  | index t e i ihe ihi =>
    cases h with
    | index _ he hi => rw [Expr.hasSideEffects, Expr.hasSideEffects, ihe he, ihi hi]
  -- A constructor has those of its arguments.
  | construct t args ih =>
    cases h with
    | construct _ hargs => exact hlist hargs fun e he _ => ih e he
  | group t e ih =>
    cases h with
    | group _ he => rw [Expr.hasSideEffects, Expr.hasSideEffects, ih he]

/-- Twins are constants together. -/
theorem isConstant (h : e.Twin e') : e.isConstant = e'.isConstant := by
  -- Constants are literals under negations, constructors and groups, so all other nodes agree at
  -- once.
  induction e generalizing e' with
  | unary t op e ih =>
    cases h with
    | unary _ _ he =>
      cases op with
      | neg => rw [Expr.isConstant, Expr.isConstant, ih he]
      | _ => rfl
  | construct t args ih =>
    cases h with
    | construct _ hargs =>
      rw [Expr.isConstant, Expr.isConstant, allConstant_eq_all, allConstant_eq_all]
      induction hargs with
      | nil => rfl
      | cons ha _ ihas =>
        rw [List.all_cons, List.all_cons, ih _ List.mem_cons_self ha,
          ihas fun a hmem => ih a (List.mem_cons_of_mem _ hmem)]
  | group t e ih =>
    cases h with
    | group _ he => rw [Expr.isConstant, Expr.isConstant, ih he]
  | _ =>
    cases h
    rfl

end Expr.Twin

/-- The target with other precision qualifiers. -/
def Target.qualifying (t : Target) (uses forces : Bool) : Target :=
  { t with profile := { t.profile with usesPrecision := uses, forcesHighPrecision := forces } }

namespace Legalize

variable {p p' : Program}

/-! ### Loops and short-circuit operators -/

/-- The rule for loops that test at the end keeps twins. -/
theorem DoWhile.twin_legalize (h : p.Twin p') :
    besides.Holds Program.Twin (DoWhile.legalize p) (DoWhile.legalize p') := by
  -- With one name for the flag, twins are replaced by twins.
  have hreplace : ∀ name, ∀ t t' : Stmt, t.Twin t' →
      Forall₂ Stmt.Twin (replace name t) (replace name t') := by
    intro name t t' ht
    have hself := ht
    cases ht with
    | doWhile hbody hc =>
      -- The flag, the loop, its exit check, and the old body in it.
      refine .cons (.refl _) (.cons (.whileLoop (.refl _) (.block ?_)) .nil)
      refine .cons (.ifElse (.refl _) (.block (.cons ?_ .nil)) .none)
        (.cons (.refl _) (.cons hbody.toBlock .nil))
      exact .ifElse (.ofUnary .not hc) (.refl _) .none
    | _ => exact .cons hself .nil
  -- Each loop takes a name from the supply, so the visits are paired by the state.
  have hvisit : Stmt.Twin.Visits besides visit visit := by
    intro s s' hs
    have hkeep : besides.Holds
        (fun replace replace' => ∀ t t' : Stmt, t.Twin t' →
          Forall₂ Stmt.Twin (replace t) (replace' t'))
        (pure fun s => [s]) (pure fun s => [s]) := besides.pure fun _ _ ht => .cons ht .nil
    cases hs with
    | doWhile _ _ =>
      refine besides.bind (besides_freshName .loopFlag) fun name _ hname => besides.pure ?_
      obtain rfl := hname
      exact hreplace name
    | _ => exact hkeep
  exact h.mapFunctionsM besides fun _ _ hfn =>
    besides.bind (Stmt.Twin.expandListM besides hvisit hfn.body) fun _ _ hbody =>
      besides.pure { hfn with body := hbody }

/-- Short-circuit operators on twins are unfolded alike. -/
theorem ShortCircuit.twin_unfoldNode (e e' : Expr) (h : e.Twin e') :
    (unfoldNode e).Twin (unfoldNode e') := by
  have hself := h
  cases h with
  -- Two operators are unfolded, and the constants are the same on both sides.
  | binary _ op hl hr =>
    cases op with
    | logicalAnd => exact .ofTernary hl hr (.refl _)
    | logicalOr => exact .ofTernary hl (.refl _) hr
    | _ => exact hself
  | _ => exact hself

namespace LoopCondition

/-- The constant is added to twin conditions alike. -/
theorem twin_andTrue {e e' : Expr} (h : e.Twin e') : (andTrue e).Twin (andTrue e') :=
  .ofBinary _ h (.refl _)

/-- A loop body starts with an exit check together with its twins. -/
theorem twin_andTrueInExitCheck (s s' : Stmt) (h : s.Twin s') :
    (andTrueInExitCheck s).Twin (andTrueInExitCheck s') := by
  have hself := h
  -- The exit check is looked for node by node, in the order of the pattern.
  obtain ⟨_ | @⟨first, first', rest, rest', hfirst, hrest⟩⟩ | _ | _ | _ | _ | _ | _ | _ | _ | _ |
    _ | _ | _ | _ := h
  case block.cons =>
    cases hfirst with
    | ifElse hflag hthen ho =>
      cases hflag with
      | var htflag name =>
        cases hthen with
        | block hinner =>
          cases hinner with
          | nil => exact hself
          | cons hexit hnil =>
            cases hexit with
            | ifElse hcond hleave hothers =>
              cases hcond with
              | unary ht op hc =>
                cases op with
                | not =>
                  cases hnil with
                  | cons _ _ => exact hself
                  | nil =>
                    cases ho with
                    | some _ => exact hself
                    | none =>
                      -- Only here does the pattern fit on both sides; whether the flag is one is a
                      -- matter of its name.
                      rw [andTrueInExitCheck, andTrueInExitCheck]
                      split
                      · refine .block (.cons (.ifElse (.var htflag name) (.block ?_) .none) hrest)
                        exact .cons (.ifElse (.unary ht _ (twin_andTrue hc)) hleave hothers) .nil
                      · exact hself
                | _ => exact hself
              | _ => exact hself
            | _ => exact hself
        | _ => exact hself
      | _ => exact hself
    | _ => exact hself
  all_goals exact hself

/-- The conditions of twin loops are changed alike. -/
theorem twin_andTrueInLoop (s s' : Stmt) (h : s.Twin s') :
    (andTrueInLoop s).Twin (andTrueInLoop s') := by
  have hself := h
  cases h with
  | whileLoop hc hs => exact .whileLoop (twin_andTrue hc) (twin_andTrueInExitCheck _ _ hs)
  | forLoop hi hc ht hs =>
    -- A loop has a condition on both sides or on neither.
    cases hc with
    | none => exact hself
    | some hc => exact .forLoop hi (.some (twin_andTrue hc)) ht hs
  | doWhile hs hc => exact .doWhile hs (twin_andTrue hc)
  | _ => exact hself

/-- The rule for loop conditions keeps twins. -/
theorem twin_legalize (h : p.Twin p') : (legalize p).Twin (legalize p') :=
  h.mapFunctions fun _ _ hfn =>
    hfn.mapBody fun _ _ hss => Stmt.Twin.bottomUpList twin_andTrueInLoop hss

end LoopCondition

/-! ### Numbers -/

/-- Powers of twins are expanded alike, or fail alike. -/
theorem ConstantPow.twin_expandNode (e e' : Expr) (h : e.Twin e') :
    (Pairing.failing Malformation).Holds Expr.Twin (expandNode e) (expandNode e') := by
  have hself : (Pairing.failing Malformation).Holds Expr.Twin (.ok e) (.ok e') := .ok h
  cases h with
  | call ht callee hargs =>
    cases callee with
    | user name => exact hself
    | intrinsic f =>
      cases f with
      | pow =>
        -- With two arguments there is a power; with any other number both sides fail.
        obtain _ | ⟨hbase, _ | ⟨hexponent, _ | ⟨hthird, hrest⟩⟩⟩ := hargs
        · exact .error _
        · exact .error _
        · have hproduct := Expr.Twin.ofBinary .mul hexponent (.ofCall .log2 (.cons hbase .nil))
          rw [expandNode, expandNode, hexponent.isConstant]
          refine (Pairing.failing _).branch (.ok ?_) hself
          exact (Expr.Twin.ofCall .exp2 (.cons hproduct .nil)).withTy ht
        · rw [expandNode, expandNode]
          · rw [List.length_cons, List.length_cons, List.length_cons, hrest.length_eq]
            exact .error _
          · simp
          · simp
      | _ => exact hself
  | _ => exact hself

/-- Calls of twins are emulated alike. -/
theorem IntAbs.twin_emulateNode (e e' : Expr) (h : e.Twin e') :
    besides.Holds Expr.Twin (emulateNode e) (emulateNode e') := by
  have hself : besides.Holds Expr.Twin (pure e) (pure e') := besides.pure h
  cases h with
  | @call t t' _ _ ht callee hargs =>
    cases callee with
    | user name => exact hself
    | intrinsic f =>
      cases f with
      | abs =>
        -- The helper has a parameter in full precision, whatever the argument is in.
        have hfull : t.withPrecision .full = t'.withPrecision .full := by
          rw [Ty.withPrecision, Ty.withPrecision, show t.shape = _ from ht]
        rw [emulateNode, emulateNode, ht.scalarKind?, hfull, show t.shape = _ from ht]
        refine besides.branch ?_ hself
        refine besides.bind (besides_modify fun _ _ hs => hs.addHelper _ _) fun _ _ _ => ?_
        exact besides.pure (.call ht _ hargs)
      | _ => exact hself
  | _ => exact hself

/-- The initial values of twins are moved alike, if they need a function alike. -/
theorem HoistInit.twin_hoist (stem : Stem) {needsFunction : Expr → Bool}
    (hneeds : ∀ e e', e.Twin e' → needsFunction e = needsFunction e') (h : p.Twin p') :
    besidesGen.Holds Program.Twin (hoist stem needsFunction p) (hoist stem needsFunction p') := by
  refine besidesGen.bind (R := Forall₂ (Forall₂ Element.Twin))
    (besidesGen.mapM h.elements fun el _ el' hel => ?_) fun _ _ hels =>
    besidesGen.pure ⟨h.stage, List.rel_flatten hels⟩
  -- An element that stays is its own list on both sides.
  have hself : besidesGen.Holds (Forall₂ Element.Twin) (pure [el]) (pure [el']) :=
    besidesGen.pure (.cons hel .nil)
  cases hel with
  | @global d d' hd =>
    obtain ⟨storage, name, ty, init⟩ := d
    obtain ⟨storage', name', ty', init'⟩ := d'
    obtain ⟨rfl, rfl, hty, hinit⟩ := hd
    cases hinit with
    | none => exact hself
    | some he =>
      unfold hoistElement
      dsimp only
      -- Whether the value needs a function, and whether the global may call one, is the same on
      -- both sides.
      rw [he.any_eq hneeds]
      refine besidesGen.branch (besidesGen.branch ?_ (besides_fail _)) hself
      refine besidesGen.bind (besides_lift (besides_freshName stem)) fun name _ hname => ?_
      obtain rfl := hname
      refine besidesGen.pure (.cons (.function ?_) (.cons (.global ?_) .nil))
      · exact ⟨rfl, hty, .nil, .cons (.returnWith (.some he)) .nil⟩
      · exact ⟨rfl, rfl, hty, .some (.call hty _ .nil)⟩
  | _ => exact hself

namespace MinAbs

/-- Twins are minima of absolute values alike. -/
theorem isMinAbs_twin (e e' : Expr) (h : e.Twin e') : isMinAbs e = isMinAbs e' := by
  unfold isMinAbs
  -- The form of a node is that of its twin, so the mixed cases cannot be.
  split <;> split
  · rfl
  · rename_i hform
    obtain _ | _ | _ | _ | _ | _ | ⟨ht, _, _ | ⟨habs, _ | ⟨hother, _ | _⟩⟩⟩ := h
    obtain _ | _ | _ | _ | _ | _ | ⟨habsTy, _, hargs⟩ := habs
    exact absurd rfl (hform _ _ _ _)
  · rename_i hform _ _ _ _ _
    obtain _ | _ | _ | _ | _ | _ | ⟨ht, _, _ | ⟨habs, _ | ⟨hother, _ | _⟩⟩⟩ := h
    obtain _ | _ | _ | _ | _ | _ | ⟨habsTy, _, hargs⟩ := habs
    exact absurd rfl (hform _ _ _ _)
  · rfl

/-- Components of twins are twins. -/
theorem twin_lane {e e' : Expr} (h : e.Twin e') (n : Nat) : (lane e n).Twin (lane e' n) := by
  unfold lane
  rw [h.ty.isScalar]
  split
  · exact h
  · exact .ofSwizzle h _

/-- Twin values are compared alike. -/
theorem twin_compareTemps {t t' : Ty} {a a' b b' x x' y y' : Expr} (ht : t.Twin t')
    (ha : a.Twin a') (hb : b.Twin b') (hx : x.Twin x') (hy : y.Twin y') :
    (compareTemps t a b x y).Twin (compareTemps t' a' b' x' y') := by
  unfold compareTemps
  dsimp only
  rw [ht.isScalar, ht.componentCount]
  split
  · -- Scalars are compared as they are, vectors component by component.
    exact .ofGroup (.ofTernary (.ofBinary .lt (.assign ha hx) (.assign hb hy)) ha hb)
  · refine .ofGroup (.ofBinary .comma (.ofBinary .comma (.assign ha hx) (.assign hb hy))
      (.construct ht (List.rel_map (R := Eq) ?_ (List.forall₂_eq_eq_eq ▸ rfl))))
    rintro n _ rfl
    exact .ofTernary (.ofBinary .lt (twin_lane ha n) (twin_lane hb n)) (twin_lane ha n)
      (twin_lane hb n)

/-- Any other node is left as it is. -/
theorem splitNode_eq_pure {e : Expr} (h : isMinAbs e = false) : splitNode e = pure e := by
  unfold splitNode
  split
  · exact absurd h (by simp [isMinAbs])
  · rfl

/-- Minima of twins are split alike. -/
theorem twin_splitNode (e e' : Expr) (h : e.Twin e') :
    besidesTemp.Holds Expr.Twin (splitNode e) (splitNode e') := by
  cases hmin : isMinAbs e with
  | false =>
    rw [splitNode_eq_pure hmin, splitNode_eq_pure (isMinAbs_twin e e' h ▸ hmin)]
    exact besidesTemp.pure h
  | true =>
    unfold isMinAbs at hmin
    split at hmin
    · obtain _ | _ | _ | _ | _ | _ | ⟨ht, _, _ | ⟨habs, _ | ⟨hother, _ | _⟩⟩⟩ := h
      have hvalue := habs
      obtain _ | _ | _ | _ | _ | _ | ⟨habsTy, _, hargs⟩ := habs
      -- Both temporaries have twin types, so what compares them is twin as well.
      refine besidesTemp.bind (besides_freshTemp _ habsTy) fun _ _ hfirst => ?_
      refine besidesTemp.bind (besides_freshTemp _ hother.ty) fun _ _ hsecond => ?_
      exact besidesTemp.pure (twin_compareTemps ht hfirst hsecond hvalue hother)
    · exact absurd hmin nofun

/-- The rule for minima keeps twins. -/
theorem twin_legalize (h : p.Twin p') :
    besidesGen.Holds Program.Twin (MinAbs.legalize p) (MinAbs.legalize p') :=
  besidesGen.bind (HoistInit.twin_hoist _ isMinAbs_twin h) fun _ _ h =>
    h.mapFunctionsM besidesGen fun _ _ hfn =>
      besides_lift (twin_withTemporaries twin_splitNode hfn)

end MinAbs

namespace Fract

/-- The operands of two guarded fractions are twins. -/
theorem operand?_twin {e e' : Expr} (h : e.Twin e') :
    Option.Rel Expr.Twin (operand? e) (operand? e') := by
  cases h with
  | call ht callee hargs =>
    cases callee with
    | user name => exact .none
    | intrinsic f =>
      cases f with
      | fract =>
        -- One operand of floats is guarded; any other call is left alone.
        obtain _ | ⟨hx, _ | _⟩ := hargs
        · exact .none
        · rw [operand?, operand?, ht.isFloat]
          split
          · exact .some hx
          · exact .none
        · exact .none
      | _ => exact .none
  | _ => exact .none

/-- Twins need a temporary alike. -/
theorem needsTemporary_twin (e e' : Expr) (h : e.Twin e') :
    needsTemporary e = needsTemporary e' :=
  any_eq_of_rel (operand?_twin h) fun _ _ hx => hx.hasSideEffects

/-- Guarded fractions of twins are twins. -/
theorem twin_guarded {x x' : Expr} {t t' : Ty} (hx : x.Twin x') (ht : t.Twin t') :
    (guarded x t).Twin (guarded x' t') := by
  have hsign : (Expr.ofCall .sign [x]).Twin (.ofCall .sign [x']) := .ofCall _ (.cons hx .nil)
  have habs : (Expr.ofCall .abs [x]).Twin (.ofCall .abs [x']) := .ofCall _ (.cons hx .nil)
  have hdistance := Expr.Twin.ofBinary .sub (.refl (.float .half))
    (.ofCall .fract (.cons habs .nil))
  exact .ofGroup ((Expr.Twin.ofBinary .sub (.refl (.float .half))
    (.ofBinary .mul hsign hdistance)).withTy ht)

/-- Where there are no temporaries, twins are guarded alike. -/
theorem twin_guardPure (e e' : Expr) (h : e.Twin e') : (guardPure e).Twin (guardPure e') := by
  have hx := operand?_twin h
  unfold guardPure
  generalize operand? e = o, operand? e' = o' at hx
  cases hx with
  | none => exact h
  | some hx => exact twin_guarded hx h.ty

/-- Twins are guarded alike, with a temporary or without. -/
theorem twin_guardNode (e e' : Expr) (h : e.Twin e') :
    besidesTemp.Holds Expr.Twin (guardNode e) (guardNode e') := by
  have hx := operand?_twin h
  unfold guardNode
  generalize operand? e = o, operand? e' = o' at hx
  cases hx with
  | none => exact besidesTemp.pure h
  | some hx =>
    dsimp only
    -- Only an operand with side effects gets a temporary.
    rw [hx.hasSideEffects]
    refine besidesTemp.branch ?_ (besidesTemp.pure (twin_guarded hx h.ty))
    refine besidesTemp.bind (besides_freshTemp _ hx.ty) fun _ _ htemp => ?_
    exact besidesTemp.pure (.ofBinary .comma (.assign htemp hx) (twin_guarded htemp h.ty))

/-- The rule for fractions keeps twins. -/
theorem twin_legalize (h : p.Twin p') :
    besidesGen.Holds Program.Twin (Fract.legalize p) (Fract.legalize p') := by
  refine besidesGen.bind (HoistInit.twin_hoist _ needsTemporary_twin h) fun p p' h => ?_
  -- After initial values have moved, globals and functions are treated apart.
  refine besidesGen.bind (R := Forall₂ Element.Twin) (besides_lift (besides.mapM h.elements
    fun el _ el' hel => ?_)) fun _ _ hels => besidesGen.pure ⟨h.stage, hels⟩
  cases hel with
  | global hd =>
    have hinit := hd.mapInitM (m := Id) .values (f := fun e => pure (e.bottomUp guardPure))
      (g := fun e => pure (e.bottomUp guardPure)) fun _ _ he => he.bottomUp twin_guardPure
    exact besides.pure (.global hinit)
  | function hfn =>
    exact besides.bind (twin_withTemporaries twin_guardNode hfn) fun _ _ hfn =>
      besides.pure (.function hfn)
  | layout l => exact besides.pure (.layout l)

end Fract

/-- Negated operands of twins are multiplied alike. -/
theorem AtanOperand.twin_multiplyNode (e e' : Expr) (h : e.Twin e') :
    (multiplyNode e).Twin (multiplyNode e') := by
  have hself := h
  unfold multiplyNode
  split
  · obtain _ | _ | _ | _ | _ | _ | ⟨ht, _, _ | ⟨hy, _ | ⟨hneg, _ | _⟩⟩⟩ := h
    obtain _ | _ | _ | ⟨hx, _, he⟩ := hneg
    dsimp only
    rw [hx.isFloat]
    split
    · refine .call ht _ (.cons hy (.cons ?_ .nil))
      exact (Expr.Twin.ofBinary .mul (.refl _) he).withTy hx
    · exact hself
  · -- If one side has the form, so has the other.
    rename_i hform
    split
    · obtain _ | _ | _ | _ | _ | _ | ⟨ht, _, _ | ⟨hy, _ | ⟨hneg, _ | _⟩⟩⟩ := h
      obtain _ | _ | _ | ⟨hx, _, he⟩ := hneg
      exact absurd rfl (hform _ _ _ _)
    · exact hself

/-! ### Swizzles -/

namespace Swizzle

/-- Selections from twins are twins. -/
theorem twin_select {e e' : Expr} (h : e.Twin e') (mask : Mask) :
    (e.select mask).Twin (e'.select mask) := by
  unfold Expr.select
  rw [h.ty.isScalar, h.ty.swizzleWidth?]
  split
  · -- A scalar has no mask, so it is repeated or left as it is.
    split
    · exact h
    · exact .construct (.withComponents h.ty.componentKind _ _ _) (.cons h .nil)
  split
  · exact h
  · exact .ofSwizzle h mask

/-- Selections with literals from twins are twins. -/
theorem twin_selectWithLiterals {e e' : Expr} (h : e.Twin e') (mask : Mask) {t t' : Ty}
    (ht : t.Twin t') : (e.selectWithLiterals mask t).Twin (e'.selectWithLiterals mask t') := by
  have hconstants : Forall₂ Expr.Twin (Expr.literalArgs e.ty.componentKind mask)
      (Expr.literalArgs e'.ty.componentKind mask) := by
    rw [h.ty.componentKind]
    exact List.forall₂_same.mpr fun e _ => .refl e
  -- Literals depend on the kind of component alone.
  have hconstant : (Expr.ofConstruct t (Expr.literalArgs e.ty.componentKind mask)).Twin
      (.ofConstruct t' (Expr.literalArgs e'.ty.componentKind mask)) := .construct ht hconstants
  unfold Expr.selectWithLiterals
  dsimp only
  rw [h.hasSideEffects]
  split
  · exact twin_select h mask
  split
  · split
    · exact .ofBinary .comma h hconstant
    · exact hconstant
  · -- Literals and components are put in one constructor, and picked from that.
    refine (twin_select (.construct ht (.cons (twin_select h _) hconstants)) _).withTy ht

/-- Swizzles of twins are flattened to twins with one mask. -/
theorem twin_flattenSwizzle {e e' : Expr} (h : e.Twin e') (mask : Mask) :
    (e.flattenSwizzle mask).1.Twin (e'.flattenSwizzle mask).1 ∧
      (e.flattenSwizzle mask).2 = (e'.flattenSwizzle mask).2 := by
  have hself := h
  cases h with
  | swizzle _ he inner =>
    unfold Expr.flattenSwizzle
    dsimp only
    -- Whether the masks compose does not depend on the base.
    cases inner.compose? mask with
    | none => exact ⟨hself, rfl⟩
    | some composed => exact ⟨he, rfl⟩
  | _ => exact ⟨hself, rfl⟩

/-- Twins are normalized alike, or fail alike. -/
theorem twin_normalizeSwizzle (e e' : Expr) (h : e.Twin e') :
    (Pairing.failing Malformation).Holds Expr.Twin e.normalizeSwizzle e'.normalizeSwizzle := by
  have hself : (Pairing.failing Malformation).Holds Expr.Twin (.ok e) (.ok e') := .ok h
  cases h with
  | @swizzle t t' e e' ht he mask =>
    obtain ⟨hbase, hmask⟩ := twin_flattenSwizzle he mask
    -- What is wrong with a mask is told by the width of the base.
    have hdefect : Expr.maskDefect? (e.flattenSwizzle mask).1.ty (e.flattenSwizzle mask).2 =
        Expr.maskDefect? (e'.flattenSwizzle mask).1.ty (e'.flattenSwizzle mask).2 := by
      unfold Expr.maskDefect?
      rw [hbase.ty.swizzleWidth?, hmask]
    unfold Expr.normalizeSwizzle
    dsimp only
    rw [hdefect, hmask]
    cases Expr.maskDefect? (e'.flattenSwizzle mask).1.ty (e'.flattenSwizzle mask).2 with
    | some defect => exact .error defect
    | none => exact .ok (twin_selectWithLiterals hbase _ ht)
  | _ => exact hself

end Swizzle

/-! ### The pipeline -/

/-- A rule that runs on both programs or on neither, and makes twins, takes a step to twins. -/
theorem Rule.twin_step {R : Program → Program → Prop} {rule : Rule} {t t' : Target}
    (henabled : rule.enabled t p = rule.enabled t' p')
    (hrun : besidesGen.Holds R (rule.run t p) (rule.run t' p')) (h : R p p') :
    besidesGen.Holds R (rule.step t p) (rule.step t' p') := by
  have hreport : besidesGen.Holds (fun _ _ => True)
      (modify (Scratch.report (.ruleStarts rule.name)))
      (modify (Scratch.report (.ruleStarts rule.name))) :=
    besides_lift (besides_modify fun _ _ hs => hs.report _ _)
  unfold Rule.step
  rw [henabled]
  exact besidesGen.branch (besidesGen.bind hreport fun _ _ _ => hrun) (besidesGen.pure h)

variable (t : Target)

/-- Rules other than the one for full precision do not look at precision qualifiers. -/
theorem twin_rest (uses forces : Bool) {rule : Rule}
    (hrule : rule ∈ rulesAfter "force_high_precision") (h : p.Twin p') :
    besidesGen.Holds Program.Twin (rule.step t p) (rule.step (t.qualifying uses forces) p') := by
  -- One case for each rule after the one that raises precisions, in the order of the pipeline.
  simp only [rulesAfter, pipeline, List.dropWhile, Rule.name_always, String.reduceBNe,
    List.tail_cons, List.mem_cons, List.not_mem_nil, or_false] at hrule
  obtain rfl | rfl | rfl | rfl | rfl | rfl | rfl | rfl | rfl | rfl | rfl | rfl | rfl := hrule
  · exact Rule.twin_step rfl (FragCoord.twin_legalize t h) h
  · exact Rule.twin_step rfl
      (besides_liftMalformed (h.mapNodesM _ (TextureLookup.twin_resolveNode _))) h
  · -- This is the only rule of these that is enabled by the program and not by the profile alone.
    refine Rule.twin_step ?_ (Invocations.twin_legalize h) h
    show (p.stage == .geometry && 1 < p.declaredInvocations && !t.profile.hasInvocations) =
      (p'.stage == .geometry && 1 < p'.declaredInvocations && !t.profile.hasInvocations)
    rw [h.stage, declaredInvocations_twin h]
  · exact Rule.twin_step rfl (besides_liftUnsupported (TernaryTarget.twin_legalize _ h)) h
  · exact Rule.twin_step rfl (besides_lift (DoWhile.twin_legalize h)) h
  · exact Rule.twin_step rfl (besidesGen.pure (h.mapNodes ShortCircuit.twin_unfoldNode)) h
  · exact Rule.twin_step rfl (besidesGen.pure (LoopCondition.twin_legalize h)) h
  · exact Rule.twin_step rfl
      (besides_liftMalformed (h.mapNodesM _ ConstantPow.twin_expandNode)) h
  · exact Rule.twin_step rfl (besides_lift (h.mapNodesM _ IntAbs.twin_emulateNode)) h
  · exact Rule.twin_step rfl (MinAbs.twin_legalize h) h
  · exact Rule.twin_step rfl (Fract.twin_legalize h) h
  · exact Rule.twin_step rfl (besidesGen.pure (h.mapNodes AtanOperand.twin_multiplyNode)) h
  · exact Rule.twin_step rfl
      (besides_liftMalformed (h.mapNodesM _ Swizzle.twin_normalizeSwizzle)) h

/-- What the pipeline makes of a program for a target, and for the same target with full precision
    throughout, are twins; or it fails in the same way. -/
theorem twin_legalize (p : Program) :
    besidesGen.Holds Program.Twin (legalize t p) (legalize (t.qualifying true true) p) := by
  -- The rules after the two that differ keep twins, by induction on the list.
  have hrest : ∀ rules : List Rule, (∀ r ∈ rules, r ∈ rulesAfter "force_high_precision") →
      ∀ p p', p.Twin p' → besidesGen.Holds Program.Twin (rules.foldlM (Rule.step t) p)
        (rules.foldlM (Rule.step (t.qualifying true true)) p') := by
    intro rules hrules
    induction rules with
    | nil => exact fun p p' h => besidesGen.pure h
    | cons r rules ih =>
      intro p p' h
      rw [List.foldlM_cons, List.foldlM_cons]
      exact besidesGen.bind (twin_rest t true true (hrules r List.mem_cons_self) h) fun p p' h =>
        ih (fun r' hr' => hrules r' (List.mem_cons_of_mem _ hr')) p p' h
  let full : Rule := ⟨"force_high_precision",
    fun t _ => t.profile.usesPrecision && t.profile.forcesHighPrecision,
    fun _ p => pure (HighPrecision.legalize p)⟩
  have hfull : ∀ p, besidesGen.Holds Program.Twin (full.step t p)
      (full.step (t.qualifying true true) p) := by
    intro p
    cases hforces : t.profile.usesPrecision && t.profile.forcesHighPrecision with
    | true => exact Rule.twin_step hforces (besidesGen.pure (.refl _)) (.refl _)
    -- Where the other target raises the precision and this one does not, the results are twins.
    | false =>
      have hstays : full.step t p = pure p := if_neg (by simp [full, hforces])
      rw [hstays]
      exact besidesGen.bind (besides_report (.ruleStarts full.name)) fun _ _ _ =>
        besidesGen.pure (HighPrecision.twin_legalize p)
  have hsplit : pipeline = .always "header" Preamble.legalize :: full ::
      rulesAfter "force_high_precision" := rfl
  unfold legalize
  rw [hsplit]
  simp only [List.foldlM_cons]
  -- The rule that comes first leaves the program as it is, so the next one sees one program.
  refine besidesGen.bind (R := Eq)
    (Rule.twin_step rfl (Preamble.twin_legalize t (.refl p) rfl) rfl) fun p _ hp => ?_
  obtain rfl := hp
  exact besidesGen.bind (hfull p) fun p p' h => hrest _ (fun _ => id) p p' h

end Legalize

end ShaderGen
