import ShaderGen.Proofs.Legalize.Helpers
import ShaderGen.Proofs.Legalize.Kept
import ShaderGen.Proofs.Legalize.Reworked

/-!
# Where fragment coordinates are read

Two policies keep a program from reading the fragment coordinate itself. If it is computed from
the clip position that the vertex stage passes on, the built-in variable is not read at all; if it
is computed from the height of the render target, only the prologue of a function reads it. No rule
that runs later brings a read back or moves the prologue's.

The rule looks for reads in the whole program, but only functions get a prologue: where the initial
value of a global reads the coordinate, it does so in the end (`global_still_reads_fragCoord`).

## Main definitions

- `ReadsInPrologue`: what a function may read where coordinates are measured from the other side

## Key results

- `legalize_confines_fragCoord`: where no initial value of a global reads the coordinate, nothing
  but the prologue does
-/

namespace ShaderGen

/-- A node that is a certain built-in variable. -/
def Expr.isBuiltin (which : Builtin) : Expr → Bool
  | .builtin _ b => b == which
  | _ => false

namespace Legalize.FragCoord

open ShaderGen.Expr

/-- No node of an expression reads the coordinate. -/
def Unread (e : Expr) : Prop := e.any isFragCoord = false

/-- Declaration of a local variable that holds the coordinate measured from the other side. -/
def flippedDecl : Decl :=
  let coord (component : Selector) : Expr := .ofSwizzle (.ofBuiltin .fragCoord) [component]
  let height : Expr := .ofVar "u_skRTHeight" .float
  .plain "sk_FragCoord" (.vec 4) (some (.ofConstruct (.vec 4)
    [coord .x, .ofBinary .sub height (coord .y), coord .z, coord .w]))

/-- Nothing but the declaration of the flipped coordinate reads the coordinate, and it stands in the
    body of the function itself, once. -/
def ReadsInPrologue (fn : Function) : Prop :=
  ∃ front rest, fn.body = front ++ [.decl flippedDecl] ++ rest ∧
    Stmt.anyExprList (Expr.any (Expr.isBuiltin .fragCoord)) (front ++ rest) = false

/-! ### Expressions -/

/-- What the rule looks for. -/
theorem isFragCoord_eq : isFragCoord = Expr.isBuiltin .fragCoord := by
  funext e
  cases e with
  | builtin ty which => cases which <;> rfl
  | _ => rfl

/-- An expression reads no coordinate if its root does not and its subtrees do not. -/
theorem unread_iff {e : Expr} : Unread e ↔ isFragCoord e = false ∧ ∀ c ∈ e.children, Unread c :=
  any_eq_false_iff

/-- No plain node is the coordinate. -/
theorem not_isFragCoord_of_isPlain {e : Expr} (h : e.isPlain = true) : isFragCoord e = false := by
  cases e with
  | builtin => exact absurd h (by simp [isPlain])
  | _ => rfl

/-- Whether a node is the coordinate is told by the node. -/
theorem isFragCoord_withChildren (e : Expr) (cs : List Expr) :
    isFragCoord (e.withChildren cs) = isFragCoord e := by
  unfold withChildren
  split <;> rfl

/-- What fills a tree is no coordinate. -/
theorem not_isFragCoord_of_isFiller {e : Expr} (h : e.isFiller true = true) :
    isFragCoord e = false :=
  not_isFragCoord_of_isPlain (isPlain_of_isFiller h)

/-- No rule makes an expression read the coordinate. -/
theorem reworks_unread : Reworks fun e e' => Unread e → Unread e' where
  trans := (isCongruence_avoids isFragCoord_withChildren).trans
  congr := (isCongruence_avoids isFragCoord_withChildren).congr
  refl _ := id
  remake _ hmade _ he := hmade.any_eq_false (fun _ => not_isFragCoord_of_isFiller)
    (fun _ _ _ => rfl) fun _ hd => hd.any_eq_false he
  counter _ _ := rfl

/-- A local variable is read instead, wherever the coordinate was. -/
theorem unread_readLocal (prologue : Prologue) (e : Expr) :
    Unread (e.bottomUp (readLocal prologue)) := by
  refine bottomUp_related (R := fun _ e' => Unread e') (fun e cs hcs => ?_) e
  unfold readLocal
  split
  · rfl
  · -- Any other node reads coordinates only below it, where they were replaced.
    next hnode =>
    refine unread_iff.mpr ⟨by simpa using hnode, fun c' hc' => ?_⟩
    obtain ⟨c, hc, hunread⟩ := exists_related_child hcs c' hc'
    exact hunread

/-- Rewritings that keep a node or put nodes without reads above it or in its place. -/
theorem unread_bottomUp {f : Expr → Expr} (hf : ∀ e, Unread e → Unread (f e)) {e : Expr}
    (he : Unread e) : Unread (e.bottomUp f) :=
  reworks_unread.bottomUp hf e he

/-- Reading a size reads no coordinate. -/
theorem unread_substitute {e : Expr} (he : Unread e) : Unread (TargetSize.substituteNode e) := by
  unfold TargetSize.substituteNode
  split
  · rfl
  · split
    · rfl
    · exact he

/-- A coordinate of another type is one. -/
theorem isFragCoord_withTy (ty : Ty) (e : Expr) : isFragCoord (e.withTy ty) = isFragCoord e := by
  cases e with
  | builtin _ which => cases which <;> rfl
  | _ => rfl

/-- Raising a precision reads no coordinate. -/
theorem unread_raise {e : Expr} (he : Unread e) : Unread (HighPrecision.raiseNode e) := by
  rw [unread_iff] at he ⊢
  rw [HighPrecision.raiseNode, isFragCoord_withTy, children_withTy]
  exact he

/-- Writing the position reads none. -/
theorem unread_forward {e : Expr} (he : Unread e) : Unread (forwardNode e) := by
  unfold forwardNode
  split
  · exact unread_iff.mpr ⟨rfl, List.forall_mem_cons.mpr ⟨rfl, List.forall_mem_singleton.mpr he⟩⟩
  · exact he

/-- Negating a derivative reads none. -/
theorem unread_negate {e : Expr} (he : Unread e) : Unread (FlipY.negateDerivative e) := by
  unfold FlipY.negateDerivative
  split
  · exact unread_iff.mpr ⟨rfl, List.forall_mem_singleton.mpr he⟩
  · exact he

/-! ### The rule -/

/-- What is asked of a program once its coordinates are settled: no expression reads the coordinate,
    but functions may start with the prologue for flipped ones where that is how a program gets at
    coordinates. -/
def confined (policy : CoordPolicy) : Demand where
  exprs := Unread
  prologue := if policy = .fromHeight then flipped.statements else []

/-- The prologue is put together of what no rule looks for. -/
theorem inert_flipped : ∀ s ∈ flipped.statements, ∃ d, s = .decl d ∧ ∀ e ∈ d.init, Inert e := by
  intro s hs
  obtain rfl := List.mem_singleton.mp hs
  refine ⟨_, rfl, fun e he => ?_⟩
  obtain rfl := Option.some.inj he
  exact ⟨rfl, fun _ => rfl, rfl, rfl, rfl, rfl, rfl, rfl, rfl, rfl, rfl⟩

/-- A body is as asked if and only if no read is found in it. -/
theorem fits_iff_anyExprList {body : List Stmt} :
    (∀ s ∈ body, s.Fits (fun _ => True) Unread) ↔
      Stmt.anyExprList (Expr.any isFragCoord) body = false := by
  rw [Stmt.anyExprList_eq_any, List.any_eq_false]
  refine forall₂_congr fun s _ => ?_
  rw [Bool.not_eq_true, s.anyExpr_eq_false_iff, Stmt.all_iff_fits]
  exact Iff.rfl

/-- No rule after the one about the coordinate reads it, but in the prologue. -/
theorem carried_confined (policy : CoordPolicy) : Carried (confined policy) := by
  refine reworks_unread.carried (c := confined policy) (fun h => h) ?prologue
    (fun _ _ => trivial) ?arms ?negated ?andTrue ?made ?runAll
  -- Under the other policy nothing stands in front of the body.
  case prologue =>
    unfold confined
    split
    · exact inert_flipped
    · simp
  case arms =>
    intro ty choiceTy op cond a b value _ h
    obtain ⟨-, hchildren⟩ := unread_iff.mp h
    simp only [children, List.forall_mem_cons] at hchildren
    obtain ⟨htarget, hvalue, -⟩ := hchildren
    obtain ⟨-, harms⟩ := unread_iff.mp htarget
    simp only [children, List.forall_mem_cons] at harms
    obtain ⟨hcond, ha, hb, -⟩ := harms
    -- The arms of a target become targets, next to the value that was assigned.
    have hassign : ∀ ty {e}, Unread e → Unread (.binary ty op e value) := fun ty e he =>
      unread_iff.mpr ⟨rfl, by simpa [children] using ⟨he, hvalue⟩⟩
    exact ⟨hcond, fun ty => ⟨hassign ty ha, hassign ty hb⟩⟩
  case negated =>
    intro ty e
    exact unread_iff.trans (by simp [children, isFragCoord, confined])
  case andTrue =>
    exact fun e he => unread_iff.mpr ⟨rfl, List.forall_mem_cons.mpr
      ⟨he, List.forall_mem_singleton.mpr rfl⟩⟩
  -- What the rules make themselves reads no coordinate.
  case made =>
    exact fun e he => he.any_eq_false (fun _ => not_isFragCoord_of_isFiller) (fun _ _ _ => rfl)
      fun _ hd => hd.elim
  case runAll => exact fun count => fits_iff_anyExprList.mpr rfl

/-- No initial value of a global reads the coordinate. -/
def GlobalsUnread (p : Program) : Prop :=
  ∀ d, .global d ∈ p.elements → ∀ e ∈ d.init, Unread e

/-- A map that reads no coordinate leaves globals that read none. -/
theorem globalsUnread_mapNodes {f : Expr → Expr} (hf : ∀ e, Unread e → Unread (f e)) {p : Program}
    (hp : GlobalsUnread p) : GlobalsUnread (p.mapNodes f) := by
  have helements : Yields (m := Id) (fun els => ∀ el ∈ els, ∀ d, el = .global d →
      ∀ e ∈ d.init, Unread e)
      (p.elements.mapM (Element.mapExprsM fun e => pure (e.bottomUp f))) := by
    refine Yields.mapM_forall fun el hel => ?_
    cases el with
    | global d =>
      -- Only the initializers of globals are looked at.
      have hrebuild : ∀ e, Unread e → Yields Unread (pure (e.bottomUp f) : Id Expr) :=
        fun e he => .pure (unread_bottomUp hf he)
      refine (Decl.mapInitM_holds (N := fun _ => True) .yields hrebuild
        ⟨trivial, hp d hel⟩).bind fun d' hd' => .pure ?_
      rintro _ ⟨rfl⟩
      exact hd'.2
    | function fn => exact .after fun fn' => .pure nofun
    | layout l => exact .pure nofun
  intro d hd
  exact helements.of_id _ hd d rfl

section

variable {t : Target} {p : Program} {policy : CoordPolicy}

/-- A function that reads the coordinate comes to read a local variable, and gets the prologue. -/
theorem reconstruct_meets {prologue : Prologue}
    (h : ∀ body, (∀ s ∈ body, s.Fits (confined policy).names (confined policy).exprs) →
      (confined policy).Body (prologue.statements ++ body)) (fn : Function) :
    (reconstruct prologue fn).Meets (confined policy) := by
  unfold reconstruct
  split
  · -- In a body that reads coordinates each read is replaced; any other body has none.
    have hread : ∀ e : Expr, True →
        Yields Unread (pure (e.bottomUp (readLocal prologue)) : Id Expr) :=
      fun e _ => .pure (unread_readLocal prologue e)
    have hbody := Yields.of_id (Stmt.mapExprsListM_fits (N := fun _ => True) .yields hread
      fun s (_ : s ∈ fn.body) => s.fits_of_forall (fun _ => trivial) fun _ => trivial)
    exact ⟨trivial, fun _ _ => trivial, h _ hbody⟩
  · next hunread =>
    exact ⟨trivial, fun _ _ => trivial, .inl (fits_iff_anyExprList.mpr
      (by simpa [Function.anyNode] using hunread))⟩

/-- Functions with the prologue in front, and the coordinate read from it, are confined. -/
theorem reconstructAll_meets {prologue : Prologue}
    (h : ∀ body, (∀ s ∈ body, s.Fits (confined policy).names (confined policy).exprs) →
      (confined policy).Body (prologue.statements ++ body)) (hp : GlobalsUnread p) :
    (p.mapFunctions (reconstruct prologue)).Meets (confined policy) := by
  intro el hel
  obtain ⟨el, hmem, rfl⟩ := List.mem_map.mp hel
  cases el with
  | function fn => exact reconstruct_meets h fn
  | global d => exact ⟨trivial, hp d hmem⟩
  | layout l => trivial

/-- A program without reads is as asked. -/
theorem confined_of_all (h : p.All Unread) : p.Meets (confined policy) := by
  intro el hel
  have hall := h el hel
  cases el with
  | function fn =>
    exact ⟨trivial, fun _ _ => trivial, .inl fun s hs => Stmt.all_iff_fits.mp (hall s hs)⟩
  | global d => exact ⟨trivial, hall⟩
  | layout l => trivial

/-- The policies that compute coordinates confine reads of the built-in variable. -/
theorem applyPolicy_confines (hpolicy : policy = .fromHeight ∨ policy = .fromVarying)
    (hp : GlobalsUnread p) (hstage : p.anyNode isFragCoord = true → p.stage = .fragment) :
    Yields (Program.Meets (confined policy))
      (applyPolicy policy (p.anyNode isFragCoord) p) := by
  -- A program that reads no coordinate is confined as it is.
  have hunread : p.anyNode isFragCoord ≠ true → p.All Unread := fun h =>
    Program.anyNode_eq_false_iff.mp (Bool.eq_false_iff.mpr h)
  unfold applyPolicy
  rcases hpolicy with rfl | rfl
  · dsimp only
    split
    · refine .after fun _ => .pure (reconstructAll_meets (fun body hbody => .inr ?_) hp)
      exact ⟨[], body, rfl, hbody⟩
    · next h => exact .pure (confined_of_all (hunread h))
  · dsimp only
    split
    · -- Only fragment programs have coordinates, so there are none to confine.
      next hvertex =>
      have hnone : p.anyNode isFragCoord ≠ true := fun h => by simp [hstage h] at hvertex
      refine .after fun _ => .pure ?_
      exact confined_of_all (Program.mapNodes_all
        (fun e => unread_bottomUp fun e => unread_forward) (hunread hnone))
    · refine .after fun _ => .pure ?_
      -- The prologue reads the varying, and it is put in front only where the coordinate is read.
      split
      · have hresolved : ∀ s ∈ resolved.statements, s.Fits (confined .fromVarying).names
            (confined .fromVarying).exprs :=
          fits_iff_anyExprList.mpr rfl
        exact reconstructAll_meets
          (fun body hbody => .inl (List.forall_mem_append.mpr ⟨hresolved, hbody⟩)) hp
      · next h => exact confined_of_all (hunread h)
    · next hgeometry =>
      have hnone : p.anyNode isFragCoord ≠ true := fun h => by simp [hstage h] at hgeometry
      exact .pure (confined_of_all (hunread hnone))

/-- The rule confines reads of the built-in variable, whichever stage the program is for. -/
theorem legalize_confines (hpolicy : t.coordPolicy = .fromHeight ∨ t.coordPolicy = .fromVarying)
    (hp : GlobalsUnread p) :
    Yields (Program.Meets (confined t.coordPolicy)) (FragCoord.legalize t p) := by
  refine yields_legalize (globalsUnread_mapNodes (fun _ => unread_substitute) hp)
    (fun p hp hstage => applyPolicy_confines hpolicy hp hstage) fun q hq => ?_
  split
  · -- The flip brings in a negation of the position, which reads no coordinates.
    have hcarried := carried_confined t.coordPolicy
    have hnegate : ∀ s ∈ [FlipY.negatePosition], s.Fits (fun _ => True) Unread :=
      fits_iff_anyExprList.mpr rfl
    exact hcarried.flip (Q := Unread) (fun _ h => h)
      (fun e => unread_bottomUp fun e => unread_negate) (hnegate _ List.mem_cons_self) hcarried hq
  · exact hq

end

/-! ### The whole pipeline -/

/-- Raising precisions leaves globals that read none. -/
theorem globalsUnread_raise {p : Program} (hp : GlobalsUnread p) :
    GlobalsUnread (HighPrecision.legalize p) := by
  refine globalsUnread_mapNodes (fun _ => unread_raise) fun d hd => ?_
  obtain ⟨el, hmem, hraised⟩ := List.mem_map.mp hd
  cases el with
  | global d' =>
    obtain rfl := Element.global.inj hraised
    exact hp d' hmem
  | _ => exact absurd hraised nofun

/-- Nothing but the prologue for flipped coordinates reads the coordinate in the end. -/
theorem pipeline_confines {t : Target} {p : Program}
    (hpolicy : t.coordPolicy = .fromHeight ∨ t.coordPolicy = .fromVarying) (hp : GlobalsUnread p) :
    Yields (Program.Meets (confined t.coordPolicy)) (Legalize.legalize t p) :=
  (carried_confined t.coordPolicy).legalize (P := GlobalsUnread)
    (fun _ => globalsUnread_raise) (fun _ => legalize_confines hpolicy) hp

/-- Helper functions do not read the coordinate. -/
theorem withHelpers_confined {t : Target} {p p' : Program} {s' : Scratch} {policy : CoordPolicy}
    (hrun : (Legalize.legalize t p).run.run {} = (.ok p', s')) (hp' : p'.Meets (confined policy)) :
    (s'.withHelpers p').Meets (confined policy) := by
  refine List.forall_mem_append.mpr ⟨fun el hel => ?_, hp'⟩
  obtain ⟨⟨shape, fn⟩, hmem, rfl⟩ := List.mem_map.mp hel
  obtain hnone | ⟨ty, rfl⟩ := legalize_adds_helpers hrun _ hmem
  · exact absurd hnone (by simp)
  · exact ⟨trivial, fun _ _ => trivial, .inl (fits_iff_anyExprList.mpr rfl)⟩

/-- Where a target computes fragment coordinates and no initial value of a global reads them, the
    program that is written out does not read the built-in variable at all if they are computed
    from the clip position, and reads it in the prologues of functions alone if they are computed
    from the height of the render target. -/
theorem legalize_confines_fragCoord (t : Target) (p p' : Program) (s' : Scratch)
    (hglobals : ∀ d, .global d ∈ p.elements →
      ∀ e ∈ d.init, e.any (Expr.isBuiltin .fragCoord) = false)
    (hrun : (Legalize.legalize t p).run.run {} = (.ok p', s')) :
    (t.coordPolicy = .fromVarying →
        (s'.withHelpers p').anyNode (Expr.isBuiltin .fragCoord) = false) ∧
      (t.coordPolicy = .fromHeight → ∀ el ∈ (s'.withHelpers p').elements,
        el.anyNode (Expr.isBuiltin .fragCoord) = true →
          ∃ fn, el = .function fn ∧ ReadsInPrologue fn) := by
  unfold ReadsInPrologue
  rw [← isFragCoord_eq] at hglobals ⊢
  have hmeets : t.coordPolicy = .fromHeight ∨ t.coordPolicy = .fromVarying →
      (s'.withHelpers p').Meets (confined t.coordPolicy) := fun hpolicy =>
    withHelpers_confined hrun (Yields.of_run (pipeline_confines hpolicy hglobals) hrun)
  refine ⟨fun hpolicy => ?_, fun hpolicy el hel hread => ?_⟩
  · have hall := hmeets (.inr hpolicy)
    rw [hpolicy] at hall
    exact Program.anyNode_eq_false_iff.mpr (Program.all_iff_meets.mpr hall)
  · have hel := hmeets (.inl hpolicy) el hel
    rw [hpolicy] at hel
    -- Initial values read nothing, so what still reads the variable is a function, in its prologue.
    cases el with
    | global d =>
      cases hinit : d.init with
      | none => simp [Element.anyNode, hinit] at hread
      | some e =>
        have hunread : e.any isFragCoord = false := hel.2 e hinit
        simp [Element.anyNode, hinit, hunread] at hread
    | function fn =>
      refine ⟨fn, rfl, ?_⟩
      rcases hel.body with hbody | ⟨front, rest, heq, hbody⟩
      · exact absurd hread (by simp [Element.anyNode, Function.anyNode,
          fits_iff_anyExprList.mp hbody])
      · exact ⟨front, rest, heq, fits_iff_anyExprList.mp hbody⟩
    | layout l => exact absurd hread (by simp [Element.anyNode])

/-- A read in a branch, on a target that computes coordinates from the clip position. -/
theorem nested_read_is_confined :
    let depth : Expr := .ofSwizzle (.ofBuiltin .fragCoord) [.z]
    let p : Program := ⟨.fragment, [.function (.entry
      [.ifElse (.ofVar "deep" .bool) (.block [.assign (.ofVar "depth" .float) depth]) none])]⟩
    let t : Target := { profile := { workarounds := .single .avoidFragCoord } }
    (∀ d, .global d ∈ p.elements → ∀ e ∈ d.init, e.any (Expr.isBuiltin .fragCoord) = false) ∧
      p.anyNode (Expr.isBuiltin .fragCoord) = true ∧
      ∃ p' s', (Legalize.legalize t p).run.run {} = (.ok p', s') ∧
        (s'.withHelpers p').anyNode (Expr.isBuiltin .fragCoord) = false := by
  intro depth p t
  have hglobals : ∀ d, .global d ∈ p.elements →
      ∀ e ∈ d.init, e.any (Expr.isBuiltin .fragCoord) = false := by
    simp [p]
  obtain ⟨p', s', hrun, -⟩ := exists_ok_of_any (r := (Legalize.legalize t p).run.run {})
    (q := fun _ => true) (by decide)
  -- No global of the example has an initial value, so the general statement applies.
  exact ⟨hglobals, by decide, p', s', hrun,
    (legalize_confines_fragCoord t p p' s' hglobals hrun).1 (by decide)⟩

/-- A global that starts with a coordinate still reads it in the end. -/
theorem global_still_reads_fragCoord :
    let depth : Decl := .plain "depth" .float (some (.ofSwizzle (.ofBuiltin .fragCoord) [.z]))
    let color : Stmt := .assign (.ofBuiltin .fragColor)
      (.ofConstruct (.vec 4) [.ofVar "depth" .float])
    let p : Program := ⟨.fragment, [.global depth, .function (.entry [color])]⟩
    let t : Target := { profile := { workarounds := .single .avoidFragCoord } }
    t.coordPolicy = .fromVarying ∧
      ∃ p' s', (Legalize.legalize t p).run.run {} = (.ok p', s') ∧
        p'.anyNode (Expr.isBuiltin .fragCoord) = true := by
  intro depth color p t
  -- The reconstruction does not look at globals.
  exact ⟨by decide, exists_ok_of_any (by decide)⟩

end Legalize.FragCoord

end ShaderGen
