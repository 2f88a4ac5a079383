import ShaderGen.Proofs.Legalize.FragCoord
import ShaderGen.Proofs.Legalize.Unnamed
import ShaderGen.Proofs.Mirror

/-!
# Uniforms for the size of the render target

A program that uses the size of the render target reads it from uniforms, which are declared in
front of the program, and computing fragment coordinates from the other side needs the height as
well. The user of the text learns from `Inputs` which of them have to be set
(`Program.sizeInputs`). All other rules leave both alone.

## Key results

- `legalize_accounts`: what is noted and declared in the end
- `legalize_spares_height`, `legalize_spares_width`: a uniform that is not noted is not referred to
-/

namespace ShaderGen

open List (Forall₂)

/-! ### Nodes that are kept -/

/-- A map of nodes adds no node of a kind if it adds none to a node. -/
theorem Expr.any_bottomUp {q : Expr → Bool} {f : Expr → Expr}
    (hchildren : ∀ (e : Expr) cs, q (e.withChildren cs) = q e)
    (hf : ∀ e : Expr, (f e).any q = e.any q) (e : Expr) : (e.bottomUp f).any q = e.any q := by
  have hcongruence : IsCongruence fun e e' => e'.any q = e.any q := by
    refine ⟨fun h h' => h'.trans h, fun {e cs} hcs => ?_⟩
    rw [any_eq, any_eq, hchildren, children_withChildren hcs.length_eq.symm]
    congr 1
    -- Beside the node, the children are compared one by one.
    generalize e.children = bs at hcs
    induction hcs with
    | nil => rfl
    | cons h _ ih => rw [List.any_cons, List.any_cons, h, ih]
  exact hcongruence.bottomUp hf e

/-- An element has the nodes it had, if its expressions have. -/
theorem Element.anyNode_mapExprs {q : Expr → Bool} {g : Expr → Expr}
    (hg : ∀ e : Expr, (g e).any q = e.any q) (el : Element) :
    (el.mapExprs g).anyNode q = el.anyNode q := by
  cases el with
  | global d =>
    show (d.init.map g).any (Expr.any q) = d.init.any (Expr.any q)
    cases d.init with
    | none => rfl
    | some e => exact hg e
  | function fn =>
    show Stmt.anyExprList (Expr.any q) (fn.body.map (Stmt.mapExprs g)) = fn.anyNode q
    rw [Function.anyNode, Stmt.anyExprList_eq_any, Stmt.anyExprList_eq_any, List.any_map]
    refine congrArg (List.any fn.body) (funext fun s => ?_)
    have hmirror : Yields (s.Mirrors fun e e' => e' = g e)
        (s.mapExprsM fun e => (pure (g e) : Id Expr)) :=
      Stmt.mapExprsM_mirrors Judgement.yields.verdict (Q := fun _ => True)
        (R := fun e e' => e' = g e) (fun e _ => .pure rfl) s
        -- Only the expressions are rewritten, so the statement is mirrored.
        (Stmt.all_iff_fits.mpr (s.fits_of_forall (fun _ => trivial) fun _ => trivial))
    exact hmirror.of_id.anyExpr_eq fun e e' h => h ▸ hg e
  | layout l => rfl

/-- A program has the nodes it had, if its expressions have. -/
theorem Program.anyNode_mapNodes_of {q : Expr → Bool} {f : Expr → Expr}
    (hf : ∀ e : Expr, (e.bottomUp f).any q = e.any q) (p : Program) :
    (p.mapNodes f).anyNode q = p.anyNode q := by
  rw [Program.anyNode, Program.anyNode, elements_mapNodes, List.any_map]
  exact congrArg (List.any p.elements) (funext fun el => el.anyNode_mapExprs hf)

/-- It is enough to look at single nodes. -/
theorem Program.anyNode_mapNodes {q : Expr → Bool} {f : Expr → Expr}
    (hchildren : ∀ (e : Expr) cs, q (e.withChildren cs) = q e)
    (hf : ∀ e : Expr, (f e).any q = e.any q) (p : Program) :
    (p.mapNodes f).anyNode q = p.anyNode q :=
  p.anyNode_mapNodes_of (Expr.any_bottomUp hchildren hf)

/-! ### What is noted and declared -/

namespace Legalize

open TargetSize

/-- What the user of the text of a program has to set, where fragment coordinates are read by a
    policy. -/
def sizeInputs (policy : CoordPolicy) (p : Program) : Inputs where
  height := p.anyNode isHeight || (policy == .fromHeight && p.anyNode FragCoord.isFragCoord)
  width := p.anyNode isWidth

/-- A uniform is declared in front of a program if it is needed, and nothing else there has its
    name. -/
def Declares (s : Scratch) (name : String) (needed : Bool) : Prop :=
  s.globals.filter (AddedGlobal.declares name) =
    if needed then [.declared (.uninitialized .uniform name .float)] else []

/-- What is noted is declared. -/
structure Accounts (wanted : Inputs) (s : Scratch) : Prop where
  noted : s.inputs = wanted
  height : Declares s heightName wanted.height
  width : Declares s widthName wanted.width

section

variable {s : Scratch} {name : String} {needed : Bool} {wanted : Inputs} {p : Program}

/-- A global in the text is no input. -/
theorem declareGlobal_inputs (d : Decl) : (s.declareGlobal d).inputs = s.inputs := by
  unfold Scratch.declareGlobal
  split <;> rfl

/-- What is declared is told by the globals alone. -/
theorem declares_congr {s' : Scratch} (h : Declares s name needed)
    (hglobals : s'.globals = s.globals) : Declares s' name needed := by
  rw [Declares, hglobals]
  exact h

/-- A global of another name changes nothing. -/
theorem declares_other {d : Decl} (h : Declares s name needed) (hname : d.name ≠ name) :
    Declares (s.declareGlobal d) name needed := by
  unfold Scratch.declareGlobal
  split
  · exact h
  · -- The new global is not of the name that is counted.
    have hother : [AddedGlobal.declared d].filter (AddedGlobal.declares name) = [] :=
      List.filter_eq_nil_iff.mpr (by simpa [AddedGlobal.declares] using hname)
    rw [Declares]
    show (s.globals ++ [AddedGlobal.declared d]).filter _ = _
    rw [List.filter_append, hother, List.append_nil]
    exact h

/-- The uniform is declared once, however often that is asked for. -/
theorem declares_uniform (h : Declares s name needed) :
    Declares (s.declareGlobal (.uninitialized .uniform name .float)) name true := by
  unfold Scratch.declareGlobal
  split
  · next hany =>
    cases needed with
    -- A name that is declared already would be noted, but it is not.
    | true => exact h
    | false =>
      obtain ⟨g, hg, hname⟩ := List.any_eq_true.mp hany
      have hmem : g ∈ s.globals.filter (AddedGlobal.declares name) :=
        List.mem_filter.mpr ⟨hg, hname⟩
      rw [show s.globals.filter _ = [] from h] at hmem
      cases hmem
  · -- The name is new, so this is its one declaration.
    next hnone =>
    have hbefore : s.globals.filter (AddedGlobal.declares name) = [] := by
      rw [List.filter_eq_nil_iff]
      exact fun g hg hname => hnone (List.any_eq_true.mpr ⟨g, hg, hname⟩)
    rw [Declares]
    show (s.globals ++ [_]).filter _ = _
    rw [List.filter_append, hbefore]
    simp [AddedGlobal.declares, Decl.uninitialized]

namespace Accounts

/-- The account looks at the globals and the inputs alone. -/
theorem congr {s' : Scratch} (h : Accounts wanted s) (hglobals : s'.globals = s.globals)
    (hinputs : s'.inputs = s.inputs) : Accounts wanted s' :=
  ⟨hinputs.trans h.noted, declares_congr h.height hglobals, declares_congr h.width hglobals⟩

/-- Asking for the height is put to the account. -/
theorem declareHeight (h : Accounts wanted s) :
    Accounts { wanted with height := true } (TargetSize.declareHeight s) where
  noted := by rw [TargetSize.declareHeight, declareGlobal_inputs, h.noted]
  height := declares_uniform h.height
  width := declares_other h.width (by decide)

/-- Asking for the width is put to the account. -/
theorem declareWidth (h : Accounts wanted s) :
    Accounts { wanted with width := true } (TargetSize.declareWidth s) where
  noted := by rw [TargetSize.declareWidth, declareGlobal_inputs, h.noted]
  height := declares_other h.height (by decide)
  width := declares_uniform h.width

/-- Another global is declared. -/
theorem declareGlobal {d : Decl} (h : Accounts wanted s) (hheight : d.name ≠ heightName)
    (hwidth : d.name ≠ widthName) : Accounts wanted (s.declareGlobal d) where
  noted := (declareGlobal_inputs d).trans h.noted
  height := declares_other h.height hheight
  width := declares_other h.width hwidth

/-- The origin is not a size. -/
theorem declareUpperLeftOrigin (h : Accounts wanted s) :
    Accounts wanted s.declareUpperLeftOrigin := by
  -- The origin is declared under no such name.
  have hkeeps : ∀ {name needed}, Declares s name needed →
      Declares { s with globals := s.globals ++ [.upperLeftOrigin] } name needed := by
    intro name needed h
    rw [Declares, List.filter_append]
    exact (List.append_nil _).trans h
  unfold Scratch.declareUpperLeftOrigin
  split
  · exact h
  · exact ⟨h.noted, hkeeps h.height, hkeeps h.width⟩

/-- The rules that do not know of coordinates leave the uniforms alone. -/
theorem additions (wanted : Inputs) : AboutAdditions (Accounts wanted) where
  congr s s' h _ hglobals hinputs := h.congr hglobals hinputs
  helper s h ty := by
    unfold Scratch.addHelper
    split
    · exact h
    · exact h.congr rfl rfl
  counter s h := h.declareGlobal (by decide) (by decide)

/-- The uniforms for the sizes that a program uses. -/
theorem targetSize (h : Accounts {} s) :
    Accounts ⟨p.anyNode isHeight, p.anyNode isWidth⟩ ((TargetSize.legalize p).run s).2 := by
  rw [TargetSize.run_legalize]
  cases p.anyNode isWidth <;> cases p.anyNode isHeight
  · exact h
  · exact h.declareHeight
  · exact h.declareWidth
  · exact h.declareWidth.declareHeight

/-- A policy asks for the height if it computes coordinates from it. -/
theorem applyPolicy (h : Accounts wanted s) (policy : CoordPolicy) (usesCoord : Bool) :
    Accounts { wanted with height := wanted.height || (policy == .fromHeight && usesCoord) }
      ((FragCoord.applyPolicy policy usesCoord p).run s).2 := by
  have hsame : ∀ {b : Bool} {s : Scratch}, b = false → Accounts wanted s →
      Accounts { wanted with height := wanted.height || b } s := by
    rintro _ s rfl h
    rwa [Bool.or_false]
  -- The varying is neither of the two uniforms.
  have hvarying : ∀ storage, Accounts wanted (s.declareGlobal
      (.uninitialized storage FragCoord.varyingName (.vec 4))) := fun storage =>
    h.declareGlobal (show FragCoord.varyingName ≠ heightName by decide)
      (show FragCoord.varyingName ≠ widthName by decide)
  unfold FragCoord.applyPolicy
  -- Only one policy asks for the height, so the others keep the account as it is.
  cases policy with
  | direct upperLeft =>
    refine hsame rfl ?_
    dsimp only
    split
    · exact h.declareUpperLeftOrigin
    · exact h
  | legacyExtension =>
    refine hsame rfl ?_
    dsimp only
    split
    · exact Accounts.declareUpperLeftOrigin (h.congr rfl rfl)
    · exact h
  -- The height is declared where the policy and the program ask for it.
  | fromHeight =>
    cases usesCoord with
    | true =>
      have hheight : (wanted.height || (CoordPolicy.fromHeight == .fromHeight && true)) = true :=
        Bool.or_true _
      rw [hheight]
      exact h.declareHeight
    | false =>
      exact hsame rfl h
  | fromVarying =>
    refine hsame rfl ?_
    dsimp only
    split
    · exact hvarying _
    · exact hvarying _
    · exact h

end Accounts

end

/-! ### The whole pipeline -/

section

variable {I : Scratch → Prop} {t : Target} {p p' : Program} {s' : Scratch}

/-- From a state with a property, work that succeeds leads to a result and a state with another. -/
def Leads {α : Type} (I : Scratch → Prop) (x : GenM α) (Q : α → Scratch → Prop) : Prop :=
  ∀ s, I s → ∀ a s', x.run.run s = (.ok a, s') → Q a s'

namespace Leads

variable {α β : Type} {Q : α → Scratch → Prop} {R : β → Scratch → Prop} {x : GenM α}

/-- What the first part leads to, the second part goes on from. -/
theorem bind {f : α → GenM β} (h : Leads I x Q) (hf : ∀ a, Leads (Q a) (f a) R) :
    Leads I (x >>= f) R := by
  intro s hs b s' hrun
  rw [ExceptT.run_bind, StateT.run_bind] at hrun
  -- If the first computation fails, there is nothing to show of the second.
  cases hx : x.run.run s with
  | mk result s₁ =>
    rw [show StateT.run (ExceptT.run x) s = (result, s₁) from hx] at hrun
    cases result with
    | error fault => cases hrun
    | ok a => exact hf a s₁ (h s hs a s₁ hx) b s' hrun

/-- A value alone changes nothing. -/
theorem pure {a : α} (h : ∀ s, I s → Q a s) : Leads I (Pure.pure a) Q := by
  rintro s hs _ _ ⟨⟩
  exact h s hs

/-- A failure leads nowhere. -/
theorem fail (fault : Fault) : Leads I (throw fault) Q := by
  rintro s hs _ _ ⟨⟩

/-- A computation that cannot fail leads to what it ends in. -/
theorem lift {x : ScratchM α} (h : ∀ s, I s → Q (x.run s).1 (x.run s).2) :
    Leads I (liftM x) Q := by
  rintro s hs _ _ ⟨⟩
  exact h s hs

/-- What is known of the result is known of it in whatever state. -/
theorem and {P : α → Prop} {J : Scratch → Prop} (hx : Yields P x) (h : Leads I x fun _ => J) :
    Leads I x fun a s => P a ∧ J s :=
  fun s hs a s' hrun => ⟨hx.of_run hrun, h s hs a s' hrun⟩

/-- Work that keeps a property of the state. -/
theorem of_steady (h : (steady I).gen.Holds (fun _ => True) x) : Leads I x fun _ => I := by
  intro s hs a s' hrun
  have hstate := (h s hs).2
  rwa [show StateT.run (ExceptT.run x) s = (.ok a, s') from hrun] at hstate

end Leads

/-- Reporting something leaves the uniforms alone. -/
theorem Accounts.report (wanted : Inputs) (event : Event) :
    Leads (Accounts wanted) (modify (Scratch.report event) : GenM PUnit) fun _ => Accounts wanted :=
  .lift fun _ hs => hs.congr rfl rfl

/-- Which sizes a program uses does not depend on precisions. -/
theorem anyNode_highPrecision_of {q : Expr → Bool}
    (hraise : ∀ e : Expr, (e.bottomUp HighPrecision.raiseNode).any q = e.any q) (p : Program) :
    (HighPrecision.legalize p).anyNode q = p.anyNode q := by
  refine (Program.anyNode_mapNodes_of hraise _).trans ?_
  rw [Program.anyNode, Program.anyNode, List.any_map]
  refine congrArg (List.any p.elements) (funext fun el => ?_)
  cases el with
  -- The types of declarations are raised as well, but hold no expressions.
  | global d => rfl
  | function fn =>
    show Stmt.anyExprList _ (Stmt.bottomUpList HighPrecision.raiseStmt fn.body) = fn.anyNode q
    rw [Function.anyNode, Stmt.anyExprList_eq_any, Stmt.anyExprList_eq_any,
      Stmt.bottomUpList_eq_map, List.any_map]
    refine congrArg (List.any fn.body) (funext fun s => ?_)
    have hmirror : s.Mirrors Eq (s.bottomUp HighPrecision.raiseStmt) :=
      Stmt.bottomUp_mirrors (fun _ => rfl) (fun _ _ => raiseStmt_mirrors) s
    exact hmirror.anyExpr_eq fun e e' h => h ▸ rfl
  | layout l => rfl

/-- It is enough that neither the children nor the type matter for the kind. -/
theorem anyNode_highPrecision {q : Expr → Bool}
    (hchildren : ∀ (e : Expr) cs, q (e.withChildren cs) = q e)
    (hty : ∀ (e : Expr) ty, q (e.withTy ty) = q e) (p : Program) :
    (HighPrecision.legalize p).anyNode q = p.anyNode q := by
  refine anyNode_highPrecision_of (Expr.any_bottomUp hchildren fun e => ?_) p
  rw [HighPrecision.raiseNode, Expr.any_eq, Expr.any_eq, hty, Expr.children_withTy]

/-- Substituting uniforms for the size leaves reads of the coordinate where they are. -/
theorem isFragCoord_substituteNode (e : Expr) :
    (substituteNode e).any FragCoord.isFragCoord = e.any FragCoord.isFragCoord := by
  unfold substituteNode
  split
  · -- A builtin for the size becomes a uniform; neither is the coordinate.
    next h =>
    obtain ⟨ty, rfl⟩ : ∃ ty, e = .builtin ty .width := by
      unfold isWidth at h
      split at h
      · exact ⟨_, rfl⟩
      · cases h
    rfl
  · split
    · next h =>
      obtain ⟨ty, rfl⟩ : ∃ ty, e = .builtin ty .height := by
        unfold isHeight at h
        split at h
        · exact ⟨_, rfl⟩
        · cases h
      rfl
    · rfl

/-- What the rule for fragment coordinates does to the state: it substitutes uniforms for the size,
    reports the policy and applies it. Only a fragment program has coordinates. -/
theorem leads_fragCoord {J K : Scratch → Prop}
    (hsize : ∀ s, I s → J ((TargetSize.legalize p).run s).2)
    (hreport : ∀ event s, J s → J (s.report event))
    (hpolicy : ∀ q s, J s → K ((FragCoord.applyPolicy t.coordPolicy
      (p.anyNode FragCoord.isFragCoord) q).run s).2) :
    Leads I (FragCoord.legalize t p) fun _ s =>
      K s ∧ (p.anyNode FragCoord.isFragCoord = true → p.stage = .fragment) := by
  -- Putting in the uniforms brings in no reference to the coordinate and takes none away.
  have hcoord : (p.mapNodes substituteNode).anyNode FragCoord.isFragCoord =
      p.anyNode FragCoord.isFragCoord :=
    Program.anyNode_mapNodes FragCoord.isFragCoord_withChildren isFragCoord_substituteNode p
  have hsubstituted (s : Scratch) :
      ((TargetSize.legalize p).run s).1 = p.mapNodes substituteNode := by
    rw [TargetSize.run_legalize]
  -- What comes after the check of the stage.
  have hrest : (p.anyNode FragCoord.isFragCoord = true → p.stage = .fragment) →
      Leads J (do
        modify (Scratch.report
          (.coordPolicy t.coordPolicy (p.anyNode FragCoord.isFragCoord)))
        let q ← liftM (FragCoord.applyPolicy t.coordPolicy (p.anyNode FragCoord.isFragCoord)
          (p.mapNodes substituteNode))
        pure (if t.flipsY then FlipY.legalize q else q) : GenM Program) fun _ s =>
          K s ∧ (p.anyNode FragCoord.isFragCoord = true → p.stage = .fragment) := by
    intro hstage
    have hreported : Leads J (modify (Scratch.report
        (.coordPolicy t.coordPolicy (p.anyNode FragCoord.isFragCoord))) : GenM PUnit) fun _ => J :=
      .lift (hreport _)
    refine hreported.bind fun _ => ?_
    exact (Leads.lift (hpolicy _)).bind fun q => .pure fun s hs => ⟨hs, hstage⟩
  unfold FragCoord.legalize
  have hsized : Leads I (liftM (TargetSize.legalize p) : GenM Program) fun q s =>
      q = p.mapNodes substituteNode ∧ J s :=
    .lift fun s hs => ⟨hsubstituted s, hsize s hs⟩
  refine hsized.bind fun q => ?_
  rintro s ⟨rfl, hs⟩
  dsimp only
  rw [hcoord]
  -- A program of another stage that reads the coordinate fails here.
  split
  · exact Leads.fail (I := J) _ s hs
  · next hstage =>
    have hsame : (p.mapNodes substituteNode).stage = p.stage := rfl
    exact hrest (fun huses => by simpa [huses, hsame] using hstage) s hs

/-- What the pipeline does to the state: something before fragment coordinates are settled, the rule
    for them, and nothing to a property that all later rules keep. -/
theorem leads_legalize {J K : Scratch → Prop} {P : Program → Prop} {C : Prop}
    (hbefore : Leads I ((rulesBefore "frag_coord").foldlM (Rule.step t) p) fun q s => P q ∧ J s)
    (hcoords : ∀ q, P q → Leads J (Rule.step t q (.always "frag_coord" FragCoord.legalize))
      fun _ s => K s ∧ C)
    (hafter : ∀ r ∈ rulesAfter "frag_coord", ∀ q,
      (steady K).gen.Holds (fun _ => True) (r.step t q)) :
    Leads I (Legalize.legalize t p) fun _ s => K s ∧ C := by
  -- The pipeline in three parts, and each hands its fact to the next.
  have hsplit : Legalize.legalize t p = (do
      let p ← (rulesBefore "frag_coord").foldlM (Rule.step t) p
      let p ← Rule.step t p (.always "frag_coord" FragCoord.legalize)
      (rulesAfter "frag_coord").foldlM (Rule.step t) p) := by
    rw [Legalize.legalize, pipeline_eq "frag_coord" rfl, List.foldlM_append]
    simp only [List.foldlM_cons]
  rw [hsplit]
  refine hbefore.bind fun q => ?_
  rintro s ⟨hq, hs⟩
  refine (hcoords q hq).bind (fun q' => ?_) s hs
  rintro s₁ ⟨hs₁, hC⟩ a s₂ hrun
  exact ⟨Leads.of_steady (foldlM_holds _ hafter q') s₁ hs₁ a s₂ hrun, hC⟩

/-- A width is a certain built-in variable. -/
theorem isWidth_eq : isWidth = Expr.isBuiltin .width := by
  funext e
  cases e with
  | builtin ty which => cases which <;> rfl
  | _ => rfl

/-- So is a height. -/
theorem isHeight_eq : isHeight = Expr.isBuiltin .height := by
  funext e
  cases e with
  | builtin ty which => cases which <;> rfl
  | _ => rfl

/-- Whether a node is the width is told by the node. -/
theorem isWidth_withChildren (e : Expr) (cs : List Expr) :
    isWidth (e.withChildren cs) = isWidth e := by
  unfold Expr.withChildren
  split <;> rfl

/-- Whether a node is the height is told by the node. -/
theorem isHeight_withChildren (e : Expr) (cs : List Expr) :
    isHeight (e.withChildren cs) = isHeight e := by
  unfold Expr.withChildren
  split <;> rfl

/-- A width of another type is a width. -/
theorem isWidth_withTy (e : Expr) (ty : Ty) : isWidth (e.withTy ty) = isWidth e := by
  cases e with
  | builtin _ which => cases which <;> rfl
  | _ => rfl

/-- A height of another type is a height. -/
theorem isHeight_withTy (e : Expr) (ty : Ty) : isHeight (e.withTy ty) = isHeight e := by
  cases e with
  | builtin _ which => cases which <;> rfl
  | _ => rfl

/-- Raising precisions leaves uses of the size and of coordinates where they are. -/
theorem sizeInputs_highPrecision (policy : CoordPolicy) (p : Program) :
    sizeInputs policy (HighPrecision.legalize p) = sizeInputs policy p := by
  unfold sizeInputs
  rw [anyNode_highPrecision isHeight_withChildren isHeight_withTy,
    anyNode_highPrecision isWidth_withChildren isWidth_withTy,
    anyNode_highPrecision FragCoord.isFragCoord_withChildren fun e ty =>
      FragCoord.isFragCoord_withTy ty e]

/-- In the end the uniforms are noted and declared that the program uses. -/
theorem legalize_accounts (hrun : (Legalize.legalize t p).run.run {} = (.ok p', s')) :
    Accounts (sizeInputs t.coordPolicy p) s' ∧
      (p.anyNode FragCoord.isFragCoord = true → p.stage = .fragment) := by
  -- What the coordinates need does not change before their rule.
  have hbefore : Yields (fun q => sizeInputs t.coordPolicy q = sizeInputs t.coordPolicy p ∧
      q.anyNode FragCoord.isFragCoord = p.anyNode FragCoord.isFragCoord ∧ q.stage = p.stage)
        ((rulesBefore "frag_coord").foldlM (Rule.step t) p) := by
    refine yields_beforeCoords (fun q hq => ?_) ⟨rfl, rfl, rfl⟩
    rw [sizeInputs_highPrecision, anyNode_highPrecision FragCoord.isFragCoord_withChildren
      fun e ty => FragCoord.isFragCoord_withTy ty e]
    exact hq
  have hsteady : ∀ {wanted : Inputs},
      ∀ r ∈ rulesBefore "frag_coord" ++ rulesAfter "frag_coord", ∀ q,
      (steady (Accounts wanted)).gen.Holds (fun _ => True) (r.step t q) :=
    fun r hr => (Accounts.additions _).rule hr
  have hcoords : ∀ q : Program, Leads (Accounts {})
      (Rule.step t q (.always "frag_coord" FragCoord.legalize)) fun _ s =>
        Accounts (sizeInputs t.coordPolicy q) s ∧
          (q.anyNode FragCoord.isFragCoord = true → q.stage = .fragment) := fun q =>
    (Accounts.report _ _).bind fun _ => leads_fragCoord (fun _ hs => hs.targetSize)
      (fun _ _ hs => hs.congr rfl rfl) fun _ _ hs => hs.applyPolicy _ _
  refine leads_legalize (J := Accounts {}) (.and hbefore (.of_steady (foldlM_holds _ (fun r hr =>
    hsteady r (List.mem_append_left _ hr)) p))) (fun q => ?_)
    (fun r hr => hsteady r (List.mem_append_right _ hr)) {} ⟨rfl, rfl, rfl⟩ p' s' hrun
  rintro ⟨hinputs, hcoord, hstage⟩
  rw [← hinputs, ← hcoord, ← hstage]
  exact hcoords q

end

/-! ### Names of the uniforms -/

section

open ShaderGen.Expr

variable {t : Target} {p p' : Program} {x : String} {granted : Bool}

/-- A node refers to a name once uniforms are substituted for the size. -/
def comesToUse (x : String) (e : Expr) : Bool := (substituteNode e).usesName x

/-- Whether a node comes to a use is told by the node. -/
theorem comesToUse_withChildren (e : Expr) (cs : List Expr) :
    comesToUse x (e.withChildren cs) = comesToUse x e := by
  unfold comesToUse substituteNode
  rw [isWidth_withChildren, isHeight_withChildren]
  split
  · rfl
  · split
    · rfl
    · exact usesName_withChildren e cs

/-- If nothing comes to a use of the name, nothing uses it afterwards. -/
theorem any_substitute {e : Expr} (h : e.any (comesToUse x) = false) :
    (e.bottomUp substituteNode).any (usesName x) = false := by
  revert h
  refine bottomUp_related (R := fun e e' => e.any (comesToUse x) = false →
    e'.any (usesName x) = false) (fun e cs hcs h => ?_) e
  obtain ⟨hnode, hchildren⟩ := any_eq_false_iff.mp h
  refine any_eq_false_iff.mpr ⟨(comesToUse_withChildren e cs).trans hnode, fun c' hc' => ?_⟩
  have hmem : c' ∈ (e.withChildren cs).children := by
    unfold substituteNode at hc'
    -- A size has no children, and any other node keeps its own.
    split at hc'
    · exact absurd hc' List.not_mem_nil
    · split at hc'
      · exact absurd hc' List.not_mem_nil
      · exact hc'
  obtain ⟨c, hc, hrelated⟩ := exists_related_child hcs c' hmem
  exact hrelated (hchildren c hc)

/-- Sizes of a program that does not come to refer to a name are substituted without it. -/
theorem sparing_substitute (hp : p.Meets (.sparing x granted))
    (hgranted : granted = true ∨ p.anyNode (comesToUse x) = false) :
    (p.mapNodes substituteNode).Meets (.sparing x granted) := by
  rcases hgranted with rfl | hnone
  · exact Program.mapNodes_meets (c := .sparing x true) (fun _ _ => .inl rfl) rfl hp
  · have hboth := Program.Meets.and rfl hp (Program.anyNode_eq_false_iff.mp hnone)
    have hsubstituted : ∀ e, (Demand.sparing x granted).exprs e ∧ e.any (comesToUse x) = false →
        (Demand.sparing x granted).exprs (e.bottomUp substituteNode) :=
      fun e he => .inr (any_substitute he.2)
    exact Program.mapNodes_meets hsubstituted rfl hboth

/-- A name that no rule declares in a program. -/
structure IsUndeclared (x : String) : Prop extends IsOutside x where
  coords : ∀ name ∈ [FragCoord.flippedName, FragCoord.inverseWName, FragCoord.resolvedName,
    FragCoord.varyingName], name ≠ x

/-- The uniforms for the size are named like nothing else that rules bring in. -/
theorem isOutside_of_mem (hx : x ∈ [heightName, widthName]) : IsOutside x := by
  have hstem : Unnumbered [heightName, widthName] := by
    refine unnumbered_of_prefix fun name hname stem => ?_
    simp only [List.mem_cons, List.not_mem_nil, or_false] at hname
    rcases hname with rfl | rfl <;> cases stem <;> decide
  -- The uniforms are no numbered names, nor one of the fixed names of the rules.
  refine ⟨?_, ?_, ?_, ?_⟩
  · rintro (⟨stem, n, h⟩ | h)
    · exact hstem x hx stem n h.symm
    · subst h
      exact absurd hx (by decide)
  · rintro rfl
    exact absurd hx (by decide)
  · rintro rfl
    exact absurd hx (by decide)
  · rintro rfl
    exact absurd hx (by decide)

/-- No rule but the one about sizes declares the uniforms. -/
theorem isUndeclared_of_mem (hx : x ∈ [heightName, widthName]) : IsUndeclared x where
  toIsOutside := isOutside_of_mem hx
  coords := by
    rintro name hname rfl
    simp only [List.mem_cons, List.not_mem_nil, or_false] at hx
    rcases hx with rfl | rfl <;> exact absurd hname (by decide)

/-- Rewritings that keep a node or put nodes without names above it or in its place. -/
theorem sparing_bottomUp {f : Expr → Expr}
    (hf : ∀ e : Expr, e.any (usesName x) = false → (f e).any (usesName x) = false) (e : Expr)
    (he : (Demand.sparing x granted).exprs e) : (Demand.sparing x granted).exprs (e.bottomUp f) :=
  he.imp_right ((isCongruence_avoids usesName_withChildren).bottomUp hf e)

/-- Reading the coordinate from a local uses no uniform. -/
theorem usesName_readLocal {prologue : FragCoord.Prologue} (hholder : prologue.holder ≠ x)
    {e : Expr} (he : e.any (usesName x) = false) :
    (FragCoord.readLocal prologue e).any (usesName x) = false := by
  unfold FragCoord.readLocal
  split
  · exact any_eq_false_iff.mpr ⟨usesName_eq_false_of_ne rfl hholder, nofun⟩
  · exact he

/-- Writing the position to a varying uses no uniform. -/
theorem usesName_forwardNode (hname : FragCoord.varyingName ≠ x) {e : Expr}
    (he : e.any (usesName x) = false) : (FragCoord.forwardNode e).any (usesName x) = false := by
  unfold FragCoord.forwardNode
  split
  · refine any_eq_false_iff.mpr ⟨rfl, List.forall_mem_cons.mpr
      ⟨any_eq_false_iff.mpr ⟨usesName_eq_false_of_ne rfl hname, nofun⟩, ?_⟩⟩
    exact List.forall_mem_singleton.mpr he
  · exact he

/-- Negating a derivative uses no uniform. -/
theorem usesName_negateDerivative {e : Expr} (he : e.any (usesName x) = false) :
    (FlipY.negateDerivative e).any (usesName x) = false := by
  unfold FlipY.negateDerivative
  split
  · exact any_eq_false_iff.mpr ⟨rfl, List.forall_mem_singleton.mpr he⟩
  · exact he

/-- Names that a prologue declares and refers to. -/
theorem sparing_prologue {statements : List Stmt}
    (hnames : ∀ s ∈ statements, s.Fits (· ≠ x) fun _ => True)
    (hgranted : granted = true ∨ Stmt.anyExprList (Expr.any (usesName x)) statements = false) :
    ∀ s ∈ statements,
      s.Fits (Demand.sparing x granted).names (Demand.sparing x granted).exprs := by
  intro s hs
  rcases hgranted with rfl | hnone
  · exact (hnames s hs).mono (fun _ => id) fun _ _ => .inl rfl
  · rw [Stmt.anyExprList_eq_any, List.any_eq_false] at hnone
    have hall := (Stmt.anyExpr_eq_false_iff s).mp (Bool.eq_false_iff.mpr (hnone s hs))
    exact ((hnames s hs).and hall).mono (fun _ => id) fun _ he => .inr he.2

/-- Of the policies only one uses a uniform, which is the height. -/
theorem sparing_applyPolicy (hx : IsUndeclared x)
    (hp : p.Meets (.sparing x granted)) {policy : CoordPolicy} {usesCoord : Bool}
    (hgranted : granted = true ∨ x = widthName ∨ (policy == .fromHeight && usesCoord) = false) :
    Yields (Program.Meets (.sparing x granted)) (FragCoord.applyPolicy policy usesCoord p) := by
  have hnames := hx.coords
  -- A body with a prologue in front names the local of the prologue and what was there.
  have hreconstruct : ∀ {prologue : FragCoord.Prologue}, prologue.holder ≠ x →
      (∀ s ∈ prologue.statements,
        s.Fits (Demand.sparing x granted).names (Demand.sparing x granted).exprs) →
      (p.mapFunctions (FragCoord.reconstruct prologue)).Meets (.sparing x granted) :=
    fun hholder hstatements => Program.mapFunctions_meets (fun _ => meets_reconstruct rfl
      (fun _ => id) hstatements (sparing_bottomUp fun _ => usesName_readLocal hholder)) hp
  -- The names a policy brings in are not the one that is undeclared, unless the policy asks for the
  -- height and this is granted.
  unfold FragCoord.applyPolicy
  cases policy with
  | direct | legacyExtension =>
    dsimp only
    split
    · exact .after fun _ => .pure hp
    · exact .pure hp
  | fromHeight =>
    dsimp only
    split
    · next huses =>
      refine .after fun _ => .pure (hreconstruct (hnames _ (by decide)) (sparing_prologue ?_ ?_))
      · refine List.forall_mem_singleton.mpr (Stmt.fits_decl.mpr ⟨hnames _ (by decide), ?_⟩)
        exact fun _ _ => trivial
      · -- The height is in use under this policy only when it is granted.
        refine hgranted.imp_right fun h => ?_
        rcases h with rfl | h
        · decide
        · exact absurd h (by simp [huses])
    · exact .pure hp
  | fromVarying =>
    dsimp only
    split
    · exact .after fun _ => .pure (Program.mapNodes_meets (c := .sparing x granted)
        (sparing_bottomUp fun _ => usesName_forwardNode (hnames _ (by decide))) rfl hp)
    · refine .after fun _ => .pure ?_
      split
      · refine hreconstruct (hnames _ (by decide)) (sparing_prologue ?_ (.inr ?_))
        · -- The statements of the prologue declare two locals and overwrite one.
          have hdecl : ∀ {name ty value}, name ≠ x →
              (Stmt.decl (.plain name ty value)).Fits (· ≠ x) fun _ => True := fun hname =>
            Stmt.fits_decl.mpr ⟨hname, fun _ _ => trivial⟩
          refine List.forall_mem_cons.mpr ⟨hdecl (hnames _ (by decide)), ?_⟩
          refine List.forall_mem_cons.mpr ⟨hdecl (hnames _ (by decide)), ?_⟩
          exact List.forall_mem_singleton.mpr (Stmt.fits_expr.mpr trivial)
        · simp only [List.forall_mem_cons] at hnames
          simp [FragCoord.resolved, hnames, Stmt.anyExprList, Stmt.anyExpr, Stmt.assign, Decl.plain,
            ofBinary, ofSwizzle, ofConstruct, ofCall, ofVar, Expr.assign, Expr.float, any_eq,
            children, usesName, Expr.name?]
      · exact hp
    · exact .pure hp

/-- What the rule for fragment coordinates makes of a program that does not declare a name. -/
theorem sparing_fragCoord (hx : IsUndeclared x) (hp : p.Meets (.sparing x granted))
    (hsize : granted = true ∨ p.anyNode (comesToUse x) = false)
    (hcoord : granted = true ∨ x = widthName ∨
      (t.coordPolicy == .fromHeight && p.anyNode FragCoord.isFragCoord) = false) :
    Yields (Program.Meets (.sparing x granted)) (FragCoord.legalize t p) := by
  have hsame : (p.mapNodes substituteNode).anyNode FragCoord.isFragCoord =
      p.anyNode FragCoord.isFragCoord :=
    Program.anyNode_mapNodes FragCoord.isFragCoord_withChildren isFragCoord_substituteNode p
  refine FragCoord.yields_legalize (P := (· = p.mapNodes substituteNode))
    (Q := Program.Meets (.sparing x granted)) rfl ?_ fun q hq => ?_
  · -- The coordinate is asked for by the program before the uniforms are put in.
    rintro _ rfl -
    exact sparing_applyPolicy hx (sparing_substitute hp hsize) (by rwa [hsame])
  · split
    · have hc := carried_sparing hx.toIsOutside granted
      exact hc.flip (fun _ => id) (sparing_bottomUp fun _ => usesName_negateDerivative)
        (Stmt.fits_expr.mpr (.inr rfl)) hc hq
    · exact hq

/-- A program that uses neither a uniform nor the size that it stands for does not come to refer to
    it. -/
theorem any_comesToUse {e : Expr} (he : e.any (usesName x) = false)
    (hheight : x = heightName → e.any isHeight = false)
    (hwidth : x = widthName → e.any isWidth = false) : e.any (comesToUse x) = false := by
  induction e using induction_children with
  | h e ih =>
    obtain ⟨hnode, hchildren⟩ := any_eq_false_iff.mp he
    refine any_eq_false_iff.mpr ⟨?_, fun c hc => ih c hc (hchildren c hc)
      (fun h => (any_eq_false_iff.mp (hheight h)).2 c hc)
      fun h => (any_eq_false_iff.mp (hwidth h)).2 c hc⟩
    -- A node comes to a use if it is a size, or uses the name as it is.
    unfold comesToUse substituteNode
    split
    · next h =>
      refine usesName_eq_false_of_ne rfl fun hx => ?_
      exact absurd h (by simp [(any_eq_false_iff.mp (hwidth hx.symm)).1])
    · split
      · next h =>
        refine usesName_eq_false_of_ne rfl fun hx => ?_
        exact absurd h (by simp [(any_eq_false_iff.mp (hheight hx.symm)).1])
      · exact hnode

/-- A program that does not declare a name is refused or ends without declarations of it. It ends
    without uses of it as well if there are none and fragment coordinates do not bring it in. -/
theorem legalize_sparing (hx : IsUndeclared x) (hp : p.Meets (.sparing x granted))
    (hcoord : ∀ q : Program, q.Meets (.sparing x granted) →
      sizeInputs t.coordPolicy q = sizeInputs t.coordPolicy p → granted = true ∨
        q.anyNode (comesToUse x) = false ∧ (x = widthName ∨
          (t.coordPolicy == .fromHeight && q.anyNode FragCoord.isFragCoord) = false)) :
    Yields (Program.Meets (.sparing x granted)) (Legalize.legalize t p) := by
  refine (carried_sparing hx.toIsOutside granted).legalize
    (P := fun q => q.Meets (.sparing x granted) ∧
      sizeInputs t.coordPolicy q = sizeInputs t.coordPolicy p)
    (fun q hq => ⟨sparing_highPrecision hq.1, (sizeInputs_highPrecision _ q).trans hq.2⟩)
    (fun q ⟨hq, hsame⟩ => ?_) ⟨hp, rfl⟩
  have hunused := hcoord q hq hsame
  exact sparing_fragCoord hx hq (hunused.imp_right And.left) (hunused.imp_right And.right)

/-- Unless the height is noted, nothing refers to its uniform in the end. -/
theorem legalize_spares_height (hp : p.Avoids heightName) :
    Yields (Program.Meets (.sparing heightName (sizeInputs t.coordPolicy p).height))
      (Legalize.legalize t p) := by
  have hx := isUndeclared_of_mem (x := heightName) (by simp)
  refine legalize_sparing hx (sparing_of_avoids hp) fun q hq hsame => ?_
  rw [← hsame] at hq ⊢
  refine (Bool.eq_false_or_eq_true _).imp_right fun hnoted => ?_
  -- Neither was the height used, nor do coordinates ask for it.
  obtain ⟨hunused, hcoord⟩ := Bool.or_eq_false_iff.mp hnoted
  refine ⟨Program.anyNode_eq_false_iff.mpr (Program.All.imp₂ (Program.Meets.all rfl hq)
    (Program.anyNode_eq_false_iff.mp hunused) fun e he hsize => ?_), .inr hcoord⟩
  have hunused' := he.resolve_left (by simp [hnoted])
  exact any_comesToUse hunused' (fun _ => hsize) fun h => absurd h (by decide)

/-- Unless the width is noted, nothing refers to its uniform in the end. -/
theorem legalize_spares_width (hp : p.Avoids widthName) :
    Yields (Program.Meets (.sparing widthName (sizeInputs t.coordPolicy p).width))
      (Legalize.legalize t p) := by
  have hx := isUndeclared_of_mem (x := widthName) (by simp)
  refine legalize_sparing hx (sparing_of_avoids hp) fun q hq hsame => ?_
  rw [← hsame] at hq ⊢
  -- If it was noted, its uses are granted.
  refine (Bool.eq_false_or_eq_true _).imp_right fun hnoted => ?_
  refine ⟨Program.anyNode_eq_false_iff.mpr (Program.All.imp₂ (Program.Meets.all rfl hq)
    (Program.anyNode_eq_false_iff.mp hnoted) fun e he hsize => ?_), .inl rfl⟩
  have hunused := he.resolve_left (by simp [hnoted])
  exact any_comesToUse hunused (fun h => absurd h (by decide)) fun _ => hsize

end

end Legalize

end ShaderGen
