import ShaderGen.Legalize.Pipeline
import ShaderGen.Proofs.Precision.TwinPrograms

/-!
# Rules on programs that differ in precision alone

Every rule makes twins of twins: it looks at the nodes of a program and at the shapes of their
types, gives out the same names, and fails in the same way. The scratch states stay the same but
for the log.

## Key results

- `HighPrecision.twin_legalize`: a program and what becomes of it in full precision are twins
- `Preamble.twin_legalize`, `FragCoord.twin_legalize` and so on: one for each rule
-/

namespace ShaderGen

open List (Forall₂)

/-! ### Scratch states -/

/-- Scratch states that are the same but for what was reported. -/
def Scratch.SameButLog (s s' : Scratch) : Prop := ∃ log, s' = { s with log }

namespace Scratch.SameButLog

variable {s s' : Scratch}

/-- Reports leave states the same but for the log. -/
theorem report (h : s.SameButLog s') (event event' : Event) :
    (s.report event).SameButLog (s'.report event') := by
  obtain ⟨log, rfl⟩ := h
  exact ⟨_, rfl⟩

/-- So does naming several extensions. -/
theorem requireExtensions (h : s.SameButLog s') (names : List String) :
    (names.foldl (fun s name => s.requireExtension name) s).SameButLog
      (names.foldl (fun s name => s.requireExtension name) s') := by
  induction names generalizing s s' with
  | nil => exact h
  | cons name names ih =>
    -- One extension is named on both sides, and then the others.
    refine ih ?_
    obtain ⟨log, rfl⟩ := h
    unfold Scratch.requireExtension
    dsimp only
    split
    · exact ⟨_, rfl⟩
    · exact ⟨_, rfl⟩

/-- So does naming an extension first. -/
theorem requireExtensionFirst (h : s.SameButLog s') (name : String) :
    (s.requireExtensionFirst name).SameButLog (s'.requireExtensionFirst name) := by
  obtain ⟨log, rfl⟩ := h
  exact ⟨_, rfl⟩

/-- So does declaring a global. -/
theorem declareGlobal (h : s.SameButLog s') (d : Decl) :
    (s.declareGlobal d).SameButLog (s'.declareGlobal d) := by
  obtain ⟨log, rfl⟩ := h
  unfold Scratch.declareGlobal
  dsimp only
  split
  · exact ⟨_, rfl⟩
  · exact ⟨_, rfl⟩

/-- So does moving the origin. -/
theorem declareUpperLeftOrigin (h : s.SameButLog s') :
    s.declareUpperLeftOrigin.SameButLog s'.declareUpperLeftOrigin := by
  obtain ⟨log, rfl⟩ := h
  unfold Scratch.declareUpperLeftOrigin
  dsimp only
  split
  · exact ⟨_, rfl⟩
  · exact ⟨_, rfl⟩

/-- So does adding a helper. -/
theorem addHelper (h : s.SameButLog s') (shape : Shape) (fn : Function) :
    (s.addHelper shape fn).SameButLog (s'.addHelper shape fn) := by
  obtain ⟨log, rfl⟩ := h
  unfold Scratch.addHelper
  dsimp only
  split
  · exact ⟨_, rfl⟩
  · exact ⟨_, rfl⟩

/-- Such states have the same note of uniforms. -/
theorem inputs (h : s.SameButLog s') : s.inputs = s'.inputs := by
  obtain ⟨log, rfl⟩ := h
  rfl

/-- So does changing the note of uniforms. -/
theorem setInputs (h : s.SameButLog s') (f : Inputs → Inputs) :
    { s with inputs := f s.inputs }.SameButLog { s' with inputs := f s'.inputs } := by
  obtain ⟨log, rfl⟩ := h
  exact ⟨_, rfl⟩

end Scratch.SameButLog

namespace Legalize

/-- Work that changes the scratch state, from states that are the same but for the log. -/
def besides : Pairing ScratchM := Pairing.values.state Scratch.SameButLog

/-- Work that can fail as well. -/
def besidesGen : Pairing GenM := besides.except

/-- Work that declares temporaries as well. -/
def besidesTemp : Pairing TempM := besides.state (Forall₂ Decl.Twin)

variable {α β : Type} {R : α → β → Prop}

/-- Work that cannot fail is paired within work that can. -/
theorem besides_lift {x : ScratchM α} {y : ScratchM β} (h : besides.Holds R x y) :
    besidesGen.Holds R (liftM x) (liftM y) :=
  besides.map (R := R) h fun _ _ hab => .ok hab

/-- Two failures for the same cause are paired. -/
theorem besides_fail (fault : Fault) :
    besidesGen.Holds R (throw fault : GenM α) (throw fault : GenM β) :=
  besides.pure (.error fault)

/-- Work that fails as malformed is paired if it was paired before. -/
theorem besides_liftMalformed {x : Except Malformation α} {y : Except Malformation β}
    (h : (Pairing.failing Malformation).Holds R x y) :
    besidesGen.Holds R (liftMalformed x) (liftMalformed y) := by
  cases h with
  | error cause => exact besides_fail _
  | ok hab => exact besidesGen.pure hab

/-- So is work that fails as unsupported. -/
theorem besides_liftUnsupported {x : Except Unsupported α} {y : Except Unsupported β}
    (h : (Pairing.failing Unsupported).Holds R x y) :
    besidesGen.Holds R (liftUnsupported x) (liftUnsupported y) := by
  cases h with
  | error cause => exact besides_fail _
  | ok hab => exact besidesGen.pure hab

/-- Two changes of the state are paired if they keep the log apart. -/
theorem besides_modify {f g : Scratch → Scratch}
    (h : ∀ s s', s.SameButLog s' → (f s).SameButLog (g s')) :
    besides.Holds (fun _ _ => True) (modify f : ScratchM PUnit) (modify g) :=
  Pairing.values.changes h

/-- The states themselves are the same but for the log. -/
theorem besides_get : besidesGen.Holds Scratch.SameButLog (get : GenM Scratch) get :=
  fun _ _ hs => ⟨.ok hs, hs⟩

/-- It makes no difference to report something. -/
theorem besides_report (event : Event) : besidesGen.Holds (fun _ _ => True)
    (pure () : GenM PUnit) (modify (Scratch.report event)) := by
  rintro s _ ⟨log, rfl⟩
  exact ⟨.ok trivial, ⟨_, rfl⟩⟩

/-- Names are given out alike. -/
theorem besides_freshName (stem : Stem) :
    besides.Holds Eq (freshName stem) (freshName stem) := by
  rintro s _ ⟨log, rfl⟩
  exact ⟨rfl, ⟨log, rfl⟩⟩

/-- Temporaries for twins are twins. -/
theorem besides_freshTemp (stem : Stem) {ty ty' : Ty} (h : ty.Twin ty') :
    besidesTemp.Holds Expr.Twin (freshTemp stem ty) (freshTemp stem ty') := by
  rintro temps temps' htemps s _ ⟨log, rfl⟩
  exact ⟨⟨.var h _, List.rel_append htemps (.cons ⟨rfl, rfl, h, .none⟩ .nil)⟩, ⟨log, rfl⟩⟩

/-- Temporaries for twin functions are declared alike. -/
theorem twin_withTemporaries {f : Expr → TempM Expr}
    (hf : ∀ e e', e.Twin e' → besidesTemp.Holds Expr.Twin (f e) (f e')) {fn fn' : Function}
    (h : fn.Twin fn') :
    besides.Holds Function.Twin (withTemporaries f fn) (withTemporaries f fn') := by
  have hbody : besidesTemp.Holds Function.Twin (fn.mapExprsM (Expr.bottomUpM f))
      (fn'.mapExprsM (Expr.bottomUpM f)) :=
    besidesTemp.bind (Stmt.Twin.mapExprsListM besidesTemp
      (fun _ _ he => he.bottomUpM besidesTemp hf) h.body) fun _ _ hbody =>
      besidesTemp.pure { h with body := hbody }
  refine besides.bind (hbody [] [] .nil) fun r r' hr => besides.pure ?_
  -- The temporaries have twin types, and come in front of twin bodies.
  have htemps : Forall₂ Stmt.Twin (r.2.map Stmt.decl) (r'.2.map Stmt.decl) :=
    List.rel_map (fun _ _ hd => .decl hd) hr.2
  exact { hr.1 with body := List.rel_append htemps hr.1.body }

/-! ### Full precision -/

namespace HighPrecision

/-- Twins stay twins where one of them goes up to full precision. -/
theorem twin_raisedExpr {e e' : Expr} (h : e.Twin e') : e.Twin (e'.bottomUp raiseNode) := by
  have hraised := h.bottomUp (f := id) (g := raiseNode) fun _ _ he => he.withTy_right rfl
  rwa [Expr.bottomUp_id] at hraised

/-- A declaration of the highest precision is a twin of the one that was given. -/
theorem twin_raiseDecl (d : Decl) : d.Twin (raiseDecl d) := { Decl.Twin.refl d with ty := rfl }

/-- A statement and what becomes of its declarations in full precision are twins. -/
theorem twin_raisedStmt (s : Stmt) : s.Twin (s.bottomUp raiseStmt) := by
  -- Raising is a walk over the statement, to be compared with one that changes nothing.
  have hraised := (Stmt.Twin.refl s).bottomUp (f := id) (g := raiseStmt) fun s s' hs => ?_
  · rwa [Stmt.bottomUp_id] at hraised
  · cases hs with
    | decl hd => exact .decl { hd with ty := hd.ty }
    | block h => exact .block h
    | ifElse hc hs ho => exact .ifElse hc hs ho
    | forLoop hi hc ht hs => exact .forLoop hi hc ht hs
    | whileLoop hc hs => exact .whileLoop hc hs
    | doWhile hs hc => exact .doWhile hs hc
    | switchOn hv hcs => exact .switchOn hv hcs
    | expr h => exact .expr h
    | returnWith h => exact .returnWith h
    | _ => exact .refl _

/-- A program and what becomes of it in full precision are twins. -/
theorem twin_legalize (p : Program) : p.Twin (legalize p) := by
  refine ⟨rfl, ?_⟩
  rw [legalize, Program.elements_mapNodes, List.map_map, List.forall₂_map_right_iff]
  refine List.forall₂_same.mpr fun el _ => ?_
  -- In each element the declarations are raised first, then all expressions.
  cases el with
  | layout l => exact .layout l
  | global d =>
    refine .global { twin_raiseDecl d with init := ?_ }
    show Option.Rel _ d.init (d.init.map _)
    cases d.init with
    | none => exact .none
    | some e => exact .some (twin_raisedExpr (.refl e))
  | function fn =>
    refine .function ⟨rfl, rfl, ?_, ?_⟩
    · show Forall₂ Param.Twin fn.params (fn.params.map raiseParam)
      rw [List.forall₂_map_right_iff]
      exact List.forall₂_same.mpr fun _ _ => ⟨rfl, rfl⟩
    · show Forall₂ Stmt.Twin fn.body ((Stmt.bottomUpList raiseStmt fn.body).map _)
      rw [Stmt.bottomUpList_eq_map, List.map_map, List.forall₂_map_right_iff]
      refine List.forall₂_same.mpr fun s _ => ?_
      have hexprs := (twin_raisedStmt s).mapExprs (f := id) fun _ _ => twin_raisedExpr
      -- A walk that changes no expression leaves the statement as it is.
      rwa [Stmt.mapExprs_id] at hexprs

end HighPrecision

/-! ### The preamble -/

variable {p p' : Program}

/-- Twin programs declare the same number of invocations. -/
theorem declaredInvocations_twin (h : p.Twin p') :
    p.declaredInvocations = p'.declaredInvocations := by
  unfold Program.declaredInvocations
  rw [h.flatMap_elements fun _ _ hel => by cases hel <;> rfl]

/-- What a target has to name is the same for twins. -/
theorem extensions_twin (profile : Profile) (h : p.Twin p') :
    Preamble.extensions profile p = Preamble.extensions profile p' := by
  have hderivatives := h.anyNode (q := Preamble.isDerivativeCall) fun e e' he => by
    cases he with
    | call _ callee _ => cases callee <;> rfl
    | _ => rfl
  unfold Preamble.extensions Preamble.geometryExtensions
  rw [h.stage, hderivatives, declaredInvocations_twin h]

/-- Twin programs declare the fragment color alike. -/
theorem declaresFragOutput_twin (profile : Profile) (h : p.Twin p') :
    Preamble.declaresFragOutput profile p = Preamble.declaresFragOutput profile p' := by
  have hcolor := h.anyNode (q := Preamble.isFragColor) fun e e' he => by
    cases he with
    | builtin _ which => cases which <;> rfl
    | _ => rfl
  rw [Preamble.declaresFragOutput, hcolor, h.stage, Preamble.declaresFragOutput]

/-- The preamble is noted alike for twins, and the programs stay as they are. -/
theorem Preamble.twin_legalize (t : Target) {R : Program → Program → Prop} (h : p.Twin p')
    (hR : R p p') : besidesGen.Holds R (Preamble.legalize t p) (Preamble.legalize t p') := by
  -- What is noted is settled by the program before any rule, which is a twin.
  have hnote : besidesGen.Holds (fun _ _ => True)
      (modify fun s : Scratch =>
        { (extensions t.profile p).foldl (fun s name => s.requireExtension name) s with
          declaresFragOutput := declaresFragOutput t.profile p })
      (modify fun s : Scratch =>
        { (extensions t.profile p).foldl (fun s name => s.requireExtension name) s with
          declaresFragOutput := declaresFragOutput t.profile p }) := by
    refine besides_lift (besides_modify fun s s' hs => ?_)
    obtain ⟨log, hlog⟩ := hs.requireExtensions (extensions t.profile p)
    exact ⟨log, congrArg (fun s : Scratch =>
      { s with declaresFragOutput := declaresFragOutput t.profile p }) hlog⟩
  have hdone := besidesGen.bind hnote fun _ _ _ => besidesGen.pure hR
  unfold Preamble.legalize
  rw [← extensions_twin _ h, ← declaresFragOutput_twin _ h, ← h.stage]
  -- Whether a geometry program is refused is a matter of its stage.
  exact besidesGen.branch
    (besidesGen.bind (besides_fail (R := fun _ _ => True) _) fun _ _ _ => hdone) hdone

/-! ### Fragment coordinates -/

namespace TargetSize

/-- Twins refer to the width alike. -/
theorem isWidth_twin (e e' : Expr) (h : e.Twin e') : isWidth e = isWidth e' := by
  cases h with
  | builtin _ which => cases which <;> rfl
  | _ => rfl

/-- Twins refer to the height alike. -/
theorem isHeight_twin (e e' : Expr) (h : e.Twin e') : isHeight e = isHeight e' := by
  cases h with
  | builtin _ which => cases which <;> rfl
  | _ => rfl

/-- Uniforms take the place of twins alike. -/
theorem twin_substituteNode (e e' : Expr) (h : e.Twin e') :
    (substituteNode e).Twin (substituteNode e') := by
  unfold substituteNode
  rw [isWidth_twin e e' h, isHeight_twin e e' h]
  split
  · exact .refl _
  split
  · exact .refl _
  · exact h

/-- The width is declared alike. -/
theorem declares_width :
    besides.Holds (fun _ _ => True) (modify declareWidth) (modify declareWidth) :=
  besides_modify fun _ _ hs => (hs.declareGlobal _).setInputs fun i => { i with width := true }

/-- The height is declared alike. -/
theorem declares_height :
    besides.Holds (fun _ _ => True) (modify declareHeight) (modify declareHeight) :=
  besides_modify fun _ _ hs => (hs.declareGlobal _).setInputs fun i => { i with height := true }

/-- The rule for sizes keeps twins. -/
theorem twin_legalize (h : p.Twin p') :
    besides.Holds Program.Twin (TargetSize.legalize p) (TargetSize.legalize p') := by
  have hdone : besides.Holds Program.Twin (pure (p.mapNodes substituteNode))
      (pure (p'.mapNodes substituteNode)) := besides.pure (h.mapNodes twin_substituteNode)
  unfold TargetSize.legalize
  rw [← h.anyNode isWidth_twin, ← h.anyNode isHeight_twin]
  have hheight := besides.branch (c := p.anyNode isHeight = true)
    (besides.bind declares_height fun _ _ _ => hdone) hdone
  exact besides.branch (besides.bind declares_width fun _ _ _ => hheight) hheight

end TargetSize

namespace FlipY

/-- Twins reach the position alike. -/
theorem reachesPosition_twin {e e' : Expr} (h : e.Twin e') :
    reachesPosition e = reachesPosition e' := by
  -- The position is reached through a few kinds of nodes only.
  induction e generalizing e' with
  | swizzle t e mask ih =>
    cases h with
    | swizzle _ he _ => rw [reachesPosition, reachesPosition, ih he]
  | index t e i ih _ =>
    cases h with
    | index _ he _ => rw [reachesPosition, reachesPosition, ih he]
  | ternary t c a b _ iha ihb =>
    cases h with
    | ternary _ _ ha hb => rw [reachesPosition, reachesPosition, iha ha, ihb hb]
  | builtin t which =>
    cases h
    cases which <;> rfl
  | _ =>
    cases h
    rfl

/-- Twins write the position alike. -/
theorem writesPosition_twin (e e' : Expr) (h : e.Twin e') :
    writesPosition e = writesPosition e' := by
  cases h with
  | binary _ op hl _ => exact congrArg (op.isAssignment && ·) (reachesPosition_twin hl)
  | unary _ op he => exact congrArg (op.writesOperand && ·) (reachesPosition_twin he)
  | _ => rfl

/-- Derivatives of twins are negated alike. -/
theorem twin_negateDerivative (e e' : Expr) (h : e.Twin e') :
    (negateDerivative e).Twin (negateDerivative e') := by
  have hself := h
  cases h with
  | call _ callee _ =>
    cases callee with
    | user name => exact hself
    | intrinsic f =>
      -- Only one derivative is negated.
      cases f with
      | dFdy => exact .ofUnary .neg hself
      | _ => exact hself
  | _ => exact hself

/-- A negation comes in front of twins that return. -/
theorem twin_beforeReturn (s s' : Stmt) (h : s.Twin s') :
    Forall₂ Stmt.Twin (beforeReturn s) (beforeReturn s') := by
  have hself := h
  cases h with
  | returnWith _ => exact .cons (.refl _) (.cons hself .nil)
  | _ => exact .cons hself .nil

/-- A negation comes in front of twins that emit. -/
theorem twin_beforeEmit (s s' : Stmt) (h : s.Twin s') :
    Forall₂ Stmt.Twin (beforeEmit s) (beforeEmit s') := by
  have hself := h
  cases h with
  | emitVertex => exact .cons (.refl _) (.cons hself .nil)
  | _ => exact .cons hself .nil

/-- Twin bodies end in a `return` alike. -/
theorem endsInReturn_twin {ss ss' : List Stmt} (h : Forall₂ Stmt.Twin ss ss') :
    endsInReturn ss = endsInReturn ss' := by
  unfold endsInReturn
  rw [List.getLast?_eq_head?_reverse, List.getLast?_eq_head?_reverse]
  have hreverse := List.rel_reverse h
  generalize ss.reverse = tt, ss'.reverse = tt' at hreverse
  cases hreverse with
  | nil => rfl
  | cons hs _ => exact hs.isReturn

/-- The bodies of twin entry functions are flipped alike. -/
theorem twin_flipEntryBody (ss ss' : List Stmt) (h : Forall₂ Stmt.Twin ss ss') :
    Forall₂ Stmt.Twin (flipEntryBody ss) (flipEntryBody ss') := by
  have hbody := Stmt.Twin.expandList twin_beforeReturn h
  unfold flipEntryBody
  dsimp only
  rw [endsInReturn_twin hbody]
  split
  · exact hbody
  · exact List.rel_append hbody (.cons (.refl _) .nil)

/-- The rule that flips keeps twins. -/
theorem twin_legalize (h : p.Twin p') : (legalize p).Twin (legalize p') := by
  unfold legalize
  -- Both programs are in one stage, and both write the position or neither does.
  rw [← h.stage, ← h.anyNode writesPosition_twin]
  split
  · exact h.mapNodes twin_negateDerivative
  · split
    · exact h.mapEntry fun _ _ hfn => hfn.mapBody twin_flipEntryBody
    · exact h
  · split
    · exact h.mapFunctions fun _ _ hfn =>
        hfn.mapBody fun _ _ hss => Stmt.Twin.expandList twin_beforeEmit hss
    · exact h

end FlipY

namespace FragCoord

/-- Twins refer to the coordinate alike. -/
theorem isFragCoord_twin (e e' : Expr) (h : e.Twin e') : isFragCoord e = isFragCoord e' := by
  cases h with
  | builtin _ which => cases which <;> rfl
  | _ => rfl

/-- Twins read the local alike. -/
theorem twin_readLocal (prologue : Prologue) (e e' : Expr) (h : e.Twin e') :
    (readLocal prologue e).Twin (readLocal prologue e') := by
  unfold readLocal
  rw [isFragCoord_twin e e' h]
  split
  · exact .refl _
  · exact h

/-- The prologue comes in front of twin bodies. -/
theorem twin_reconstruct (prologue : Prologue) (fn fn' : Function) (h : fn.Twin fn') :
    (reconstruct prologue fn).Twin (reconstruct prologue fn') := by
  have hbody := Stmt.Twin.mapExprsListM (m := Id) .values
    (f := fun e => pure (e.bottomUp (readLocal prologue)))
    (g := fun e => pure (e.bottomUp (readLocal prologue)))
    (fun _ _ he => he.bottomUp (twin_readLocal prologue)) h.body
  unfold reconstruct
  -- The reconstruction is made in both programs or in neither.
  rw [h.anyNode isFragCoord_twin]
  split
  · exact { h with
      body := List.rel_append (List.forall₂_same.mpr fun s _ => .refl s) hbody }
  · exact h

/-- Twins are passed on alike. -/
theorem twin_forwardNode (e e' : Expr) (h : e.Twin e') : (forwardNode e).Twin (forwardNode e') := by
  -- Whether the position is assigned is told by the operator and the target.
  have hassigns : assignsPosition e = assignsPosition e' := by
    cases h with
    | binary _ op hl _ =>
      cases hl with
      | builtin _ which => cases which <;> rfl
      | _ => rfl
    | _ => rfl
  unfold forwardNode
  rw [hassigns]
  split
  · exact .assign (.refl _) h
  · exact h

/-- Whatever the policy does, it does to twins alike. -/
theorem twin_applyPolicy (policy : CoordPolicy) (usesCoord : Bool) (h : p.Twin p') :
    besides.Holds Program.Twin (applyPolicy policy usesCoord p)
      (applyPolicy policy usesCoord p') := by
  have hself : besides.Holds Program.Twin (pure p) (pure p') := besides.pure h
  -- The three changes of the state that the policies make.
  have horigin := besides_modify (f := Scratch.declareUpperLeftOrigin)
    (g := Scratch.declareUpperLeftOrigin) fun _ _ hs => hs.declareUpperLeftOrigin
  have hextension := besides_modify
    (f := fun s => (s.requireExtensionFirst conventionsExtension).declareUpperLeftOrigin)
    (g := fun s => (s.requireExtensionFirst conventionsExtension).declareUpperLeftOrigin)
    fun _ _ hs => (hs.requireExtensionFirst _).declareUpperLeftOrigin
  have hvarying := fun d => besides_modify (f := Scratch.declareGlobal d)
    (g := Scratch.declareGlobal d) fun _ _ hs => hs.declareGlobal d
  cases policy with
  -- Each policy changes the state in one of these ways and rewrites the functions alike.
  | direct upperLeft =>
    exact besides.branch (besides.bind horigin fun _ _ _ => hself) hself
  | legacyExtension => exact besides.branch (besides.bind hextension fun _ _ _ => hself) hself
  | fromHeight =>
    exact besides.branch (besides.bind TargetSize.declares_height fun _ _ _ =>
      besides.pure (h.mapFunctions (twin_reconstruct flipped))) hself
  | fromVarying =>
    unfold applyPolicy
    rw [← h.stage]
    dsimp only
    -- The stage decides between declaring an output, an input, and nothing.
    cases p.stage with
    | vertex =>
      exact besides.bind (hvarying _) fun _ _ _ => besides.pure (h.mapNodes twin_forwardNode)
    | fragment =>
      refine besides.bind (hvarying _) fun _ _ _ => besides.pure ?_
      split
      · exact h.mapFunctions (twin_reconstruct resolved)
      · exact h
    | geometry => exact hself

/-- The rule for fragment coordinates keeps twins. -/
theorem twin_legalize (t : Target) (h : p.Twin p') :
    besidesGen.Holds Program.Twin (FragCoord.legalize t p) (FragCoord.legalize t p') := by
  unfold FragCoord.legalize
  refine besidesGen.bind (besides_lift (TargetSize.twin_legalize h)) fun p p' h => ?_
  -- Once sizes are declared, the policy works on twins, and then the flip does.
  have hrest : besidesGen.Holds Program.Twin
      (do
        modify (Scratch.report (.coordPolicy t.coordPolicy (p.anyNode isFragCoord)))
        let p ← liftM (applyPolicy t.coordPolicy (p.anyNode isFragCoord) p)
        pure (if t.flipsY then FlipY.legalize p else p) : GenM Program)
      (do
        modify (Scratch.report (.coordPolicy t.coordPolicy (p.anyNode isFragCoord)))
        let p ← liftM (applyPolicy t.coordPolicy (p.anyNode isFragCoord) p')
        pure (if t.flipsY then FlipY.legalize p else p) : GenM Program) := by
    refine besidesGen.bind (besides_lift (besides_modify fun _ _ hs => hs.report _ _))
      fun _ _ _ => ?_
    refine besidesGen.bind (besides_lift (twin_applyPolicy _ _ h)) fun _ _ h => ?_
    refine besidesGen.pure ?_
    split
    · exact FlipY.twin_legalize h
    · exact h
  rw [← h.anyNode isFragCoord_twin, ← h.stage]
  exact besidesGen.branch
    (besidesGen.bind (besides_fail (R := fun _ _ => True) _) fun _ _ _ => hrest) hrest

end FragCoord

/-! ### Lookups, invocations and choices -/

namespace TextureLookup

/-- Lookups are told apart by the shapes of their arguments. -/
theorem classify_twin {args args' : List Expr} (h : Forall₂ Expr.Twin args args') :
    classify args = classify args' := by
  obtain _ | ⟨hsampler, _ | ⟨hcoord, _⟩⟩ := h
  · rfl
  · rfl
  · unfold classify
    dsimp only
    rw [show _ = _ from hsampler.ty, hcoord.ty.swizzleWidth?]

/-- A bias is added to the arguments of twins alike. -/
theorem twin_biased (sharpens : Bool) (dim : SamplerDim) {args args' : List Expr}
    (h : Forall₂ Expr.Twin args args') :
    Forall₂ Expr.Twin (biased sharpens dim args) (biased sharpens dim args') := by
  unfold biased
  rw [h.length_eq]
  split
  · exact List.rel_append h (.cons (.refl _) .nil)
  · exact h

/-- Lookups of twins are resolved alike, or fail alike. -/
theorem twin_resolveNode (profile : Profile) (e e' : Expr) (h : e.Twin e') :
    (Pairing.failing Malformation).Holds Expr.Twin (resolveNode profile e)
      (resolveNode profile e') := by
  have hself : (Pairing.failing Malformation).Holds Expr.Twin (pure e) (pure e') :=
    (Pairing.failing _).pure h
  cases h with
  | @call t t' args args' ht callee hargs =>
    cases callee with
    | user name => exact hself
    | intrinsic f =>
      cases f with
      | sample =>
        -- What a lookup is told by are its arguments, of which the types are twins.
        have hclass : (Pairing.failing Malformation).Holds Eq (classify args) (classify args') := by
          rw [classify_twin hargs]
          cases classify args' with
          | error cause => exact .error cause
          | ok found => exact .ok rfl
        refine (Pairing.failing _).bind hclass fun found _ hfound => ?_
        obtain rfl := hfound
        exact (Pairing.failing _).pure (.call ht _ (twin_biased _ _ hargs))
      | _ => exact hself
  | _ => exact hself

end TextureLookup

namespace Invocations

/-- The counter takes the place of twins alike. -/
theorem twin_readCounter (e e' : Expr) (h : e.Twin e') : (readCounter e).Twin (readCounter e') := by
  have hself := h
  cases h with
  | builtin _ which =>
    cases which with
    | invocationId => exact .refl _
    | _ => exact hself
  | _ => exact hself

/-- Twin layouts are scaled alike. -/
theorem twin_scaleElement (count : Nat) (el el' : Element) (h : el.Twin el') :
    Option.Rel Element.Twin (scaleElement count el) (scaleElement count el') := by
  cases h with
  | layout l => exact Option.rel_refl fun el _ => .refl el
  | global hd => exact .some (.global hd)
  | function hfn => exact .some (.function hfn)

/-- The rule for invocations keeps twins. -/
theorem twin_legalize (h : p.Twin p') :
    besidesGen.Holds Program.Twin (Invocations.legalize p) (Invocations.legalize p') := by
  unfold Invocations.legalize
  rw [← declaredInvocations_twin h,
    ← any_eq_of_forall₂ h.functions (p := Function.isEntry) fun _ _ _ hfn => hfn.isEntry]
  refine besidesGen.bind (besides_lift (besides_modify fun _ _ hs => hs.report _ _))
    fun _ _ _ => besidesGen.branch ?_ (besides_fail _)
  -- The entry function is renamed, layouts are scaled, and the counter is read.
  have hrenamed := h.mapEntry (f := fun fn => { fn with name := invokeName })
    fun _ _ hfn => { hfn with name := rfl }
  have hscaled := List.rel_filterMap (twin_scaleElement p.declaredInvocations) hrenamed.elements
  have hprograms : Program.Twin
      { p.mapEntry (fun fn => { fn with name := invokeName }) with
        elements := (p.mapEntry fun fn => { fn with name := invokeName }).elements.filterMap
          (scaleElement p.declaredInvocations) }
      { p'.mapEntry (fun fn => { fn with name := invokeName }) with
        elements := (p'.mapEntry fun fn => { fn with name := invokeName }).elements.filterMap
          (scaleElement p.declaredInvocations) } := ⟨h.stage, hscaled⟩
  have hcounted := hprograms.mapNodes twin_readCounter
  refine besidesGen.bind (besides_lift (besides_modify fun _ _ hs => hs.declareGlobal _))
    fun _ _ _ => besidesGen.pure ⟨hcounted.stage, ?_⟩
  exact List.rel_append hcounted.elements (.cons (.refl _) .nil)

end Invocations

namespace TernaryTarget

/-- Twins are known booleans alike. -/
theorem boolLiteral?_twin {e e' : Expr} (h : e.Twin e') : e.boolLiteral? = e'.boolLiteral? := by
  cases h with
  | literal _ value => cases value <;> rfl
  | _ => rfl

/-- Twins of choices have twin arms taken. -/
theorem twin_collapse {e e' : Expr} (h : e.Twin e') : (collapse e).Twin (collapse e') := by
  induction e generalizing e' with
  | ternary t c a b _ iha ihb =>
    cases h with
    | ternary ht hc ha hb =>
      -- Whether the condition is a literal is the same for twins.
      rw [collapse, collapse, boolLiteral?_twin hc]
      split
      · exact iha ha
      · exact ihb hb
      · exact .ternary ht hc ha hb
  | _ =>
    have hself := h
    cases h
    exact hself

/-- Twins that write to choices have twin arms taken. -/
theorem twin_collapseNode (e e' : Expr) (h : e.Twin e') :
    (collapseNode e).Twin (collapseNode e') := by
  have hself := h
  cases h with
  -- What is written to is collapsed; any other node is left.
  | binary ht op hl hr =>
    rw [collapseNode, collapseNode]
    split
    · exact .binary ht op (twin_collapse hl) hr
    · exact hself
  | unary ht op he =>
    rw [collapseNode, collapseNode]
    split
    · exact .unary ht op (twin_collapse he)
    · exact hself
  | _ => exact hself

/-- Assignments to twin choices are split alike. -/
theorem twin_assignArms (op : BinaryOp) {value value' target target' : Expr}
    (hvalue : value.Twin value') (h : target.Twin target') :
    (assignArms op value target).Twin (assignArms op value' target') := by
  induction target generalizing target' with
  | ternary t c a b _ iha ihb =>
    -- The targets are choices on both sides.
    cases h with
    | ternary _ hc ha hb =>
      exact .ifElse hc (.block (.cons (iha ha) .nil)) (.some (.block (.cons (ihb hb) .nil)))
  | _ =>
    have hself := h
    cases h
    exact .expr (.ofBinary op hself hvalue)

/-- Twin statements are split alike. -/
theorem twin_splitStmt (s s' : Stmt) (h : s.Twin s') : (splitStmt s).Twin (splitStmt s') := by
  have hself := h
  cases h with
  | expr he =>
    cases he with
    -- Only an assignment that is a statement by itself, with a choice as its target, is split.
    | binary _ op hl hr =>
      have htarget := hl
      cases hl with
      | ternary _ _ _ _ =>
        rw [splitStmt, splitStmt]
        split
        · exact twin_assignArms op hr htarget
        · exact hself
      | _ => exact hself
    | _ => exact hself
  | _ => exact hself

/-- Twins are choices alike. -/
theorem isTernary_twin {e e' : Expr} (h : e.Twin e') : isTernary e = isTernary e' := by
  cases h <;> rfl

/-- Twins write to choices alike. -/
theorem writesTernary_twin (e e' : Expr) (h : e.Twin e') :
    writesTernary e = writesTernary e' := by
  cases h with
  | binary _ op hl _ => exact congrArg (op.isAssignment && ·) (isTernary_twin hl)
  | unary _ op he => exact congrArg (op.writesOperand && ·) (isTernary_twin he)
  | _ => rfl

/-- The rule for choices keeps twins, or fails alike. -/
theorem twin_legalize (profile : Profile) (h : p.Twin p') :
    (Pairing.failing Unsupported).Holds Program.Twin (TernaryTarget.legalize profile p)
      (TernaryTarget.legalize profile p') := by
  have hcollapsed := h.mapNodes twin_collapseNode
  have hsplit := hcollapsed.mapFunctions (f := Function.mapBody splitBody) fun _ _ hfn =>
    hfn.mapBody fun _ _ hss =>
      Stmt.Twin.expandList (fun s s' hs => .cons (twin_splitStmt s s' hs) .nil) hss
  unfold TernaryTarget.legalize
  dsimp only
  rw [← hsplit.anyNode writesTernary_twin]
  -- It fails if the target cannot do without it and a choice is written to in a value.
  refine (Pairing.failing _).branch ((Pairing.failing _).branch ?_ ?_) ?_
  · exact .error _
  · exact .ok hsplit
  · exact .ok hcollapsed

end TernaryTarget

end Legalize

end ShaderGen
