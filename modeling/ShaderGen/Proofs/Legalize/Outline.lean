import ShaderGen.Proofs.Legalize.Kept
import ShaderGen.Proofs.Legalize.Reworked
import ShaderGen.Proofs.Mirror

/-!
# Outlines of programs

An outline asks something of each statement of a body, of each global, and of the names of functions
and their parameters. Most rules only replace expressions, put declarations of temporaries in front
of bodies, and move initial values of globals into functions; what they make of a program can be
told from what they do to expressions (`Replaces`). Such a rule turns one outline into another if
statements and globals with related expressions do so (`Outline.Turns`).

## Key results

- `Replaces.mapNodesM`, `Replaces.minAbs`, `Replaces.fract`: rules that replace expressions
- `shows_late`: what the rules after the one for conditions of loops keep
- `foldlM_yields_at`: what holds in the end because a certain rule has run
-/

namespace ShaderGen

open List (Forall₂)
open Stmt (Mirrors)

/-- What is asked of each statement of a body, of each global, and of functions by their names and
    parameters. -/
structure Outline where
  stmts : Stmt → Prop
  globals : Decl → Prop
  header : String → List Param → Prop := fun _ _ => True

/-- A function and all its statements are as asked. -/
def Function.Shows (o : Outline) (fn : Function) : Prop :=
  o.header fn.name fn.params ∧ ∀ s ∈ fn.body, o.stmts s

/-- An element is as asked. -/
def Element.Shows (o : Outline) : Element → Prop
  | .global d => o.globals d
  | .function fn => fn.Shows o
  | .layout _ => True

/-- All elements of a program are as asked. -/
def Program.Shows (o : Outline) (p : Program) : Prop := ∀ el ∈ p.elements, el.Shows o

namespace Outline

/-- The outline that asks something of each expression. -/
def ofExprs (Q : Expr → Prop) : Outline where
  stmts := Stmt.All Q
  globals d := ∀ e ∈ d.init, Q e

/-- A demand on expressions is one on the program. -/
theorem shows_ofExprs {Q : Expr → Prop} {p : Program} : p.Shows (ofExprs Q) ↔ p.All Q := by
  refine forall₂_congr fun el _ => ?_
  cases el with
  | function fn => exact and_iff_right trivial
  | _ => exact Iff.rfl

/-- The outline that also asks that no initial value of a global has a node of a certain kind. -/
def sparing (o : Outline) (kind : Expr → Bool) : Outline :=
  { o with globals d := o.globals d ∧ ∀ e ∈ d.init, e.any kind = false }

/-- Where expressions are replaced by related ones, what is as asked by one outline becomes what is
    as asked by another, and temporaries may be declared. -/
structure Turns (R : Expr → Expr → Prop) (o o' : Outline) : Prop where
  stmts {s s' : Stmt} (h : s.Mirrors R s') : o.stmts s → o'.stmts s'
  globals {d d' : Decl} (h : d.Mirrors R d') : o.globals d → o'.globals d'
  header {name : String} {params : List Param} : o.header name params → o'.header name params
  temp {d : Decl} (h : d.init = none) : o'.stmts (.decl d)

/-- The initial value of a global may move into a function with a generated name. -/
structure Hoists (o : Outline) : Prop where
  header (stem : Stem) (n : Nat) : o.header (stem.nth n) []
  value {d : Decl} {value : Expr} (h : d.init = some value) :
    o.globals d → o.stmts (.returnWith (some value))
  call {d : Decl} (name : String) (h : d.storage = .auto) :
    o.globals d → o.globals { d with init := some (.ofUserCall name [] d.ty) }

section

variable {R : Expr → Expr → Prop} {Q Q' : Expr → Prop}

/-- Expressions with a property become expressions with another one. -/
theorem turns_ofExprs (h : ∀ {e e'}, R e e' → Q e → Q' e') : Turns R (ofExprs Q) (ofExprs Q') where
  stmts hs hQ := hs.all (fun _ _ hR => h hR) hQ
  globals {d d'} hd hQ e' he' := by
    have hinit := hd.init
    rw [Option.mem_def.mp he'] at hinit
    -- There was an initial value before if there is one now.
    cases hd' : d.init with
    | none => exact absurd (hd' ▸ hinit) nofun
    | some e =>
      obtain ⟨he⟩ := hd' ▸ hinit
      exact h he (hQ e hd')
  header := id
  temp hd := Stmt.all_decl.mpr (by simp [hd])

/-- A moved initial value leaves a call behind. -/
theorem hoists_ofExprs (h : ∀ name ty, Q (.ofUserCall name [] ty)) : Hoists (ofExprs Q) where
  header _ _ := trivial
  value hd hQ := Stmt.all_returnWith.mpr fun _ he => Option.mem_some.mp he ▸ hQ _ hd
  call name _ _ _ he := Option.mem_some.mp he ▸ h name _

end

end Outline

namespace Legalize

open Outline

/-- All that some work does to a program is to replace expressions by related ones, to declare
    temporaries and to move initial values into functions. -/
def Replaces (R : Expr → Expr → Prop) (f : Program → GenM Program) : Prop :=
  ∀ ⦃o o' : Outline⦄ ⦃p : Program⦄, Turns R o o' → Hoists o → p.Shows o →
    Yields (Program.Shows o') (f p)

namespace Replaces

variable {R : Expr → Expr → Prop} {o o' : Outline} {p : Program}

/-! ### Walks -/

section

variable {m : Type → Type} [Monad m] [LawfulMonad m] {f : Expr → m Expr}

/-- A list mirrors what a rewrite makes of it. -/
theorem mirrors_mapExprsListM (V : Verdict m) (hf : ∀ e, V.Holds (R e) (f e)) (body : List Stmt) :
    V.Holds (Forall₂ (Mirrors R) body) (Stmt.mapExprsListM f body) :=
  Stmt.mapExprsListM_mirrors V (Q := fun _ => True) (fun e _ => hf e) fun s _ =>
    Stmt.all_iff_fits.mpr (s.fits_of_forall (fun _ => trivial) fun _ => trivial)

/-- A body over related expressions. -/
theorem shows_body {body body' : List Stmt} (ho : Turns R o o')
    (h : Forall₂ (Mirrors R) body body') (hbody : ∀ s ∈ body, o.stmts s) :
    ∀ s ∈ body', o'.stmts s := by
  intro s' hs'
  obtain ⟨s, hs, hmirror⟩ := Stmt.exists_of_forall₂ h s' hs'
  exact ho.stmts hmirror (hbody s hs)

/-- A program whose expressions are replaced. -/
theorem shows_mapExprsM (ho : Turns R o o') (hf : ∀ e, Yields (R e) (f e)) (hp : p.Shows o) :
    Yields (Program.Shows o') (p.mapExprsM f) := by
  refine (Yields.mapM_forall fun el hel => ?_).bind fun els hels => .pure hels
  have h := hp el hel
  cases el with
  -- Elements are told apart by what holds their expressions.
  | global d =>
    have hinit : Yields (Option.Rel R d.init) (d.init.mapM f) :=
      Stmt.mapM_option_rel Judgement.yields.verdict fun e _ => hf e
    have hd : Yields (fun d' : Decl => d.Mirrors R d') (d.mapInitM f) :=
      hinit.bind fun init hinit => .pure ⟨rfl, rfl, hinit⟩
    exact hd.bind fun d' hd' => .pure (ho.globals hd' h)
  | function fn =>
    have hbody : Yields (Forall₂ (Mirrors R) fn.body) (Stmt.mapExprsListM f fn.body) :=
      mirrors_mapExprsListM Judgement.yields.verdict hf fn.body
    have hfn : Yields (Function.Shows o') (fn.mapExprsM f) :=
      hbody.bind fun body hmirror => .pure ⟨ho.header h.1, shows_body ho hmirror h.2⟩
    exact hfn.bind fun fn' hfn' => .pure hfn'
  | layout l => exact .pure trivial

/-- A program whose functions are replaced. -/
theorem shows_mapFunctionsM {f : Function → m Function} (hglobals : ∀ d, o.globals d → o'.globals d)
    (hf : ∀ fn, fn.Shows o → Yields (Function.Shows o') (f fn)) (hp : p.Shows o) :
    Yields (Program.Shows o') (p.mapFunctionsM f) := by
  refine (Yields.mapM_forall fun el hel => ?_).bind fun els hels => .pure hels
  have h := hp el hel
  cases el with
  | global d => exact .pure (hglobals d h)
  | function fn => exact (hf fn h).bind fun fn' hfn' => .pure hfn'
  | layout l => exact .pure trivial

end

/-- A map of functions meets the demand if each function does. -/
theorem shows_mapFunctions {f : Function → Function} (hglobals : ∀ d, o.globals d → o'.globals d)
    (hf : ∀ fn, fn.Shows o → (f fn).Shows o') (hp : p.Shows o) : (p.mapFunctions f).Shows o' := by
  intro el hel
  obtain ⟨el, hmem, rfl⟩ := List.mem_map.mp hel
  have h := hp el hmem
  cases el with
  | global d => exact hglobals d h
  | function fn => exact hf fn h
  | layout l => trivial

/-- Initial values that need a function move into one; no other is left. -/
theorem shows_hoist (ho : Hoists o) (stem : Stem) {needsFunction : Expr → Bool}
    (hcall : ∀ name ty, (Expr.ofUserCall name [] ty).any needsFunction = false) (hp : p.Shows o) :
    Yields (Program.Shows (o.sparing needsFunction)) (HoistInit.hoist stem needsFunction p) := by
  have helement : ∀ el ∈ p.elements, Yields (fun els => ∀ el ∈ els,
      Element.Shows (o.sparing needsFunction) el)
        (HoistInit.hoistElement stem needsFunction el) := by
    intro el hel
    have h := hp el hel
    obtain ⟨heq, hnone⟩ | ⟨d, value, rfl, hvalue, -, ⟨hauto, heq⟩ | ⟨-, heq⟩⟩ :=
      HoistInit.hoistElement_cases stem needsFunction el <;> rw [heq]
    · -- The element stays as it is.
      refine .pure (List.forall_mem_singleton.mpr ?_)
      cases el with
      | global d => exact ⟨h, hnone d rfl⟩
      | function fn => exact h
      | layout l => trivial
    · -- The value moves to a new function, and a call of it stays behind.
      refine (yields_freshName stem).lift.bind ?_
      rintro _ ⟨n, rfl⟩
      refine .pure (List.forall_mem_cons.mpr
        ⟨⟨ho.header stem n, List.forall_mem_singleton.mpr (ho.value hvalue h)⟩, ?_⟩)
      refine List.forall_mem_singleton.mpr ⟨ho.call _ hauto h, fun e he => ?_⟩
      exact Option.mem_some.mp he ▸ hcall _ d.ty
    · exact .fail _
  refine (Yields.mapM_forall helement).bind fun elements helements => .pure fun el hel => ?_
  obtain ⟨els, hels, hel⟩ := List.mem_flatten.mp hel
  exact helements els hels el hel

/-- A function whose nodes are replaced, with temporaries declared at the start of its body. -/
theorem shows_withTemporaries (ho : Turns R o o') {f : Expr → TempM Expr}
    (hf : ∀ e, unvalued.Holds (R e) (e.bottomUpM f)) {fn : Function} (hfn : fn.Shows o) :
    Yields (Function.Shows o') (withTemporaries f fn) := by
  have hbody : unvalued.Holds (Function.Shows o') (fn.mapExprsM (Expr.bottomUpM f)) :=
    unvalued.bind (mirrors_mapExprsListM unvalued.verdict hf fn.body) fun body hmirror =>
      unvalued.pure ⟨ho.header hfn.1, shows_body ho hmirror hfn.2⟩
  refine (hbody [] (by simp)).bind fun r hr =>
    .pure ⟨hr.1.1, List.forall_mem_append.mpr ⟨?_, hr.1.2⟩⟩
  -- The declarations of the temporaries come first, and have no initial values.
  intro s hs
  obtain ⟨d, hd, rfl⟩ := List.mem_map.mp hs
  exact ho.temp (hr.2 d hd)

/-! ### Rules -/

/-- A walk over nodes that can fail on what is malformed. -/
theorem mapNodesM {f : Expr → Except Malformation Expr}
    (hf : ∀ e, Yields (R e) (e.bottomUpM f)) :
    Replaces R fun p => liftMalformed (p.mapNodesM f) :=
  fun _ _ _ ho _ hp => (shows_mapExprsM ho hf hp).liftMalformed

/-- A walk over nodes that changes the scratch state. -/
theorem mapNodesM_scratch {f : Expr → ScratchM Expr} (hf : ∀ e, Yields (R e) (e.bottomUpM f)) :
    Replaces R fun p => liftM (p.mapNodesM f) :=
  fun _ _ _ ho _ hp => (shows_mapExprsM ho hf hp).lift

/-- A walk over nodes without effects. -/
theorem shows_mapNodes (ho : Turns R o o') {f : Expr → Expr} (hf : ∀ e, R e (e.bottomUp f))
    (hp : p.Shows o) : (p.mapNodes f).Shows o' := by
  have hpure : ∀ e, Yields (R e) (Expr.bottomUpM (fun e => (pure (f e) : Id Expr)) e) :=
    fun e => .pure (hf e)
  exact (shows_mapExprsM ho hpure hp).of_id

/-- A map of nodes replaces expressions by what they are related to. -/
theorem mapNodes {f : Expr → Expr} (hf : ∀ e, R e (e.bottomUp f)) :
    Replaces R fun p => pure (p.mapNodes f) :=
  fun _ _ _ ho _ hp => .pure (shows_mapNodes ho hf hp)

/-- So does the rule for minima, which leaves a tree without one as it is. -/
theorem minAbs (hf : ∀ e, unvalued.Holds (R e) (e.bottomUpM MinAbs.splitNode))
    (hrefl : ∀ e, e.any MinAbs.isMinAbs = false → R e e) : Replaces R MinAbs.legalize := by
  intro o o' p ho hhoists hp
  refine (shows_hoist hhoists _ (fun _ _ => rfl) hp).bind fun p hp => ?_
  refine shows_mapFunctionsM
    (o := o.sparing MinAbs.isMinAbs)
    (fun d hd => ?_) (fun fn hfn => (shows_withTemporaries ho hf hfn).lift) hp
  have hinit : Option.Rel R d.init d.init := Option.rel_refl fun e he => hrefl e (hd.2 e he)
  exact ho.globals ⟨rfl, rfl, hinit⟩ hd.1

/-- So does the rule for fractions, with temporaries in functions and without in globals. -/
theorem fract (hf : ∀ e, unvalued.Holds (R e) (e.bottomUpM Fract.guardNode))
    (hpure : ∀ e, R e (e.bottomUp Fract.guardPure)) : Replaces R Fract.legalize := by
  intro o o' p ho hhoists hp
  refine (shows_hoist hhoists _ (fun _ _ => rfl) hp).bind fun p hp => ?_
  refine (Yields.mapM_forall fun el hel => ?_).lift.bind fun els hels => .pure hels
  -- The initializers are rewritten in place, the functions with temporaries.
  have h := hp el hel
  cases el with
  | global d =>
    have hinit : Yields (Option.Rel R d.init)
        (d.init.mapM fun e => (pure (e.bottomUp Fract.guardPure) : Id Expr)) :=
      Stmt.mapM_option_rel Judgement.yields.verdict fun e _ => .pure (hpure e)
    have hd : Yields (fun d' : Decl => d.Mirrors R d')
        (d.mapInitM fun e => (pure (e.bottomUp Fract.guardPure) : Id Expr)) :=
      hinit.bind fun init hinit => .pure ⟨rfl, rfl, hinit⟩
    exact .pure (ho.globals hd.of_id h.1)
  | function fn => exact (shows_withTemporaries ho hf h).bind fun fn' hfn' => .pure hfn'
  | layout l => exact .pure trivial

/-- What such work does to expressions is what it does to all of them. -/
theorem all {f : Program → GenM Program} (hf : Replaces R f) {Q Q' : Expr → Prop}
    (hR : ∀ {e e'}, R e e' → Q e → Q' e') (hcall : ∀ name ty, Q (.ofUserCall name [] ty))
    (hp : p.All Q) : Yields (Program.All Q') (f p) :=
  (hf (turns_ofExprs hR) (hoists_ofExprs hcall) (shows_ofExprs.mpr hp)).mono fun _ =>
    shows_ofExprs.mp

end Replaces

/-! ### The pipeline -/

variable {R : Expr → Expr → Prop} {o : Outline} {t : Target} {p : Program}

/-- A property of the result does not depend on what is declared. -/
theorem unvalued_of_declaring {Q : Expr → Prop} {x : TempM Expr}
    (h : (declaring fun _ => True).Holds Q x) : unvalued.Holds Q x := by
  intro temps htemps
  refine (h temps fun d hd => ⟨htemps d hd, trivial⟩).mono fun r hr => ⟨hr.1, fun d hd => ?_⟩
  exact (hr.2 d hd).1

/-- The rules after the one for conditions of loops replace expressions, by what any relation that
    allows it relates them to. -/
theorem Refits.replaces (hR : Refits true Expr.isRefitted R) {r : Rule}
    (hr : r ∈ rulesAfter "loop_condition_and_true") :
    Replaces R (r.run t) := by
  have hsplit : ∀ e, unvalued.Holds (R e) (e.bottomUpM MinAbs.splitNode) := fun e =>
    unvalued_of_declaring (hR.bottomUpM_holds _ (hR.split (fun _ _ => rfl) fun _ _ => trivial) e)
  have hguard : ∀ e, unvalued.Holds (R e) (e.bottomUpM Fract.guardNode) := fun e =>
    unvalued_of_declaring (hR.bottomUpM_holds _ (hR.guard fun _ _ => trivial) e)
  simp only [rulesAfter, pipeline, List.dropWhile, Rule.name_always, Rule.name_workaround,
    String.reduceBNe, List.tail_cons, List.mem_cons, List.not_mem_nil, or_false] at hr
  -- One case for each of these rules, in the order of the pipeline.
  obtain rfl | rfl | rfl | rfl | rfl | rfl := hr
  · exact .mapNodesM (hR.bottomUpM_holds .yields hR.expand)
  · exact .mapNodesM_scratch (hR.bottomUpM_holds .yields hR.emulate)
  · exact .minAbs hsplit fun e _ => hR.refl e
  · exact .fract hguard (hR.bottomUp hR.guardPure)
  · exact .mapNodes (hR.bottomUp hR.multiply)
  · exact .mapNodesM (hR.bottomUpM_holds .yields (hR.normalize fun _ _ _ => rfl))

/-- What holds before and after a rule if what it does keeps it. -/
theorem yields_step {P : Program → Prop} {r : Rule} (hp : P p) (h : Yields P (r.run t p)) :
    Yields P (r.step t p) :=
  yields_step_cases (fun _ => h) fun _ => hp

/-- So these rules keep an outline that related expressions keep. -/
theorem shows_late (hR : Refits true Expr.isRefitted R) (ho : Turns R o o) (hhoists : Hoists o)
    {r : Rule} (hr : r ∈ rulesAfter "loop_condition_and_true") (hp : p.Shows o) :
    Yields (Program.Shows o) (r.step t p) :=
  yields_step hp (hR.replaces hr ho hhoists hp)

/-- What each rule keeps, several of them keep. -/
theorem foldlM_yields {P : Program → Prop} {rs : List Rule}
    (hrs : ∀ r ∈ rs, ∀ p, P p → Yields P (r.step t p)) (hp : P p) :
    Yields P (rs.foldlM (Rule.step t) p) := by
  induction rs generalizing p with
  | nil => exact .pure hp
  | cons r rs ih =>
    rw [List.foldlM_cons]
    exact (hrs r List.mem_cons_self p hp).bind fun p hp =>
      ih (fun r' hr' => hrs r' (List.mem_cons_of_mem _ hr')) hp

/-- A property that rules establish or keep before a certain one, and another one that this rule
    makes out of it and that the rules after it keep. -/
theorem foldlM_yields_at {P Q : Program → Prop} {rs before after : List Rule} {own : Rule}
    (hrs : rs = before ++ own :: after) (hbefore : Yields P (before.foldlM (Rule.step t) p))
    (hstep : ∀ p, P p → Yields Q (own.step t p))
    (hafter : ∀ r ∈ after, ∀ p, Q p → Yields Q (r.step t p)) :
    Yields Q (rs.foldlM (Rule.step t) p) := by
  rw [hrs, List.foldlM_append]
  refine hbefore.bind fun p hp => ?_
  rw [List.foldlM_cons]
  exact (hstep p hp).bind fun p hp => foldlM_yields hafter hp

end Legalize

end ShaderGen
