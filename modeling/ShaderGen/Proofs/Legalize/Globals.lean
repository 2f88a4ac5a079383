import ShaderGen.Proofs.Legalize.Lenient

/-!
# Globals that rules keep

A rule may take layouts away and bring in functions, but every global of a program is there
afterwards, under its name and storage class. Its initial value is replaced by a related one if the
relation allows what the rule does (`Rewrites`).

## Main definitions

- `KeepsGlobals`: the globals of a program are there in another one
- `HasQualified`: some global with a storage class has an initial value as asked

## Key results

- `keeps_early`: the rules up to the one for constant exponents keep all globals
-/

namespace ShaderGen

open List (Forall₂)

/-- Mirrors of mirrors are mirrors, if the relation is transitive. -/
theorem Decl.Mirrors.trans {R : Expr → Expr → Prop} {d d' d'' : Decl}
    (h : d.Mirrors R d') (h' : d'.Mirrors R d'') (hR : ∀ {a b c}, R a b → R b c → R a c) :
    d.Mirrors R d'' := by
  have hinit : ∀ {o o' o'' : Option Expr}, Option.Rel R o o' → Option.Rel R o' o'' →
      Option.Rel R o o'' := by
    rintro _ _ _ (he | _) (he' | _)
    · exact .some (hR he he')
    · exact .none
  exact ⟨h.storage.trans h'.storage, h.name.trans h'.name, hinit h.init h'.init⟩

namespace Legalize

open ShaderGen.Expr

variable {t : Target} {p : Program}

/-- The globals of a program are there in another one, over related initial values. -/
def KeepsGlobals (R : Expr → Expr → Prop) (p p' : Program) : Prop :=
  ∀ d, .global d ∈ p.elements → ∃ d', .global d' ∈ p'.elements ∧ d.Mirrors R d'

section

variable {R : Expr → Expr → Prop} {p' : Program}

/-- What has the same globals keeps them. -/
theorem keepsGlobals_of_mem (hrefl : ∀ e, R e e)
    (h : ∀ d, .global d ∈ p.elements → .global d ∈ p'.elements) : KeepsGlobals R p p' :=
  fun d hd => ⟨d, h d hd, rfl, rfl, Option.rel_refl fun e _ => hrefl e⟩

/-- Globals that are kept twice are kept. -/
theorem KeepsGlobals.trans (hR : IsCongruence R) {p'' : Program} (h : KeepsGlobals R p p')
    (h' : KeepsGlobals R p' p'') : KeepsGlobals R p p'' := by
  intro d hd
  obtain ⟨d', hd', hmirror⟩ := h d hd
  obtain ⟨d'', hd'', hmirror'⟩ := h' d' hd'
  exact ⟨d'', hd'', hmirror.trans hmirror' hR.trans⟩

/-- An element in the place of another one: what is a global is one over a related initial value. -/
def Element.Succeeds (R : Expr → Expr → Prop) (el el' : Element) : Prop :=
  ∀ d, el = .global d → ∃ d', el' = .global d' ∧ d.Mirrors R d'

/-- Elements that succeed one another keep the globals. -/
theorem keepsGlobals_of_forall₂
    (h : Forall₂ (Element.Succeeds R) p.elements p'.elements) : KeepsGlobals R p p' := by
  intro d hd
  obtain ⟨el, hel, hsucceeds⟩ := Stmt.exists_of_forall₂ h.flip (.global d) hd
  obtain ⟨d', rfl, hmirror⟩ := hsucceeds d rfl
  exact ⟨d', hel, hmirror⟩

section

variable {m : Type → Type} [Monad m] [LawfulMonad m]

/-- A rewrite of expressions keeps each global under its name. -/
theorem keeps_mapExprsM {f : Expr → m Expr} (hf : ∀ e, Yields (R e) (f e)) :
    Yields (KeepsGlobals R p) (p.mapExprsM f) := by
  have helement : ∀ el ∈ p.elements, Yields (Element.Succeeds R el) (el.mapExprsM f) := by
    -- An element that is no global passes, whatever becomes of it.
    intro el _
    cases el with
    | global d =>
      have hinit : Yields (Option.Rel R d.init) (d.init.mapM f) :=
        Stmt.mapM_option_rel Judgement.yields.verdict fun e _ => hf e
      have hd : Yields (fun d' : Decl => d.Mirrors R d') (d.mapInitM f) :=
        hinit.bind fun init hinit => .pure ⟨rfl, rfl, hinit⟩
      refine hd.bind fun d' hmirror => .pure ?_
      rintro _ ⟨rfl⟩
      exact ⟨d', rfl, hmirror⟩
    | function fn => exact .after fun _ => .pure nofun
    | layout l => exact .pure nofun
  have helements : Yields (Forall₂ (Element.Succeeds R) p.elements)
      (p.elements.mapM (Element.mapExprsM f)) := Judgement.yields.mapM helement
  exact helements.bind fun els hels => .pure (keepsGlobals_of_forall₂ hels)

/-- A rewrite of functions keeps the globals as they are. -/
theorem keeps_mapFunctionsM (hrefl : ∀ e, R e e) (f : Function → m Function) :
    Yields (KeepsGlobals R p) (p.mapFunctionsM f) := by
  have helement : ∀ el ∈ p.elements, Yields (Element.Succeeds R el) (el.mapFunctionM f) := by
    intro el _
    cases el with
    -- The globals are left by a rewrite of the functions.
    | global d =>
      refine .pure ?_
      rintro _ ⟨rfl⟩
      exact ⟨d, rfl, rfl, rfl, Option.rel_refl fun e _ => hrefl e⟩
    | function fn => exact .after fun _ => .pure nofun
    | layout l => exact .pure nofun
  have helements : Yields (Forall₂ (Element.Succeeds R) p.elements)
      (p.elements.mapM (Element.mapFunctionM f)) := Judgement.yields.mapM helement
  exact helements.bind fun els hels => .pure (keepsGlobals_of_forall₂ hels)

end

/-- A map of nodes keeps each global under its name. -/
theorem keeps_mapNodes {f : Expr → Expr} (hf : ∀ e, R e (e.bottomUp f)) :
    KeepsGlobals R p (p.mapNodes f) := by
  have hpure : ∀ e, Yields (R e) (Expr.bottomUpM (fun e => (pure (f e) : Id Expr)) e) :=
    fun e => .pure (hf e)
  exact (keeps_mapExprsM hpure).of_id

/-- A map of functions keeps the globals as they are. -/
theorem keeps_mapFunctions (hrefl : ∀ e, R e e) (f : Function → Function) :
    KeepsGlobals R p (p.mapFunctions f) :=
  keepsGlobals_of_mem hrefl fun _ hd => List.mem_map_of_mem hd

/-- So does a change of the entry point. -/
theorem keeps_mapEntry (hrefl : ∀ e, R e e) (f : Function → Function) :
    KeepsGlobals R p (p.mapEntry f) := by
  have helements : ∀ (d : Decl) (els : List Element), Element.global d ∈ els →
      Element.global d ∈ Element.mapFirstEntry f els := by
    intro d els hd
    induction els with
    | nil => exact hd
    | cons el els ih =>
      cases el with
      | function fn =>
        rw [Element.mapFirstEntry]
        -- A function is no global, so the global stands further on.
        have hrest := (List.mem_cons.mp hd).resolve_left (by rintro ⟨⟩)
        split
        · exact List.mem_cons_of_mem _ hrest
        · exact List.mem_cons_of_mem _ (ih hrest)
      | global d' =>
        exact (List.mem_cons.mp hd).elim (fun h => h ▸ List.mem_cons_self) fun hrest =>
          List.mem_cons_of_mem _ (ih hrest)
      | layout l =>
        exact List.mem_cons_of_mem _ (ih ((List.mem_cons.mp hd).resolve_left (by rintro ⟨⟩)))
  exact keepsGlobals_of_mem hrefl fun d hd => helements d p.elements hd

variable (hR : Rewrites R)

include hR

/-- The rule about the fragment coordinate keeps the globals. -/
theorem keeps_fragCoord : Yields (KeepsGlobals R p) (FragCoord.legalize t p) := by
  have hnodes : ∀ {q : Program} {f : Expr → Expr}, (∀ e, R e (f e)) → KeepsGlobals R p q →
      KeepsGlobals R p (q.mapNodes f) :=
    fun hf hq => hq.trans hR.toIsCongruence (keeps_mapNodes (hR.bottomUp hf))
  have hfunctions : ∀ {q : Program} (f : Function → Function), KeepsGlobals R p q →
      KeepsGlobals R p (q.mapFunctions f) :=
    fun f hq => hq.trans hR.toIsCongruence (keeps_mapFunctions hR.refl f)
  refine FragCoord.yields_legalize (P := KeepsGlobals R p) (Q := KeepsGlobals R p)
    (keeps_mapNodes (hR.bottomUp hR.substitute)) (fun q hq _ => ?_) fun q hq => ?_
  · -- The policy only rewrites nodes and functions, and so does the flip.
    exact FragCoord.yields_applyPolicy hq (hfunctions _ hq) (hfunctions _ hq)
      (hnodes hR.forward hq) _ _
  · split
    · exact FlipY.legalize_holds hq (hnodes hR.negateDerivative hq)
        (hq.trans hR.toIsCongruence (keeps_mapEntry hR.refl _)) (hfunctions _ hq)
    · exact hq

/-- So does the loop over the invocations. -/
theorem keeps_invocations : Yields (KeepsGlobals R p) (Invocations.legalize p) := by
  refine Invocations.yields_legalize (keeps_mapEntry hR.refl _) (fun q hq => ?_)
    (fun q hq => hq.trans hR.toIsCongruence (keeps_mapNodes (hR.bottomUp hR.readCounter)))
    fun q hq => ?_
  · exact hq.trans hR.toIsCongruence
      (keepsGlobals_of_mem hR.refl fun d hd => List.mem_filterMap.mpr ⟨_, hd, rfl⟩)
  · exact hq.trans hR.toIsCongruence
      (keepsGlobals_of_mem hR.refl fun d hd => List.mem_append_left _ hd)

/-- The rules up to the one for constant exponents keep all globals. -/
theorem keeps_early {r : Rule} (hr : r ∈ rulesBefore "int_abs") :
    Yields (KeepsGlobals R p) (r.step t p) := by
  have hsame : KeepsGlobals R p p := keepsGlobals_of_mem hR.refl fun _ => id
  refine yields_step (P := KeepsGlobals R p) hsame ?_
  simp only [rulesBefore, pipeline, List.takeWhile, Rule.name_always, Rule.name_workaround,
    String.reduceBNe, List.mem_cons, List.not_mem_nil, or_false] at hr
  -- One case for each rule before the absolute values, in the order of the pipeline.
  obtain rfl | rfl | rfl | rfl | rfl | rfl | rfl | rfl | rfl | rfl := hr
  · exact header_same.mono fun p' hp' => hp' ▸ hsame
  · have hraised : KeepsGlobals R p ⟨p.stage, p.elements.map HighPrecision.raiseElement⟩ :=
      fun d hd => ⟨HighPrecision.raiseDecl d, List.mem_map_of_mem hd, rfl, rfl,
        Option.rel_refl fun e _ => hR.refl e⟩
    exact .pure (hraised.trans hR.toIsCongruence (keeps_mapNodes (hR.bottomUp hR.raise)))
  · exact keeps_fragCoord hR
  · exact (keeps_mapExprsM (hR.bottomUpM_holds .yields (hR.resolve t.profile))).liftMalformed
  · exact keeps_invocations hR
  · have hcollapsed : KeepsGlobals R p (p.mapNodes TernaryTarget.collapseNode) :=
      keeps_mapNodes (hR.bottomUp hR.collapse)
    refine Yields.liftUnsupported ?_
    exact TernaryTarget.yields_legalize (fun _ => hcollapsed) fun _ =>
      hcollapsed.trans hR.toIsCongruence (keeps_mapFunctions hR.refl _)
  · exact (keeps_mapFunctionsM hR.refl _).lift
  · exact .pure (keeps_mapNodes (hR.bottomUp hR.unfold))
  · exact .pure (keeps_mapFunctions hR.refl _)
  · exact (keeps_mapExprsM (hR.bottomUpM_holds .yields hR.expand)).liftMalformed

end

/-- Some global with a storage class has an initial value as asked. -/
def HasQualified (Q : Expr → Prop) (p : Program) : Prop :=
  ∃ d, .global d ∈ p.elements ∧ d.storage ≠ .auto ∧ ∃ e ∈ d.init, Q e

/-- A demand that goes over from old values to new ones is still met by some global. -/
theorem KeepsGlobals.hasQualified {R : Expr → Expr → Prop} {Q Q' : Expr → Prop} {p p' : Program}
    (h : KeepsGlobals R p p') (hR : ∀ e e', R e e' → Q e → Q' e') (hp : HasQualified Q p) :
    HasQualified Q' p' := by
  obtain ⟨d, hd, hstorage, e, he, hQ⟩ := hp
  -- The declaration is found again, with an initial value just if it had one.
  obtain ⟨d', hd', hmirror⟩ := h d hd
  have hinit := hmirror.init
  rw [Option.mem_def.mp he] at hinit
  cases hinit' : d'.init with
  | none => exact absurd (hinit' ▸ hinit) nofun
  | some e' =>
    obtain ⟨he'⟩ := hinit' ▸ hinit
    exact ⟨d', hd', hmirror.storage ▸ hstorage, e', hinit', hR e e' he' hQ⟩

end Legalize

end ShaderGen
