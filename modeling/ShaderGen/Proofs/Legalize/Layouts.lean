import ShaderGen.Proofs.Legalize.Outline

/-!
# Rules that leave interface layouts alone

The stage of a program never changes, and only the rule for invocations changes its layouts. So
whether a rule is enabled can be told from the program as it is given: the rule for invocations is
the only one whose condition looks at the program, and it looks at the stage and the layouts
(`enabled_eq`).

## Key results

- `keepsInterface_run`: what every other rule leaves as it is
- `SameInterface.invocationCounts`: the invocation counts of a program stand in its layouts
-/

namespace ShaderGen

open List (Forall₂)

/-- The layout that an element is. -/
def Element.layout? : Element → Option Layout
  | .layout l => some l
  | _ => none

/-- Interface layouts of a program, in order. -/
def Program.layouts (p : Program) : List Layout := p.elements.filterMap Element.layout?

/-- A program has the stage and the layouts of another. -/
structure Program.SameInterface (p q : Program) : Prop where
  stage : q.stage = p.stage
  layouts : q.layouts = p.layouts

namespace Program.SameInterface

variable {p q r : Program}

/-- A program has the interface of itself. -/
theorem refl (p : Program) : p.SameInterface p := ⟨rfl, rfl⟩

/-- Having the same interface is transitive. -/
theorem trans (h : p.SameInterface q) (h' : q.SameInterface r) : p.SameInterface r :=
  ⟨h'.stage.trans h.stage, h'.layouts.trans h.layouts⟩

/-- Invocation counts are named by layouts only. -/
theorem invocationCounts_eq (p : Program) :
    p.elements.flatMap Element.invocationCounts = p.layouts.flatMap Layout.invocationCounts := by
  unfold Program.layouts
  induction p.elements with
  | nil => rfl
  | cons el els ih =>
    rw [List.flatMap_cons, ih]
    cases el <;> rfl

/-- Programs of one interface declare the same invocation counts. -/
theorem invocationCounts (h : p.SameInterface q) :
    q.elements.flatMap Element.invocationCounts = p.elements.flatMap Element.invocationCounts := by
  rw [invocationCounts_eq, invocationCounts_eq, h.layouts]

/-- So they declare the same number of invocations. -/
theorem declaredInvocations (h : p.SameInterface q) :
    q.declaredInvocations = p.declaredInvocations :=
  congrArg (fun counts => counts.getLast?.getD 1) h.invocationCounts

/-- Elements that take the places of others are the layouts that those were. -/
theorem of_forall₂ {els : List Element}
    (h : Forall₂ (fun el el' => el'.layout? = el.layout?) p.elements els) :
    p.SameInterface { p with elements := els } := by
  refine ⟨rfl, ?_⟩
  unfold Program.layouts
  dsimp only
  generalize p.elements = els' at h
  induction h with
  | nil => rfl
  | cons h _ ih => simp only [List.filterMap_cons, h, ih]

/-- A map that leaves every layout leaves the interface. -/
theorem of_map {f : Element → Element} (h : ∀ el, (f el).layout? = el.layout?) :
    p.SameInterface { p with elements := p.elements.map f } :=
  of_forall₂ (List.forall₂_map_right_iff.mpr (List.forall₂_same.mpr fun el _ => h el))

end Program.SameInterface

namespace Program

variable {p : Program}

/-! ### Walks -/

section

variable {m : Type → Type} [Monad m] [LawfulMonad m]

/-- Rewriting the expressions of an element leaves its layout. -/
theorem yields_layout_mapExprsM (f : Expr → m Expr) (el : Element) :
    Yields (fun el' => el'.layout? = el.layout?) (el.mapExprsM f) := by
  cases el with
  | global d => exact .after fun _ => .pure rfl
  | function fn => exact .after fun _ => .pure rfl
  | layout l => exact .pure rfl

/-- A rewrite of the nodes that succeeds leaves the interface. -/
theorem sameInterface_mapNodesM (f : Expr → m Expr) :
    Yields p.SameInterface (p.mapNodesM f) :=
  (Judgement.yields.mapM fun el _ => yields_layout_mapExprsM _ el).bind fun _ hels =>
    .pure (.of_forall₂ hels)

/-- A rewrite of the functions that succeeds leaves the interface. -/
theorem sameInterface_mapFunctionsM (f : Function → m Function) :
    Yields p.SameInterface (p.mapFunctionsM f) := by
  have helement : ∀ el ∈ p.elements,
      Yields (fun el' => el'.layout? = el.layout?) (el.mapFunctionM f) := by
    intro el _
    cases el with
    | function fn => exact .after fun _ => .pure rfl
    | _ => exact .pure rfl
  exact (Judgement.yields.mapM helement).bind fun _ hels => .pure (.of_forall₂ hels)

end

/-- A rewrite of the nodes leaves the interface. -/
theorem sameInterface_mapNodes (f : Expr → Expr) : p.SameInterface (p.mapNodes f) :=
  (sameInterface_mapNodesM (m := Id) _).of_id

/-- A rewrite of the functions leaves the interface. -/
theorem sameInterface_mapFunctions (f : Function → Function) :
    p.SameInterface (p.mapFunctions f) :=
  .of_map fun el => by cases el <;> rfl

/-- A rewrite of the entry point leaves the interface. -/
theorem sameInterface_mapEntry (f : Function → Function) : p.SameInterface (p.mapEntry f) := by
  refine ⟨rfl, ?_⟩
  show (Element.mapFirstEntry f p.elements).filterMap _ = p.elements.filterMap _
  induction p.elements with
  | nil => rfl
  | cons el els ih =>
    cases el with
    -- The search for the entry point stops at the first function that is called so.
    | function fn =>
      rw [Element.mapFirstEntry]
      split
      · rfl
      · exact ih
    | global d => exact ih
    | layout l => exact congrArg (l :: ·) ih

end Program

/-! ### Rules -/

namespace Legalize

open Program

variable {t : Target} {p q : Program}

/-- Raising the precision leaves the interface. -/
theorem sameInterface_highPrecision : p.SameInterface (HighPrecision.legalize p) := by
  have hraised : p.SameInterface { p with elements := p.elements.map HighPrecision.raiseElement } :=
    .of_map fun el => by cases el <;> rfl
  exact hraised.trans (sameInterface_mapNodes _)

/-- The flip leaves the interface. -/
theorem sameInterface_flip : p.SameInterface (FlipY.legalize p) :=
  FlipY.legalize_holds (.refl p) (sameInterface_mapNodes _) (sameInterface_mapEntry _)
    (sameInterface_mapFunctions _)

/-- The reconstruction of the coordinate leaves the interface. -/
theorem sameInterface_fragCoord : Yields p.SameInterface (FragCoord.legalize t p) := by
  refine FragCoord.yields_legalize (P := p.SameInterface) (Q := p.SameInterface)
    (sameInterface_mapNodes _) (fun q hq _ => ?_) fun q hq => ?_
  · exact FragCoord.yields_applyPolicy hq (hq.trans (sameInterface_mapFunctions _))
      (hq.trans (sameInterface_mapFunctions _)) (hq.trans (sameInterface_mapNodes _)) _ _
  · split
    · exact hq.trans sameInterface_flip
    · exact hq

/-- Splitting chosen targets leaves the interface. -/
theorem sameInterface_ternaryTarget :
    Yields p.SameInterface (TernaryTarget.legalize t.profile p) := by
  have hcollapsed : p.SameInterface (p.mapNodes TernaryTarget.collapseNode) :=
    sameInterface_mapNodes _
  exact TernaryTarget.yields_legalize (fun _ => hcollapsed) fun _ =>
    hcollapsed.trans (sameInterface_mapFunctions _)

/-- A global may be followed by a function. -/
theorem sameInterface_hoist (stem : Stem) (needsFunction : Expr → Bool) :
    Yields p.SameInterface (HoistInit.hoist stem needsFunction p) := by
  have helement : ∀ el ∈ p.elements,
      Yields (fun els => els.filterMap Element.layout? = el.layout?.toList)
        (HoistInit.hoistElement stem needsFunction el) := by
    intro el _
    have hself : [el].filterMap Element.layout? = el.layout?.toList := by
      cases el <;> rfl
    -- An element is kept, hoisted into an assignment, or refused.
    obtain ⟨heq, -⟩ | ⟨d, value, rfl, -, -, ⟨-, heq⟩ | ⟨-, heq⟩⟩ :=
      HoistInit.hoistElement_cases stem needsFunction el <;> rw [heq]
    · exact .pure hself
    · exact .after fun _ => .pure rfl
    · exact .fail _
  refine (Judgement.yields.mapM helement).bind fun elss h => .pure ⟨rfl, ?_⟩
  unfold layouts
  dsimp only
  clear helement
  generalize p.elements = els at h
  induction h with
  | nil => rfl
  | cons h _ ih =>
    rw [List.flatten_cons, List.filterMap_append, h, ih, List.filterMap_eq_flatMap_toList,
      List.filterMap_eq_flatMap_toList, List.flatMap_cons]

/-- Taking `min` and `abs` apart leaves the interface. -/
theorem sameInterface_minAbs : Yields p.SameInterface (MinAbs.legalize p) :=
  (sameInterface_hoist _ _).bind fun _ hq =>
    (sameInterface_mapFunctionsM _).mono fun _ hr => hq.trans hr

/-- Guarding the fractions leaves the interface. -/
theorem sameInterface_fract : Yields p.SameInterface (Fract.legalize p) := by
  refine (sameInterface_hoist _ _).bind fun q hq => ?_
  have helement : ∀ el ∈ q.elements,
      Yields (fun el' => el'.layout? = el.layout?) (Fract.guardElement el) := by
    -- Only functions are guarded.
    intro el _
    cases el with
    | function fn => exact .after fun _ => .pure rfl
    | _ => exact .pure rfl
  exact (Judgement.yields.mapM helement).lift.bind fun _ hels =>
    .pure (hq.trans (.of_forall₂ hels))

/-- No rule but the one for invocations changes layouts. -/
theorem keepsInterface_run {r : Rule} (hr : r ∈ pipeline) (hname : r.name ≠ "gs_invocations") :
    Yields p.SameInterface (r.run t p) := by
  -- The pipeline in its order; the invocation rule is the one excluded by name.
  simp only [pipeline, List.mem_cons, List.not_mem_nil, or_false] at hr
  obtain rfl | rfl | rfl | rfl | rfl | rfl | rfl | rfl | rfl | rfl | rfl | rfl | rfl | rfl | rfl :=
    hr
  · exact header_same.mono fun q hq => hq ▸ .refl p
  · exact .pure sameInterface_highPrecision
  · exact sameInterface_fragCoord
  · exact (sameInterface_mapNodesM _).liftMalformed
  · exact absurd rfl hname
  · exact sameInterface_ternaryTarget.liftUnsupported
  · exact (sameInterface_mapFunctionsM _).lift
  · exact .pure (sameInterface_mapNodes _)
  · exact .pure (sameInterface_mapFunctions _)
  · exact (sameInterface_mapNodesM _).liftMalformed
  · exact (sameInterface_mapNodesM _).lift
  · exact sameInterface_minAbs
  · exact sameInterface_fract
  · exact .pure (sameInterface_mapNodes _)
  · exact (sameInterface_mapNodesM _).liftMalformed

/-- A step of the pipeline leaves the interface, unless it is the one that loops invocations. -/
theorem keepsInterface_step {r : Rule} (hr : r ∈ pipeline) (hname : r.name ≠ "gs_invocations")
    (hq : p.SameInterface q) : Yields p.SameInterface (r.step t q) :=
  yields_step hq ((keepsInterface_run hr hname).mono fun _ h => hq.trans h)

/-- Only the rule for invocations is enabled by anything of a program: by its stage and its
    layouts. -/
theorem enabled_eq {r : Rule} (hr : r ∈ pipeline)
    (h : r.name = "gs_invocations" → p.SameInterface q) : r.enabled t q = r.enabled t p := by
  simp only [pipeline, List.mem_cons, List.not_mem_nil, or_false] at hr
  obtain rfl | rfl | rfl | rfl | rfl | rfl | rfl | rfl | rfl | rfl | rfl | rfl | rfl | rfl | rfl :=
    hr
  -- One gate looks at the program, and at nothing but its stage and its count.
  case inr.inr.inr.inr.inl =>
    show Invocations.enabled t q = Invocations.enabled t p
    unfold Invocations.enabled
    rw [(h rfl).stage, (h rfl).declaredInvocations]
  all_goals rfl

end Legalize

end ShaderGen
