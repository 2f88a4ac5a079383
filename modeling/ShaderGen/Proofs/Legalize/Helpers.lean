import ShaderGen.Proofs.Legalize.Operations

/-!
# What stands in front of a program

Rules ask for globals and helper functions by way of the scratch state, and these are written before
the elements of the program (`Scratch.withHelpers`). Only one rule asks for helpers, so what holds
of its helpers holds of all of them; and no rule gives a global a value.

## Key results

- `legalize_adds_helpers`: whatever helper function there is in the end was there at the start, or
  is one of the rule for absolute values of integers
- `legalize_adds_globals`: whatever global there is in the end was there at the start, or is one of
  a few variables, without an initial value
-/

namespace ShaderGen

/-- The program with the helper functions that rules asked for, in the order in which both are
    written. -/
def Scratch.withHelpers (s : Scratch) (p : Program) : Program :=
  { p with elements := s.helpers.map (fun h => .function h.2) ++ p.elements }

/-! ### What operations on the scratch state leave as it is -/

namespace Scratch

/-- Requiring an extension changes the extensions only. -/
theorem exists_requireExtension (s : Scratch) (name : String) :
    ∃ extensions, s.requireExtension name = { s with extensions } := by
  unfold requireExtension
  split
  · exact ⟨s.extensions, rfl⟩
  · exact ⟨_, rfl⟩

/-- Declaring a global changes the globals and the log. -/
theorem exists_declareGlobal (s : Scratch) (d : Decl) :
    ∃ globals log, s.declareGlobal d = { s with globals, log } := by
  unfold declareGlobal
  split
  · exact ⟨s.globals, s.log, rfl⟩
  · exact ⟨_, _, rfl⟩

/-- Declaring the origin changes the globals only. -/
theorem exists_declareUpperLeftOrigin (s : Scratch) :
    ∃ globals, s.declareUpperLeftOrigin = { s with globals } := by
  unfold declareUpperLeftOrigin
  split
  · exact ⟨s.globals, rfl⟩
  · exact ⟨_, rfl⟩

/-- Adding a helper changes the helpers and the log. -/
theorem exists_addHelper (s : Scratch) (shape : Shape) (fn : Function) :
    ∃ helpers log, s.addHelper shape fn = { s with helpers, log } := by
  unfold addHelper
  split
  · exact ⟨s.helpers, s.log, rfl⟩
  · exact ⟨_, _, rfl⟩

/-- Requiring several extensions changes the extensions only. -/
theorem exists_requireExtensions (s : Scratch) (names : List String) :
    ∃ extensions,
      names.foldl (fun s name => s.requireExtension name) s = { s with extensions } := by
  induction names generalizing s with
  | nil => exact ⟨s.extensions, rfl⟩
  | cons name names ih =>
    obtain ⟨extensions, hfirst⟩ := s.exists_requireExtension name
    obtain ⟨extensions', hrest⟩ := ih (s.requireExtension name)
    exact ⟨extensions', by rw [List.foldl_cons, hrest, hfirst]⟩

end Scratch

namespace Legalize

/-! ### Keeping a property of the scratch state -/

section

variable (I : Scratch → Prop)

/-- The judgement on work that cannot fail and keeps a property of the scratch state. -/
def steady : Judgement ScratchM where
  Holds Q x := ∀ s, I s → Q (x.run s).1 ∧ I (x.run s).2
  pure h _ hs := ⟨h, hs⟩
  bind h hf s hs := hf _ (h s hs).1 _ (h s hs).2

end

/-! ### Properties that rules keep -/

/-- A property of the scratch state that allows what rules other than the one for fragment
    coordinates put in front of a program: helper functions for absolute values, and the counter of
    invocations. -/
structure AboutAdditions (I : Scratch → Prop) : Prop where
  congr : ∀ s s', I s → s'.helpers = s.helpers → s'.globals = s.globals →
    s'.inputs = s.inputs → I s'
  helper : ∀ s, I s → ∀ ty : Ty, I (s.addHelper ty.shape (IntAbs.helper ty))
  counter : ∀ s, I s → I (s.declareGlobal (.uninitialized .auto Invocations.counterName .int))

/-- A global such as rules declare in front of a program: one of four variables, without a value. -/
structure IsAdded (d : Decl) : Prop where
  init : d.init = none
  name : d.name ∈ [TargetSize.heightName, TargetSize.widthName, Invocations.counterName,
    FragCoord.varyingName]

/-- A property of the scratch state that is about what stands in front of a program, and allows what
    any rule puts there: helper functions for absolute values, globals without values, and the
    origin of fragment coordinates. -/
structure AboutPreamble (I : Scratch → Prop) : Prop where
  congr : ∀ s s', I s → s'.helpers = s.helpers → s'.globals = s.globals → I s'
  helper : ∀ s, I s → ∀ ty : Ty, I (s.addHelper ty.shape (IntAbs.helper ty))
  global : ∀ s, I s → ∀ d : Decl, IsAdded d → I (s.declareGlobal d)
  origin : ∀ s, I s → I s.declareUpperLeftOrigin

/-- What is about the preamble is kept by all that the rules add to it. -/
theorem AboutPreamble.additions {I : Scratch → Prop} (hI : AboutPreamble I) : AboutAdditions I where
  congr s s' hs hhelpers hglobals _ := hI.congr s s' hs hhelpers hglobals
  helper := hI.helper
  counter s hs := hI.global s hs _ ⟨rfl, by decide⟩

namespace AboutAdditions

variable {I : Scratch → Prop} {t : Target}

/-- It is kept by a modification that leaves helpers, globals and inputs. -/
theorem modifies (hI : AboutAdditions I) {f : Scratch → Scratch}
    (h : ∀ s, (f s).helpers = s.helpers ∧ (f s).globals = s.globals ∧ (f s).inputs = s.inputs) :
    (steady I).Holds (fun _ => True) (modify f : ScratchM PUnit) :=
  fun s hs => ⟨trivial, hI.congr _ _ hs (h s).1 (h s).2.1 (h s).2.2⟩

/-- So every operation on the scratch keeps it. -/
theorem kept (hI : AboutAdditions I) : Additions (steady I) where
  fresh _ _ hs := ⟨trivial, hI.congr _ _ hs rfl rfl rfl⟩
  -- Naming extensions does not touch what the invariant is about.
  preamble names _ := hI.modifies fun s => by
    obtain ⟨extensions, h⟩ := s.exists_requireExtensions names
    rw [h]
    exact ⟨rfl, rfl, rfl⟩
  emulates _ := hI.modifies fun _ => ⟨rfl, rfl, rfl⟩
  helper ty s hs := ⟨trivial, hI.helper s hs ty⟩
  counter s hs := ⟨trivial, hI.counter s hs⟩

/-- No rule but the one for fragment coordinates asks for anything else. -/
theorem rule (hI : AboutAdditions I) {r : Rule}
    (hr : r ∈ rulesBefore "frag_coord" ++ rulesAfter "frag_coord")
    (p : Program) : (steady I).gen.Holds (fun _ => True) (r.step t p) :=
  holds_step (hI.modifies fun _ => ⟨rfl, rfl, rfl⟩) (hI.kept.rule hr t p)

end AboutAdditions

namespace AboutPreamble

variable {I : Scratch → Prop} {t : Target} {p : Program}

/-- A declaration of one of the added globals keeps it. -/
theorem declares (hI : AboutPreamble I) {d : Decl} (hd : IsAdded d) :
    (steady I).Holds (fun _ => True) (modify (Scratch.declareGlobal d) : ScratchM PUnit) :=
  fun s hs => ⟨trivial, hI.global s hs d hd⟩

/-- What is about the preamble is kept by every operation that the rules use. -/
theorem kept (hI : AboutPreamble I) : Operations (steady I) where
  toAdditions := hI.additions.kept
  height s hs := ⟨trivial, hI.congr _ _ (hI.global s hs _ ⟨rfl, by decide⟩) rfl rfl⟩
  width s hs := ⟨trivial, hI.congr _ _ (hI.global s hs _ ⟨rfl, by decide⟩) rfl rfl⟩
  policy _ _ := hI.additions.modifies fun _ => ⟨rfl, rfl, rfl⟩
  varying _ := hI.declares ⟨rfl, show FragCoord.varyingName ∈ _ by decide⟩
  origin s hs := ⟨trivial, hI.origin s hs⟩
  legacyOrigin _ hs := ⟨trivial, hI.origin _ (hI.congr _ _ hs rfl rfl)⟩

/-- No rule asks for anything else. -/
theorem legalize (hI : AboutPreamble I) :
    (steady I).gen.Holds (fun _ => True) (Legalize.legalize t p) :=
  foldlM_holds _ (fun _ hr p => holds_step (hI.additions.modifies fun _ => ⟨rfl, rfl, rfl⟩)
    (hI.kept.rule hr t p)) p

end AboutPreamble

section

variable {t : Target} {p p' : Program} {s s' : Scratch}

/-- What is about the preamble holds after the pipeline when it held before. -/
theorem legalize_keeps_preamble {I : Scratch → Prop} (hI : AboutPreamble I) (hs : I s)
    (hrun : (legalize t p).run.run s = (.ok p', s')) : I s' := by
  have hstate := (hI.legalize (t := t) (p := p) s hs).2
  rwa [show (legalize t p).run.run s = (.ok p', s') from hrun] at hstate

/-- Whatever helper function there is in the end was there at the start, or is one of the rule for
    absolute values of integers. -/
theorem legalize_adds_helpers (hrun : (legalize t p).run.run s = (.ok p', s')) :
    ∀ h ∈ s'.helpers, h ∈ s.helpers ∨ ∃ ty, h.2 = IntAbs.helper ty := by
  have hI : AboutPreamble fun s' =>
      ∀ h ∈ s'.helpers, h ∈ s.helpers ∨ ∃ ty, h.2 = IntAbs.helper ty := by
    refine ⟨fun s₁ s₂ h heq _ => heq ▸ h, fun s₁ h ty => ?_, fun s₁ h d _ => ?_,
      fun s₁ h => ?_⟩
    · -- A helper is added only where its shape has none.
      unfold Scratch.addHelper
      split
      · exact h
      · exact List.forall_mem_append.mpr ⟨h, List.forall_mem_singleton.mpr (.inr ⟨ty, rfl⟩)⟩
    · unfold Scratch.declareGlobal
      split <;> exact h
    · unfold Scratch.declareUpperLeftOrigin
      split <;> exact h
  exact legalize_keeps_preamble hI (fun _ => .inl) hrun

/-- Whatever global there is in the end was there at the start, or is such as rules declare. -/
theorem legalize_adds_globals (hrun : (legalize t p).run.run s = (.ok p', s')) :
    ∀ g ∈ s'.globals, g ∈ s.globals ∨ ∀ d, g = .declared d → IsAdded d := by
  have hI : AboutPreamble fun s' =>
      ∀ g ∈ s'.globals, g ∈ s.globals ∨ ∀ d, g = .declared d → IsAdded d := by
    refine ⟨fun s₁ s₂ h _ heq => heq ▸ h, fun s₁ h ty => ?_, fun s₁ h d hd => ?_,
      fun s₁ h => ?_⟩
    · -- A global is declared only where it is not yet.
      unfold Scratch.addHelper
      split <;> exact h
    · unfold Scratch.declareGlobal
      split
      · exact h
      · refine List.forall_mem_append.mpr ⟨h, List.forall_mem_singleton.mpr (.inr ?_)⟩
        exact fun d' hd' => AddedGlobal.declared.inj hd' ▸ hd
    · unfold Scratch.declareUpperLeftOrigin
      split
      · exact h
      · exact List.forall_mem_append.mpr ⟨h, List.forall_mem_singleton.mpr (.inr nofun)⟩
  exact legalize_keeps_preamble hI (fun _ => .inl) hrun

end

end Legalize

end ShaderGen
