import ShaderGen.Proofs.Legalize.Helpers

/-!
# The log as a journal

Rules add to the log of the scratch state and never look at it: whatever the log holds when a rule
starts, the rule does the same and appends the same events (`journal`). What it appends tells which
globals and which helper functions it put in front of the program, each once and in order
(`Scratch.Tells`).

## Key results

- `journal_rule`: of every rule
- `SameButLog.run`: work that keeps a journal does the same in states that differ in their logs
-/

namespace ShaderGen

/-! ### What events tell -/

namespace Event

/-- The rule that an event says has started. -/
def startedRule? : Event → Option String
  | .ruleStarts rule => some rule
  | _ => none

/-- The global that an event says has been added. -/
def addedGlobal? : Event → Option String
  | .addsGlobal name => some name
  | _ => none

/-- The helper function that an event says has been added. -/
def addedHelper? : Event → Option String
  | .addsHelper name => some name
  | _ => none

/-- Whether an event says that a text has been generated. -/
def isGenerated : Event → Bool
  | .generated _ _ _ _ => true
  | _ => false

end Event

/-- The name that a global of the preamble declares. Moving the origin of fragment coordinates
    declares no variable of the program. -/
def AddedGlobal.name? : AddedGlobal → Option String
  | .declared d => some d.name
  | .upperLeftOrigin => none

namespace Scratch

/-- Names of the variables that rules declared in front of a program, in order. -/
def globalNames (s : Scratch) : List String := s.globals.filterMap AddedGlobal.name?

/-- Names of the helper functions that rules added, in order. -/
def helperNames (s : Scratch) : List String := s.helpers.map fun h => h.2.name

/-- The state with another log. -/
def withLog (s : Scratch) (log : List Event) : Scratch := { s with log }

/-- Events tell what has been put in front of a program between two states, and no text has been
    generated in between. -/
structure Tells (s : Scratch) (events : List Event) (s' : Scratch) : Prop where
  globals : s'.globalNames = s.globalNames ++ events.filterMap Event.addedGlobal?
  helpers : s'.helperNames = s.helperNames ++ events.filterMap Event.addedHelper?
  unfinished : ∀ e ∈ events, e.isGenerated = false

namespace Tells

variable {s s₁ s₂ : Scratch} {events events' : List Event}

/-- Nothing happened from a scratch to itself. -/
theorem refl (s : Scratch) : s.Tells [] s := by constructor <;> simp

/-- What happened in two parts happened in their order. -/
theorem trans (h : s.Tells events s₁) (h' : s₁.Tells events' s₂) :
    s.Tells (events ++ events') s₂ where
  globals := by rw [h'.globals, h.globals, List.filterMap_append, List.append_assoc]
  helpers := by rw [h'.helpers, h.helpers, List.filterMap_append, List.append_assoc]
  unfinished := List.forall_mem_append.mpr ⟨h.unfinished, h'.unfinished⟩

/-- Nothing is put in front of the program. -/
theorem of_same (hglobals : s₁.globals = s.globals) (hhelpers : s₁.helpers = s.helpers) :
    s.Tells [] s₁ where
  globals := by rw [globalNames, hglobals, List.filterMap_nil, List.append_nil]; rfl
  helpers := by rw [helperNames, hhelpers, List.filterMap_nil, List.append_nil]; rfl
  unfinished := nofun

end Tells

end Scratch

namespace Legalize

open Scratch

/-! ### Work that keeps a journal -/

/-- The judgement on work that appends events to the log, and does the same whatever log there is:
    events that tell what it put in front of the program, and not that a rule starts. -/
def journal : Judgement ScratchM where
  Holds {α} Q x := ∀ s, ∃ (a : α) (s' : Scratch) (events : List Event), Q a ∧ s.Tells events s' ∧
    events.filterMap Event.startedRule? = [] ∧
      ∀ log, x.run (s.withLog log) = (a, s'.withLog (log ++ events))
  pure {_ _ a} h s := ⟨a, s, [], h, .refl s, rfl, fun log => by rw [List.append_nil]; rfl⟩
  bind h hf s := by
    obtain ⟨a, s₁, events, ha, htells, hquiet, hrun⟩ := h s
    obtain ⟨b, s₂, events', hb, htells', hquiet', hrun'⟩ := hf a ha s₁
    refine ⟨b, s₂, events ++ events', hb, htells.trans htells', ?_, fun log => ?_⟩
    · rw [List.filterMap_append, hquiet, hquiet', List.append_nil]
    · rw [StateT.run_bind, hrun, ← List.append_assoc]
      exact hrun' (log ++ events)

/-- What an operation on the scratch state appends to the log. -/
def Logs (f : Scratch → Scratch) : Prop :=
  ∀ s : Scratch, ∃ (s' : Scratch) (events : List Event), s.Tells events s' ∧
    events.filterMap Event.startedRule? = [] ∧
      ∀ log, f (s.withLog log) = s'.withLog (log ++ events)

namespace Logs

variable {f g : Scratch → Scratch}

/-- A modification that is logged may be run. -/
theorem modifies (h : Logs f) : journal.Holds (fun _ => True) (modify f : ScratchM PUnit) :=
  fun s => have ⟨s', events, htells, hquiet, hrun⟩ := h s
    ⟨⟨⟩, s', events, trivial, htells, hquiet, fun log => congrArg (Prod.mk PUnit.unit) (hrun log)⟩

/-- Two logged modifications in turn are logged. -/
theorem comp (hg : Logs g) (hf : Logs f) : Logs (g ∘ f) := by
  intro s
  obtain ⟨s₁, events, htells, hquiet, hrun⟩ := hf s
  obtain ⟨s₂, events', htells', hquiet', hrun'⟩ := hg s₁
  refine ⟨s₂, events ++ events', htells.trans htells', ?_, fun log => ?_⟩
  · rw [List.filterMap_append, hquiet, hquiet', List.append_nil]
  · rw [Function.comp_apply, hrun, hrun', List.append_assoc]

/-- An operation that neither looks at the log nor changes what stands in front of the program. -/
theorem of_same (hlog : ∀ s log, f (s.withLog log) = (f s).withLog log)
    (hglobals : ∀ s, (f s).globals = s.globals) (hhelpers : ∀ s, (f s).helpers = s.helpers) :
    Logs f := fun s =>
  ⟨f s, [], .of_same (hglobals s) (hhelpers s), rfl, fun log => by rw [hlog, List.append_nil]⟩

/-- A report of something that puts nothing in front of the program. -/
theorem report {event : Event} (hstarted : event.startedRule? = none)
    (hglobal : event.addedGlobal? = none) (hhelper : event.addedHelper? = none)
    (hgenerated : event.isGenerated = false) : Logs (Scratch.report event) := by
  refine fun s => ⟨s, [event], ⟨?_, ?_, List.forall_mem_singleton.mpr hgenerated⟩, ?_, fun _ => rfl⟩
  · simp [hglobal]
  · simp [hhelper]
  · simp [hstarted]

/-- Requiring an extension is logged. -/
theorem requireExtension (name : String) : Logs (Scratch.requireExtension name) := by
  -- Whether the extension is there does not depend on the log.
  have hsplit : ∀ s : Scratch, ∃ extensions, ∀ log,
      (s.withLog log).requireExtension name = { s with extensions, log } := by
    intro s
    unfold Scratch.requireExtension
    by_cases h : s.extensions.contains name = true
    · exact ⟨s.extensions, fun log => if_pos h⟩
    · exact ⟨s.extensions ++ [name], fun log => if_neg h⟩
  intro s
  obtain ⟨extensions, h⟩ := hsplit s
  exact ⟨{ s with extensions }, [], .of_same rfl rfl, rfl, fun log => by
    rw [h, List.append_nil]; rfl⟩

/-- So is requiring several. -/
theorem requireExtensions (names : List String) :
    Logs fun s => names.foldl (fun s name => s.requireExtension name) s := by
  induction names with
  | nil => exact of_same (fun _ _ => rfl) (fun _ => rfl) fun _ => rfl
  | cons name names ih => exact comp ih (requireExtension name)

/-- So is declaring a global. -/
theorem declareGlobal (d : Decl) : Logs (Scratch.declareGlobal d) := by
  intro s
  -- A global is noted once, and then nothing is logged.
  by_cases h : s.globals.any (AddedGlobal.declares d.name) = true
  · exact ⟨s, [], .refl s, rfl, fun log => (if_pos h).trans (by rw [List.append_nil])⟩
  · refine ⟨{ s with globals := s.globals ++ [.declared d] }, [.addsGlobal d.name], ⟨?_, ?_, ?_⟩,
      rfl, fun log => if_neg h⟩
    · exact List.filterMap_append
    · exact (List.append_nil _).symm
    · exact List.forall_mem_singleton.mpr rfl

/-- So is the origin of the coordinate. -/
theorem declareUpperLeftOrigin : Logs Scratch.declareUpperLeftOrigin := by
  intro s
  by_cases h : s.globals.any AddedGlobal.isUpperLeftOrigin = true
  · exact ⟨s, [], .refl s, rfl, fun log => (if_pos h).trans (by rw [List.append_nil])⟩
  · refine ⟨{ s with globals := s.globals ++ [.upperLeftOrigin] }, [], ⟨?_, ?_, nofun⟩, rfl,
      fun log => (if_neg h).trans (by rw [List.append_nil]; rfl)⟩
    · exact List.filterMap_append
    · exact (List.append_nil _).symm

/-- So is a helper. -/
theorem addHelper (shape : Shape) (helper : Function) : Logs (Scratch.addHelper shape helper) := by
  intro s
  -- A helper is noted once for each shape.
  by_cases h : s.helpers.any (fun h => h.1 == shape) = true
  · exact ⟨s, [], .refl s, rfl, fun log => (if_pos h).trans (by rw [List.append_nil])⟩
  · refine ⟨{ s with helpers := s.helpers ++ [(shape, helper)] }, [.addsHelper helper.name],
      ⟨?_, ?_, ?_⟩, rfl, fun log => if_neg h⟩
    · exact (List.append_nil _).symm
    · exact List.map_append
    · exact List.forall_mem_singleton.mpr rfl

end Logs

/-- All operations of rules keep a journal. -/
theorem journal_operations : Operations journal where
  fresh stem s := by
    refine ⟨(s.freshName stem).1, (s.freshName stem).2, [], trivial, .of_same rfl rfl, rfl,
      fun log => ?_⟩
    rw [List.append_nil]
    rfl
  -- Every other operation logs what it does, or does what is not logged.
  preamble names b := (Logs.comp (Logs.of_same
    (f := fun s => { s with declaresFragOutput := b }) (fun _ _ => rfl) (fun _ => rfl)
      fun _ => rfl) (Logs.requireExtensions names)).modifies
  emulates _ := (Logs.report rfl rfl rfl rfl).modifies
  helper _ := (Logs.addHelper _ _).modifies
  counter := (Logs.declareGlobal _).modifies
  height := (Logs.comp (Logs.of_same
    (f := fun s => { s with inputs := { s.inputs with height := true } }) (fun _ _ => rfl)
      (fun _ => rfl) fun _ => rfl) (Logs.declareGlobal _)).modifies
  width := (Logs.comp (Logs.of_same
    (f := fun s => { s with inputs := { s.inputs with width := true } }) (fun _ _ => rfl)
      (fun _ => rfl) fun _ => rfl) (Logs.declareGlobal _)).modifies
  policy _ _ := (Logs.report rfl rfl rfl rfl).modifies
  varying _ := (Logs.declareGlobal _).modifies
  origin := Logs.declareUpperLeftOrigin.modifies
  legacyOrigin := (Logs.comp Logs.declareUpperLeftOrigin (Logs.of_same
    (f := Scratch.requireExtensionFirst FragCoord.conventionsExtension) (fun _ _ => rfl)
      (fun _ => rfl) fun _ => rfl)).modifies

/-- Every rule keeps a journal. -/
theorem journal_rule {r : Rule} (hr : r ∈ pipeline) (t : Target) (p : Program) :
    journal.gen.Holds (fun _ => True) (r.run t p) :=
  journal_operations.rule hr t p

/-! ### Runs in states that differ in their logs -/

/-- Two states differ in their logs only. -/
def SameButLog (s s' : Scratch) : Prop := s'.withLog s.log = s

namespace SameButLog

variable {s s' : Scratch} {α : Type}

/-- Scratches that differ in the log only are one scratch with two logs. -/
theorem exists_withLog (h : SameButLog s s') :
    ∃ (s₀ : Scratch) (log log' : List Event), s = s₀.withLog log ∧ s' = s₀.withLog log' :=
  ⟨s', s.log, s'.log, h.symm, rfl⟩

/-- One scratch with two logs differs in the log only. -/
theorem of_withLog (s : Scratch) (log log' : List Event) :
    SameButLog (s.withLog log) (s.withLog log') := rfl

/-- Work that keeps a journal returns the same and leaves the same, up to the logs. -/
theorem run {x : GenM α} (hx : journal.gen.Holds (fun _ => True) x) (h : SameButLog s s') :
    (x.run.run s).1 = (x.run.run s').1 ∧ SameButLog (x.run.run s).2 (x.run.run s').2 := by
  obtain ⟨s₀, log, log', rfl, rfl⟩ := exists_withLog h
  obtain ⟨r, s₁, events, -, -, -, hrun⟩ := hx s₀
  have hruns : ∀ log, x.run.run (s₀.withLog log) = (r, s₁.withLog (log ++ events)) := hrun
  rw [hruns, hruns]
  exact ⟨rfl, .of_withLog _ _ _⟩

end SameButLog

end Legalize

end ShaderGen
