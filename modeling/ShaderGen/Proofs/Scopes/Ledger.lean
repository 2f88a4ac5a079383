import ShaderGen.Proofs.Legalize.Kept
import ShaderGen.Proofs.Scopes.Elements

/-!
# Names in use during a generation

The names in use are those that rules bring in once and for all (`given`), and those that stems have
given out, as the scratch state counts them (`Scratch.Used`). A rule keeps a program tidy
(`KeepsTidy`) if from a tidy program and state it leads to a tidy program and state; more names may
be in use then.

## Key results

- `KeepsTidy.of_spreads`, `KeepsTidy.of_naming`: rules that replace elements by others
-/

namespace ShaderGen

/-- A name is in use: it is among certain names, or a stem gave it out. -/
def Scratch.Used (given : List String) (s : Scratch) (name : String) : Prop :=
  name ∈ given ∨ ∃ stem : Stem, ∃ n < s.counters.get stem, stem.nth n = name

/-- A program is tidy in the scope of what stands in front of it. -/
def Program.Tidy (given : List String) (s : Scratch) (p : Program) : Prop :=
  ShaderGen.Tidy (s.Used given) s.symbols p.elements

/-- No stem gives out one of certain names. -/
def Unnumbered (given : List String) : Prop :=
  ∀ name ∈ given, ∀ (stem : Stem) (n : Nat), stem.nth n ≠ name

section

variable {given more : List String} {s s' : Scratch}

/-- Names that start with no stem are given by hand. -/
theorem unnumbered_of_prefix (h : ∀ name ∈ given, ∀ stem : Stem,
    stem.text.toList.isPrefixOf name.toList = false) : Unnumbered given := by
  intro name hname stem n heq
  have hprefix : stem.text.toList <+: name.toList := by
    rw [← heq, Stem.nth, String.toList_append]
    exact List.prefix_append _ _
  rw [← List.isPrefixOf_iff_prefix, h name hname stem] at hprefix
  exact Bool.false_ne_true hprefix

/-- No name comes into use. -/
theorem enters_nil (hgiven : given ⊆ more) (hcounters : s'.counters = s.counters) :
    Enters (s.Used given) (s'.Used more) [] where
  nodup := .nil
  fresh := nofun
  entered := nofun
  kept x hx := by
    unfold Scratch.Used at hx ⊢
    rw [hcounters]
    exact hx.imp_left fun hmem => hgiven hmem

/-- The names that a stem gives out come into use. -/
theorem enters_names (hgiven : Unnumbered given) (stem : Stem) (count : Nat) :
    Enters (s.Used given) ((s.advance stem count).Used given)
      (stem.names (s.counters.get stem) count) where
  nodup := Stem.nodup_names
  fresh x hx hused := by
    obtain ⟨n, hlow, -, rfl⟩ := Stem.mem_names.mp hx
    -- A used name is given, or drawn from a stem with a smaller number.
    rcases hused with hmem | ⟨other, n', hlt, heq⟩
    · exact hgiven _ hmem stem n rfl
    · obtain ⟨rfl, rfl⟩ := Stem.nth_inj heq
      omega
  entered x hx := by
    obtain ⟨n, -, hhigh, rfl⟩ := Stem.mem_names.mp hx
    exact .inr ⟨stem, n, by rwa [Scratch.get_advance_self], rfl⟩
  kept x hx := by
    refine hx.imp_right fun ⟨other, n, hlt, heq⟩ => ⟨other, n, ?_, heq⟩
    show n < (Counters.advance stem count s.counters).get other
    rw [Counters.get_advance]
    split <;> omega

/-- Names that no stem gives out come into use. -/
theorem enters_given (hnodup : more.Nodup) (hunnumbered : Unnumbered more)
    (hdisjoint : ∀ x ∈ more, x ∉ given) (hcounters : s'.counters = s.counters) :
    Enters (s.Used given) (s'.Used (given ++ more)) more where
  nodup := hnodup
  fresh x hx hused := by
    -- A name that is in use was given, or drawn from a stem before.
    rcases hused with hmem | ⟨stem, n, -, heq⟩
    · exact hdisjoint x hx hmem
    · exact hunnumbered x hx stem n heq
  entered x hx := .inl (List.mem_append_right _ hx)
  kept x hx := by
    unfold Scratch.Used at hx ⊢
    rw [hcounters]
    exact hx.imp_left fun hmem => List.mem_append_left _ hmem

end

/-! ### Rules -/

/-- From a tidy program and state, work that succeeds leads to a tidy program and state, where more
    names may be in use. -/
def KeepsTidy (given more : List String) (p : Program) (x : GenM Program) : Prop :=
  ∀ s, p.Tidy given s → ∀ p' s', x.run.run s = (.ok p', s') → p'.Tidy more s'

section

variable {given more : List String} {p : Program} {s s' : Scratch}

/-- The preamble may grow, and names may come into use. -/
theorem Program.Tidy.mono (h : p.Tidy given s) (hgiven : given ⊆ more)
    (hsymbols : s.symbols ⊆ s'.symbols) (hcounters : s'.counters = s.counters) :
    p.Tidy more s' := by
  have hspreads : Element.Spreads [] [] p.elements p.elements :=
    .of_forall₂ (List.forall₂_same.mpr fun el _ => .refl el)
  exact h.spreads hspreads hsymbols (List.nil_subset _) (enters_nil hgiven hcounters)

/-- Tidy names stay tidy where nothing is brought but the symbols of the scratch. -/
theorem Program.Tidy.spreads {p' : Program} {brought : List Symbol} (h : p.Tidy given s)
    (hp : Element.Spreads brought [] p.elements p'.elements) (hbrought : brought ⊆ s.symbols) :
    p'.Tidy given s :=
  h.replace hp hbrought

namespace KeepsTidy

/-- A rule that replaces elements, and brings in nothing. -/
theorem pure {p' : Program} (h : Element.Spreads [] [] p.elements p'.elements) :
    KeepsTidy given given p (pure p') := by
  intro s hp q s' hrun
  obtain ⟨rfl, rfl⟩ : p' = q ∧ s = s' := by
    simpa using (show (Except.ok p', s) = (Except.ok q, s') from hrun)
  exact hp.spreads h (List.nil_subset _)

/-- A rule that may find a malformation keeps the names tidy when its result does. -/
theorem liftMalformed {x : Except Malformation Program}
    (h : Yields (fun p' => Element.Spreads [] [] p.elements p'.elements) x) :
    KeepsTidy given given p (liftMalformed x) := by
  cases x with
  | ok p' => exact pure (h.of_ok rfl)
  | error cause => exact fun s _ p' s' hrun => absurd (congrArg Prod.fst hrun) nofun

/-- So does one that may refuse a construct. -/
theorem liftUnsupported {x : Except Unsupported Program}
    (h : Yields (fun p' => Element.Spreads [] [] p.elements p'.elements) x) :
    KeepsTidy given given p (liftUnsupported x) := by
  cases x with
  | ok p' => exact pure (h.of_ok rfl)
  | error cause => exact fun s _ p' s' hrun => absurd (congrArg Prod.fst hrun) nofun

/-- A rule that is given names of a stem. -/
theorem of_naming (hgiven : Unnumbered given) {stem : Stem} {x : GenM Program}
    (h : (numberingGen stem).Holds
      (fun names p' => Element.Spreads [] names p.elements p'.elements) x) :
    KeepsTidy given given p x := by
  intro s hp p' s' hrun
  obtain ⟨count, hstate, hresult⟩ := h s
  have hrun' : StateT.run (ExceptT.run x) s = (.ok p', s') := hrun
  rw [hrun'] at hstate hresult
  obtain rfl : s' = s.advance stem count := hstate
  exact ShaderGen.Tidy.spreads hp (hresult p' rfl) (List.Subset.refl _) (List.nil_subset _)
    (enters_names hgiven stem count)

/-- A rule that cannot fail. -/
theorem of_run {x : ScratchM Program}
    (h : ∀ s, p.Tidy given s → (x.run s).1.Tidy more (x.run s).2) :
    KeepsTidy given more p (liftM x) := by
  intro s hp p' s' hrun
  have hpair := Prod.ext_iff.mp
    (show (Except.ok (x.run s).1, (x.run s).2) = (Except.ok p', s') from hrun)
  obtain ⟨rfl, rfl⟩ : (x.run s).1 = p' ∧ (x.run s).2 = s' := ⟨Except.ok.inj hpair.1, hpair.2⟩
  exact h s hp

/-- One rule after the other. -/
theorem bind {most : List String} {x : GenM Program} {f : Program → GenM Program}
    (h : KeepsTidy given more p x) (hf : ∀ p', KeepsTidy more most p' (f p')) :
    KeepsTidy given most p (x >>= f) := by
  intro s hp p' s' hrun
  rw [ExceptT.run_bind, StateT.run_bind] at hrun
  -- A run that fails leaves nothing to keep tidy.
  cases hx : (x.run.run s).1 with
  | error fault =>
    have hfault : x.run.run s = (.error fault, (x.run.run s).2) := Prod.ext hx rfl
    rw [show StateT.run (ExceptT.run x) s = _ from hfault] at hrun
    exact absurd (congrArg Prod.fst hrun) nofun
  | ok q =>
    have hok : x.run.run s = (.ok q, (x.run.run s).2) := Prod.ext hx rfl
    rw [show StateT.run (ExceptT.run x) s = _ from hok] at hrun
    exact hf q _ (h s hp q _ hok) p' s' hrun

/-- Noting something in the log changes nothing else. -/
theorem report {event : Event} {x : GenM Program} (h : KeepsTidy given more p x) :
    KeepsTidy given more p (do modify (Scratch.report event); x) := by
  intro s hp p' s' hrun
  exact h (s.report event) (hp.mono (List.Subset.refl _) (List.Subset.refl _) rfl) p' s' hrun

/-- A rule that is not called for. -/
theorem skip (hgiven : given ⊆ more) : KeepsTidy given more p (Pure.pure p) := by
  intro s hp p' s' hrun
  obtain ⟨rfl, rfl⟩ : p = p' ∧ s = s' := by
    simpa using (show (Except.ok p, s) = (Except.ok p', s') from hrun)
  exact hp.mono hgiven (List.Subset.refl _) rfl

/-- A rule of the pipeline. -/
theorem step {t : Target} {rule : Legalize.Rule} (hgiven : given ⊆ more)
    (h : KeepsTidy given more p (rule.run t p)) : KeepsTidy given more p (rule.step t p) := by
  unfold Legalize.Rule.step
  split
  · exact h.report
  · exact skip hgiven

end KeepsTidy

end

end ShaderGen
