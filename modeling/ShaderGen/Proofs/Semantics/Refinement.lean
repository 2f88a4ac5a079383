import Mathlib.Data.List.Forall2
import ShaderGen.Proofs.Semantics.Matching

/-!
# Runs that take the place of others

A run may work on components of another kind than the run whose place it takes, such as components
that are always assigned in place of those that may not be. Whatever the one does, the other has to
do from states that correspond, and the states in which they end have to correspond again. This is
closed under everything that expressions and statements are put together from.

## Main definitions

- `Correspondence`: a relation between the states of two kinds of runs
- `Eval.Refines`, `Behaviour.Refines`: one run does whatever another does

## Key results

- `Eval.Refines.bind`: computations one after the other
- `Behaviour.Refines.seq`, `.andThen`, `.inScope`, `.after`, `.forever`: the pieces of a statement
-/

namespace ShaderGen

variable {α β γ δ ε ζ : Type}

/-- A relation between states of two kinds, and one between the values that functions return. At
    the end of a scope, states correspond again. -/
structure Correspondence (α β : Type) where
  Holds : State α → State β → Prop
  Returned : List α → List β → Prop
  leave {σ σ' : State α} {τ τ' : State β} (names : List String) (h : Holds σ τ) (h' : Holds σ' τ') :
    Holds (σ'.leave σ names) (τ'.leave τ names)

/-- Two ways to end that differ in what is returned only. -/
inductive Outcome.Matches (V : List α → List β → Prop) : Outcome α → Outcome β → Prop
  | normal : Matches V .normal .normal
  | breakOut : Matches V .breakOut .breakOut
  | continueLoop : Matches V .continueLoop .continueLoop
  | returned {value : Option (List α)} {value' : Option (List β)} (h : Option.Rel V value value') :
    Matches V (.returned value) (.returned value')
  | discarded : Matches V .discarded .discarded

namespace Outcome.Matches

variable {V : List α → List β → Prop} {o : Outcome α} {o' : Outcome β}

/-- Matching outcomes both let the loop go on or both do not. -/
theorem goesOn_eq (h : o.Matches V o') : o'.goesOn = o.goesOn := by
  cases h <;> rfl

/-- They still match after the loop was left. -/
theorem left (h : o.Matches V o') : o.left.Matches V o'.left := by
  cases h with
  | breakOut => exact .normal
  | normal => exact .normal
  | continueLoop => exact .continueLoop
  | returned h => exact .returned h
  | discarded => exact .discarded

/-- Only a normal outcome matches a normal one. -/
theorem eq_normal_iff (h : o.Matches V o') : o' = .normal ↔ o = .normal := by
  cases h <;> simp

end Outcome.Matches

variable {C : Correspondence α β}

/-! ### Computations -/

namespace Eval

/-- Two computations both discard the fragment, or both have results, which are related. -/
inductive Same (Q : γ → δ → Prop) : Except Discarded γ → Except Discarded δ → Prop
  | ok {b : γ} {d : δ} (h : Q b d) : Same Q (.ok b) (.ok d)
  | error {e e' : Discarded} : Same Q (.error e) (.error e')

/-- From states that correspond, the second computation does whatever the first does. -/
def Refines (C : Correspondence α β) (Q : γ → δ → Prop) (x : Eval α γ) (y : Eval β δ) : Prop :=
  ∀ ⦃σ τ⦄, C.Holds σ τ → ∀ ⦃r σ'⦄, x.run.run σ = some (r, σ') →
    ∃ r' τ', y.run.run τ = some (r', τ') ∧ Same Q r r' ∧ C.Holds σ' τ'

namespace Refines

variable {Q : γ → δ → Prop} {R : ε → ζ → Prop} {x : Eval α γ} {y : Eval β δ}

/-- Related values are related computations. -/
theorem pure {b : γ} {d : δ} (h : Q b d) :
    Refines C Q (pure b : Eval α γ) (Pure.pure d : Eval β δ) := by
  rintro σ τ hσ _ _ ⟨⟩
  exact ⟨_, τ, rfl, .ok h, hσ⟩

/-- Computations are related in sequence when each step is. -/
theorem bind {f : γ → Eval α ε} {g : δ → Eval β ζ} (h : Refines C Q x y)
    (hf : ∀ b d, Q b d → Refines C R (f b) (g d)) : Refines C R (x >>= f) (y >>= g) := by
  intro σ τ hσ r σ' hrun
  -- Either the first part is stuck, or it stops the whole, or the second part goes on from it.
  rw [ExceptT.run_bind, StateT.run_bind] at hrun
  cases hx : x.run.run σ with
  | none =>
    rw [hx] at hrun
    cases hrun
  | some end_ =>
    obtain ⟨first, ρ⟩ := end_
    rw [hx] at hrun
    obtain ⟨first', ρ', hy, hfirst, hρ⟩ := h hσ hx
    rw [ExceptT.run_bind, StateT.run_bind, hy]
    cases hfirst with
    | ok hb => exact hf _ _ hb hρ hrun
    | error =>
      cases hrun
      exact ⟨_, ρ', rfl, .error, hρ⟩

/-- So are their images under functions that keep the relation. -/
theorem map {f : γ → ε} {g : δ → ζ} (h : Refines C Q x y) (hf : ∀ b d, Q b d → R (f b) (g d)) :
    Refines C R (f <$> x) (g <$> y) := by
  rw [← bind_pure_comp, ← bind_pure_comp]
  exact h.bind fun b d hb => .pure (hf b d hb)

end Refines

end Eval

/-! ### Statements -/

namespace Behaviour

/-- From states that correspond, the second behaviour does whatever the first does. -/
def Refines (C : Correspondence α β) (A : Behaviour α) (B : Behaviour β) : Prop :=
  ∀ ⦃σ τ⦄, C.Holds σ τ → ∀ ⦃o σ'⦄, A σ o σ' →
    ∃ o' τ', B τ o' τ' ∧ o.Matches C.Returned o' ∧ C.Holds σ' τ'

namespace Refines

variable {A A' : Behaviour α} {B B' : Behaviour β}

/-- Leaving with matching outcomes is related. -/
theorem exit {o : Outcome α} {o' : Outcome β} (h : o.Matches C.Returned o') :
    Refines C (exit o) (exit o') := by
  rintro σ τ hσ _ _ ⟨rfl, rfl⟩
  exact ⟨o', τ, ⟨rfl, rfl⟩, h, hσ⟩

/-- Doing nothing is related to doing nothing. -/
theorem skip : Refines C skip skip := exit .normal

/-- Changes that keep the relation of the states are related. -/
theorem change {f : State α → State α} {g : State β → State β}
    (h : ∀ σ τ, C.Holds σ τ → C.Holds (f σ) (g τ)) : Refines C (change f) (change g) := by
  rintro σ τ hσ _ _ ⟨rfl, rfl⟩
  exact ⟨.normal, g τ, ⟨rfl, rfl⟩, .normal, h σ τ hσ⟩

/-- Behaviours are related in sequence. -/
theorem seq (hA : Refines C A B) (hA' : Refines C A' B') : Refines C (seq A A') (seq B B') := by
  rintro σ τ hσ o σ' (⟨ρ, ha, ha'⟩ | ⟨ho, ha⟩)
  · obtain ⟨o₁, ρ', hb, ho₁, hρ⟩ := hA hσ ha
    obtain rfl := ho₁.eq_normal_iff.mpr rfl
    obtain ⟨o', τ', hb', ho', hτ⟩ := hA' hρ ha'
    exact ⟨o', τ', .inl ⟨ρ', hb, hb'⟩, ho', hτ⟩
  · obtain ⟨o', τ', hb, ho', hτ⟩ := hA hσ ha
    exact ⟨o', τ', .inr ⟨fun h => ho (ho'.eq_normal_iff.mp h), hb⟩, ho', hτ⟩

/-- So are loop bodies with their steps. -/
theorem andThen (hA : Refines C A B) (hA' : Refines C A' B') :
    Refines C (andThen A A') (andThen B B') := by
  rintro σ τ hσ o σ' (⟨o₁, ρ, ha, hon, ha'⟩ | ⟨hoff, ha⟩)
  · obtain ⟨o₂, ρ', hb, ho, hρ⟩ := hA hσ ha
    obtain ⟨o', τ', hb', ho', hτ⟩ := hA' hρ ha'
    exact ⟨o', τ', .inl ⟨o₂, ρ', hb, ho.goesOn_eq.trans hon, hb'⟩, ho', hτ⟩
  · obtain ⟨o', τ', hb, ho', hτ⟩ := hA hσ ha
    exact ⟨o', τ', .inr ⟨ho'.goesOn_eq.trans hoff, hb⟩, ho', hτ⟩

/-- So are behaviours in a scope of the same names. -/
theorem inScope (names : List String) (hA : Refines C A B) :
    Refines C (inScope names A) (inScope names B) := by
  rintro σ τ hσ o _ ⟨ρ, ha, rfl⟩
  obtain ⟨o', ρ', hb, ho, hρ⟩ := hA hσ ha
  exact ⟨o', _, ⟨ρ', hb, rfl⟩, ho, C.leave names hσ hρ⟩

/-- What follows related evaluations is related. -/
theorem after {Q : γ → δ → Prop} {x : Eval α γ} {y : Eval β δ} {k : γ → Behaviour α}
    {k' : δ → Behaviour β} (hx : Eval.Refines C Q x y)
    (hk : ∀ b d, Q b d → Refines C (k b) (k' d)) : Refines C (after x k) (after y k') := by
  intro σ τ hσ o σ' h
  unfold Behaviour.after at h ⊢
  cases hrun : x.run.run σ with
  | none =>
    rw [hrun] at h
    exact h.elim
  | some end_ =>
    obtain ⟨r, ρ⟩ := end_
    rw [hrun] at h
    obtain ⟨r', ρ', hy, hr, hρ⟩ := hx hσ hrun
    rw [hy]
    -- Either the evaluation had a value to go on with, or it discarded the fragment.
    cases hr with
    | ok hQ => exact hk _ _ hQ hρ h
    | error =>
      obtain ⟨rfl, rfl⟩ := h
      exact ⟨.discarded, ρ', ⟨rfl, rfl⟩, .discarded, hρ⟩

/-- So are switches that catch their breaks. -/
theorem catchBreak (hA : Refines C A B) : Refines C (catchBreak A) (catchBreak B) := by
  rintro σ τ hσ _ σ' ⟨o, ha, rfl⟩
  obtain ⟨o', τ', hb, ho, hτ⟩ := hA hσ ha
  exact ⟨o'.left, τ', ⟨o', hb, rfl⟩, ho.left, hτ⟩

/-- So are lists of related behaviours. -/
theorem seqAll {As : List (Behaviour α)} {Bs : List (Behaviour β)}
    (h : List.Forall₂ (Refines C) As Bs) : Refines C (seqAll As) (seqAll Bs) := by
  induction h with
  | nil => exact skip
  | cons hA _ ih => exact hA.seq ih

/-- A loop does turn by turn what another does. -/
theorem forever {turn : Behaviour α} {turn' : Behaviour β} (h : Refines C turn turn') :
    Refines C (Forever turn) (Forever turn') := by
  intro σ τ hσ o σ' hrun
  -- By induction on the run of the loop, turn by turn.
  induction hrun generalizing τ with
  | again first hon _ ih =>
    obtain ⟨o₁, ρ', first', ho₁, hρ⟩ := h hσ first
    obtain ⟨o', τ', rest', ho', hτ⟩ := ih hρ
    exact ⟨o', τ', .again first' (ho₁.goesOn_eq.trans hon) rest', ho', hτ⟩
  | leave last hoff hout =>
    obtain ⟨o₁, τ', last', ho₁, hτ⟩ := h hσ last
    subst hout
    exact ⟨o₁.left, τ', .leave last' (ho₁.goesOn_eq.trans hoff) rfl, ho₁.left, hτ⟩

end Refines

end Behaviour

end ShaderGen
