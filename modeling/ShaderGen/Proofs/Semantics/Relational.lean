import Mathlib.Data.List.Forall2
import ShaderGen.Proofs.Semantics.Behaviour

/-!
# Two runs side by side

What a rewritten program computes is compared with what the original does, run against run. For
computations this is a relational triple: from states that are related beforehand, both never
return, both discard the fragment, or both return, and then results and states are related
(`Eval.Relates`). For statements one relation between states is kept throughout
(`Behaviour.Bisimilar`). Both are closed under everything that expressions and statements are put
together from, so that only the places where the programs differ have to be looked at.

## Key results

- `Eval.Relates.bind`: computations one after the other
- `Behaviour.Bisimilar.seq`, `.andThen`, `.inScope`, `.after`, `.forever`: the pieces of a statement
-/

namespace ShaderGen

variable {α β γ : Type}

/-! ### Computations -/

namespace Eval

/-- Two computations that return end alike: both with a result, which are related along with the
    states, or both with the fragment discarded. -/
inductive Ends (E : State α → State α → Prop) (Q : β → γ → State α → State α → Prop) :
    Except Discarded β × State α → Except Discarded γ × State α → Prop
  | ok {b : β} {c : γ} {τ τ' : State α} (h : Q b c τ τ') : Ends E Q (.ok b, τ) (.ok c, τ')
  | error {d d' : Discarded} {τ τ' : State α} (h : E τ τ') : Ends E Q (.error d, τ) (.error d', τ')

/-- From related states two computations end alike, if one of them ends at all. -/
def Relates (E P : State α → State α → Prop) (Q : β → γ → State α → State α → Prop)
    (x : Eval α β) (y : Eval α γ) : Prop :=
  ∀ ⦃σ σ' : State α⦄, P σ σ' → Option.Rel (Ends E Q) (x.run.run σ) (y.run.run σ')

/-- Ends stay related by weaker relations. -/
theorem Ends.mono {E E' : State α → State α → Prop} {Q Q' : β → γ → State α → State α → Prop}
    (hE : ∀ τ τ', E τ τ' → E' τ τ') (hQ : ∀ b c τ τ', Q b c τ τ' → Q' b c τ τ')
    {r : Except Discarded β × State α} {r' : Except Discarded γ × State α} (h : Ends E Q r r') :
    Ends E' Q' r r' := by
  cases h with
  | ok h => exact .ok (hQ _ _ _ _ h)
  | error h => exact .error (hE _ _ h)

namespace Relates

variable {δ ε : Type} {E P : State α → State α → Prop} {Q : β → γ → State α → State α → Prop}
  {R : δ → ε → State α → State α → Prop} {x : Eval α β} {y : Eval α γ}

/-- Weaker demands on the ends may be made. -/
theorem mono {E' : State α → State α → Prop} {Q' : β → γ → State α → State α → Prop}
    (h : Relates E P Q x y) (hE : ∀ τ τ', E τ τ' → E' τ τ')
    (hQ : ∀ b c τ τ', Q b c τ τ' → Q' b c τ τ') : Relates E' P Q' x y := by
  intro σ σ' hσ
  have hrun := h hσ
  generalize x.run.run σ = r, y.run.run σ' = r' at hrun ⊢
  cases hrun with
  | none => exact .none
  | some hends => exact .some (hends.mono hE hQ)

/-- A weaker demand on the results may be made. -/
theorem post {Q' : β → γ → State α → State α → Prop} (h : Relates E P Q x y)
    (hQ : ∀ b c τ τ', Q b c τ τ' → Q' b c τ τ') : Relates E P Q' x y :=
  h.mono (fun _ _ => id) hQ

/-- A stronger demand on the states may be made. -/
theorem pre {P' : State α → State α → Prop} (h : Relates E P Q x y)
    (hP : ∀ σ σ', P' σ σ' → P σ σ') : Relates E P' Q x y :=
  fun _ _ hσ => h (hP _ _ hσ)

/-- A fact that holds beforehand can be assumed. -/
theorem assume {p : Prop} (h : p → Relates E P Q x y) :
    Relates E (fun σ σ' => p ∧ P σ σ') Q x y :=
  fun _ _ hσ => h hσ.1 hσ.2

/-- Values alone are related in any related states. -/
theorem pure {b : β} {c : γ} (h : ∀ σ σ', P σ σ' → Q b c σ σ') :
    Relates E P Q (pure b : Eval α β) (Pure.pure c : Eval α γ) :=
  fun σ σ' hσ => .some (.ok (h σ σ' hσ))

/-- Related changes of state are related. -/
theorem modify {f g : State α → State α} {Q : Unit → Unit → State α → State α → Prop}
    (h : ∀ σ σ', P σ σ' → Q () () (f σ) (g σ')) :
    Relates E P Q (modify f : Eval α Unit) (modify g) :=
  fun σ σ' hσ => .some (.ok (h σ σ' hσ))

/-- One computation after the other. -/
theorem bind {f : β → Eval α δ} {g : γ → Eval α ε} (h : Relates E P Q x y)
    (hf : ∀ b c, Relates E (Q b c) R (f b) (g c)) : Relates E P R (x >>= f) (y >>= g) := by
  intro σ σ' hσ
  rw [ExceptT.run_bind, StateT.run_bind, ExceptT.run_bind, StateT.run_bind]
  have hrun := h hσ
  generalize x.run.run σ = r, y.run.run σ' = r' at hrun
  -- Both evaluations diverge, or both end in the same way.
  cases hrun with
  | none => exact .none
  | some hends =>
    cases hends with
    | ok hQ => exact hf _ _ hQ
    | error hE => exact .some (.error hE)

/-- Functions of related results are related if they keep them so. -/
theorem map {f : β → δ} {g : γ → ε} (h : Relates E P Q x y)
    (hf : ∀ b c τ τ', Q b c τ τ' → R (f b) (g c) τ τ') : Relates E P R (f <$> x) (g <$> y) := by
  rw [← bind_pure_comp, ← bind_pure_comp]
  exact h.bind fun b c => .pure fun τ τ' => hf b c τ τ'

/-- What the first computation always returns can be assumed afterwards. -/
theorem of_left {L : β → Prop} (h : Relates E P Q x y)
    (hL : ∀ σ b τ, x.run.run σ = some (.ok b, τ) → L b) :
    Relates E P (fun b c τ τ' => L b ∧ Q b c τ τ') x y := by
  intro σ σ' hσ
  have hrun := h hσ
  -- What is known of the result is kept before the run is forgotten.
  have hresult := hL σ
  generalize x.run.run σ = r, y.run.run σ' = r' at hrun hresult ⊢
  cases hrun with
  | none => exact .none
  | some hends =>
    cases hends with
    | ok hQ => exact .some (.ok ⟨hresult _ _ rfl, hQ⟩)
    | error hE => exact .some (.error hE)

/-- The roles of the two computations are alike. -/
theorem symm (h : Relates E P Q x y) :
    Relates (flip E) (flip P) (fun c b τ' τ => Q b c τ τ') y x := by
  intro σ' σ hσ
  have hrun := h (show P σ σ' from hσ)
  generalize x.run.run σ = r, y.run.run σ' = r' at hrun ⊢
  cases hrun with
  | none => exact .none
  | some hends =>
    cases hends with
    | ok hQ => exact .some (.ok hQ)
    | error hE => exact .some (.error hE)

end Relates

end Eval

/-! ### Statements -/

namespace Behaviour

/-- Whatever the first behaviour does, the second does from a related state, and the states in
    which they end are related again. -/
def Simulates (P : State α → State α → Prop) (A B : Behaviour α) : Prop :=
  ∀ ⦃σ σ' : State α⦄, P σ σ' → ∀ ⦃o : Outcome α⦄ ⦃τ : State α⦄, A σ o τ →
    ∃ τ', B σ' o τ' ∧ P τ τ'

/-- Computations that end alike, with results that are related; the states stay related. -/
abbrev Continues (P : State α → State α → Prop) (R : β → γ → Prop) (x : Eval α β)
    (y : Eval α γ) : Prop :=
  Eval.Relates P P (fun b c τ τ' => R b c ∧ P τ τ') x y

namespace Simulates

variable {P : State α → State α → Prop} {A A' B B' : Behaviour α}

/-- The same exit simulates itself. -/
theorem exit (o : Outcome α) : Simulates P (exit o) (exit o) := by
  rintro σ σ' hσ _ _ ⟨rfl, rfl⟩
  exact ⟨σ', ⟨rfl, rfl⟩, hσ⟩

/-- Changes simulate if they keep the states related. -/
theorem change {f g : State α → State α} (h : ∀ σ σ', P σ σ' → P (f σ) (g σ')) :
    Simulates P (change f) (change g) := by
  rintro σ σ' hσ _ _ ⟨rfl, rfl⟩
  exact ⟨g σ', ⟨rfl, rfl⟩, h σ σ' hσ⟩

/-- Behaviours in a row simulate if both do. -/
theorem seq (hA : Simulates P A A') (hB : Simulates P B B') :
    Simulates P (seq A B) (seq A' B') := by
  rintro σ σ' hσ o τ (⟨ρ, ha, hb⟩ | ⟨ho, ha⟩)
  · obtain ⟨ρ', ha', hρ⟩ := hA hσ ha
    obtain ⟨τ', hb', hτ⟩ := hB hρ hb
    exact ⟨τ', .inl ⟨ρ', ha', hb'⟩, hτ⟩
  · obtain ⟨τ', ha', hτ⟩ := hA hσ ha
    exact ⟨τ', .inr ⟨ho, ha'⟩, hτ⟩

/-- The same where a `continue` goes on to the second. -/
theorem andThen (hA : Simulates P A A') (hB : Simulates P B B') :
    Simulates P (andThen A B) (andThen A' B') := by
  rintro σ σ' hσ o τ (⟨o₁, ρ, ha, ho, hb⟩ | ⟨ho, ha⟩)
  · obtain ⟨ρ', ha', hρ⟩ := hA hσ ha
    obtain ⟨τ', hb', hτ⟩ := hB hρ hb
    exact ⟨τ', .inl ⟨o₁, ρ', ha', ho, hb'⟩, hτ⟩
  · obtain ⟨τ', ha', hτ⟩ := hA hσ ha
    exact ⟨τ', .inr ⟨ho, ha'⟩, hτ⟩

/-- A scope simulates if leaving it keeps the states related. -/
theorem inScope {names names' : List String}
    (hleave : ∀ ρ ρ' σ σ', P ρ ρ' → P σ σ' → P (ρ.leave σ names) (ρ'.leave σ' names'))
    (hA : Simulates P A A') : Simulates P (inScope names A) (inScope names' A') := by
  rintro σ σ' hσ o _ ⟨ρ, ha, rfl⟩
  obtain ⟨ρ', ha', hρ⟩ := hA hσ ha
  exact ⟨_, ⟨ρ', ha', rfl⟩, hleave ρ ρ' σ σ' hρ hσ⟩

/-- A behaviour after a value simulates if value and behaviour do. -/
theorem after {R : β → γ → Prop} {x : Eval α β} {y : Eval α γ} {k : β → Behaviour α}
    {k' : γ → Behaviour α} (hx : Continues P R x y)
    (hk : ∀ b c, R b c → Simulates P (k b) (k' c)) : Simulates P (after x k) (after y k') := by
  intro σ σ' hσ o τ h
  have hrun := hx hσ
  unfold Behaviour.after at h ⊢
  -- Where one evaluation diverges there is no run to simulate.
  generalize x.run.run σ = r, y.run.run σ' = r' at hrun h
  cases hrun with
  | none => exact h.elim
  | some hends =>
    cases hends with
    | ok hQ => exact hk _ _ hQ.1 hQ.2 h
    | error hP => exact ⟨_, ⟨h.1, rfl⟩, h.2 ▸ hP⟩

/-- Catching a break simulates, as the states stay. -/
theorem catchBreak (hA : Simulates P A A') : Simulates P (catchBreak A) (catchBreak A') := by
  rintro σ σ' hσ o τ ⟨o₁, ha, ho⟩
  obtain ⟨τ', ha', hτ⟩ := hA hσ ha
  exact ⟨τ', ⟨o₁, ha', ho⟩, hτ⟩

/-- A loop does turn by turn what another does. -/
theorem forever {turn turn' : Behaviour α} (h : Simulates P turn turn') :
    Simulates P (Forever turn) (Forever turn') := by
  intro σ σ' hσ o τ hrun
  -- By induction on the run of the loop; each turn has a counterpart.
  induction hrun generalizing σ' with
  | again first ho rest ih =>
    obtain ⟨ρ', first', hρ⟩ := h hσ first
    obtain ⟨τ', rest', hτ⟩ := ih hρ
    exact ⟨τ', .again first' ho rest', hτ⟩
  | leave last ho hout =>
    obtain ⟨τ', last', hτ⟩ := h hσ last
    exact ⟨τ', .leave last' ho hout, hτ⟩

end Simulates

/-- Each of two behaviours does what the other does, from related states to related states. -/
structure Bisimilar (P : State α → State α → Prop) (A B : Behaviour α) : Prop where
  forward : Simulates P A B
  backward : Simulates (flip P) B A

namespace Bisimilar

variable {P : State α → State α → Prop} {A A' B B' : Behaviour α}

/-- The same holds in both directions of an exit. -/
theorem exit (o : Outcome α) : Bisimilar P (exit o) (exit o) := ⟨.exit o, .exit o⟩

/-- It holds of doing nothing. -/
theorem skip : Bisimilar P (skip : Behaviour α) Behaviour.skip := exit .normal

/-- It holds of related changes. -/
theorem change {f g : State α → State α} (h : ∀ σ σ', P σ σ' → P (f σ) (g σ')) :
    Bisimilar P (change f) (change g) :=
  ⟨.change h, .change fun σ' σ hσ => h σ σ' hσ⟩

/-- It holds of behaviours in a row. -/
theorem seq (hA : Bisimilar P A A') (hB : Bisimilar P B B') :
    Bisimilar P (seq A B) (seq A' B') :=
  ⟨hA.forward.seq hB.forward, hA.backward.seq hB.backward⟩

/-- It holds where a `continue` goes on to the second. -/
theorem andThen (hA : Bisimilar P A A') (hB : Bisimilar P B B') :
    Bisimilar P (andThen A B) (andThen A' B') :=
  ⟨hA.forward.andThen hB.forward, hA.backward.andThen hB.backward⟩

/-- It holds of scopes. -/
theorem inScope {names names' : List String}
    (hleave : ∀ ρ ρ' σ σ', P ρ ρ' → P σ σ' → P (ρ.leave σ names) (ρ'.leave σ' names'))
    (hA : Bisimilar P A A') : Bisimilar P (inScope names A) (inScope names' A') :=
  ⟨hA.forward.inScope hleave,
    hA.backward.inScope fun ρ' ρ σ' σ hρ hσ => hleave ρ ρ' σ σ' hρ hσ⟩

/-- It holds of behaviours after a value. -/
theorem after {R : β → γ → Prop} {x : Eval α β} {y : Eval α γ} {k : β → Behaviour α}
    {k' : γ → Behaviour α} (hx : Continues P R x y)
    (hk : ∀ b c, R b c → Bisimilar P (k b) (k' c)) : Bisimilar P (after x k) (after y k') :=
  ⟨.after hx fun b c hbc => (hk b c hbc).forward,
    .after hx.symm fun c b hbc => (hk b c hbc).backward⟩

/-- It holds of breaks that are caught. -/
theorem catchBreak (hA : Bisimilar P A A') : Bisimilar P (catchBreak A) (catchBreak A') :=
  ⟨hA.forward.catchBreak, hA.backward.catchBreak⟩

/-- It holds of lists of behaviours. -/
theorem seqAll {As Bs : List (Behaviour α)} (h : List.Forall₂ (Bisimilar P) As Bs) :
    Bisimilar P (seqAll As) (seqAll Bs) := by
  induction h with
  | nil => exact skip
  | cons hA _ ih => exact hA.seq ih

/-- It holds of loops. -/
theorem forever {turn turn' : Behaviour α} (h : Bisimilar P turn turn') :
    Bisimilar P (Forever turn) (Forever turn') :=
  ⟨h.forward.forever, h.backward.forever⟩

/-- What only the second behaviour does before it starts may establish a closer relation. -/
theorem prelude {Q : State α → State α → Prop} {g : State α → State α} (h : Bisimilar Q A B)
    (hg : ∀ σ σ', P σ σ' → Q σ (g σ')) (hQ : ∀ σ σ', Q σ σ' → P σ σ') :
    Bisimilar P A (Behaviour.seq (Behaviour.change g) B) where
  forward σ σ' hσ o τ ha := by
    obtain ⟨τ', hb, hτ⟩ := h.forward (hg σ σ' hσ) ha
    exact ⟨τ', .inl ⟨g σ', ⟨rfl, rfl⟩, hb⟩, hQ τ τ' hτ⟩
  backward σ' σ hσ o τ' hrun := by
    -- The change in front always ends normally, so the rest has run.
    rcases hrun with ⟨_, ⟨-, rfl⟩, hb⟩ | ⟨ho, rfl, -⟩
    · obtain ⟨τ, ha, hτ⟩ := h.backward (show flip Q (g σ') σ from hg σ σ' hσ) hb
      exact ⟨τ, ha, hQ τ τ' hτ⟩
    · exact absurd rfl ho

end Bisimilar

end Behaviour

end ShaderGen
