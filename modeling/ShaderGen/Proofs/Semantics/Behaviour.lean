import ShaderGen.Proofs.Semantics.Machine

/-!
# How statements run

A statement relates the states it can start from to how it ends and the states it ends in; one that
runs forever relates nothing. The pieces that such behaviours are put together from are here: one
after the other, in a scope of its own, after an expression, and in a loop. A loop is a single
behaviour repeated (`Behaviour.Forever`): a turn that ends normally or continues is followed by the
next one, and what tests the condition breaks out.
-/

namespace ShaderGen

variable {α β : Type}

/-- How a statement ends. -/
inductive Outcome (α : Type) where
  | normal
  | breakOut
  | continueLoop
  | returned (value : Option (List α))
  | discarded

namespace Outcome

/-- Whether a loop goes on after its body has ended like this. -/
def goesOn : Outcome α → Bool
  | .normal | .continueLoop => true
  | _ => false

/-- How a loop or a `switch` ends that is left like this. -/
def left : Outcome α → Outcome α
  | .breakOut => .normal
  | o => o

end Outcome

/-- What a statement can do: from which state it ends how and in which state. -/
def Behaviour (α : Type) := State α → Outcome α → State α → Prop

namespace Behaviour

/-- Ends at once. -/
def exit (o : Outcome α) : Behaviour α := fun σ o' τ => o' = o ∧ τ = σ

/-- Does nothing. -/
def skip : Behaviour α := exit .normal

/-- Changes the state and ends normally. -/
def change (f : State α → State α) : Behaviour α := fun σ o τ => o = .normal ∧ τ = f σ

/-- The second after the first, if that ends normally. -/
def seq (A B : Behaviour α) : Behaviour α := fun σ o τ =>
  (∃ ρ, A σ .normal ρ ∧ B ρ o τ) ∨ (o ≠ .normal ∧ A σ o τ)

/-- The second after the first, if the loop goes on that the first is the body of. -/
def andThen (A B : Behaviour α) : Behaviour α := fun σ o τ =>
  (∃ o' ρ, A σ o' ρ ∧ o'.goesOn = true ∧ B ρ o τ) ∨ (o.goesOn = false ∧ A σ o τ)

/-- A scope in which names are declared. -/
def inScope (names : List String) (A : Behaviour α) : Behaviour α := fun σ o τ =>
  ∃ ρ, A σ o ρ ∧ τ = ρ.leave σ names

/-- Goes on with what is computed, unless the fragment is discarded on the way. -/
def after (x : Eval α β) (k : β → Behaviour α) : Behaviour α := fun σ o τ =>
  match x.run.run σ with
  | none => False
  | some (.error _, ρ) => o = .discarded ∧ τ = ρ
  | some (.ok b, ρ) => k b ρ o τ

/-- A break ends it normally. -/
def catchBreak (A : Behaviour α) : Behaviour α := fun σ o τ => ∃ o', A σ o' τ ∧ o = o'.left

/-- One turn after the other, until one of them leaves. -/
inductive Forever (turn : Behaviour α) : Behaviour α
  | again {σ ρ τ : State α} {o o' : Outcome α} (first : turn σ o' ρ) (h : o'.goesOn = true)
      (rest : Forever turn ρ o τ) : Forever turn σ o τ
  | leave {σ τ : State α} {o o' : Outcome α} (last : turn σ o' τ) (h : o'.goesOn = false)
      (ho : o = o'.left) : Forever turn σ o τ

/-- The behaviours of the cases of a `switch` that run for a value: from the one with its label on,
    or from the default on. -/
def selected (value : Int) (cases : List (Option Int × Behaviour α)) :
    List (Option Int × Behaviour α) :=
  match cases.dropWhile (·.1 != some value) with
  | [] => cases.dropWhile (·.1 != none)
  | found => found

/-- Several behaviours one after the other. -/
def seqAll (bs : List (Behaviour α)) : Behaviour α := bs.foldr seq skip

/-- What follows a value follows at once. -/
theorem after_pure (b : β) (k : β → Behaviour α) : after (pure b) k = k b := rfl

/-- What follows a bind follows its two parts in turn. -/
theorem after_bind {γ : Type} (x : Eval α β) (f : β → Eval α γ) (k : γ → Behaviour α) :
    after (x >>= f) k = after x fun b => after (f b) k := by
  funext σ o τ
  unfold after
  rw [ExceptT.run_bind, StateT.run_bind]
  rcases x.run.run σ with _ | ⟨_ | b, ρ⟩ <;> rfl

/-- What follows a map takes the mapped value. -/
theorem after_map {γ : Type} (f : β → γ) (x : Eval α β) (k : γ → Behaviour α) :
    after (f <$> x) k = after x fun b => k (f b) := by
  rw [← bind_pure_comp, after_bind]
  rfl

/-- Doing nothing afterwards changes nothing. -/
theorem seq_skip (A : Behaviour α) : seq A skip = A := by
  funext σ o τ
  refine propext ⟨?_, fun h => ?_⟩
  · rintro (⟨ρ, h, rfl, rfl⟩ | ⟨-, h⟩) <;> exact h
  · by_cases ho : o = .normal
    · subst ho
      exact .inl ⟨τ, h, rfl, rfl⟩
    · exact .inr ⟨ho, h⟩

/-- Nor does doing nothing first. -/
theorem skip_seq (A : Behaviour α) : seq skip A = A := by
  funext σ o τ
  refine propext ⟨?_, fun h => .inl ⟨σ, ⟨rfl, rfl⟩, h⟩⟩
  rintro (⟨ρ, ⟨-, rfl⟩, h⟩ | ⟨ho, rfl, -⟩)
  · exact h
  · exact absurd rfl ho

/-- Sequencing is associative. -/
theorem seq_assoc (A B C : Behaviour α) : seq (seq A B) C = seq A (seq B C) := by
  funext σ o τ
  refine propext ⟨?_, ?_⟩
  · -- Either all three run, or one of the first two exits and ends the sequence.
    rintro (⟨ρ, ⟨ρ', ha, hb⟩ | ⟨ho, -⟩, hc⟩ | ⟨ho, ⟨ρ, ha, hb⟩ | ⟨-, ha⟩⟩)
    · exact .inl ⟨ρ', ha, .inl ⟨ρ, hb, hc⟩⟩
    · exact absurd rfl ho
    · exact .inl ⟨ρ, ha, .inr ⟨ho, hb⟩⟩
    · exact .inr ⟨ho, ha⟩
  · rintro (⟨ρ, ha, ⟨ρ', hb, hc⟩ | ⟨ho, hb⟩⟩ | ⟨ho, ha⟩)
    · exact .inl ⟨ρ', .inl ⟨ρ, ha, hb⟩, hc⟩
    · exact .inr ⟨ho, .inl ⟨ρ, ha, hb⟩⟩
    · exact .inr ⟨ho, .inr ⟨ho, ha⟩⟩

/-- A scope that declares nothing is none. -/
theorem inScope_nil (A : Behaviour α) : inScope [] A = A := by
  funext σ o τ
  refine propext ⟨?_, fun h => ⟨τ, h, ?_⟩⟩
  · rintro ⟨ρ, h, rfl⟩
    simpa [State.leave] using h
  · simp [State.leave]

end Behaviour

end ShaderGen
