import Mathlib.Data.List.Forall2
import ShaderGen.Scratch

/-!
# Two computations side by side

A `Pairing` tells of two computations that what they return is related. It can be used step by step:
computations that return related values go on alike if what is done with related values does. The
walks over programs are written for any monad, so one lemma for each of them serves every kind of
computation; the pairings of states and of failures are put together from smaller ones.

## Key results

- `Pairing.mapM`: computations one after the other over related lists
- `Pairing.state`, `Pairing.except`: what is known of two states is kept, and both computations fail
  in the same way or not at all
-/

namespace ShaderGen

/-- A way to tell that two computations return related values. -/
structure Pairing (m : Type → Type) [Monad m] where
  /-- what the two computations return is related -/
  Holds {α β : Type} (R : α → β → Prop) (x : m α) (y : m β) : Prop
  pure {α β : Type} {R : α → β → Prop} {a : α} {b : β} (h : R a b) :
    Holds R (Pure.pure a) (Pure.pure b)
  bind {α β α' β' : Type} {R : α → β → Prop} {S : α' → β' → Prop} {x : m α} {y : m β}
    {f : α → m α'} {g : β → m β'} (h : Holds R x y) (hf : ∀ a b, R a b → Holds S (f a) (g b)) :
    Holds S (x >>= f) (y >>= g)

/-- Two results are both the same failure, or both related values. -/
inductive Except.Pairs {ε α β : Type} (R : α → β → Prop) : Except ε α → Except ε β → Prop
  | error (e : ε) : Pairs R (.error e) (.error e)
  | ok {a : α} {b : β} (h : R a b) : Pairs R (.ok a) (.ok b)

namespace Pairing

variable {m : Type → Type} [Monad m] {α β α' β' : Type} {R : α → β → Prop}

/-- Both computations take the same branch. -/
theorem branch (J : Pairing m) {c : Prop} [Decidable c] {x x' : m α} {y y' : m β}
    (h : J.Holds R x y) (h' : J.Holds R x' y') :
    J.Holds R (if c then x else x') (if c then y else y') := by
  split
  · exact h
  · exact h'

section

variable [LawfulMonad m] (J : Pairing m)

/-- What both computations do to their results is done to related values. -/
theorem map {S : α' → β' → Prop} {x : m α} {y : m β} {f : α → α'} {g : β → β'}
    (h : J.Holds R x y) (hf : ∀ a b, R a b → S (f a) (g b)) : J.Holds S (f <$> x) (g <$> y) := by
  rw [← bind_pure_comp, ← bind_pure_comp]
  exact J.bind h fun a b hab => J.pure (hf a b hab)

/-- Computations one after the other over related values return related values. -/
theorem mapM {S : α' → β' → Prop} {f : α → m α'} {g : β → m β'} {as : List α} {bs : List β}
    (h : List.Forall₂ R as bs) (hf : ∀ a ∈ as, ∀ b, R a b → J.Holds S (f a) (g b)) :
    J.Holds (List.Forall₂ S) (as.mapM f) (bs.mapM g) := by
  induction h with
  | nil =>
    rw [List.mapM_nil, List.mapM_nil]
    exact J.pure .nil
  -- The first elements are related, and so are the two results.
  | cons hab _ ih =>
    rw [List.mapM_cons, List.mapM_cons]
    refine J.bind (hf _ List.mem_cons_self _ hab) fun a' b' hab' => ?_
    refine J.bind (ih fun a ha => hf a (List.mem_cons_of_mem _ ha)) fun as' bs' has => ?_
    exact J.pure (.cons hab' has)

/-- The same for a value that need not be there. -/
theorem mapM_option {S : α' → β' → Prop} {f : α → m α'} {g : β → m β'} {o : Option α}
    {o' : Option β} (h : Option.Rel R o o') (hf : ∀ a b, R a b → J.Holds S (f a) (g b)) :
    J.Holds (Option.Rel S) (o.mapM f) (o'.mapM g) := by
  cases h with
  | none => exact J.pure .none
  | some hab => exact J.map (hf _ _ hab) fun a' b' hab' => .some hab'

end

/-! ### Pairings -/

/-- Two values are related. -/
def values : Pairing Id where
  Holds R x y := R x.run y.run
  pure h := h
  bind h hf := hf _ _ h

/-- The computations start in related states, and leave related ones. -/
def state {σ : Type} (J : Pairing m) (P : σ → σ → Prop) : Pairing (StateT σ m) where
  Holds {α β} R x y := ∀ s t, P s t →
    J.Holds (fun (r : α × σ) (r' : β × σ) => R r.1 r'.1 ∧ P r.2 r'.2) (x.run s) (y.run t)
  pure h _ _ hst := J.pure ⟨h, hst⟩
  bind h hf s t hst := J.bind (h s t hst) fun _ _ hr => hf _ _ hr.1 _ _ hr.2

/-- Both computations fail in the same way, or neither does. -/
def except {ε : Type} (J : Pairing m) : Pairing (ExceptT ε m) where
  Holds R x y := J.Holds (Except.Pairs R) x.run y.run
  pure h := J.pure (.ok h)
  bind {_ _ _ _ _ _ x y f g} h hf := by
    refine J.bind h fun r r' hr => ?_
    cases hr with
    | error e => exact J.pure (.error e)
    | ok hab => exact hf _ _ hab

/-- Two computations that can do nothing but fail do so in the same way, or neither does. -/
def failing (ε : Type) : Pairing (Except ε) where
  Holds R x y := Except.Pairs R x y
  pure h := .ok h
  bind h hf := by
    cases h with
    | error e => exact .error e
    | ok hab => exact hf _ _ hab

/-- Changes of the two states. -/
theorem changes {σ : Type} (J : Pairing m) {P : σ → σ → Prop} {f g : σ → σ}
    (hf : ∀ s t, P s t → P (f s) (g t)) :
    (J.state P).Holds (fun _ _ => True) (modify f : StateT σ m PUnit) (modify g) :=
  fun s t hst => J.pure ⟨trivial, hf s t hst⟩

end Pairing

end ShaderGen
