import Mathlib.Data.List.Forall2
import ShaderGen.Proofs.Semantics.Execution
import ShaderGen.Proofs.Semantics.Hidden
import ShaderGen.Proofs.Semantics.Relational

/-!
# Statements with added variables

`Behaviour.Matches` says that a behaviour with variables of its own does what one without them
does: from states that look the same both end the same way in states that look the same, and
whichever of the two can run, the other can. The added variables that it does not declare for the
statements around it keep their values. Everything that statements are put together from respects
this.

## Key results

- `Behaviour.Matches.bisimilar`: both directions as one simulation
- `Behaviour.Matches.seq`, `.andThen`, `.inScope`, `.after`, `.forever`: the pieces of a statement
-/

namespace ShaderGen

variable {α β : Type} (hidden : String → Bool)

namespace Behaviour

/-- The second behaviour does what the first does, save for locals with hidden names. Of these it
    changes only some that it declares. -/
structure Matches (names : List String) (A B : Behaviour α) : Prop where
  forward {σ σ' τ : State α} {o : Outcome α} : σ.visible hidden = σ'.visible hidden → A σ o τ →
    ∃ τ', B σ' o τ' ∧ τ.visible hidden = τ'.visible hidden
  backward {σ σ' τ' : State α} {o : Outcome α} : σ.visible hidden = σ'.visible hidden → B σ' o τ' →
    ∃ τ, A σ o τ ∧ τ.visible hidden = τ'.visible hidden
  keeps {σ' τ' : State α} {o : Outcome α} : B σ' o τ' → σ'.Keeps hidden names τ'

namespace Matches

variable {hidden} {names names' : List String} {A A' B B' : Behaviour α}

/-- More names may be kept out. -/
theorem mono (h : Matches hidden names A A') (hsub : ∀ x ∈ names, x ∈ names') :
    Matches hidden names' A A' :=
  { h with keeps := fun hA => (h.keeps hA).mono hsub }

/-- Both directions as one simulation of states that look the same. -/
theorem bisimilar (h : Matches hidden names A B) :
    Bisimilar (fun σ σ' => σ.visible hidden = σ'.visible hidden) A B :=
  ⟨fun _ _ hσ _ _ ha => h.forward hσ ha, fun _ _ hσ _ _ hb => h.backward hσ hb⟩

/-- Behaviours that go together match, when the second touches nothing else. -/
theorem of_bisimilar (h : Bisimilar (fun σ σ' => σ.visible hidden = σ'.visible hidden) A B)
    (hkeeps : ∀ {σ' τ' : State α} {o : Outcome α}, B σ' o τ' → σ'.Keeps hidden names τ') :
    Matches hidden names A B where
  forward hσ ha := h.forward hσ ha
  backward {σ σ'} _ _ hσ hb :=
    h.backward (show flip (fun σ σ' => σ.visible hidden = σ'.visible hidden) σ' σ from hσ) hb
  keeps := hkeeps

/-- Leaving with an outcome matches itself. -/
theorem exit (o : Outcome α) : Matches hidden [] (Behaviour.exit o) (Behaviour.exit o) :=
  of_bisimilar (.exit o) fun h => h.2 ▸ .refl

/-- So does doing nothing. -/
theorem skip : Matches hidden [] (Behaviour.skip : Behaviour α) Behaviour.skip := exit .normal

/-- So does a change that does not look at what is hidden. -/
theorem change {f : State α → State α}
    (h : ∀ σ σ' : State α, σ.visible hidden = σ'.visible hidden →
      (f σ).visible hidden = (f σ').visible hidden)
    (hkeeps : ∀ σ : State α, σ.Keeps hidden names (f σ)) :
    Matches hidden names (Behaviour.change f) (Behaviour.change f) :=
  of_bisimilar (.change h) fun hA => hA.2 ▸ hkeeps _

/-- Matching behaviours match in sequence. -/
theorem seq (hA : Matches hidden names A A') (hB : Matches hidden names B B') :
    Matches hidden names (seq A B) (seq A' B') := by
  refine of_bisimilar (hA.bisimilar.seq hB.bisimilar) fun h => ?_
  rcases h with ⟨ρ, ha, hb⟩ | ⟨-, ha⟩
  · exact (hA.keeps ha).trans (hB.keeps hb)
  · exact hA.keeps ha

/-- So do loop bodies with their steps. -/
theorem andThen (hA : Matches hidden names A A') (hB : Matches hidden names B B') :
    Matches hidden names (andThen A B) (andThen A' B') := by
  refine of_bisimilar (hA.bisimilar.andThen hB.bisimilar) fun h => ?_
  rcases h with ⟨o, ρ, ha, -, hb⟩ | ⟨-, ha⟩
  · exact (hA.keeps ha).trans (hB.keeps hb)
  · exact hA.keeps ha

/-- A scope restores what is declared in it, added variables included. -/
theorem inScope {outer : List String} (hA : Matches hidden names' A A')
    (hnames : ∀ x, hidden x = false → (x ∈ names' ↔ x ∈ names)) :
    Matches hidden outer (inScope names A) (inScope names' A') := by
  have hscope : Bisimilar _ (Behaviour.inScope names A) (Behaviour.inScope names' A') :=
    hA.bisimilar.inScope fun _ _ _ _ hρ hσ => State.visible_leave hρ hσ hnames
  refine of_bisimilar hscope fun h => ?_
  obtain ⟨ρ', ha', rfl⟩ := h
  -- An added variable is either declared in the scope, and restored, or kept by the body.
  intro x hx _
  by_cases hmem : x ∈ names'
  · exact if_pos hmem
  · exact (if_neg hmem).trans (hA.keeps ha' x hx hmem)

/-- So do switches that catch their breaks. -/
theorem catchBreak (hA : Matches hidden names A A') :
    Matches hidden names (catchBreak A) (catchBreak A') := by
  refine of_bisimilar hA.bisimilar.catchBreak fun h => ?_
  obtain ⟨o', ha', -⟩ := h
  exact hA.keeps ha'

/-- Goes on alike with what is computed without seeing the added variables. -/
theorem after {P : β → Prop} {x : Eval α β} {k k' : β → Behaviour α} (hx : x.Blind hidden P)
    (hk : ∀ b, Matches hidden names (k b) (k' b)) :
    Matches hidden names (after x k) (after x k') := by
  -- Whether the values that are not seen differ makes no difference to what is computed.
  have hcontinues : Continues (fun σ σ' => σ.visible hidden = σ'.visible hidden) Eq x x := by
    intro σ σ' hσ
    have hrel := hx σ σ' hσ
    generalize x.run.run σ = r, x.run.run σ' = r' at hrel ⊢
    cases hrel with
    | none => exact .none
    | @some r r' hr =>
      obtain ⟨r, ρ⟩ := r
      obtain ⟨s, ρ'⟩ := r'
      obtain ⟨rfl, hρ, -⟩ := hr
      cases s with
      | error d => exact .some (.error hρ)
      | ok b => exact .some (.ok ⟨rfl, hρ⟩)
  -- What is left to show is that the second run keeps the added variables.
  refine of_bisimilar (.after hcontinues fun b c hbc => hbc ▸ (hk b).bisimilar) ?_
  intro σ' τ' o h
  have hrel := hx σ' σ' rfl
  unfold Behaviour.after at h
  generalize x.run.run σ' = r at hrel h
  cases hrel with
  | none => exact h.elim
  | @some r r' hr =>
    obtain ⟨r, ρ⟩ := r
    obtain ⟨-, -, hkeeps, -⟩ := hr
    have hkeeps' := hkeeps.mono (by simp : ∀ x ∈ [], x ∈ names)
    cases r with
    | error d => exact h.2 ▸ hkeeps'
    | ok b => exact hkeeps'.trans ((hk b).keeps h)

/-- A variable with a name that is not hidden is declared alike. -/
theorem declare {name : String} (h : hidden name = false) (content : Nat → α) :
    Matches hidden [] (declare name content) (declare name content) := by
  refine change (fun σ σ' hσ => ?_) fun σ x hx _ => ?_
  · rw [State.visible_setLocal h, State.visible_setLocal h, hσ]
  · have hne : x ≠ name := by
      rintro rfl
      simp [hx] at h
    exact if_neg hne

/-- An action that is not hidden matches itself. -/
theorem act (action : (Variable → Nat → α) → Action α)
    (h : ∀ shared, (action shared).isHidden hidden = false) :
    Matches hidden [] (Behaviour.change fun σ => σ.act (action σ.shared))
      (Behaviour.change fun σ => σ.act (action σ.shared)) := by
  refine change (fun σ σ' hσ => ?_) fun σ x _ _ => rfl
  have hshared : σ.shared = σ'.shared := by
    simpa [State.visible] using congrArg State.shared hσ
  rw [State.visible_act (h _), State.visible_act (h _), hσ, hshared]

/-- So do lists of matching behaviours. -/
theorem seqAll {As Bs : List (Behaviour α)} (h : List.Forall₂ (Matches hidden names) As Bs) :
    Matches hidden names (seqAll As) (seqAll Bs) := by
  induction h with
  | nil => exact skip.mono (by simp)
  | cons hA _ ih => exact hA.seq ih

/-- A branch matches when its condition mentions nothing hidden and its arms match. -/
theorem branch {cond : Expr} (m : Machine α) (hcond : cond.mentions hidden = false)
    (hA : Matches hidden names A A') (hB : Matches hidden names B B') :
    Matches hidden names (branch m cond A B) (branch m cond A' B') :=
  after (Expr.blind_values m hcond) fun vs => by
    split
    · exact hA
    · exact hB

/-- So does a test. -/
theorem test {cond : Expr} (m : Machine α) (hcond : cond.mentions hidden = false) :
    Matches hidden [] (test m cond) (test m cond) :=
  branch m hcond skip (exit _)

/-- Loops with matching turns match. -/
theorem forever {turn turn' : Behaviour α} (h : Matches hidden names turn turn') :
    Matches hidden names (Forever turn) (Forever turn') := by
  refine of_bisimilar h.bisimilar.forever fun hrun => ?_
  induction hrun with
  | again first ho rest ih => exact (h.keeps first).trans ih
  | leave last ho hout => exact h.keeps last

end Matches

/-! ### The cases that run -/

/-- Related lists are related from the first element on that two equal tests find. -/
theorem forall₂_dropWhile {β γ : Type} {R : β → γ → Prop} {p : β → Bool} {q : γ → Bool}
    {bs : List β} {cs : List γ} (h : List.Forall₂ R bs cs) (hpq : ∀ b c, R b c → p b = q c) :
    List.Forall₂ R (bs.dropWhile p) (cs.dropWhile q) := by
  induction h with
  | nil => exact .nil
  | @cons b c bs cs hR hrest ih =>
    rw [List.dropWhile_cons, List.dropWhile_cons, hpq b c hR]
    split
    · exact ih
    · exact .cons hR hrest

/-- Cases with the same labels are selected alike. -/
theorem forall₂_selected {R : Option Int × Behaviour α → Option Int × Behaviour β → Prop}
    {bs : List (Option Int × Behaviour α)} {cs : List (Option Int × Behaviour β)}
    (h : List.Forall₂ R bs cs)
    (hlabel : ∀ b c, R b c → c.1 = b.1) (value : Int) :
    List.Forall₂ R (selected value bs) (selected value cs) := by
  have hfound := forall₂_dropWhile (p := (·.1 != some value)) (q := (·.1 != some value)) h
    fun b c hR => by rw [hlabel b c hR]
  have hdefault := forall₂_dropWhile (p := (·.1 != none)) (q := (·.1 != none)) h
    fun b c hR => by rw [hlabel b c hR]
  -- The cases from the default label on run only where no case has the value.
  unfold selected
  generalize bs.dropWhile (·.1 != some value) = found, cs.dropWhile (·.1 != some value) = found'
    at hfound
  cases hfound with
  | nil => exact hdefault
  | cons hR hrest => exact .cons hR hrest

end Behaviour

end ShaderGen
