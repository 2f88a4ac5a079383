import ShaderGen.Proofs.Induction
import ShaderGen.Proofs.Semantics.Execution

/-!
# Runs are determined

The behaviour of a statement is a relation, but from a state it ends in one way and in one state
only, if it ends at all. So a function that is called has one reply.

## Key results

- `Stmt.deterministic_behaviour`: a statement ends in one way only
- `Function.deterministic_runs`: the same for a function
-/

namespace ShaderGen

variable {α β : Type}

namespace Behaviour

/-- From every state there is at most one end. -/
def Deterministic (A : Behaviour α) : Prop :=
  ∀ ⦃σ o τ o' τ'⦄, A σ o τ → A σ o' τ' → o' = o ∧ τ' = τ

namespace Deterministic

variable {A B : Behaviour α}

/-- Leaving with an outcome is deterministic. -/
theorem exit (o : Outcome α) : Deterministic (Behaviour.exit o) := by
  rintro σ _ _ _ _ ⟨rfl, rfl⟩ ⟨rfl, rfl⟩
  exact ⟨rfl, rfl⟩

/-- So is doing nothing. -/
theorem skip : Deterministic (Behaviour.skip : Behaviour α) := exit .normal

/-- So is a change of the state by a function. -/
theorem change (f : State α → State α) : Deterministic (Behaviour.change f) := by
  rintro σ _ _ _ _ ⟨rfl, rfl⟩ ⟨rfl, rfl⟩
  exact ⟨rfl, rfl⟩

/-- So are two deterministic behaviours in sequence. -/
theorem seq (hA : Deterministic A) (hB : Deterministic B) : Deterministic (seq A B) := by
  -- Where only one of the two runs goes on after `A`, `A` would have ended in two ways.
  rintro σ o τ o' τ' (⟨ρ, ha, hb⟩ | ⟨ho, ha⟩) (⟨ρ', ha', hb'⟩ | ⟨ho', ha'⟩)
  · obtain ⟨-, rfl⟩ := hA ha ha'
    exact hB hb hb'
  · exact absurd (hA ha ha').1 ho'
  · exact absurd (hA ha' ha).1 ho
  · exact hA ha ha'

/-- So is a loop body followed by its step. -/
theorem andThen (hA : Deterministic A) (hB : Deterministic B) :
    Deterministic (andThen A B) := by
  rintro σ o τ o' τ' (⟨o₁, ρ, ha, hon, hb⟩ | ⟨hoff, ha⟩) (⟨o₂, ρ', ha', hon', hb'⟩ | ⟨hoff', ha'⟩)
  · -- The first behaviour ends in one way only, so the second runs after both or after neither.
    obtain ⟨rfl, rfl⟩ := hA ha ha'
    exact hB hb hb'
  · obtain ⟨rfl, rfl⟩ := hA ha ha'
    simp [hon] at hoff'
  · obtain ⟨rfl, rfl⟩ := hA ha' ha
    simp [hon'] at hoff
  · exact hA ha ha'

/-- So is a deterministic behaviour in a scope. -/
theorem inScope {names : List String} (hA : Deterministic A) :
    Deterministic (inScope names A) := by
  rintro σ o _ o' _ ⟨ρ, ha, rfl⟩ ⟨ρ', ha', rfl⟩
  obtain ⟨rfl, rfl⟩ := hA ha ha'
  exact ⟨rfl, rfl⟩

/-- So is what follows an evaluation. -/
theorem after {x : Eval α β} {k : β → Behaviour α} (hk : ∀ b, Deterministic (k b)) :
    Deterministic (after x k) := by
  intro σ o τ o' τ' h h'
  unfold Behaviour.after at h h'
  generalize x.run.run σ = r at h h'
  match r with
  | none => exact h.elim
  -- Evaluating an expression has one result, so only what comes after could differ.
  | some (.error _, ρ) =>
    obtain ⟨rfl, rfl⟩ := h
    obtain ⟨rfl, rfl⟩ := h'
    exact ⟨rfl, rfl⟩
  | some (.ok b, ρ) => exact hk b h h'

/-- So is a switch that catches its breaks. -/
theorem catchBreak (hA : Deterministic A) : Deterministic (catchBreak A) := by
  rintro σ _ τ _ τ' ⟨o, ha, rfl⟩ ⟨o', ha', rfl⟩
  obtain ⟨rfl, rfl⟩ := hA ha ha'
  exact ⟨rfl, rfl⟩

/-- So is a list of deterministic behaviours, one after the other. -/
theorem seqAll {As : List (Behaviour α)} (h : ∀ A ∈ As, Deterministic A) :
    Deterministic (seqAll As) := by
  induction As with
  | nil => exact skip
  | cons A As ih =>
    exact (h A List.mem_cons_self).seq (ih fun B hB => h B (List.mem_cons_of_mem A hB))

/-- So is a branch between two deterministic behaviours. -/
theorem branch (m : Machine α) (cond : Expr) (hA : Deterministic A) (hB : Deterministic B) :
    Deterministic (branch m cond A B) := by
  refine after fun vs => ?_
  split
  · exact hA
  · exact hB

/-- So is a test. -/
theorem test (m : Machine α) (cond : Expr) : Deterministic (test m cond) :=
  branch m cond skip (exit _)

/-- The turns of a loop are determined one after the other. -/
theorem forever {turn : Behaviour α} (h : Deterministic turn) : Deterministic (Forever turn) := by
  intro σ o τ o' τ' hrun hrun'
  -- By induction on the first run. The second cannot leave the loop at another turn, as that turn
  -- would then have ended in two ways.
  induction hrun generalizing o' τ' with
  | @again σ ρ τ o o₁ first hon rest ih =>
    cases hrun' with
    | again first' _ rest' =>
      obtain ⟨-, rfl⟩ := h first first'
      exact ih rest'
    | leave last' hoff _ =>
      obtain ⟨rfl, -⟩ := h first last'
      simp [hon] at hoff
  | @leave σ τ o o₁ last hoff hout =>
    cases hrun' with
    | again first' hon _ =>
      obtain ⟨rfl, -⟩ := h last first'
      simp [hon] at hoff
    | leave last' _ hout' =>
      obtain ⟨rfl, rfl⟩ := h last last'
      exact ⟨hout'.trans hout.symm, rfl⟩

end Deterministic

/-- The cases that run are among all the cases. -/
theorem mem_of_mem_selected {value : Int} {cases : List (Option Int × Behaviour α)}
    {c : Option Int × Behaviour α} (h : c ∈ selected value cases) : c ∈ cases := by
  unfold selected at h
  split at h
  · exact (List.dropWhile_sublist _).subset h
  · exact (List.dropWhile_sublist _).subset h

end Behaviour

open Behaviour

/-- A declaration is deterministic. -/
theorem Decl.deterministic_behaviour (m : Machine α) (d : Decl) :
    Deterministic (d.behaviour m) := by
  unfold Decl.behaviour
  split
  · exact .change _
  · exact .after fun vs => .change _

namespace Stmt

variable (m : Machine α)

/-- A list of deterministic statements is deterministic. -/
theorem deterministic_listBehaviour {ss : List Stmt}
    (h : ∀ s ∈ ss, Deterministic (s.behaviour m)) : Deterministic (listBehaviour m ss) := by
  induction ss with
  | nil => exact .skip
  | cons s ss ih =>
    exact (h s List.mem_cons_self).seq (ih fun t ht => h t (List.mem_cons_of_mem s ht))

/-- So are the cases of a switch with deterministic bodies. -/
theorem deterministic_caseBehaviours {cases : List Case}
    (h : ∀ label body, .mk label body ∈ cases → Deterministic (listBehaviour m body)) :
    ∀ b ∈ caseBehaviours m cases, Deterministic b.2 := by
  induction cases with
  | nil => exact fun b hb => absurd hb List.not_mem_nil
  | cons c cases ih =>
    obtain ⟨label, body⟩ := c
    refine List.forall_mem_cons.mpr ⟨h label body List.mem_cons_self, ih fun label' body' hc => ?_⟩
    exact h label' body' (List.mem_cons_of_mem _ hc)

/-- A statement ends in one way only. -/
theorem deterministic_behaviour (s : Stmt) : Deterministic (s.behaviour m) := by
  induction s with
  | block body ih => exact (deterministic_listBehaviour m ih).inScope
  | decl d => exact d.deterministic_behaviour m
  | ifElse cond thenBranch elseBranch iht ihe =>
    refine .branch m cond iht.inScope ?_
    cases elseBranch with
    | none => exact .skip
    | some s => exact (ihe s rfl).inScope
  | forLoop init cond step body ihi ihb =>
    -- A loop is deterministic when its four parts are, and any of three may be absent.
    have hinit : Deterministic (initBehaviour m init) := by
      cases init with
      | none => exact .skip
      | some s => exact ihi s rfl
    have hcond : Deterministic (cond.elim skip (test m)) := by
      cases cond with
      | none => exact .skip
      | some e => exact .test m e
    have hstep : Deterministic (step.elim skip fun e => after (e.eval m) fun _ => skip) := by
      cases step with
      | none => exact .skip
      | some e => exact .after fun _ => .skip
    exact (hinit.seq (hcond.seq (ihb.inScope.andThen hstep)).forever).inScope
  | whileLoop cond body ih => exact ((Deterministic.test m cond).seq ih.inScope).forever
  | doWhile body cond ih => exact (ih.inScope.andThen (.test m cond)).forever
  | switchOn value cases ih =>
    refine .after fun vs => .catchBreak (.inScope (.seqAll fun b hb => ?_))
    -- What runs is among the cases, and of these only the bodies matter.
    obtain ⟨c, hc, rfl⟩ := List.mem_map.mp hb
    exact deterministic_caseBehaviours m
      (fun label body hcase => deterministic_listBehaviour m (ih label body hcase)) c
      (mem_of_mem_selected hc)
  -- What is left are evaluations and exits.
  | expr e => exact .after fun _ => .skip
  | returnWith value =>
    cases value with
    | none => exact .exit _
    | some e => exact .after fun vs => .exit _
  | breakOut => exact .exit _
  | continueLoop => exact .exit _
  | discard => exact .exit _
  | emitVertex => exact .change _
  | endPrimitive => exact .change _

end Stmt

/-- A function ends in one way only. -/
theorem Function.deterministic_runs (m : Machine α) (f : Function) : Deterministic (f.Runs m) :=
  Stmt.deterministic_listBehaviour m fun s _ => s.deterministic_behaviour m

end ShaderGen
