import ShaderGen.Proofs.Checked
import ShaderGen.Proofs.Semantics.Execution

/-!
# Ways out of a function

A function can return from any depth of its body. Changing the state on the way out of every return
commutes with whatever statements are put together from (`Behaviour.onReturn`), so putting a
statement in front of every return does to a run what the statement does, once, if the run returns
(`Stmt.expand_onReturn`).

## Key results

- `Behaviour.onReturn_seq`, `Behaviour.onReturn_forever`: changing the state on the way out commutes
  with what statements are put together from
- `Stmt.expand_onReturn`: a statement in front of every return of another one
-/

namespace ShaderGen

variable {α β : Type}

/-- Whether a function is left by a return. -/
def Outcome.returns : Outcome α → Bool
  | .returned _ => true
  | _ => false

/-- Whether a function is left by a return or at its end. -/
def Outcome.exits : Outcome α → Bool
  | .normal | .returned _ => true
  | _ => false

namespace Behaviour

/-- Changes the state at the end, if it ends in a certain way. -/
def atEnd (ends : Outcome α → Bool) (g : State α → State α) (A : Behaviour α) : Behaviour α :=
  fun σ o τ => ∃ ρ, A σ o ρ ∧ τ = if ends o then g ρ else ρ

/-- Changes the state on the way out of a return. -/
abbrev onReturn (g : State α → State α) (A : Behaviour α) : Behaviour α :=
  atEnd Outcome.returns g A

/-- Changes the state where a function is left by a return or at its end. -/
abbrev onExit (g : State α → State α) (A : Behaviour α) : Behaviour α :=
  atEnd Outcome.exits g A

variable {g : State α → State α} {A B : Behaviour α}

/-- Where the state is not changed, nothing else is. -/
theorem atEnd_of_false {ends : Outcome α → Bool} (h : ∀ σ o τ, A σ o τ → ends o = false) :
    atEnd ends g A = A := by
  funext σ o τ
  refine propext ⟨?_, fun ha => ⟨τ, ha, by simp [h σ o τ ha]⟩⟩
  rintro ⟨ρ, ha, rfl⟩
  simpa [h σ o ρ ha] using ha

/-- An exit that is no return stays as it is. -/
theorem onReturn_exit {o : Outcome α} (h : o.returns = false) : onReturn g (exit o) = exit o :=
  atEnd_of_false fun _ _ _ ho => ho.1 ▸ h

/-- Doing nothing returns nothing. -/
theorem onReturn_skip : onReturn g skip = skip := onReturn_exit rfl

/-- A change of the state returns nothing. -/
theorem onReturn_change (f : State α → State α) : onReturn g (change f) = change f :=
  atEnd_of_false fun _ _ _ ho => ho.1 ▸ rfl

/-- A change just before a return is a change on the way out of it. -/
theorem onReturn_exit_returned (value : Option (List α)) :
    onReturn g (exit (.returned value)) = seq (change g) (exit (.returned value)) := by
  funext σ o τ
  refine propext ⟨?_, ?_⟩
  · rintro ⟨_, ⟨rfl, rfl⟩, rfl⟩
    exact .inl ⟨g _, ⟨rfl, rfl⟩, rfl, rfl⟩
  · rintro (⟨_, ⟨-, rfl⟩, rfl, rfl⟩ | ⟨ho, rfl, -⟩)
    · exact ⟨σ, ⟨rfl, rfl⟩, rfl⟩
    · exact absurd rfl ho

/-- A return in either part is a return of both in a row. -/
theorem onReturn_seq : onReturn g (seq A B) = seq (onReturn g A) (onReturn g B) := by
  funext σ o τ
  refine propext ⟨?_, ?_⟩
  · -- A return from the first part ends the sequence, so the change is made once.
    rintro ⟨ρ, ⟨υ, ha, hb⟩ | ⟨ho, ha⟩, rfl⟩
    · exact .inl ⟨υ, ⟨υ, ha, rfl⟩, ρ, hb, rfl⟩
    · exact .inr ⟨ho, ρ, ha, rfl⟩
  · rintro (⟨υ, ⟨_, ha, rfl⟩, ρ, hb, rfl⟩ | ⟨ho, ρ, ha, rfl⟩)
    · exact ⟨ρ, .inl ⟨υ, ha, hb⟩, rfl⟩
    · exact ⟨ρ, .inr ⟨ho, ha⟩, rfl⟩

/-- What goes on to a next turn is no return. -/
theorem returns_of_goesOn {o : Outcome α} (h : o.goesOn = true) : o.returns = false := by
  cases o <;> first | rfl | exact absurd h nofun

/-- The same where the second part runs after a `continue`, too. -/
theorem onReturn_andThen : onReturn g (andThen A B) = andThen (onReturn g A) (onReturn g B) := by
  funext σ o τ
  -- The part that goes on has not returned, so nothing is done after it.
  refine propext ⟨?_, ?_⟩
  · rintro ⟨ρ, ⟨o', υ, ha, ho, hb⟩ | ⟨ho, ha⟩, rfl⟩
    · exact .inl ⟨o', υ, ⟨υ, ha, by simp [returns_of_goesOn ho]⟩, ho, ρ, hb, rfl⟩
    · exact .inr ⟨ho, ρ, ha, rfl⟩
  · rintro (⟨o', _, ⟨υ, ha, rfl⟩, ho, ρ, hb, rfl⟩ | ⟨ho, ρ, ha, rfl⟩)
    · rw [returns_of_goesOn ho] at hb
      exact ⟨ρ, .inl ⟨o', υ, ha, ho, hb⟩, rfl⟩
    · exact ⟨ρ, .inr ⟨ho, ha⟩, rfl⟩

/-- The change is the same inside and outside of a scope if it does not look at locals. -/
theorem onReturn_inScope (hg : ∀ (σ start : State α) names,
    g (σ.leave start names) = (g σ).leave start names) (names : List String) :
    onReturn g (inScope names A) = inScope names (onReturn g A) := by
  funext σ o τ
  -- A return inside a scope leaves the scope, and the change is made outside of it.
  refine propext ⟨?_, ?_⟩
  · rintro ⟨_, ⟨ρ, ha, rfl⟩, rfl⟩
    refine ⟨_, ⟨ρ, ha, rfl⟩, ?_⟩
    split
    · exact hg ρ σ names
    · rfl
  · rintro ⟨_, ⟨ρ, ha, rfl⟩, rfl⟩
    refine ⟨_, ⟨ρ, ha, rfl⟩, ?_⟩
    split
    · exact (hg ρ σ names).symm
    · rfl

/-- A value that is computed first does not return. -/
theorem onReturn_after (x : Eval α β) (k : β → Behaviour α) :
    onReturn g (after x k) = after x fun b => onReturn g (k b) := by
  funext σ o τ
  unfold onReturn atEnd Behaviour.after
  -- Evaluation may not end, may fail, or may give a value to go on with.
  rcases x.run.run σ with _ | ⟨_ | _, ρ⟩
  · simp
  · refine propext ⟨?_, fun ⟨ho, hτ⟩ => ⟨τ, ⟨ho, hτ⟩, by simp [ho, Outcome.returns]⟩⟩
    rintro ⟨_, ⟨rfl, rfl⟩, rfl⟩
    exact ⟨rfl, rfl⟩
  · rfl

/-- Leaving a loop does not hide a return. -/
theorem returns_left (o : Outcome α) : o.left.returns = o.returns := by
  cases o <;> rfl

/-- Catching a break does not hide a return. -/
theorem onReturn_catchBreak : onReturn g (catchBreak A) = catchBreak (onReturn g A) := by
  funext σ o τ
  refine propext ⟨?_, ?_⟩
  · rintro ⟨ρ, ⟨o', ha, rfl⟩, rfl⟩
    exact ⟨o', ⟨ρ, ha, by rw [returns_left]⟩, rfl⟩
  · rintro ⟨o', ⟨ρ, ha, rfl⟩, rfl⟩
    exact ⟨ρ, ⟨o', ha, rfl⟩, by rw [returns_left]⟩

/-- The same for statements in a row. -/
theorem onReturn_seqAll (As : List (Behaviour α)) :
    onReturn g (seqAll As) = seqAll (As.map (onReturn g)) := by
  induction As with
  | nil => exact onReturn_skip
  | cons A As ih => exact onReturn_seq.trans (congrArg (seq _) ih)

/-- A loop returns in its last turn only. -/
theorem onReturn_forever {turn : Behaviour α} :
    onReturn g (Forever turn) = Forever (onReturn g turn) := by
  funext σ o τ
  refine propext ⟨?_, fun h => ?_⟩
  · rintro ⟨ρ, h, rfl⟩
    -- Every turn but the last goes on, so the change is made in the last one.
    induction h with
    | again first ho _ ih => exact .again ⟨_, first, by simp [returns_of_goesOn ho]⟩ ho ih
    | leave last ho hout => exact .leave ⟨_, last, by rw [hout, returns_left]⟩ ho hout
  · induction h with
    | again first ho _ ih =>
      obtain ⟨υ, first, rfl⟩ := first
      obtain ⟨ρ, rest, rfl⟩ := ih
      rw [returns_of_goesOn ho] at rest
      exact ⟨ρ, .again first ho rest, rfl⟩
    | leave last ho hout =>
      obtain ⟨ρ, last, rfl⟩ := last
      exact ⟨ρ, .leave last ho hout, by rw [hout, returns_left]⟩

/-- A return in either branch is a return of the choice. -/
theorem onReturn_branch (m : Machine α) (cond : Expr) :
    onReturn g (branch m cond A B) = branch m cond (onReturn g A) (onReturn g B) := by
  refine (onReturn_after _ _).trans (congrArg (after _) (funext fun vs => ?_))
  split <;> rfl

/-- A condition breaks or goes on, but does not return. -/
theorem onReturn_test (m : Machine α) (cond : Expr) : onReturn g (test m cond) = test m cond :=
  (onReturn_branch m cond).trans (by rw [onReturn_skip, onReturn_exit rfl, test])

/-- What comes at the end and on the way out of every return comes on every way out. -/
theorem onExit_eq_seq : onExit g A = seq (onReturn g A) (change g) := by
  funext σ o τ
  refine propext ⟨?_, ?_⟩
  · rintro ⟨ρ, ha, rfl⟩
    -- The normal end gets the change last, every return has it already.
    cases o with
    | normal => exact .inl ⟨ρ, ⟨ρ, ha, rfl⟩, rfl, rfl⟩
    | _ => exact .inr ⟨nofun, ρ, ha, rfl⟩
  · rintro (⟨ρ, ⟨_, ha, rfl⟩, rfl, rfl⟩ | ⟨ho, ρ, ha, rfl⟩)
    · exact ⟨ρ, ha, rfl⟩
    · refine ⟨ρ, ha, ?_⟩
      cases o with
      | normal => exact absurd rfl ho
      | _ => rfl

/-- Where the end is never reached, every way out is a return. -/
theorem onExit_eq_onReturn (h : ∀ σ τ, ¬ A σ .normal τ) : onExit g A = onReturn g A := by
  funext σ o τ
  refine propext (exists_congr fun ρ => and_congr_right fun ha => ?_)
  cases o with
  | normal => exact absurd ha (h σ ρ)
  | _ => rfl

/-- Selecting a case and making the change may be done in either order. -/
theorem selected_map (g : State α → State α) (value : Int)
    (cases : List (Option Int × Behaviour α)) :
    selected value (cases.map fun c => (c.1, onReturn g c.2)) =
      (selected value cases).map fun c => (c.1, onReturn g c.2) := by
  unfold selected
  rw [List.dropWhile_map, List.dropWhile_map]
  have hlabel (l : Option Int) :
      ((·.1 != l) ∘ fun c : Option Int × Behaviour α => (c.1, onReturn g c.2)) = (·.1 != l) := rfl
  rw [hlabel, hlabel]
  cases cases.dropWhile (·.1 != some value) <;> rfl

end Behaviour

namespace Stmt

open Behaviour

/-- The statement is no return of a value. -/
def ReturnsNothing : Stmt → Prop
  | .returnWith value => value = none
  | _ => True

/-- Statements that do what a statement does, and something else on the way out of a return. -/
structure OnReturn (m : Machine α) (g : State α → State α) (s : Stmt) (ss : List Stmt) : Prop where
  declares : listDeclared ss = s.declared
  runs : listBehaviour m ss = onReturn g (s.behaviour m)

section

variable {m : Machine α} {g : State α → State α} {first : Stmt} {f : Stmt → List Stmt}

/-- One statement for one, with the same names declared. -/
theorem OnReturn.of_singleton {s s' : Stmt} (hdeclares : s'.declared = s.declared)
    (h : s'.behaviour m = onReturn g (s.behaviour m)) : OnReturn m g s [s'] where
  declares := by simp [hdeclares]
  runs := by rw [listBehaviour_singleton, h]

/-- A statement that never returns can be left as it is. -/
theorem OnReturn.of_kept {s : Stmt} (hkept : s.expand f = [s])
    (h : onReturn g (s.behaviour m) = s.behaviour m) : OnReturn m g s (s.expand f) :=
  hkept ▸ .of_singleton rfl h.symm

/-- The same for a list. -/
theorem OnReturn.list {ss : List Stmt} (h : ∀ s ∈ ss, OnReturn m g s (s.expand f)) :
    listDeclared (expandList f ss) = listDeclared ss ∧
      listBehaviour m (expandList f ss) = onReturn g (listBehaviour m ss) := by
  induction ss with
  | nil => exact ⟨rfl, onReturn_skip.symm⟩
  | cons s ss ih =>
    obtain ⟨hs, hss⟩ := List.forall_mem_cons.mp h
    obtain ⟨ihdeclared, ihruns⟩ := ih hss
    -- The list is the expansion of its head before that of its tail.
    rw [expandList_cons, listDeclared_append, listBehaviour_append, hs.declares, hs.runs,
      ihdeclared, ihruns]
    exact ⟨rfl, onReturn_seq.symm⟩

/-- The same for cases. -/
theorem OnReturn.cases {cases : List Case}
    (h : ∀ label body, .mk label body ∈ cases → ∀ s ∈ body, OnReturn m g s (s.expand f)) :
    casesDeclared (cases.map (expandCase f)) = casesDeclared cases ∧
      caseBehaviours m (cases.map (expandCase f)) =
        (caseBehaviours m cases).map fun c => (c.1, onReturn g c.2) := by
  -- The labels stay, and the bodies are lists.
  induction cases with
  | nil => exact ⟨rfl, rfl⟩
  | cons c cases ih =>
    obtain ⟨label, body⟩ := c
    obtain ⟨hdeclared, hruns⟩ := OnReturn.list (h label body List.mem_cons_self)
    obtain ⟨ihdeclared, ihruns⟩ := ih fun label' body' hc => h label' body' (.tail _ hc)
    constructor
    · exact congrArg₂ (· ++ ·) hdeclared ihdeclared
    · exact congrArg₂ (fun A rest => (label, A) :: rest) hruns ihruns

variable (hg : ∀ (σ start : State α) names, g (σ.leave start names) = (g σ).leave start names)
  (hdeclared : first.declared = []) (hfirst : first.behaviour m = change g)
  (hreturn : ∀ value, f (.returnWith value) = [first, .returnWith value])
  (hother : ∀ s : Stmt, s.isReturn = false → f s = [s])

include hg in
/-- The same for a body, which is one statement. -/
theorem OnReturn.inner {s : Stmt} {ss : List Stmt} (h : OnReturn m g s ss) :
    (ofList ss).inner m = onReturn g (s.inner m) := by
  rw [inner_ofList, h.declares, h.runs]
  exact (onReturn_inScope hg _).symm

/-- What may start a loop does not return. -/
theorem onReturn_behaviour_of_isLoopInitializer {s : Stmt} (h : s.isLoopInitializer = true) :
    onReturn g (s.behaviour m) = s.behaviour m := by
  -- Neither a declaration nor an expression returns.
  cases s with
  | decl d =>
    show onReturn g (d.behaviour m) = d.behaviour m
    unfold Decl.behaviour
    split
    · exact onReturn_change _
    · exact (onReturn_after _ _).trans (congrArg (after _) (funext fun _ => onReturn_change _))
  | expr e => exact (onReturn_after _ _).trans (congrArg (after _) (funext fun _ => onReturn_skip))
  | _ => cases h

include hg hdeclared hfirst hreturn hother in
/-- With a statement in front of every return, a statement does the same as before, and what that
    statement does on the way out of a return. -/
theorem expand_onReturn (s : Stmt) (hs : s.Everywhere ReturnsNothing)
    (hs' : s.Everywhere StartsPlainly) : OnReturn m g s (s.expand f) := by
  -- The statement in front of a return is the only thing that is added, so each case pulls
  -- `onReturn` out of what the statement is made of.
  induction s with
  | block body ih =>
    obtain ⟨-, hreturns⟩ := hs
    obtain ⟨-, hstarts⟩ := hs'
    obtain ⟨hdeclares, hruns⟩ :=
      OnReturn.list fun s hs => ih s hs (hreturns s hs) (hstarts s hs)
    rw [expand_block, hother _ rfl]
    refine .of_singleton rfl ?_
    show inScope _ _ = onReturn g (inScope _ _)
    rw [hdeclares, hruns, onReturn_inScope hg]
  | decl d => exact .of_kept (hother (.decl d) rfl) (onReturn_behaviour_of_isLoopInitializer rfl)
  -- The exit of a branch is the exit of the arm that was taken.
  | ifElse cond thenBranch elseBranch iht ihe =>
    obtain ⟨-, hreturns⟩ := hs
    obtain ⟨-, hstarts⟩ := hs'
    rw [expand_ifElse, hother _ rfl]
    refine .of_singleton rfl ?_
    have hthen := (iht (hreturns _ (by simp [nested])) (hstarts _ (by simp [nested]))).inner hg
    have helse : elseBehaviour m (elseBranch.map fun s => ofList (s.expand f)) =
        onReturn g (elseBehaviour m elseBranch) := by
      cases elseBranch with
      | none => exact onReturn_skip.symm
      | some s =>
        exact (ihe s rfl (hreturns _ (by simp [nested]))
          (hstarts _ (by simp [nested]))).inner hg
    show branch m cond (Stmt.inner m _) _ = onReturn g (branch m cond _ _)
    rw [hthen, helse, onReturn_branch]
    rfl
  | forLoop init cond step body ihi ihb =>
    obtain ⟨-, hreturns⟩ := hs
    obtain ⟨hplain, hstarts⟩ := hs'
    rw [expand_forLoop, hother _ rfl]
    refine .of_singleton rfl ?_
    have hbody := (ihb (hreturns _ (by simp [nested])) (hstarts _ (by simp [nested]))).inner hg
    -- The initializer, the condition and the step have no returns in them.
    have hinit : onReturn g (initBehaviour m init) = initBehaviour m init := by
      cases init with
      | none => exact onReturn_skip
      | some s => exact onReturn_behaviour_of_isLoopInitializer hplain
    have hcond : onReturn g (cond.elim skip (test m)) = cond.elim skip (test m) := by
      cases cond with
      | none => exact onReturn_skip
      | some e => exact onReturn_test m e
    have hstep : onReturn g (step.elim skip fun e => after (e.eval m) fun _ => skip) =
        step.elim skip fun e => after (e.eval m) fun _ => skip := by
      cases step with
      | none => exact onReturn_skip
      | some e => exact onReturn_behaviour_of_isLoopInitializer (s := .expr e) rfl
    show inScope _ (seq _ (Forever (seq _ (andThen (Stmt.inner m _) _)))) =
      onReturn g (inScope _ (seq _ (Forever (seq _ (andThen (Stmt.inner m _) _)))))
    rw [hbody, onReturn_inScope hg, onReturn_seq, hinit, onReturn_forever, onReturn_seq, hcond,
      onReturn_andThen, hstep]
  -- A loop is left by a return from its body; the test has none.
  | whileLoop cond body ih =>
    obtain ⟨-, hreturns⟩ := hs
    obtain ⟨-, hstarts⟩ := hs'
    rw [expand_whileLoop, hother _ rfl]
    refine .of_singleton rfl ?_
    have hbody := (ih (hreturns _ (by simp [nested])) (hstarts _ (by simp [nested]))).inner hg
    show Forever (seq _ (Stmt.inner m _)) = onReturn g (Forever (seq _ (Stmt.inner m _)))
    rw [hbody, onReturn_forever, onReturn_seq, onReturn_test]
  | doWhile body cond ih =>
    obtain ⟨-, hreturns⟩ := hs
    obtain ⟨-, hstarts⟩ := hs'
    rw [expand_doWhile, hother _ rfl]
    refine .of_singleton rfl ?_
    have hbody := (ih (hreturns _ (by simp [nested])) (hstarts _ (by simp [nested]))).inner hg
    show Forever (andThen (Stmt.inner m _) _) = onReturn g (Forever (andThen (Stmt.inner m _) _))
    rw [hbody, onReturn_forever, onReturn_andThen, onReturn_test]
  | switchOn value cases ih =>
    obtain ⟨-, hreturns⟩ := hs
    obtain ⟨-, hstarts⟩ := hs'
    -- Once a case is selected, the cases from there on run as one list.
    obtain ⟨hdeclares, hruns⟩ := OnReturn.cases (f := f) fun label body hc s hs =>
      ih label body hc s hs (hreturns s (List.mem_flatMap.mpr ⟨_, hc, hs⟩))
        (hstarts s (List.mem_flatMap.mpr ⟨_, hc, hs⟩))
    rw [expand_switchOn, hother _ rfl]
    refine .of_singleton rfl ?_
    refine Eq.trans ?_ (onReturn_after _ _).symm
    refine congrArg (after _) (funext fun vs => ?_)
    rw [hdeclares, hruns, onReturn_catchBreak, onReturn_inScope hg, onReturn_seqAll, selected_map,
      List.map_map, List.map_map]
    rfl
  | expr e => exact .of_kept (hother (.expr e) rfl) (onReturn_behaviour_of_isLoopInitializer rfl)
  | returnWith value =>
    -- A return of nothing, with the statement in front of it.
    obtain ⟨rfl, -⟩ := hs
    show OnReturn m g _ (f _)
    rw [hreturn]
    refine ⟨by simp [hdeclared], ?_⟩
    show seq (first.behaviour m) (seq (exit _) skip) = onReturn g (exit _)
    rw [seq_skip, hfirst, onReturn_exit_returned]
  -- Every other way to leave is no return.
  | breakOut => exact .of_kept (hother .breakOut rfl) (onReturn_exit rfl)
  | continueLoop => exact .of_kept (hother .continueLoop rfl) (onReturn_exit rfl)
  | discard => exact .of_kept (hother .discard rfl) (onReturn_exit rfl)
  | emitVertex => exact .of_kept (hother .emitVertex rfl) (onReturn_change _)
  | endPrimitive => exact .of_kept (hother .endPrimitive rfl) (onReturn_change _)

end

end Stmt

end ShaderGen
