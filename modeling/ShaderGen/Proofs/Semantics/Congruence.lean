import ShaderGen.Proofs.Mirror
import ShaderGen.Proofs.Semantics.Evaluation
import ShaderGen.Proofs.Semantics.Matching
import ShaderGen.Proofs.Semantics.Relational

/-!
# Statements over expressions that compute alike

Where a rule replaces expressions and leaves the statements around them as they are, the statements
do what they did, if each new expression computes what the old one did. The two may run on machines
that differ in the functions of the program, and in states that differ, as long as what statements
do themselves respects the difference (`Scoped`).

## Key results

- `Stmt.Agrees.ifElse`, `.forLoop`, `.switchOn` and so on: one for each kind of statement
- `Stmt.Mirrors.agrees`: statements that only differ in expressions that compute alike
- `Stmt.Mirrors.listBehaviour_eq`: the same for expressions that compute the same
-/

namespace ShaderGen

open Behaviour

variable {α : Type}

/-- The machine with other functions of the program. -/
def Machine.withCalls (m : Machine α)
    (call : String → List (Ty × List α) → (Variable → Nat → α) → Option (Reply α)) : Machine α :=
  { m with call }

/-- A relation between states that what statements do besides computing expressions respects. -/
structure Scoped (P : State α → State α → Prop) : Prop where
  leave {ρ ρ' σ σ' : State α} (names : List String) (h : P ρ ρ') (hstart : P σ σ') :
    P (ρ.leave σ names) (ρ'.leave σ' names)
  setLocal {σ σ' : State α} (name : String) (content : Nat → α) (h : P σ σ') :
    P (σ.setLocal name (some content)) (σ'.setLocal name (some content))
  emitVertex {σ σ' : State α} (h : P σ σ') :
    P (σ.act (.emitVertex σ.shared)) (σ'.act (.emitVertex σ'.shared))
  endPrimitive {σ σ' : State α} (h : P σ σ') : P (σ.act .endPrimitive) (σ'.act .endPrimitive)

/-- From related states two expressions have the same value, and leave related states. -/
def Expr.Agrees (P : State α → State α → Prop) (m m' : Machine α) (e e' : Expr) : Prop :=
  Continues P Eq (e.values m) (e'.values m')

/-- From related states two statements do the same, and declare the same. -/
structure Stmt.Agrees (P : State α → State α → Prop) (m m' : Machine α) (s s' : Stmt) : Prop where
  declares : s'.declared = s.declared
  runs : Bisimilar P (s.behaviour m) (s'.behaviour m')

/-- Two cases of a `switch` with the same label. -/
inductive Case.Agrees (P : State α → State α → Prop) (m m' : Machine α) : Case → Case → Prop
  | mk (label : Option Int) {body body' : List Stmt}
    (h : List.Forall₂ (Stmt.Agrees P m m') body body') :
    Agrees P m m' (.mk label body) (.mk label body')

variable {P : State α → State α → Prop} {m : Machine α}
  {call : String → List (Ty × List α) → (Variable → Nat → α) → Option (Reply α)}

/-- Only the value of the expression matters for what comes after it. -/
theorem Behaviour.after_eval (e : Expr) (B : Behaviour α) :
    after (e.eval m) (fun _ => B) = after (e.values m) fun _ => B := by
  funext σ o τ
  -- The two differ in what they return, and not in whether they return or where they end.
  have hrun : (e.values m).run.run σ =
      (e.eval m).run.run σ >>= fun r => some (r.1.map Lane.values, r.2) := by
    rw [Expr.values, ExceptT.run_map, StateT.run_map]
    cases (e.eval m).run.run σ <;> rfl
  unfold Behaviour.after
  rw [hrun]
  rcases (e.eval m).run.run σ with _ | ⟨_ | _, ρ⟩ <;> rfl

namespace Behaviour

variable {A A' B B' : Behaviour α} {cond cond' : Expr}

/-- Branches are related when their conditions and their arms are. -/
theorem Bisimilar.branch (hcond : cond.Agrees P m (m.withCalls call) cond')
    (hA : Bisimilar P A A') (hB : Bisimilar P B B') :
    Bisimilar P (branch m cond A B) (branch (m.withCalls call) cond' A' B') := by
  refine .after hcond fun vs vs' hvs => ?_
  obtain rfl := hvs
  show Bisimilar P _ (if m.holds vs then A' else B')
  split
  · exact hA
  · exact hB

/-- Tests are related when their conditions are. -/
theorem Bisimilar.test (hcond : cond.Agrees P m (m.withCalls call) cond') :
    Bisimilar P (test m cond) (Behaviour.test (m.withCalls call) cond') :=
  .branch hcond .skip (.exit _)

end Behaviour

namespace Stmt

open List (Forall₂)

/-- Statements that agree declare the same names. -/
theorem listDeclared_of_agrees {m' : Machine α} {ss ss' : List Stmt}
    (h : Forall₂ (Agrees P m m') ss ss') : listDeclared ss' = listDeclared ss := by
  induction h with
  | nil => rfl
  | cons hs _ ih => rw [listDeclared_cons, listDeclared_cons, hs.declares, ih]

/-- Lists of statements that agree one by one behave alike. -/
theorem listBehaviour_bisimilar {m' : Machine α} {ss ss' : List Stmt}
    (h : Forall₂ (Agrees P m m') ss ss') :
    Bisimilar P (listBehaviour m ss) (listBehaviour m' ss') := by
  induction h with
  | nil => exact .skip
  | cons hs _ ih => exact hs.runs.seq ih

/-- The cases of a switch that agree declare the same names. -/
theorem casesDeclared_of_agrees {m' : Machine α} {cases cases' : List Case}
    (h : Forall₂ (Case.Agrees P m m') cases cases') :
    casesDeclared cases' = casesDeclared cases := by
  induction h with
  | nil => rfl
  | cons hcase _ ih =>
    cases hcase with
    | mk label hbody => rw [casesDeclared, casesDeclared, listDeclared_of_agrees hbody, ih]

/-- They behave alike, case by case and under the same labels. -/
theorem caseBehaviours_bisimilar {m' : Machine α} {cases cases' : List Case}
    (h : Forall₂ (Case.Agrees P m m') cases cases') :
    Forall₂ (fun b b' => b'.1 = b.1 ∧ Bisimilar P b.2 b'.2) (caseBehaviours m cases)
      (caseBehaviours m' cases') := by
  induction h with
  | nil => exact .nil
  | cons hcase _ ih =>
    cases hcase with
    | mk label hbody => exact .cons ⟨rfl, listBehaviour_bisimilar hbody⟩ ih

namespace Agrees

variable {s s' body body' : Stmt} {ss ss' : List Stmt} {cond cond' : Expr} (hP : Scoped P)

include hP

/-- Statements that agree still do in a scope of their own. -/
theorem inner {m' : Machine α} (h : s.Agrees P m m' s') :
    Bisimilar P (inScope s.declared (s.behaviour m)) (inScope s'.declared (s'.behaviour m')) := by
  rw [h.declares]
  exact h.runs.inScope fun _ _ _ _ hρ hσ => hP.leave _ hρ hσ

/-- Blocks of statements that agree do so. -/
theorem block {m' : Machine α} (h : Forall₂ (Agrees P m m') ss ss') :
    (Stmt.block ss).Agrees P m m' (.block ss') := by
  refine ⟨rfl, ?_⟩
  show Bisimilar P (inScope _ _) (inScope _ _)
  rw [listDeclared_of_agrees h]
  exact (listBehaviour_bisimilar h).inScope fun _ _ _ _ hρ hσ => hP.leave _ hρ hσ

/-- Declarations of one name with initializers that agree do so. -/
theorem decl {d d' : Decl} (hname : d'.name = d.name)
    (hinit : Option.Rel (Expr.Agrees P m (m.withCalls call)) d.init d'.init) :
    (Stmt.decl d).Agrees P m (m.withCalls call) (.decl d') := by
  refine ⟨congrArg ([·]) hname, ?_⟩
  show Bisimilar P (d.behaviour m) (d'.behaviour (m.withCalls call))
  unfold Decl.behaviour
  rw [hname]
  -- There is an initial value on both sides or on neither.
  generalize d.init = o, d'.init = o' at hinit
  cases hinit with
  | none => exact .change fun _ _ hσ => hP.setLocal _ _ hσ
  | some hvalue =>
    refine .after hvalue fun vs vs' hvs => ?_
    obtain rfl := hvs
    exact .change fun _ _ hσ => hP.setLocal _ _ hσ

/-- Conditionals agree when their conditions and both branches do. -/
theorem ifElse {elseBranch elseBranch' : Option Stmt}
    (hcond : cond.Agrees P m (m.withCalls call) cond') (hthen : s.Agrees P m (m.withCalls call) s')
    (helse : Option.Rel (Agrees P m (m.withCalls call)) elseBranch elseBranch') :
    (Stmt.ifElse cond s elseBranch).Agrees P m (m.withCalls call)
      (.ifElse cond' s' elseBranch') := by
  refine ⟨rfl, .branch hcond (hthen.inner hP) ?_⟩
  cases helse with
  | none => exact .skip
  | some h => exact h.inner hP

/-- Loops agree when their conditions and bodies do. -/
theorem whileLoop (hcond : cond.Agrees P m (m.withCalls call) cond')
    (hbody : body.Agrees P m (m.withCalls call) body') :
    (Stmt.whileLoop cond body).Agrees P m (m.withCalls call) (.whileLoop cond' body') :=
  ⟨rfl, ((Bisimilar.test hcond).seq (hbody.inner hP)).forever⟩

/-- So do loops that test at the end. -/
theorem doWhile (hcond : cond.Agrees P m (m.withCalls call) cond')
    (hbody : body.Agrees P m (m.withCalls call) body') :
    (Stmt.doWhile body cond).Agrees P m (m.withCalls call) (.doWhile body' cond') :=
  ⟨rfl, ((hbody.inner hP).andThen (.test hcond)).forever⟩

/-- A counting loop agrees with another when all four of its parts do. -/
theorem forLoop {init init' : Option Stmt} {cond cond' step step' : Option Expr}
    (hinit : Option.Rel (Agrees P m (m.withCalls call)) init init')
    (hcond : Option.Rel (Expr.Agrees P m (m.withCalls call)) cond cond')
    (hstep : Option.Rel (Expr.Agrees P m (m.withCalls call)) step step')
    (hbody : body.Agrees P m (m.withCalls call) body') :
    (Stmt.forLoop init cond step body).Agrees P m (m.withCalls call)
      (.forLoop init' cond' step' body') := by
  have htest : Bisimilar P (cond.elim skip (test m))
      (cond'.elim skip (test (m.withCalls call))) := by
    cases hcond with
    | none => exact .skip
    | some h => exact .test h
  have hlast : Bisimilar P (step.elim skip fun e => after (e.eval m) fun _ => skip)
      (step'.elim skip fun e => after (e.eval (m.withCalls call)) fun _ => skip) := by
    cases hstep with
    | none => exact .skip
    | some h =>
      show Bisimilar P (after _ _) (after _ _)
      rw [after_eval, after_eval]
      exact .after h fun _ _ _ => .skip
  have hloop := (htest.seq ((hbody.inner hP).andThen hlast)).forever
  refine ⟨rfl, ?_⟩
  -- The scope of the loop is what its first statement declares, which is the same on both sides.
  cases hinit with
  | none => exact (Bisimilar.skip.seq hloop).inScope fun _ _ _ _ hρ hσ => hP.leave _ hρ hσ
  | @some s s' h =>
    have hdeclared : listDeclared [s'] = listDeclared [s] := congrArg (· ++ []) h.declares
    show Bisimilar P (inScope (listDeclared [s]) _) (inScope (listDeclared [s']) _)
    rw [hdeclared]
    exact (h.runs.seq hloop).inScope fun _ _ _ _ hρ hσ => hP.leave _ hρ hσ

/-- Switches agree when their values and their cases do. -/
theorem switchOn {value value' : Expr} {cases cases' : List Case}
    (hvalue : value.Agrees P m (m.withCalls call) value')
    (hcases : Forall₂ (Case.Agrees P m (m.withCalls call)) cases cases') :
    (Stmt.switchOn value cases).Agrees P m (m.withCalls call) (.switchOn value' cases') := by
  refine ⟨rfl, .after hvalue fun vs vs' hvs => ?_⟩
  obtain rfl := hvs
  -- Cases are selected by their labels, so both sides select at the same places.
  have hselected := forall₂_selected (caseBehaviours_bisimilar hcases) (fun _ _ hb => hb.1)
    (m.asInteger vs)
  have hruns : Forall₂ (Bisimilar P)
      ((selected (m.asInteger vs) (caseBehaviours m cases)).map Prod.snd)
      ((selected (m.asInteger vs) (caseBehaviours (m.withCalls call) cases')).map Prod.snd) := by
    rw [List.forall₂_map_left_iff, List.forall₂_map_right_iff]
    exact hselected.imp fun _ _ hb => hb.2
  rw [casesDeclared_of_agrees hcases]
  exact ((Bisimilar.seqAll hruns).inScope fun _ _ _ _ hρ hσ => hP.leave _ hρ hσ).catchBreak

/-- The emission of a vertex agrees with itself. -/
theorem emitVertex {m' : Machine α} : Stmt.emitVertex.Agrees P m m' .emitVertex :=
  ⟨rfl, .change fun _ _ hσ => hP.emitVertex hσ⟩

/-- So does the end of a primitive. -/
theorem endPrimitive {m' : Machine α} : Stmt.endPrimitive.Agrees P m m' .endPrimitive :=
  ⟨rfl, .change fun _ _ hσ => hP.endPrimitive hσ⟩

omit hP

/-- Expression statements agree when their expressions do. -/
theorem expr {m' : Machine α} {e e' : Expr} (h : e.Agrees P m m' e') :
    (Stmt.expr e).Agrees P m m' (.expr e') := by
  refine ⟨rfl, ?_⟩
  show Bisimilar P (after _ _) (after _ _)
  rw [after_eval, after_eval]
  exact .after h fun _ _ _ => .skip

/-- Returns agree when what they return does. -/
theorem returnWith {m' : Machine α} {value value' : Option Expr}
    (h : Option.Rel (Expr.Agrees P m m') value value') :
    (Stmt.returnWith value).Agrees P m m' (.returnWith value') := by
  refine ⟨rfl, ?_⟩
  cases h with
  | none => exact .exit _
  | some hvalue =>
    refine .after hvalue fun vs vs' hvs => ?_
    obtain rfl := hvs
    exact .exit _

/-- A `break` agrees with itself. -/
theorem breakOut {m' : Machine α} : Stmt.breakOut.Agrees P m m' .breakOut := ⟨rfl, .exit _⟩

/-- So does a `continue`. -/
theorem continueLoop {m' : Machine α} : Stmt.continueLoop.Agrees P m m' .continueLoop :=
  ⟨rfl, .exit _⟩

/-- And so does a `discard`. -/
theorem discard {m' : Machine α} : Stmt.discard.Agrees P m m' .discard := ⟨rfl, .exit _⟩

end Agrees

/-- Statements of one structure agree if their expressions do. -/
theorem Mirrors.agrees (hP : Scoped P) {s s' : Stmt}
    (h : s.Mirrors (Expr.Agrees P m (m.withCalls call)) s') :
    s.Agrees P m (m.withCalls call) s' := by
  have hcases : ∀ {cs cs' : List Case}, Forall₂ (Case.Over (Agrees P m (m.withCalls call))) cs cs' →
      Forall₂ (Case.Agrees P m (m.withCalls call)) cs cs' :=
    fun h => h.imp fun _ _ hc => by cases hc with | mk label hbody => exact .mk label hbody
  exact Mirrors.fold (T := Agrees P m (m.withCalls call)) (.block hP)
    (fun hd => .decl hP hd.name.symm hd.init) (.ifElse hP) (.forLoop hP) (.whileLoop hP)
    (fun hs hc => .doWhile hP hc hs) (fun hv hcs => .switchOn hP hv (hcases hcs)) .expr
    .returnWith .breakOut .continueLoop .discard (.emitVertex hP) (.endPrimitive hP) h

end Stmt

/-! ### Statements over expressions that compute the same -/

/-- What statements do depends on the state alone. -/
theorem scoped_eq : Scoped (Eq : State α → State α → Prop) where
  leave names h hstart := by rw [h, hstart]
  setLocal name content h := by rw [h]
  emitVertex h := by rw [h]
  endPrimitive h := by rw [h]

/-- Expressions of the same values agree in the strictest sense. -/
theorem Expr.Agrees.of_values_eq {e e' : Expr} (h : e'.values m = e.values m) :
    e.Agrees Eq m m e' := by
  rintro σ _ rfl
  rw [h]
  match (e.values m).run.run σ with
  | none => exact .none
  | some (.ok vs, τ) => exact .some (.ok ⟨rfl, rfl⟩)
  | some (.error d, τ) => exact .some (.error rfl)

/-- Behaviours related by equality of states are equal. -/
theorem Behaviour.Bisimilar.eq {A B : Behaviour α} (h : Bisimilar Eq A B) : A = B := by
  funext σ o τ
  refine propext ⟨fun ha => ?_, fun hb => ?_⟩
  · obtain ⟨_, hb, rfl⟩ := h.forward rfl ha
    exact hb
  · obtain ⟨_, ha, rfl⟩ := h.backward (show flip Eq σ σ from rfl) hb
    exact ha

/-- Equal behaviours are related by equality of states. -/
theorem Behaviour.Bisimilar.of_eq {A B : Behaviour α} (h : A = B) : Bisimilar Eq A B := by
  subst h
  refine ⟨fun σ σ' hσ o τ ha => ?_, fun σ σ' hσ o τ ha => ?_⟩
  · subst hσ
    exact ⟨τ, ha, rfl⟩
  · obtain rfl : σ' = σ := hσ
    exact ⟨τ, ha, rfl⟩

/-- A statement agrees with itself. -/
theorem Stmt.Agrees.refl (s : Stmt) : s.Agrees Eq m m s := ⟨rfl, .of_eq rfl⟩

/-- Statements of one structure whose expressions compute the same do the same. -/
theorem Stmt.Mirrors.listBehaviour_eq {ss ss' : List Stmt}
    (h : List.Forall₂ (Mirrors fun e e' => e'.values m = e.values m) ss ss') :
    listBehaviour m ss' = listBehaviour m ss := by
  refine (Stmt.listBehaviour_bisimilar (h.imp fun s s' hs => ?_)).eq.symm
  exact (hs.mono fun _ _ => Expr.Agrees.of_values_eq).agrees scoped_eq

end ShaderGen
