import ShaderGen.Proofs.Semantics.Congruence
import ShaderGen.Stmt.Traverse

/-!
# Statements by what their expressions compute

`Stmt.behaviour` runs the expressions of a statement on the machine. What a statement does with the
values that it gets is the same whatever computes them: `Stmt.behaviourBy` leaves that open, so a
statement can be run with expressions that leave a note of each evaluation or of each variable that
they look up, or that read some variables differently.

## Key results

- `Stmt.behaviourBy_values`: with the values of the machine, a statement does what it does
- `Stmt.behaviourBy_bottomUp`: rebuilding every statement keeps what a statement does, if what it
  does to one statement does
-/

namespace ShaderGen

variable {α : Type}

/-- What computes the components of the value of an expression. -/
abbrev Valuation (α : Type) := Expr → Eval α (List α)

namespace Behaviour

variable (values : Valuation α) (m : Machine α)

/-- Goes on one way or the other, as the value of a condition tells. -/
def branchBy (cond : Expr) (A B : Behaviour α) : Behaviour α :=
  after (values cond) fun vs => if m.holds vs then A else B

/-- Goes on if a condition holds, and breaks out of the loop otherwise. -/
def testBy (cond : Expr) : Behaviour α := branchBy values m cond skip (exit .breakOut)

end Behaviour

/-- Runs a declaration. Without an initial value the components are undefined. -/
def Decl.behaviourBy (values : Valuation α) (m : Machine α) (d : Decl) : Behaviour α :=
  match d.init with
  | none => .declare d.name fun _ => m.undefined
  | some e => .after (values e) fun vs => .declare d.name fun i => vs.getD i m.undefined

namespace Stmt

open Behaviour

mutual
/-- What a statement does if its expressions have some values. -/
def behaviourBy (values : Valuation α) (m : Machine α) : Stmt → Behaviour α
  | .block body => inScope (listDeclared body) (listBehaviourBy values m body)
  | .decl d => d.behaviourBy values m
  | .ifElse cond thenBranch elseBranch =>
    branchBy values m cond (inScope thenBranch.declared (thenBranch.behaviourBy values m))
      (elseBehaviourBy values m elseBranch)
  | .forLoop init cond step body =>
    inScope (listDeclared init.toList)
      (seq (initBehaviourBy values m init)
        (Forever
          (seq (cond.elim skip (testBy values m))
            (andThen (inScope body.declared (body.behaviourBy values m))
              (step.elim skip fun e => after (values e) fun _ => skip)))))
  | .whileLoop cond body =>
    Forever (seq (testBy values m cond) (inScope body.declared (body.behaviourBy values m)))
  | .doWhile body cond =>
    Forever (andThen (inScope body.declared (body.behaviourBy values m)) (testBy values m cond))
  | .switchOn value cases =>
    after (values value) fun vs => catchBreak
      (inScope (casesDeclared cases)
        (seqAll ((selected (m.asInteger vs) (caseBehavioursBy values m cases)).map Prod.snd)))
  | .expr e => after (values e) fun _ => skip
  | .returnWith none => exit (.returned none)
  | .returnWith (some e) => after (values e) fun vs => exit (.returned (some vs))
  | .breakOut => exit .breakOut
  | .continueLoop => exit .continueLoop
  | .discard => exit .discarded
  | .emitVertex => change fun σ => σ.act (.emitVertex σ.shared)
  | .endPrimitive => change fun σ => σ.act .endPrimitive

/-- What the second branch of an `if` does. -/
def elseBehaviourBy (values : Valuation α) (m : Machine α) : Option Stmt → Behaviour α
  | none => skip
  | some s => inScope s.declared (s.behaviourBy values m)

/-- What the initializer of a `for` does. -/
def initBehaviourBy (values : Valuation α) (m : Machine α) : Option Stmt → Behaviour α
  | none => skip
  | some s => s.behaviourBy values m

/-- What several statements do one after the other. -/
def listBehaviourBy (values : Valuation α) (m : Machine α) : List Stmt → Behaviour α
  | [] => skip
  | s :: ss => seq (s.behaviourBy values m) (listBehaviourBy values m ss)

/-- What the cases of a `switch` do, each with its label. -/
def caseBehavioursBy (values : Valuation α) (m : Machine α) :
    List Case → List (Option Int × Behaviour α)
  | [] => []
  | .mk label body :: cases =>
    (label, listBehaviourBy values m body) :: caseBehavioursBy values m cases
end

variable (m : Machine α)

/-! ### The values of the machine -/

/-- A list behaves by the values of the machine as it behaves on the machine. -/
theorem listBehaviourBy_values {ss : List Stmt}
    (h : ∀ s ∈ ss, s.behaviourBy (Expr.values m) m = s.behaviour m) :
    listBehaviourBy (Expr.values m) m ss = listBehaviour m ss := by
  induction ss with
  | nil => rfl
  | cons s ss ih =>
    obtain ⟨hs, hss⟩ := List.forall_mem_cons.mp h
    rw [listBehaviourBy, listBehaviour, hs, ih hss]

/-- So do the cases of a switch. -/
theorem caseBehavioursBy_values {cases : List Case}
    (h : ∀ label body, .mk label body ∈ cases →
      ∀ s ∈ body, s.behaviourBy (Expr.values m) m = s.behaviour m) :
    caseBehavioursBy (Expr.values m) m cases = caseBehaviours m cases := by
  induction cases with
  | nil => rfl
  | cons c cases ih =>
    obtain ⟨label, body⟩ := c
    rw [caseBehavioursBy, caseBehaviours,
      listBehaviourBy_values m (h label body List.mem_cons_self),
      ih fun label' body' hc => h label' body' (List.mem_cons_of_mem _ hc)]

/-- With the values of the machine, a statement does what it does. -/
theorem behaviourBy_values (s : Stmt) : s.behaviourBy (Expr.values m) m = s.behaviour m := by
  induction s with
  -- One case a constructor: the evaluation of an expression is replaced by its values.
  | block body ih => rw [behaviourBy, behaviour, listBehaviourBy_values m ih]
  | decl d => rfl
  | ifElse cond thenBranch elseBranch iht ihe =>
    have helse : elseBehaviourBy (Expr.values m) m elseBranch = elseBehaviour m elseBranch := by
      cases elseBranch with
      | none => rfl
      | some s => rw [elseBehaviourBy, elseBehaviour, ihe s rfl]
    rw [behaviourBy, behaviour, iht, helse]
    rfl
  -- A loop evaluates its condition and its step each turn, so both are replaced inside the loop.
  | forLoop init cond step body ihi ihb =>
    have hinit : initBehaviourBy (Expr.values m) m init = initBehaviour m init := by
      cases init with
      | none => rfl
      | some s => exact ihi s rfl
    rw [behaviourBy, behaviour, ihb, hinit]
    simp only [Behaviour.after_eval]
    rfl
  | whileLoop cond body ih | doWhile body cond ih =>
    rw [behaviourBy, behaviour, ih]
    rfl
  | switchOn value cases ih => rw [behaviourBy, behaviour, caseBehavioursBy_values m ih]
  | expr e => exact (Behaviour.after_eval e skip).symm
  | returnWith value => cases value <;> rfl
  | breakOut | continueLoop | discard | emitVertex | endPrimitive => rfl

/-- Several statements do together what they do, with the values of the machine. -/
theorem listBehaviourBy_eq_listBehaviour (ss : List Stmt) :
    listBehaviourBy (Expr.values m) m ss = listBehaviour m ss :=
  listBehaviourBy_values m fun s _ => s.behaviourBy_values m

/-! ### Rebuilding statements -/

section

variable {m} {values : Valuation α} {f : Stmt → Stmt}

/-- A rewrite that keeps the declared names of each statement keeps those of the list. -/
theorem listDeclared_map {g : Stmt → Stmt} {ss : List Stmt}
    (h : ∀ s ∈ ss, (g s).declared = s.declared) : listDeclared (ss.map g) = listDeclared ss := by
  induction ss with
  | nil => rfl
  | cons s ss ih =>
    obtain ⟨hs, hss⟩ := List.forall_mem_cons.mp h
    rw [List.map_cons, listDeclared_cons, listDeclared_cons, hs, ih hss]

/-- A rewrite that keeps the behaviour of each statement keeps that of the list. -/
theorem listBehaviourBy_map {g : Stmt → Stmt} {ss : List Stmt}
    (h : ∀ s ∈ ss, (g s).behaviourBy values m = s.behaviourBy values m) :
    listBehaviourBy values m (ss.map g) = listBehaviourBy values m ss := by
  induction ss with
  | nil => rfl
  | cons s ss ih =>
    obtain ⟨hs, hss⟩ := List.forall_mem_cons.mp h
    rw [List.map_cons, listBehaviourBy, listBehaviourBy, hs, ih hss]

/-- A function on statements that keeps what a statement declares and does. -/
structure Preserves (values : Valuation α) (m : Machine α) (f : Stmt → Stmt) : Prop where
  declared (s : Stmt) : (f s).declared = s.declared
  behaviour (s : Stmt) : (f s).behaviourBy values m = s.behaviourBy values m

/-- A rewrite from below keeps the declared names. -/
theorem Preserves.bottomUp_declared (hf : Preserves values m f) (s : Stmt) :
    (s.bottomUp f).declared = s.declared := by
  cases s <;> exact hf.declared _

/-- It keeps those of the cases, and their behaviours. -/
theorem Preserves.bottomUpCases (hf : Preserves values m f) {cases : List Case}
    (h : ∀ label body, .mk label body ∈ cases →
      ∀ s ∈ body, (s.bottomUp f).behaviourBy values m = s.behaviourBy values m) :
    casesDeclared (Stmt.bottomUpCases f cases) = casesDeclared cases ∧
      caseBehavioursBy values m (Stmt.bottomUpCases f cases) = caseBehavioursBy values m cases := by
  induction cases with
  | nil => exact ⟨rfl, rfl⟩
  | cons c cases ih =>
    obtain ⟨label, body⟩ := c
    -- A case declares what it did, and does what it did.
    obtain ⟨hdeclared, hbehaviours⟩ :=
      ih fun label' body' hc => h label' body' (List.mem_cons_of_mem _ hc)
    simp only [Stmt.bottomUpCases, casesDeclared, caseBehavioursBy, hdeclared, hbehaviours,
      bottomUpList_eq_map, listDeclared_map fun s _ => hf.bottomUp_declared s,
      listBehaviourBy_map (h label body List.mem_cons_self), and_self]

/-- Rebuilding every statement keeps what a statement does. -/
theorem behaviourBy_bottomUp (hf : Preserves values m f) (s : Stmt) :
    (s.bottomUp f).behaviourBy values m = s.behaviourBy values m := by
  -- By induction on the statement. A statement declares the same names after it was rebuilt, so the
  -- scopes around it are the same.
  induction s with
  | block body ih =>
    rw [bottomUp, hf.behaviour, behaviourBy, behaviourBy, bottomUpList_eq_map,
      listDeclared_map fun s _ => hf.bottomUp_declared s, listBehaviourBy_map ih]
  | ifElse cond thenBranch elseBranch iht ihe =>
    have helse : elseBehaviourBy values m (bottomUpOption f elseBranch) =
        elseBehaviourBy values m elseBranch := by
      cases elseBranch with
      | none => rfl
      | some s =>
        rw [bottomUpOption, elseBehaviourBy, elseBehaviourBy, ihe s rfl, hf.bottomUp_declared]
    rw [bottomUp, hf.behaviour, behaviourBy, behaviourBy, iht, helse, hf.bottomUp_declared]
  | forLoop init cond step body ihi ihb =>
    have hinit : initBehaviourBy values m (bottomUpOption f init) = initBehaviourBy values m init ∧
        listDeclared (bottomUpOption f init).toList = listDeclared init.toList := by
      cases init with
      | none => exact ⟨rfl, rfl⟩
      | some s =>
        refine ⟨ihi s rfl, ?_⟩
        simp [bottomUpOption, hf.bottomUp_declared]
    rw [bottomUp, hf.behaviour, behaviourBy, behaviourBy, ihb, hinit.1, hinit.2,
      hf.bottomUp_declared]
  | whileLoop cond body ih | doWhile body cond ih =>
    rw [bottomUp, hf.behaviour, behaviourBy, behaviourBy, ih, hf.bottomUp_declared]
  | switchOn value cases ih =>
    obtain ⟨hdeclared, hbehaviours⟩ := hf.bottomUpCases ih
    rw [bottomUp, hf.behaviour, behaviourBy, behaviourBy, hdeclared, hbehaviours]
  | decl | expr | returnWith | breakOut | continueLoop | discard | emitVertex | endPrimitive =>
    exact hf.behaviour _

/-- It keeps the behaviour of a list. -/
theorem listBehaviourBy_bottomUpList (hf : Preserves values m f) (ss : List Stmt) :
    listBehaviourBy values m (bottomUpList f ss) = listBehaviourBy values m ss := by
  rw [bottomUpList_eq_map]
  exact listBehaviourBy_map fun s _ => behaviourBy_bottomUp hf s

end

end Stmt

end ShaderGen
