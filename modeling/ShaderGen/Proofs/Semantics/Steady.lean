import ShaderGen.Proofs.Nodes
import ShaderGen.Proofs.Semantics.Lookup
import ShaderGen.Proofs.Semantics.Transition
import ShaderGen.Proofs.Semantics.Valued

/-!
# Lookups that agree while a condition holds

A lookup may find what is in a variable as long as some condition holds of the state, and do
something else otherwise. If expressions and statements keep the condition, and it holds when they
start, it makes no difference that they are run by that lookup.

That a condition is kept is a relation between the start and the end of a run (`State.Retains`), so
what keeps it follows that relation as a transition.

## Main definitions

- `Eval.SameWhile`: computations that do the same where a condition holds
- `Expr.Steady`: nodes at which a lookup makes no difference, and that write only what they may

## Key results

- `Expr.same_evalBy`: expressions over such nodes
- `Stmt.bisimilar_behaviourBy`: statements over such expressions
-/

namespace ShaderGen

open Behaviour

variable {α β γ : Type}

/-- The condition holds at the end if it does at the start. -/
def State.Retains (I : State α → Prop) (σ τ : State α) : Prop := I σ → I τ

/-- One state, in which the condition holds. -/
def State.Both (I : State α → Prop) (σ σ' : State α) : Prop := σ' = σ ∧ I σ

variable {I : State α → Prop} {N : String → Prop} {W : Variable → Prop} {m : Machine α}
  {lookup : Lookup α}

/-! ### Computations -/

namespace Eval

/-- Two computations do the same from every state in which the condition holds. -/
def SameWhile (I : State α → Prop) (x y : Eval α β) : Prop := ∀ ⦃σ⦄, I σ → x.run.run σ = y.run.run σ

namespace SameWhile

variable {x y : Eval α β} {f g : β → Eval α γ}

/-- A computation is the same as itself. -/
theorem refl (x : Eval α β) : SameWhile I x x := fun _ _ => rfl

/-- One computation after the other, where the first keeps the condition. -/
theorem bind (h : SameWhile I x y) (hy : Follows (State.Retains I) (fun _ => True) y)
    (hfg : ∀ b, SameWhile I (f b) (g b)) : SameWhile I (x >>= f) (y >>= g) := by
  intro σ hσ
  rw [ExceptT.run_bind, StateT.run_bind, ExceptT.run_bind, StateT.run_bind, h hσ]
  cases hrun : y.run.run σ with
  | none => rfl
  | some end_ =>
    obtain ⟨r, ρ⟩ := end_
    cases r with
    | error d => rfl
    | ok b =>
      -- The first computation kept the condition, so the second ones do the same.
      exact hfg b ((hy hrun).1 hσ)

/-- What comes after a computation may be anything. -/
theorem before (h : SameWhile I x y) (f : β → Eval α γ) : SameWhile I (x >>= f) (y >>= f) := by
  intro σ hσ
  rw [ExceptT.run_bind, StateT.run_bind, ExceptT.run_bind, StateT.run_bind, h hσ]

/-- The same computations have the same images. -/
theorem map (h : SameWhile I x y) (f : β → γ) : SameWhile I (f <$> x) (f <$> y) := by
  rw [← bind_pure_comp, ← bind_pure_comp]
  exact h.before _

/-- Computations that do the same and keep the condition can be run side by side. -/
theorem continues (h : SameWhile I x y) (hy : Follows (State.Retains I) (fun _ => True) y) :
    Continues (State.Both I) Eq y x := by
  intro σ σ' hσ
  obtain ⟨rfl, hσ⟩ := hσ
  rw [h hσ]
  cases hrun : y.run.run σ' with
  | none => exact .none
  | some end_ =>
    obtain ⟨r, τ⟩ := end_
    -- The second computation keeps the condition, which the first one needs to be like it.
    have hτ : I τ := (hy hrun).1 hσ
    cases r with
    | error d => exact .some (.error ⟨rfl, hτ⟩)
    | ok b => exact .some (.ok ⟨rfl, rfl, hτ⟩)

end SameWhile

end Eval

/-! ### Expressions -/

namespace Expr

open Eval

/-- A node at which the lookup makes no difference while the condition holds, and that writes only
    to variables of a kind. -/
structure Steady (I : State α → Prop) (W : Variable → Prop) (lookup : Lookup α) (e : Expr) :
    Prop where
  looks (v : Variable) (hv : e.owner? = some v) (reads : Bool) :
    SameWhile I (lookup reads v e.ty) (Eval.load v e.ty)
  writes : ∀ target ∈ e.target?, ∀ v, target.Reaches v → W v

section

variable (hT : Transition N (State.Retains I)) (hW : Transition.Steps m W (State.Retains I))

include hT hW

/-- An expression that only writes what it may keeps the condition. -/
theorem follows_of_steady {e : Expr} (he : e.Throughout (Steady I W lookup)) :
    Follows (State.Retains I) (Lane.Owned e.Reaches) (e.eval m) := by
  induction e using induction_children with
  | h e ih =>
    obtain ⟨hnode, hchildren⟩ := throughout_iff.mp he
    exact follows_eval hT hW hnode.writes fun c hc => ih c hc (hchildren c hc)

/-- The value of an expression that only writes what it may. -/
theorem follows_values {e : Expr} (he : e.Throughout (Steady I W lookup)) :
    Follows (State.Retains I) (fun _ => True) (e.values m) :=
  (follows_of_steady hT hW he).map hT fun _ _ => trivial

/-- Arguments are evaluated to the same values while the condition holds. -/
theorem same_evalArgsBy {es : List Expr} (hes : ∀ e ∈ es, e.Throughout (Steady I W lookup))
    (h : ∀ e ∈ es, ∀ reads, SameWhile I (e.evalBy lookup m reads) (e.eval m)) :
    SameWhile I (evalArgsBy lookup m es) (evalArgs m es) := by
  induction es with
  | nil => exact .refl _
  | cons e es ih =>
    obtain ⟨he, hrest⟩ := List.forall_mem_cons.mp hes
    obtain ⟨hfirst, hothers⟩ := List.forall_mem_cons.mp h
    have hvalues := (hfirst true).map Lane.values
    exact hvalues.bind (follows_values hT hW he) fun vs => (ih hrest hothers).before _

/-- By the lookup, an expression does what it does while the condition holds. -/
theorem same_evalBy (e : Expr) : e.Throughout (Steady I W lookup) →
    -- Each operand leaves the condition as it is (`follows_of_steady`), so the next one is still
    -- looked up alike.
    ∀ reads, SameWhile I (e.evalBy lookup m reads) (e.eval m) := by
  induction e with
  | literal ty value => exact fun _ _ => .refl _
  | var ty name => exact fun he => (throughout_iff.mp he).1.looks (.named name) rfl
  | builtin ty which => exact fun he => (throughout_iff.mp he).1.looks (.builtin which) rfl
  | unary ty op operand ih =>
    intro he reads
    have hoperand := ih ((throughout_iff.mp he).2 operand (List.mem_singleton_self _)) true
    unfold evalBy eval
    split
    · exact hoperand.before _
    · exact (hoperand.map Lane.values).before _
  | binary ty op left right ihl ihr =>
    intro he reads
    have hchildren := (throughout_iff.mp he).2
    have hleft := hchildren left List.mem_cons_self
    have hright := (ihr (hchildren right (by simp [children])) true).map Lane.values
    unfold evalBy eval
    split
    · -- What is assigned to is computed first, and may write on its own.
      have hkeeps := (follows_of_steady hT hW hleft).mono fun _ _ => trivial
      exact (ihl hleft _).bind hkeeps fun target => hright.before _
    · -- An operator that short-circuits may be decided by its left operand.
      refine ((ihl hleft true).map Lane.values).bind (follows_values hT hW hleft) fun ls => ?_
      cases op.decided? (m.holds ls) with
      | some b => exact .refl _
      | none => exact hright.before _
  | ternary ty cond ifTrue ifFalse ihc iht ihf =>
    intro he reads
    have hchildren := (throughout_iff.mp he).2
    have hcond := hchildren cond List.mem_cons_self
    -- The condition goes first, and the arm is evaluated where the condition left it.
    refine ((ihc hcond true).map Lane.values).bind (follows_values hT hW hcond) fun vs => ?_
    split
    · exact (iht (hchildren ifTrue (by simp [children])) reads).map _
    · exact (ihf (hchildren ifFalse (by simp [children])) reads).map _
  | call ty callee args ih =>
    intro he reads
    have hchildren := (throughout_iff.mp he).2
    have hargs := same_evalArgsBy hT hW hchildren fun e h => ih e h (hchildren e h)
    cases callee <;> exact hargs.before _
  | swizzle ty base mask ih =>
    intro he reads
    exact (ih ((throughout_iff.mp he).2 base (List.mem_singleton_self _)) reads).map _
  -- The position is evaluated after the base.
  | index ty base position ihb ihp =>
    intro he reads
    have hchildren := (throughout_iff.mp he).2
    have hbase := hchildren base List.mem_cons_self
    have hposition := ihp (hchildren position (by simp [children])) true
    have hkeeps := (follows_of_steady hT hW hbase).mono fun _ _ => trivial
    exact (ihb hbase reads).bind hkeeps fun ls => (hposition.map Lane.values).before _
  | construct ty args ih =>
    intro he reads
    have hchildren := (throughout_iff.mp he).2
    exact (same_evalArgsBy hT hW hchildren fun e h => ih e h (hchildren e h)).before _
  | group ty inner ih =>
    intro he reads
    exact (ih ((throughout_iff.mp he).2 inner (List.mem_singleton_self _)) reads).map _

/-- The value of an expression, by the lookup. -/
theorem continues_valuesBy {e : Expr} (he : e.Throughout (Steady I W lookup)) :
    Continues (State.Both I) Eq (e.values m) (e.valuesBy lookup m) :=
  ((same_evalBy hT hW e he true).map Lane.values).continues (follows_values hT hW he)

end

end Expr

/-! ### Statements -/

namespace Behaviour.Bisimilar

variable {A B : Behaviour α}

/-- From a state in which the condition holds, two behaviours end alike. -/
theorem iff_of_both (h : Bisimilar (State.Both I) A B) {σ : State α} (hσ : I σ) (o : Outcome α)
    (τ : State α) : A σ o τ ↔ B σ o τ := by
  constructor
  · intro ha
    obtain ⟨_, hb, rfl, -⟩ := h.forward ⟨rfl, hσ⟩ ha
    exact hb
  · intro hb
    obtain ⟨_, ha, rfl, -⟩ := h.backward (show flip (State.Both I) σ σ from ⟨rfl, hσ⟩) hb
    exact ha

end Behaviour.Bisimilar

namespace Stmt

variable {Q : Expr → Prop} {values : Valuation α}

/-- Lists run alike while the condition holds. -/
theorem bisimilar_listBehaviourBy {ss : List Stmt}
    (h : ∀ s ∈ ss, Bisimilar (State.Both I) (s.behaviour m) (s.behaviourBy values m)) :
    Bisimilar (State.Both I) (listBehaviour m ss) (listBehaviourBy values m ss) := by
  induction ss with
  | nil => exact .skip
  | cons s ss ih =>
    obtain ⟨hs, hss⟩ := List.forall_mem_cons.mp h
    exact hs.seq (ih hss)

/-- Cases run alike, too. -/
theorem bisimilar_caseBehavioursBy {cases : List Case}
    (h : ∀ label body, .mk label body ∈ cases →
      ∀ s ∈ body, Bisimilar (State.Both I) (s.behaviour m) (s.behaviourBy values m)) :
    List.Forall₂ (fun b b' => b'.1 = b.1 ∧ Bisimilar (State.Both I) b.2 b'.2)
      (caseBehaviours m cases) (caseBehavioursBy values m cases) := by
  induction cases with
  | nil => exact .nil
  | cons c cases ih =>
    obtain ⟨label, body⟩ := c
    have hbody := bisimilar_listBehaviourBy (h label body List.mem_cons_self)
    exact .cons ⟨rfl, hbody⟩ (ih fun label' body' hc => h label' body' (List.mem_cons_of_mem _ hc))

/-- A statement does the same with other values, if its expressions have the same values while the
    condition holds. -/
theorem bisimilar_behaviourBy (hT : Transition N (State.Retains I))
    (he : ∀ e, Q e → Continues (State.Both I) Eq (e.values m) (values e)) (s : Stmt)
    (hs : s.Fits N Q) : Bisimilar (State.Both I) (s.behaviour m) (s.behaviourBy values m) := by
  have hscope {names : List String} {A B : Behaviour α} (h : Bisimilar (State.Both I) A B) :
      Bisimilar (State.Both I) (inScope names A) (inScope names B) := by
    refine h.inScope fun ρ ρ' σ σ' hρ hσ => ?_
    obtain ⟨rfl, hρ⟩ := hρ
    obtain ⟨rfl, hσ⟩ := hσ
    -- The variables of the scope get what they held before it, where the condition held as well.
    have hkept : State.Retains I σ' ρ' := fun _ => hρ
    exact ⟨rfl, hT.leave names hkept hσ⟩
  -- A change that keeps the condition is made on both sides.
  have hchange {f : State α → State α} (h : ∀ σ, State.Retains I σ (f σ)) :
      Bisimilar (State.Both I) (change f) (change f) := by
    refine .change fun σ σ' hσ => ?_
    obtain ⟨rfl, hσ⟩ := hσ
    exact ⟨rfl, h _ hσ⟩
  have hbranch {cond : Expr} (hcond : Q cond) {A A' B B' : Behaviour α}
      (hA : Bisimilar (State.Both I) A A') (hB : Bisimilar (State.Both I) B B') :
      Bisimilar (State.Both I) (branch m cond A B) (branchBy values m cond A' B') := by
    refine .after (he cond hcond) fun vs vs' hvs => ?_
    obtain rfl := hvs
    split
    · exact hA
    · exact hB
  have htest {cond : Expr} (hcond : Q cond) :
      Bisimilar (State.Both I) (test m cond) (testBy values m cond) :=
    hbranch hcond .skip (.exit _)
  have heval {e : Expr} (h : Q e) : Bisimilar (State.Both I) (after (e.eval m) fun _ => skip)
      (after (values e) fun _ => skip) := by
    rw [after_eval]
    exact .after (he e h) fun _ _ _ => .skip
  induction s with
  | block body ih =>
    rw [fits_block] at hs
    exact hscope (bisimilar_listBehaviourBy fun s h => ih s h (hs s h))
  -- A declaration writes a local, which the condition may not be about.
  | decl d =>
    obtain ⟨hname, hinit⟩ := fits_decl.mp hs
    show Bisimilar _ (d.behaviour m) (d.behaviourBy values m)
    unfold Decl.behaviour Decl.behaviourBy
    cases hd : d.init with
    | none => exact hchange fun σ => hT.setLocal σ hname _
    | some e =>
      refine .after (he e (hinit e hd)) fun vs vs' hvs => ?_
      obtain rfl := hvs
      exact hchange fun σ => hT.setLocal σ hname _
  | ifElse cond thenBranch elseBranch iht ihe =>
    obtain ⟨hcond, hthen, helse⟩ := fits_ifElse.mp hs
    refine hbranch hcond (hscope (iht hthen)) ?_
    cases elseBranch with
    | none => exact .skip
    | some s => exact hscope (ihe s rfl (helse s rfl))
  | forLoop init cond step body ihi ihb =>
    obtain ⟨hinit, hcond, hstep, hbody⟩ := fits_forLoop.mp hs
    have hfirst : Bisimilar (State.Both I) (initBehaviour m init)
        (initBehaviourBy values m init) := by
      cases init with
      | none => exact .skip
      | some s => exact ihi s rfl (hinit s rfl)
    have hcheck : Bisimilar (State.Both I) (cond.elim skip (test m))
        (cond.elim skip (testBy values m)) := by
      cases cond with
      | none => exact .skip
      | some e => exact htest (hcond e rfl)
    have hlast : Bisimilar (State.Both I) (step.elim skip fun e => after (e.eval m) fun _ => skip)
        (step.elim skip fun e => after (values e) fun _ => skip) := by
      cases step with
      | none => exact .skip
      | some e => exact heval (hstep e rfl)
    -- A turn is the test, the body in its own scope and the step.
    exact hscope (hfirst.seq (hcheck.seq ((hscope (ihb hbody)).andThen hlast)).forever)
  -- The other loops are put together from the same parts.
  | whileLoop cond body ih =>
    obtain ⟨hcond, hbody⟩ := fits_whileLoop.mp hs
    exact ((htest hcond).seq (hscope (ih hbody))).forever
  | doWhile body cond ih =>
    obtain ⟨hcond, hbody⟩ := fits_doWhile.mp hs
    exact ((hscope (ih hbody)).andThen (htest hcond)).forever
  | switchOn value cases ih =>
    obtain ⟨hvalue, hcases⟩ := fits_switchOn.mp hs
    refine .after (he value hvalue) fun vs vs' hvs => ?_
    obtain rfl := hvs
    -- The labels are the same, so the same cases are selected.
    have hall := bisimilar_caseBehavioursBy fun label body hc s h =>
      ih label body hc s h (hcases _ hc s h)
    have hselected := forall₂_selected hall (fun _ _ hb => hb.1) (m.asInteger vs)
    refine (hscope (.seqAll ?_)).catchBreak
    rw [List.forall₂_map_left_iff, List.forall₂_map_right_iff]
    exact hselected.imp fun _ _ hb => hb.2
  | expr e => exact heval (fits_expr.mp hs)
  -- A return may have a value to evaluate.
  | returnWith value =>
    cases value with
    | none => exact .exit _
    | some e =>
      refine .after (he e (fits_returnWith.mp hs e rfl)) fun vs vs' hvs => ?_
      obtain rfl := hvs
      exact .exit _
  | breakOut => exact .exit _
  | continueLoop => exact .exit _
  | discard => exact .exit _
  | emitVertex => exact hchange hT.emitVertex
  | endPrimitive => exact hchange hT.endPrimitive

end Stmt

end ShaderGen
