import ShaderGen.Proofs.Semantics.Alike
import ShaderGen.Proofs.Semantics.Loading

/-!
# Programs over expressions that track others

A rule that rebuilds expressions may need helper functions in front of the program and temporaries
at the start of a function. An expression is retraced if what takes its place tracks it on all
machines that know the helpers (`Expr.Traced`); a function is, if each expression of its body is,
with the temporaries that the new body starts with (`Function.Retraced`). The functions of the
program come later and may be known or not, so all of them are left open.

## Main definitions

- `Machine.Knows`: a machine that answers calls of the helpers
- `Expr.Traced`, `Function.Retraced`: what takes the place of an expression and of a function

## Key results

- `Expr.traced_withChildren`: a node over children that are retraced
- `Function.Retraced.of_body`: a function runs as before if its expressions are retraced
-/

namespace ShaderGen

open List (Forall₂)

variable {α : Type}

/-- The machine answers calls of functions with what their runs give. -/
def Machine.Knows (helpers : List Function) (m : Machine α) : Prop :=
  ∀ f ∈ helpers, ∀ args shared, f.isCalled args f.name = true →
    m.call f.name args shared = f.reply? m args shared

section

variable (added : String → Bool) (helpers : List Function) (m : Machine α)

/-- Whatever functions of the program there are, the second expression tracks the first where the
    helpers are known. -/
def Expr.Traced (names : List String) (e e' : Expr) : Prop :=
  ∀ call m', (m.withCalls call).Alike added m' → m'.Knows helpers →
    e.Tracks added (m.withCalls call) m' names e'

/-- A function and what takes its place: declarations of temporaries, and then the same statements
    over expressions that track those of the function. From every state it does the same. -/
structure Function.Retraced (f f' : Function) : Prop where
  body : ∃ (temps : List Decl) (body : List Stmt),
    f' = { f with body := temps.map Stmt.decl ++ body } ∧
      (∀ d ∈ temps, d.init = none ∧ added d.name = true) ∧
      Forall₂ (Stmt.Mirrors (Expr.Traced added helpers m (temps.map Decl.name))) f.body body
  runs : ∀ call m', (m.withCalls call).Alike added m' → m'.Knows helpers →
    f.RunsAs added (m.withCalls call) m' f'

end

variable {added : String → Bool} {helpers : List Function} {m m' : Machine α}

/-- Every machine knows no helpers at all. -/
theorem Machine.knows_nil (m : Machine α) : m.Knows [] := fun _ hf => absurd hf List.not_mem_nil

/-! ### Expressions -/

namespace Expr

variable {names : List String} {e e' e'' : Expr}

/-- Without helpers there is a machine that tells the type. -/
theorem Traced.ty_eq (h : e.Traced added [] m names e') : e'.ty = e.ty :=
  (h m.call m (Machine.Alike.refl m) m.knows_nil).ty_eq

/-- A trace may use more names. -/
theorem Traced.mono {big : List String} (h : e.Traced added helpers m names e')
    (hsub : ∀ x ∈ names, x ∈ big) : e.Traced added helpers m big e' :=
  fun call m' hm hknows => (h call m' hm hknows).mono hsub

/-- A node traced in its children is traced, when it refers to nothing added. -/
theorem traced_withChildren {cs : List Expr} (hnode : e.refersTo added = false)
    (h : Forall₂ (Traced added helpers m names) e.children cs) :
    e.Traced added helpers m names (e.withChildren cs) :=
  fun call m' hm hknows =>
    tracks_withChildren hm hnode (h.imp fun _ _ hc => hc call m' hm hknows)

/-- What computes the same, whatever functions of the program there are, can take the place. -/
theorem Traced.trans_alike (h : e.Traced added helpers m names e')
    (hsame : ∀ call, Alike (m.withCalls call) true e' e'') :
    e.Traced added helpers m names e'' := by
  intro call m' hm hknows
  obtain ⟨hty, heval⟩ := h call m' hm hknows
  obtain ⟨call', rfl, -⟩ := hm
  have hlast : Alike ((m.withCalls call).withCalls call') true e' e'' := hsame call'
  refine ⟨hlast.ty_eq.trans hty, ?_⟩
  rw [hlast.eval_eq rfl]
  exact heval

end Expr

/-! ### Functions -/

section

variable {before : List (Action α)} {names : List String} {A : Behaviour α}

/-- Declarations of added names come before a body that needs them. -/
theorem bisimilar_declare {temps : List Decl} {body : List Stmt}
    (htemps : ∀ d ∈ temps, d.init = none ∧ added d.name = true)
    (h : Behaviour.Bisimilar (State.Equipped added before (names ++ temps.map Decl.name)) A
      (Stmt.listBehaviour m body)) :
    Behaviour.Bisimilar (State.Equipped added before names) A
      (Stmt.listBehaviour m (temps.map Stmt.decl ++ body)) := by
  -- One after the other, the temporaries join the variables that the state is equipped with.
  induction temps generalizing names with
  | nil => simpa using h
  | cons d temps ih =>
    obtain ⟨hinit, hname⟩ := htemps d List.mem_cons_self
    have hrest : Behaviour.Bisimilar (State.Equipped added before (names ++ [d.name])) A
        (Stmt.listBehaviour m (temps.map Stmt.decl ++ body)) :=
      ih (fun d' hd' => htemps d' (List.mem_cons_of_mem d hd')) (by simpa using h)
    show Behaviour.Bisimilar _ A (Behaviour.seq (d.behaviour m) (Stmt.listBehaviour m _))
    unfold Decl.behaviour
    rw [hinit]
    refine hrest.prelude (fun σ σ' hσ => hσ.declare_right hname _) fun σ σ' hσ => ?_
    exact ⟨hσ.toShadows, fun x hx => hσ.declares x (List.mem_append_left _ hx)⟩

end

/-- A function does what it did after each of its expressions was replaced by one that tracks it
    with temporaries that are declared first. -/
theorem Function.RunsAs.of_body (hm : m.Alike added m') {f : Function} {temps : List Decl}
    {body : List Stmt} (htemps : ∀ d ∈ temps, d.init = none ∧ added d.name = true)
    (hbody : Forall₂ (Stmt.Mirrors fun e e' => e.Tracks added m m' (temps.map Decl.name) e') f.body
      body) :
    f.RunsAs added m m' { f with body := temps.map Stmt.decl ++ body } := by
  obtain ⟨call, rfl, -⟩ := hm
  refine ⟨rfl, rfl, fun before => ?_⟩
  -- The temporaries are declared in front, and the body runs with them in the state.
  have hbisimilar : Behaviour.Bisimilar
      (State.Equipped added before ([] ++ temps.map Decl.name)) (f.Runs m)
      (Stmt.listBehaviour (m.withCalls call) body) :=
    Stmt.listBehaviour_bisimilar (hbody.imp fun _ _ hs =>
      (hs.mono fun e e' htracks => htracks.agrees before).agrees State.scoped_equipped)
  have hdeclared := bisimilar_declare htemps hbisimilar
  rwa [State.equipped_nil] at hdeclared

/-- A function whose body is traced, behind new declarations, is retraced. -/
theorem Function.Retraced.of_body {f : Function} {temps : List Decl} {body : List Stmt}
    (htemps : ∀ d ∈ temps, d.init = none ∧ added d.name = true)
    (hbody : Forall₂ (Stmt.Mirrors (Expr.Traced added helpers m (temps.map Decl.name))) f.body
      body) :
    f.Retraced added helpers m { f with body := temps.map Stmt.decl ++ body } where
  body := ⟨temps, body, rfl, htemps, hbody⟩
  runs call m' hm hknows :=
    .of_body hm htemps (hbody.imp fun _ _ hs => hs.mono fun _ _ he => he call m' hm hknows)

/-- A body that needs no temporaries. -/
theorem Function.Retraced.of_mirrors {f : Function} {body : List Stmt}
    (hbody : Forall₂ (Stmt.Mirrors (Expr.Traced added helpers m [])) f.body body) :
    f.Retraced added helpers m { f with body } := by
  have hnone : ∀ d ∈ ([] : List Decl), d.init = none ∧ added d.name = true := by simp
  exact of_body hnone hbody

end ShaderGen
