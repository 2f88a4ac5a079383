import Mathlib.Data.List.Induction
import ShaderGen.Proofs.Legalize.HoistInit

/-!
# Programs that are retraced

A program is retraced if each of its functions and initial values is, and it does what it did once
the helper functions stand in front of it. The helpers call no function of the program, and no
function that comes later takes a call away from them, so every machine on the way knows them
(`Machine.Knows.declare`).

## Main definitions

- `Function.IsSelfContained`, `Function.Spares`: what is asked of helpers, and of other functions
- `Program.Retraced`: a program, and one over expressions that track those of it

## Key results

- `Machine.knows_foldl_declare`: helpers that spare one another are known once they are declared
- `Program.Retraced.of_redone`: it is enough to look at the elements
-/

namespace ShaderGen

open Behaviour
open List (Forall₂)

variable {α : Type}

/-- The function replies in the same way, whatever functions of the program there are. -/
def Function.IsSelfContained (m : Machine α) (f : Function) : Prop :=
  ∀ call args shared, f.reply? (m.withCalls call) args shared = f.reply? m args shared

/-- The function answers no call that is meant for one of the helpers. -/
def Function.Spares (helpers : List Function) (f : Function) : Prop :=
  ∀ g ∈ helpers, ∀ args : List (Ty × List α), g.isCalled args g.name = true →
    f.isCalled args g.name = false

/-- A program, and one that does the same with helpers in front of it: what takes the place of each
    expression tracks it, also where an initial value has moved into a function. -/
structure Program.Retraced (added : String → Bool) (helpers : List Function) (m : Machine α)
    (p p' : Program) : Prop where
  stage_eq : p'.stage = p.stage
  elements : Element.Redone added (Function.Retraced added helpers m)
    (Expr.Traced added helpers m []) p.elements p'.elements
  behavesAs : p.BehavesAs added m
    { p' with elements := helpers.map Element.function ++ p'.elements }

variable {added : String → Bool} {helpers : List Function} {m m' : Machine α} {f : Function}

/-! ### Helpers in front of a program -/

/-- A self-contained function is so whatever else may be called. -/
theorem Function.IsSelfContained.withCalls (h : f.IsSelfContained m)
    (call : String → List (Ty × List α) → (Variable → Nat → α) → Option (Reply α)) :
    f.IsSelfContained (m.withCalls call) :=
  fun call' args shared => (h call' args shared).trans (h call args shared).symm

namespace Machine

/-- Helpers stay known when a function is declared that spares them. -/
theorem Knows.declare (h : m.Knows helpers) (hself : ∀ g ∈ helpers, g.IsSelfContained m)
    (hf : f.Spares (α := α) helpers) : (m.declare f).Knows helpers := by
  intro g hg args shared hcalled
  show (if f.isCalled args g.name then _ else m.call g.name args shared) =
    g.reply? (m.withCalls _) args shared
  rw [hf g hg args hcalled, hself g hg]
  exact h g hg args shared hcalled

/-- A function is known right after it was declared. -/
theorem Knows.declared (hself : f.IsSelfContained m) : (m.declare f).Knows [f] := by
  intro g hg args shared hcalled
  obtain rfl := List.mem_singleton.mp hg
  show (if g.isCalled args g.name then _ else _) = g.reply? (m.withCalls _) args shared
  rw [if_pos hcalled, hself]

/-- Helpers are known once all of them are declared, if none of them takes the calls of those before
    it. -/
theorem knows_foldl_declare (hself : ∀ g ∈ helpers, g.IsSelfContained m)
    (hspares : helpers.Pairwise fun f g => g.Spares (α := α) [f]) :
    ∃ call, helpers.foldl declare m = m.withCalls call ∧ (m.withCalls call).Knows helpers := by
  -- By induction from the last helper on: those before it stay known, since it spares them.
  induction helpers using List.reverseRecOn with
  | nil => exact ⟨m.call, rfl, knows_nil m⟩
  | append_singleton helpers f ih =>
    obtain ⟨hbefore, -, hlast⟩ := List.pairwise_append.mp hspares
    obtain ⟨call, hfold, hknows⟩ := ih (fun g hg => hself g (List.mem_append_left _ hg)) hbefore
    have hothers := hknows.declare
      (fun g hg => (hself g (List.mem_append_left _ hg)).withCalls call)
      fun g hg => hlast g hg f List.mem_cons_self g List.mem_cons_self
    have hself : ((m.withCalls call).declare f).Knows [f] :=
      .declared ((hself f (by simp)).withCalls call)
    refine ⟨((m.withCalls call).declare f).call, ?_, fun g hg => ?_⟩
    · rw [List.foldl_append, hfold]
      rfl
    · rcases List.mem_append.mp hg with hg | hg
      · exact hothers g hg
      · exact hself g hg

/-- Functions with added names make no difference. -/
theorem Alike.foldl_declare_right (hm : m.Alike added m')
    (hnames : ∀ f ∈ helpers, added f.name = true) :
    m.Alike added (helpers.foldl declare m') := by
  induction helpers generalizing m' with
  | nil => exact hm
  | cons f helpers ih =>
    obtain ⟨hf, hrest⟩ := List.forall_mem_cons.mp hnames
    exact ih (hm.declare_right hf) hrest

end Machine

namespace Element

/-- Functions in front of other elements are known to all of them. -/
theorem foldlM_load_append (fs : List Function) (es : List Element) (m : Machine α) :
    (fs.map Element.function ++ es).foldlM load m =
      es.foldlM load (fs.foldl Machine.declare m) := by
  induction fs generalizing m with
  | nil => rfl
  | cons f fs ih => exact ih (m.declare f)

variable {F F' : Function → Function → Prop} {I : Expr → Expr → Prop} {es es' : List Element}

/-- What holds of redone functions may be weakened. -/
theorem Redone.mono (h : Redone added F I es es') (hF : ∀ f f', F f f' → F' f f') :
    Redone added F' I es es' := by
  induction h with
  | nil => exact .nil
  | layout l _ ih => exact .layout l ih
  | function h _ ih => exact .function (hF _ _ h) ih
  | global h _ ih => exact .global h ih
  | hoisted hinit hname h _ ih => exact .hoisted hinit hname (hF _ _ h) ih

/-- Elements that only differ in their expressions. -/
theorem Redone.of_mirrors (h : Forall₂ (Element.Mirrors I) es es')
    (hF : ∀ f body, .function f ∈ es → Forall₂ (Stmt.Mirrors I) f.body body →
      F f { f with body }) : Redone added F I es es' := by
  induction h with
  | nil => exact .nil
  | cons hel _ ih =>
    have hrest := ih fun f body hf => hF f body (List.mem_cons_of_mem _ hf)
    -- An element is like the one it came from, so it is of the same kind.
    cases hel with
    | global hinit => exact .global hinit hrest
    | function hbody => exact .function (hF _ _ List.mem_cons_self hbody) hrest
    | layout l => exact .layout l hrest

end Element

namespace Program.Retraced

variable {p p' : Program}

/-- A program whose functions and initial values are retraced does what it did, if its functions
    spare the helpers. -/
theorem of_redone (hstage : p'.stage = p.stage) (hnames : ∀ f ∈ helpers, added f.name = true)
    (hself : ∀ f ∈ helpers, f.IsSelfContained m)
    (hspares : helpers.Pairwise fun f g => g.Spares (α := α) [f])
    (h : Element.Redone added
      (fun f f' => f.Retraced added helpers m f' ∧ f'.Spares (α := α) helpers)
      (Expr.Traced added helpers m []) p.elements p'.elements) :
    p.Retraced added helpers m p' := by
  refine ⟨hstage, h.mono fun f f' h => h.1, fun shared => ?_⟩
  obtain ⟨call, hfold, hknows⟩ := Machine.knows_foldl_declare hself hspares
  have halike : m.Alike added (m.withCalls call) :=
    hfold ▸ (Machine.Alike.refl m).foldl_declare_right hnames
  -- The helpers are declared first, and then the elements run on a machine that knows them.
  have hcontinues := h.continues (K := fun m' => m'.Knows helpers)
    (fun _ _ hf call m' hm hknows => by
      refine ⟨hf.1.runs call m' hm hknows, ?_⟩
      obtain ⟨call', rfl, -⟩ := hm
      exact hknows.declare (fun g hg => ((hself g hg).withCalls call).withCalls call') hf.2)
    (fun e e' he call m' hm hknows => he call m' hm hknows) halike hknows
  have hload : Program.load m { p' with elements := helpers.map Element.function ++ p'.elements }
      shared = (p'.elements.foldlM Element.load (m.withCalls call)).run.run
        ⟨shared, fun _ => none, []⟩ := by
    rw [← hfold, ← Element.foldlM_load_append]
    rfl
  rw [hload]
  exact hcontinues (⟨rfl, rfl⟩ : State.Alike added ⟨shared, fun _ => none, []⟩
    ⟨shared, fun _ => none, []⟩)

/-- The same for a program without helpers. -/
theorem of_redone_nil (hstage : p'.stage = p.stage)
    (h : Element.Redone added (Function.Retraced added [] m) (Expr.Traced added [] m []) p.elements
      p'.elements) : p.Retraced added [] m p' :=
  of_redone hstage (by simp) (by simp) .nil
    (h.mono fun _ _ hf => ⟨hf, fun _ hg => absurd hg List.not_mem_nil⟩)

/-- A program over expressions that are retraced, without temporaries and without helpers. -/
theorem of_mirrors (hstage : p'.stage = p.stage)
    (h : Forall₂ (Element.Mirrors (Expr.Traced added [] m [])) p.elements p'.elements) :
    p.Retraced added [] m p' :=
  of_redone_nil hstage (.of_mirrors h fun _ _ _ hbody => .of_mirrors hbody)

end Program.Retraced

end ShaderGen
