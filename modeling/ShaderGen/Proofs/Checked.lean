import Mathlib.Data.Option.Basic
import ShaderGen.Program.WellFormed
import ShaderGen.Proofs.Rewriting

/-!
# What the check establishes

`Program.defect?` goes through a program and stops at the first defect. A program without one has
none in any statement or expression, whatever the depth at which the check came there: its loops
start with declarations or expressions, and its masks are in range.

## Key results

- `Stmt.everywhere_checked`, `Program.all_checked`: the check of a whole is a check of every part
- `Program.everywhere_startsPlainly`: the initializers of loops
-/

namespace ShaderGen

/-- The check finds no defect in an expression that is only read. -/
def Expr.Checked (e : Expr) : Prop := ∃ depth, e.defect? depth false = none

namespace Stmt

/-- If the statement is a `for`, it starts with a declaration or an expression. -/
def StartsPlainly : Stmt → Prop
  | .forLoop (some init) _ _ _ => init.isLoopInitializer = true
  | _ => True

/-- The check finds no defect in a statement, those inside it left out. -/
structure Checked (s : Stmt) : Prop where
  start : s.StartsPlainly
  own : ∀ e ∈ s.own, e.Checked

variable {depth : Nat}

/-- In a list without a defect no statement has one. -/
theorem defect?_eq_none_of_mem {ss : List Stmt} (h : listDefect? depth ss = none) :
    ∀ s ∈ ss, s.defect? depth = none := by
  induction ss with
  | nil => exact fun s hs => absurd hs List.not_mem_nil
  | cons s ss ih =>
    obtain ⟨hs, hss⟩ := (Option.orElse_eq_none _ _).mp h
    exact List.forall_mem_cons.mpr ⟨hs, ih hss⟩

/-- In cases without a defect no body has one. -/
theorem defect?_eq_none_of_mem_cases {cs : List Case} (h : casesDefect? depth cs = none) :
    ∀ label body, .mk label body ∈ cs → listDefect? depth body = none := by
  induction cs with
  | nil => exact fun _ _ hc => absurd hc List.not_mem_nil
  | cons c cs ih =>
    obtain ⟨label, body⟩ := c
    obtain ⟨hbody, hcs⟩ := (Option.orElse_eq_none _ _).mp h
    -- The case is the first one or among the others.
    rintro label' body' (_ | ⟨_, hc⟩)
    · exact hbody
    · exact ih hcs label' body' hc

/-- An optional expression without a defect is checked. -/
theorem checked_of_bind {value : Option Expr} (h : value.bind (Expr.defect? depth false) = none) :
    ∀ e ∈ value.toList, e.Checked := by
  cases value with
  | none => simp
  | some e => simpa using ⟨depth, h⟩

/-- A statement without a defect has none in any statement inside it. -/
theorem everywhere_checked {s : Stmt} (h : s.defect? depth = none) : s.Everywhere Checked := by
  -- The parts of a statement are checked in turn, one level deeper, and the first defect is
  -- reported: where there is none, each part has none.
  induction s generalizing depth with
  | block body ih =>
    obtain ⟨-, hbody⟩ := (Option.orElse_eq_none _ _).mp h
    exact .intro ⟨trivial, nofun⟩ fun s hs => ih s hs (defect?_eq_none_of_mem hbody s hs)
  | decl d =>
    obtain ⟨-, hd⟩ := (Option.orElse_eq_none _ _).mp h
    exact .intro ⟨trivial, checked_of_bind hd⟩ nofun
  | ifElse cond thenBranch elseBranch iht ihe =>
    obtain ⟨-, h⟩ := (Option.orElse_eq_none _ _).mp h
    obtain ⟨hcond, h⟩ := (Option.orElse_eq_none _ _).mp h
    obtain ⟨hthen, helse⟩ := (Option.orElse_eq_none _ _).mp h
    refine .intro ⟨trivial, List.forall_mem_singleton.mpr ⟨_, hcond⟩⟩
      (List.forall_mem_cons.mpr ⟨iht hthen, fun s hs => ?_⟩)
    obtain rfl := Option.mem_toList.mp hs
    exact ihe s rfl helse
  | forLoop init cond step body ihi ihb =>
    obtain ⟨-, h⟩ := (Option.orElse_eq_none _ _).mp h
    obtain ⟨hinit, h⟩ := (Option.orElse_eq_none _ _).mp h
    obtain ⟨hcond, h⟩ := (Option.orElse_eq_none _ _).mp h
    obtain ⟨hstep, hbody⟩ := (Option.orElse_eq_none _ _).mp h
    have hown : ∀ e ∈ cond.toList ++ step.toList, e.Checked :=
      List.forall_mem_append.mpr ⟨checked_of_bind hcond, checked_of_bind hstep⟩
    -- The first part may be missing; otherwise only a declaration or an expression passes.
    cases init with
    | none => exact .intro ⟨trivial, hown⟩ (List.forall_mem_singleton.mpr (ihb hbody))
    | some s =>
      change (if s.isLoopInitializer then _ else _) = none at hinit
      split at hinit
      · next hs =>
        exact .intro ⟨hs, hown⟩ (List.forall_mem_cons.mpr
          ⟨ihi s rfl hinit, List.forall_mem_singleton.mpr (ihb hbody)⟩)
      · cases hinit
  | whileLoop cond body ih | doWhile body cond ih =>
    obtain ⟨-, h⟩ := (Option.orElse_eq_none _ _).mp h
    obtain ⟨hcond, hbody⟩ := (Option.orElse_eq_none _ _).mp h
    exact .intro ⟨trivial, List.forall_mem_singleton.mpr ⟨_, hcond⟩⟩
      (List.forall_mem_singleton.mpr (ih hbody))
  | switchOn value cases ih =>
    obtain ⟨-, h⟩ := (Option.orElse_eq_none _ _).mp h
    obtain ⟨hvalue, hcases⟩ := (Option.orElse_eq_none _ _).mp h
    refine .intro ⟨trivial, List.forall_mem_singleton.mpr ⟨_, hvalue⟩⟩ fun s hs => ?_
    -- A statement of a switch stands in the body of one of its cases.
    obtain ⟨⟨label, body⟩, hc, hs⟩ := List.mem_flatMap.mp hs
    have hbody := defect?_eq_none_of_mem_cases hcases label body hc
    exact ih label body hc s hs (defect?_eq_none_of_mem hbody s hs)
  | expr e =>
    obtain ⟨-, he⟩ := (Option.orElse_eq_none _ _).mp h
    exact .intro ⟨trivial, List.forall_mem_singleton.mpr ⟨_, he⟩⟩ nofun
  | returnWith value =>
    obtain ⟨-, hvalue⟩ := (Option.orElse_eq_none _ _).mp h
    exact .intro ⟨trivial, checked_of_bind hvalue⟩ nofun
  | _ => exact .intro ⟨trivial, nofun⟩ nofun

end Stmt

namespace Program

variable {p : Program}

/-- A program without a defect has none in any statement. -/
theorem everywhere_checked (h : p.defect? = none) {f : Function} (hf : .function f ∈ p.elements) :
    ∀ s ∈ f.body, s.Everywhere Stmt.Checked := by
  have hbody : Stmt.listDefect? 1 f.body = none := List.findSome?_eq_none_iff.mp h _ hf
  exact fun s hs => Stmt.everywhere_checked (Stmt.defect?_eq_none_of_mem hbody s hs)

/-- The loops of a program without a defect start with declarations or expressions. -/
theorem everywhere_startsPlainly (h : p.defect? = none) {f : Function}
    (hf : .function f ∈ p.elements) : ∀ s ∈ f.body, s.Everywhere Stmt.StartsPlainly :=
  fun s hs => (everywhere_checked h hf s hs).mono fun _ hs => hs.start

/-- A program without a defect has none in any expression. -/
theorem all_checked (h : p.defect? = none) : p.All Expr.Checked := by
  intro el hel
  -- An initial value is checked at the top, a body statement by statement.
  cases el with
  | global d =>
    have hd : d.init.bind (Expr.defect? 1 false) = none := List.findSome?_eq_none_iff.mp h _ hel
    exact fun e he => Stmt.checked_of_bind hd e (Option.mem_toList.mpr he)
  | function fn =>
    exact fun s hs => (everywhere_checked h hel s hs).all fun _ hs => hs.own
  | layout l => trivial

end Program

end ShaderGen
