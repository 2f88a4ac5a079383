import ShaderGen.Proofs.Checked
import ShaderGen.Proofs.Legalize.Lenient

/-!
# Loops keep their initializers

Every `for` of a program without a defect starts with a declaration or an expression
(`Stmt.StartsPlainly`). No rule replaces the initializer of a `for` by more than one statement, and
the loops that rules bring in start with an assignment, so this holds of every program that comes
out of a rule.

## Key results

- `Legalize.plain_rules`: the loops of a program that comes out of rules start plainly
-/

namespace ShaderGen

namespace Stmt

/-- Every `for` of a statement starts with a declaration or an expression. -/
def Plain (s : Stmt) : Prop := s.Everywhere StartsPlainly

/-- Starting plainly is lenient: it asks something of loops only. -/
theorem lenient_startsPlainly : Lenient StartsPlainly where
  other {s} h := by
    cases s with
    | forLoop => cases h
    | _ => trivial
  plain _ _ _ := trivial
  starts := rfl
  -- A loop that starts with the same kind of statement starts as plainly.
  loop {init init' _ _ _ _ _ _} hkind h := by
    cases init' with
    | none => trivial
    | some s' =>
      cases init with
      | none => cases hkind
      | some s => exact (Option.some.inj hkind).trans h

/-- A mirror image starts its loops with images of what they started with. -/
theorem Mirrors.startsPlainly {R : Expr → Expr → Prop} {s s' : Stmt} (h : s.Mirrors R s')
    (hs : s.StartsPlainly) : s'.StartsPlainly := by
  -- What a loop starts with keeps its kind, be it a declaration or an expression.
  have hkind : ∀ {i i' : Stmt}, i.Mirrors R i' → i'.isLoopInitializer = i.isLoopInitializer := by
    intro i i' hi
    cases hi <;> rfl
  cases h with
  | forLoop hinit =>
    cases hinit with
    | none => trivial
    | some hi => exact (hkind hi).trans hs
  | _ => trivial

/-- A statement that holds no other one. -/
theorem plain_of_leaf {s : Stmt} (h : s.nested = []) : s.Plain := by
  refine .intro ?_ (by simp [h])
  cases s <;> first | trivial | simp [Stmt.nested] at h

end Stmt

/-- Every `for` of a function starts with a declaration or an expression. -/
def Function.Plain (fn : Function) : Prop := ∀ s ∈ fn.body, s.Plain

/-- Every `for` of an element starts with a declaration or an expression. -/
def Element.Plain : Element → Prop
  | .function fn => fn.Plain
  | _ => True

/-- Every `for` of a program starts with a declaration or an expression. -/
def Program.Plain (p : Program) : Prop := ∀ el ∈ p.elements, el.Plain

namespace Legalize

open Outline Stmt

variable {t : Target} {p : Program}

/-- A program shows it if every `for` of it starts plainly. -/
theorem shows_iff_plain :
    p.Shows (everywhere StartsPlainly fun _ => True) ↔ p.Plain := by
  refine forall₂_congr fun el _ => ?_
  cases el with
  | function fn => exact and_iff_right trivial
  | _ => exact Iff.rfl

/-- The check makes sure that every `for` starts plainly. -/
theorem plain_of_defect? (h : p.defect? = none) : p.Plain := by
  intro el hel
  cases el with
  | function fn => exact Program.everywhere_startsPlainly h hel
  | _ => trivial

/-- Nothing is asked of rewritten expressions. -/
theorem rewrites_anything : Rewrites fun _ _ => True where
  trans _ _ := trivial
  congr _ := trivial
  refl _ := trivial
  raise _ := trivial
  substitute _ := trivial
  readLocal _ _ := trivial
  forward _ := trivial
  negateDerivative _ := trivial
  resolve _ _ := .of_forall (fun _ => trivial) _
  readCounter _ := trivial
  collapse _ := trivial
  unfold _ := trivial
  expand _ := .of_forall (fun _ => trivial) _

/-- Moving initial values into functions brings in no loops. -/
theorem hoists_startsPlainly : Hoists (everywhere StartsPlainly fun _ => True) where
  header _ _ := trivial
  value _ _ := plain_of_leaf rfl
  call _ _ := id

/-- A rewriting of expressions keeps the kind of every statement. -/
theorem turns_startsPlainly {R : Expr → Expr → Prop} :
    Turns R (everywhere StartsPlainly fun _ => True) (everywhere StartsPlainly fun _ => True) :=
  turns_everywhere Mirrors.startsPlainly (fun _ => id) fun _ => trivial

/-- A rule keeps the initializers, whatever it does to expressions. -/
theorem plain_rule {r : Rule} (hr : r ∈ pipeline) (h : p.Plain) :
    Yields Program.Plain (r.step t p) := by
  have hlate : Refits true Expr.isRefitted fun _ _ => True :=
    ⟨rewrites_anything.toIsCongruence, fun _ => trivial, fun _ _ _ => trivial⟩
  exact (shows_all lenient_startsPlainly rewrites_anything turns_startsPlainly hlate
    hoists_startsPlainly hr (shows_iff_plain.mpr h)).mono fun _ => shows_iff_plain.mp

/-- Whatever rules run, the loops of a program still start with a declaration or an expression. -/
theorem plain_rules {rs : List Rule} (hrs : ∀ r ∈ rs, r ∈ pipeline) (h : p.Plain) :
    Yields Program.Plain (rs.foldlM (Rule.step t) p) :=
  foldlM_yields (fun r hr _ => plain_rule (hrs r hr)) h

end Legalize

end ShaderGen
