import Mathlib.Data.Int.Order.Basic
import Mathlib.Order.Lattice
import ShaderGen.Proofs.Semantics.Congruence

/-!
# Machines with ordered numbers

What the language says about `<` and `min` where numbers are exact and ordered: a comparison of two
numbers tells which is the lesser, and `min` takes the lesser one lane by lane, a scalar standing
for all lanes.

## Main definitions

- `Ty.broadcasts`: the operands that `min` takes
- `Machine.Ordered`: a machine whose comparisons and minima follow an order
-/

namespace ShaderGen

/-- Whether two types have components of one kind: two scalars, two vectors of two to four
    components, or a scalar and such a vector. -/
def Ty.broadcasts (s t : Ty) : Bool :=
  match s.shape, t.shape with
  | .scalar kind, .scalar kind' => kind == kind'
  | .scalar kind, .vector kind' n | .vector kind n, .scalar kind' =>
    kind == kind' && 2 ≤ n && n ≤ 4
  | .vector kind n, .vector kind' n' => kind == kind' && n == n' && 2 ≤ n && n ≤ 4
  | _, _ => false

/-- An operand of a function on vectors of a size: such a vector, or a scalar for all of its
    lanes. -/
inductive Ty.Fits (kind : ScalarKind) (n : Nat) : Ty → Prop
  | scalar (p : Precision) : Fits kind n (.scalar kind p)
  | vector (p : Precision) : Fits kind n (.vector kind n p)

/-- The operands of a minimum, and its type. -/
inductive Ty.Broadcasts : Ty → Ty → Ty → Prop
  | scalar (kind : ScalarKind) (p q : Precision) :
    Broadcasts (.scalar kind p) (.scalar kind q) (.scalar kind (p.join q))
  | vector {s t : Ty} (kind : ScalarKind) (n : Nat) (p : Precision) (hs : s.Fits kind n)
    (ht : t.Fits kind n) (hlow : 2 ≤ n) (hhigh : n ≤ 4) : Broadcasts s t (.vector kind n p)

/-- The type of a minimum is that of the operand with more components, in the greater precision. -/
theorem Intrinsic.resultTy_min (s t : Ty) : Intrinsic.min.resultTy [s, t] =
    (if t.componentCount < s.componentCount then s else t).withPrecision
      (Ty.joinPrecision [s, t]) := rfl

/-- Types that broadcast have the type of a minimum of them. -/
theorem Ty.broadcasts_resultTy {s t : Ty} (h : s.broadcasts t = true) :
    Ty.Broadcasts s t (Intrinsic.min.resultTy [s, t]) := by
  rw [Intrinsic.resultTy_min]
  obtain ⟨shape, p⟩ := s
  obtain ⟨shape', q⟩ := t
  unfold broadcasts at h
  dsimp only at h
  -- The operand with more components gives the type: with a scalar, it is the vector.
  split at h
  · -- Two scalars: the type is joined from both precisions.
    next kind kind' =>
    obtain rfl := eq_of_beq h
    have hprecision : joinPrecision [⟨.scalar kind, p⟩, ⟨.scalar kind, q⟩] = p.join q := by
      cases q <;> rfl
    have hsame : ¬ componentCount ⟨.scalar kind, q⟩ < componentCount ⟨.scalar kind, p⟩ :=
      Nat.lt_irrefl 1
    rw [if_neg hsame, hprecision]
    exact .scalar kind p q
  · next kind kind' n =>
    simp only [Bool.and_eq_true, beq_iff_eq, decide_eq_true_eq] at h
    obtain ⟨⟨rfl, hlow⟩, hhigh⟩ := h
    have hmore : ¬ componentCount ⟨.vector kind n, q⟩ < componentCount ⟨.scalar kind, p⟩ :=
      show ¬ n < 1 by omega
    rw [if_neg hmore]
    exact .vector kind n _ (.scalar p) (.vector q) hlow hhigh
  · next kind n kind' =>
    simp only [Bool.and_eq_true, beq_iff_eq, decide_eq_true_eq] at h
    obtain ⟨⟨rfl, hlow⟩, hhigh⟩ := h
    have hless : componentCount ⟨.scalar kind, q⟩ < componentCount ⟨.vector kind n, p⟩ :=
      show 1 < n by omega
    rw [if_pos hless]
    exact .vector kind n _ (.vector p) (.scalar q) hlow hhigh
  · -- Two vectors have the same size, so neither is longer.
    next kind n kind' n' =>
    simp only [Bool.and_eq_true, beq_iff_eq, decide_eq_true_eq] at h
    obtain ⟨⟨⟨rfl, rfl⟩, hlow⟩, hhigh⟩ := h
    have hsame : ¬ componentCount ⟨.vector kind n, q⟩ < componentCount ⟨.vector kind n, p⟩ :=
      Nat.lt_irrefl n
    rw [if_neg hsame]
    exact .vector kind n _ (.vector p) (.vector q) hlow hhigh
  · exact absurd h Bool.false_ne_true

variable {α : Type} [LinearOrder α]

/-- A machine that compares numbers, and takes minima of them, as an order says. -/
structure Machine.Ordered (m : Machine α) : Prop where
  less (kind : ScalarKind) (p q : Precision) (a b : α) :
    m.holds (m.binary .lt (.scalar kind p) [a] (.scalar kind q) [b]) = decide (a < b)
  least {s t : Ty} (h : s.broadcasts t = true) {as bs : List α} (has : as.length = s.laneCount)
    (hbs : bs.length = t.laneCount) : m.intrinsic .min [(s, as), (t, bs)] =
      List.zipWith min (spread (Intrinsic.min.resultTy [s, t]).laneCount as)
        (spread (Intrinsic.min.resultTy [s, t]).laneCount bs)

/-- The functions of the program have no part in it. -/
theorem Machine.Ordered.withCalls {m : Machine α} (h : m.Ordered)
    (call : String → List (Ty × List α) → (Variable → Nat → α) → Option (Reply α)) :
    (m.withCalls call).Ordered :=
  ⟨h.less, h.least⟩

namespace Machine

/-- A machine that computes with integers, and takes absolute values and minima of them. -/
def orderedIntegers : Machine Int :=
  { integers with
    intrinsic := fun function args =>
      match function, args with
      | .abs, [(_, vs)] => vs.map fun v => if v < 0 then -v else v
      | .min, [(s, vs), (t, ws)] =>
        List.zipWith min (spread (Intrinsic.min.resultTy [s, t]).laneCount vs)
          (spread (Intrinsic.min.resultTy [s, t]).laneCount ws)
      | _, _ => args.flatMap Prod.snd }

/-- The integers with their order are ordered. -/
theorem ordered_orderedIntegers : orderedIntegers.Ordered where
  less kind p q a b := by
    by_cases hab : a < b <;> simp [holds, orderedIntegers, integers, hab]
  least := by
    intros
    rfl

end Machine

end ShaderGen
