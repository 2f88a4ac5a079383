import ShaderGen.Expr.Effect
import ShaderGen.Proofs.Rewriting

/-!
# Shapes that a place must not have

Some workarounds remove nodes under which something of a certain shape stands, such as a constant
under `pow`. A `Watch` names such a place and a shape. Rules that run later may remove nodes
between the two, so a node is judged in three degrees (`Watch.look`): not of the shape, of the
shape, or a node that a rule may make to be of the shape. `Watch.Avoids` says of an expression how
far the watched places in it go, and `Watch.Follows` that replacing an expression goes no further.

## Key results

- `Watch.Follows.isCongruence`: what is put together of parts that go no further goes no further
- `Watch.avoids_of_placeless`: a node without a watched place goes as far as its children
-/

namespace ShaderGen.Legalize

open ShaderGen.Expr

/-- A place in an expression, together with a shape that what stands there may have. -/
inductive Watch where
  /-- a constant as the exponent of `pow` -/
  | constantExponent
  /-- a call of `abs` as the first of two operands of `min` -/
  | absOperand
  /-- a negation of floats as the second of two operands of `atan`; `pending` counts derivatives
      that a flip of the program will negate -/
  | negatedOperand (pending : Bool)
  /-- a choice as what is written to -/
  | choiceTarget
deriving DecidableEq

namespace Watch

/-- Which child of a node is watched. -/
def place? : Watch → Head → Option Nat
  | .constantExponent, .call (.intrinsic .pow) _ => some 1
  | .absOperand, .call (.intrinsic .min) 2 => some 0
  | .negatedOperand _, .call (.intrinsic .atan) 2 => some 1
  | .choiceTarget, .binary op => if op.isAssignment then some 0 else none
  | .choiceTarget, .unary _ op => if op.writesOperand then some 0 else none
  | _, _ => none

/-- The degree of a node that may disappear over a child of a degree. -/
def veil (degree : Nat) : Nat := if degree = 0 then 0 else 2

/-- The degree of a node over children of known degrees: 0 if it is not of the shape, 1 if it is,
    and 2 if it is not but a rule may put something of the shape in its place. A choice is of the
    shape if its arms are at most choices again. -/
def judge : Watch → Head → List Nat → Nat
  | .constantExponent, .leaf (some _), _ => 1
  | .constantExponent, .unary _ .neg, degrees | .constantExponent, .group, degrees =>
    degrees.headD 0
  | .constantExponent, .construct, degrees =>
    if degrees.any (· == 0) then 0 else if degrees.any (1 < ·) then 2 else 1
  | .constantExponent, .swizzle mask, degrees =>
    if mask.any Selector.isLiteral then 2 else veil (degrees.headD 0)
  | .absOperand, .call (.intrinsic .abs) _, _ => 1
  | .negatedOperand _, .unary ty .neg, _ => if ty.isFloat then 1 else 0
  | .negatedOperand true, .call (.intrinsic .dFdy) _, _ => 1
  | .choiceTarget, .ternary, degrees => if (degrees.drop 1).all (· ≤ 1) then 1 else 2
  | .choiceTarget, .index, degrees | .choiceTarget, .group, degrees => veil (degrees.headD 0)
  | .choiceTarget, .binary .logicalAnd, _ | .choiceTarget, .binary .logicalOr, _
  | .choiceTarget, .call (.intrinsic .min) _, _ => 2
  | _, .swizzle _, degrees => veil (degrees.headD 0)
  | _, _, _ => 0

variable (w : Watch)

/-- The degree of an expression. -/
def look (e : Expr) : Nat := e.fold w.judge

/-- What stands in the watched place under a node. -/
def watched (e : Expr) : Option Expr := (w.place? e.head).bind (e.children[·]?)

/-- Whether what stands in the watched place under a node goes further than a degree. -/
def hits (degree : Nat) (e : Expr) : Bool := (w.watched e).any fun c => degree < w.look c

/-- Nothing in a watched place of the expression goes further than a degree. -/
def Avoids (degree : Nat) (e : Expr) : Prop := e.any (w.hits degree) = false

/-- The watch once the program was flipped. -/
def afterFlip : Watch → Watch
  | .negatedOperand _ => .negatedOperand false
  | w => w

/-! ### Degrees -/

/-- Seeing less of the children shows less of the node. -/
theorem judge_mono (h : Head) {ns ns' : List Nat} (hns : List.Forall₂ (· ≤ ·) ns' ns) :
    w.judge h ns' ≤ w.judge h ns := by
  have hhead : ns'.headD 0 ≤ ns.headD 0 := by
    cases hns with
    | nil => exact Nat.le_refl 0
    | cons h _ => exact h
  have hveil : veil (ns'.headD 0) ≤ veil (ns.headD 0) := by
    unfold veil
    split <;> split <;> omega
  -- If one child shows nothing, one child of the other node shows nothing.
  have hzero : ns.any (· == 0) = true → ns'.any (· == 0) = true := by
    clear hhead hveil
    induction hns with
    | nil => exact id
    | cons h _ ih => simp only [List.any_cons, Bool.or_eq_true, beq_iff_eq]; grind
  -- If a child shows more than a constant, so does one of the other node.
  have hhigh : ns'.any (1 < ·) = true → ns.any (1 < ·) = true := by
    clear hhead hveil hzero
    induction hns with
    | nil => exact id
    | cons h _ ih => simp only [List.any_cons, Bool.or_eq_true, decide_eq_true_eq]; grind
  -- A choice looks at its arms, which are all but the first child.
  have hlow : (ns.drop 1).all (· ≤ 1) = true → (ns'.drop 1).all (· ≤ 1) = true := by
    clear hhead hveil hzero hhigh
    cases hns with
    | nil => exact id
    | cons _ hrest =>
      intro hall
      rw [List.drop_one, List.tail_cons] at hall ⊢
      induction hrest with
      | nil => rfl
      | cons h _ ih =>
        simp only [List.all_cons, Bool.and_eq_true, decide_eq_true_eq] at hall ⊢
        exact ⟨Nat.le_trans h hall.1, ih hall.2⟩
  unfold judge
  -- The degree of a constructor, of a swizzle of constants and of a choice depend on all children.
  split
  case h_4 => grind
  case h_5 => split <;> first | exact Nat.le_refl _ | exact hveil
  case h_9 => grind
  all_goals first | exact Nat.le_refl _ | exact hhead | exact hveil

/-- Nothing is seen with more than degree two. -/
theorem judge_le (h : Head) {ns : List Nat} (hns : ∀ n ∈ ns, n ≤ 2) : w.judge h ns ≤ 2 := by
  -- A place is judged by the first operand, which is bounded like the others.
  have hhead : ns.headD 0 ≤ 2 := by
    cases ns with
    | nil => exact Nat.zero_le 2
    | cons n ns => exact hns n List.mem_cons_self
  have hveil : veil (ns.headD 0) ≤ 2 := by
    unfold veil
    split <;> omega
  unfold judge
  split <;> first | omega | (repeat' split) <;> omega

/-- What is seen of a node is judged by its head and what is seen of its children. -/
theorem look_eq (e : Expr) : w.look e = w.judge e.head (e.children.map w.look) := fold_eq _ e

/-- Nothing is seen with more than degree two, at any depth. -/
theorem look_le (e : Expr) : w.look e ≤ 2 := by
  induction e using induction_children with
  | h e ih =>
    rw [look_eq]
    exact w.judge_le _ (by simpa using ih)

/-! ### Watched places -/

variable {w} {degree : Nat}

/-- A node is no hit iff none of its watched children is seen beyond the degree. -/
theorem hits_eq_false_iff {e : Expr} :
    w.hits degree e = false ↔ ∀ c ∈ w.watched e, w.look c ≤ degree := by
  rw [hits]
  cases w.watched e <;> simp

/-- Avoiding is not being a hit, and avoiding below. -/
theorem avoids_iff {e : Expr} :
    w.Avoids degree e ↔ w.hits degree e = false ∧ ∀ c ∈ e.children, w.Avoids degree c :=
  any_eq_false_iff

/-- A node without a watched place goes as far as its children. -/
theorem avoids_of_placeless {e : Expr} (h : w.place? e.head = none) :
    w.Avoids degree e ↔ ∀ c ∈ e.children, w.Avoids degree c := by
  rw [avoids_iff]
  refine and_iff_right (hits_eq_false_iff.mpr ?_)
  simp [watched, h]

/-- What is avoided is avoided by the children. -/
theorem Avoids.child {e c : Expr} (h : w.Avoids degree e) (hc : c ∈ e.children) :
    w.Avoids degree c :=
  (avoids_iff.mp h).2 c hc

/-- Of a watched child no more than the degree is seen. -/
theorem Avoids.look_le {e c : Expr} (h : w.Avoids degree e) (hc : c ∈ w.watched e) :
    w.look c ≤ degree :=
  hits_eq_false_iff.mp (avoids_iff.mp h).1 c hc

/-! ### Going no further -/

/-- Every element of the second list is related to the one at its place in the first. -/
theorem forall₂_getElem? {β γ : Type} {R : β → γ → Prop} {bs : List β} {cs : List γ}
    (h : List.Forall₂ R bs cs) {i : Nat} {c : γ} (hc : cs[i]? = some c) :
    ∃ b, bs[i]? = some b ∧ R b c := by
  induction h generalizing i with
  | nil => exact absurd hc (by simp)
  | @cons b c' bs cs hR _ ih =>
    -- The position is that of the head or one further in.
    cases i with
    | zero =>
      obtain rfl : c' = c := by simpa using hc
      exact ⟨b, rfl, hR⟩
    | succ i => exact ih hc

/-- The second watch is of the same place and judges no expression to go further. -/
structure Eases (w w' : Watch) : Prop where
  judge_le : ∀ h ns, w'.judge h ns ≤ w.judge h ns
  place_eq : ∀ h, w'.place? h = w.place? h

/-- A watch eases to itself. -/
theorem Eases.refl (w : Watch) : Eases w w := ⟨fun _ _ => Nat.le_refl _, fun _ => rfl⟩

/-- A watch eases to the one after the flip. -/
theorem eases_afterFlip (w : Watch) : Eases w w.afterFlip := by
  cases w with
  | negatedOperand pending =>
    cases pending with
    | false => exact .refl _
    | true =>
      -- Once the program was flipped, a derivative counts for nothing any more.
      refine ⟨fun h ns => ?_, fun h => ?_⟩
      · simp only [afterFlip]
        unfold judge
        split <;> simp_all
      · unfold afterFlip place?
        split <;> simp_all
  | _ => exact .refl _

section

variable {w' : Watch} {e : Expr} {cs : List Expr}

/-- Children of which less is seen make a node of which less is seen. -/
theorem look_withChildren_le (hw : Eases w w')
    (hcs : List.Forall₂ (fun c c' => w'.look c' ≤ w.look c) e.children cs) :
    w'.look (e.withChildren cs) ≤ w.look e := by
  have hlength := hcs.length_eq.symm
  rw [look_eq, look_eq, head_withChildren hlength, children_withChildren hlength]
  refine Nat.le_trans (w'.judge_mono _ ?_) (hw.judge_le _ _)
  rw [List.forall₂_map_left_iff, List.forall₂_map_right_iff]
  exact hcs.flip

/-- The same place is watched, and what stands there now goes no further. -/
theorem hits_withChildren (hw : Eases w w')
    (hcs : List.Forall₂ (fun c c' => w'.look c' ≤ w.look c) e.children cs)
    (he : w.hits degree e = false) : w'.hits degree (e.withChildren cs) = false := by
  have hlength := hcs.length_eq.symm
  refine hits_eq_false_iff.mpr fun c' hc' => ?_
  rw [watched, head_withChildren hlength, children_withChildren hlength, hw.place_eq] at hc'
  obtain ⟨i, hplace, hi⟩ := Option.bind_eq_some_iff.mp hc'
  obtain ⟨c, hc, hlook⟩ := forall₂_getElem? hcs hi
  have hdegree := hits_eq_false_iff.mp he c (Option.bind_eq_some_iff.mpr ⟨i, hplace, hc⟩)
  exact Nat.le_trans hlook hdegree

end

/-- The new expression goes no further than the old one, and no watched place in it does if none
    in the old one does. -/
structure Follows (w w' : Watch) (degree : Nat) (e e' : Expr) : Prop where
  look_le : w'.look e' ≤ w.look e
  avoids : w.Avoids degree e → w'.Avoids degree e'

namespace Follows

variable {w' : Watch}

/-- A node follows itself. -/
theorem refl (e : Expr) : Follows w w degree e e := ⟨Nat.le_refl _, id⟩

/-- Following is transitive. -/
theorem trans {w'' : Watch} {a b c : Expr} (h : Follows w w' degree a b)
    (h' : Follows w' w'' degree b c) : Follows w w'' degree a c :=
  ⟨Nat.le_trans h'.look_le h.look_le, fun ha => h'.avoids (h.avoids ha)⟩

/-- What is put together of children that go no further goes no further. -/
theorem congr (hw : Eases w w') {e : Expr} {cs : List Expr}
    (hcs : List.Forall₂ (Follows w w' degree) e.children cs) :
    Follows w w' degree e (e.withChildren cs) := by
  have hlook := hcs.imp fun _ _ h => h.look_le
  refine ⟨look_withChildren_le hw hlook, fun he => avoids_iff.mpr ⟨?_, fun c' hc' => ?_⟩⟩
  · exact hits_withChildren hw hlook (avoids_iff.mp he).1
  · obtain ⟨c, hc, hfollows⟩ := exists_related_child hcs c' hc'
    exact hfollows.avoids (he.child hc)

/-- Following is a congruence. -/
theorem isCongruence : IsCongruence (Follows w w degree) := ⟨.trans, congr (.refl w)⟩

end Follows

/-- If a node that does not go beyond its shape, over children that avoid the shape, is replaced by
    one that avoids it, an expression that does not go beyond the shape comes to avoid it. -/
theorem lower_holds {m : Type → Type} [Monad m] [LawfulMonad m] (J : Judgement m)
    {f : Expr → m Expr}
    (h : ∀ e, J.Holds (fun e' => w.look e' ≤ w.look e ∧
      (w.hits 1 e = false → (∀ c ∈ e.children, w.Avoids 0 c) → w.Avoids 0 e')) (f e))
    (e : Expr) (he : w.Avoids 1 e) : J.Holds (w.Avoids 0) (e.bottomUpM f) := by
  -- The induction also needs that no degree grows, for what stands in the watched place of a node
  -- above.
  have hlower : J.Holds (fun e' => w.look e' ≤ w.look e ∧ (w.Avoids 1 e → w.Avoids 0 e'))
      (e.bottomUpM f) := by
    refine bottomUpM_holds (R := fun e e' => w.look e' ≤ w.look e ∧
      (w.Avoids 1 e → w.Avoids 0 e')) J (fun e cs hcs => ?_) e
    have hlook := hcs.imp fun _ _ h => h.1
    refine J.mono (h _) fun e' he' => ⟨?_, fun havoids => he'.2 ?_ fun c' hc' => ?_⟩
    · exact Nat.le_trans he'.1 (look_withChildren_le (.refl w) hlook)
    · exact hits_withChildren (.refl w) hlook (avoids_iff.mp havoids).1
    · obtain ⟨c, hc, hchild⟩ := exists_related_child hcs c' hc'
      exact hchild.2 (havoids.child hc)
  exact J.mono hlower fun _ h => h.2 he

end Watch

end ShaderGen.Legalize
