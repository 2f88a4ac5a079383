import ShaderGen.Proofs.Legalize.Quirk

/-!
# Choices that are written to

On a target that cannot write through a choice, an assignment to one becomes an `if` over two
assignments, and a choice that is written to anywhere else is refused. What the rule looks at is the
choice itself: one that is written to through a swizzle, an index or parentheses is neither split
nor refused (`swizzled_choice_is_left`). Where there is none of these, no choice is on the path of
anything that is written in the program that the pipeline hands on, whatever later rules do.

## Key results

- `legalize_leaves_no_written_choice`: without choices below the target itself, none is written to
-/

namespace ShaderGen

namespace Expr

/-- Whether there is a choice on the path to what is written: the expression itself, the base of a
    swizzle or of an index, or what stands in parentheses. -/
def reachesChoice : Expr → Bool
  | .ternary _ _ _ _ => true
  | .swizzle _ base _ | .index _ base _ => reachesChoice base
  | .group _ inner => reachesChoice inner
  | _ => false

/-- Whether a node writes through a choice: a plain or compound assignment, an increment or a
    decrement. -/
def writesThroughChoice : Expr → Bool
  | .binary _ op left _ => op.isAssignment && left.reachesChoice
  | .unary _ op operand => op.writesOperand && operand.reachesChoice
  | _ => false

/-- Whether a node writes to a choice below its target: through a swizzle, an index or parentheses,
    or so in an arm of the target. What a rule spells as a choice counts as one, which no well-typed
    program writes to. -/
def writesBelowTarget (e : Expr) : Bool := Legalize.Watch.choiceTarget.hits 1 e

end Expr

namespace Legalize

open ShaderGen.Expr Watch

/-- A veil over something that was visible leaves it visible. -/
theorem veil_pos {degree : Nat} (h : 0 < degree) : 0 < veil degree := by
  rw [veil, if_neg (by omega)]
  exact Nat.two_pos

/-- A choice at the end of a path can be seen from the start of the path. -/
theorem look_pos_of_reachesChoice {e : Expr} (h : e.reachesChoice = true) :
    0 < look .choiceTarget e := by
  induction e with
  | ternary ty cond a b => exact look_pos_of_isShape rfl
  -- A swizzle is seen through whole, an index and a group behind a veil.
  | swizzle ty base mask ih =>
    have hbase := ih h
    rw [look_swizzle, if_neg (by omega)]
    exact Nat.two_pos
  | index ty base position ih _ =>
    rw [look_eq]
    exact veil_pos (ih h)
  | group ty inner ih =>
    rw [look_eq]
    exact veil_pos (ih h)
  | _ => exact absurd h (by simp [reachesChoice])

/-- A write through a choice is a hit of the watch. -/
theorem hits_of_writesThroughChoice (e : Expr) (h : e.writesThroughChoice = true) :
    Watch.choiceTarget.hits 0 e = true := by
  refine eq_true_of_ne_false fun hhits => ?_
  unfold writesThroughChoice at h
  split at h
  · next ty op left right =>
    obtain ⟨hop, hleft⟩ := Bool.and_eq_true_iff.mp h
    -- An assignment watches its left side, an operator that writes watches its operand.
    have hwatched : left ∈ watched .choiceTarget (.binary ty op left right) := by
      simp [watched, head, place?, hop, children]
    exact absurd (hits_eq_false_iff.mp hhits left hwatched)
      (Nat.not_le.mpr (look_pos_of_reachesChoice hleft))
  · next ty op operand =>
    obtain ⟨hop, hoperand⟩ := Bool.and_eq_true_iff.mp h
    have hwatched : operand ∈ watched .choiceTarget (.unary ty op operand) := by
      simp [watched, head, place?, hop, children]
    exact absurd (hits_eq_false_iff.mp hhits operand hwatched)
      (Nat.not_le.mpr (look_pos_of_reachesChoice hoperand))
  · exact absurd h (by simp)

/-- What the rule does not refuse and does not go beyond choices writes to none. -/
theorem avoids_of_not_writesTernary (e : Expr) (he : Avoids .choiceTarget 1 e)
    (hnone : e.any TernaryTarget.writesTernary = false) : Avoids .choiceTarget 0 e := by
  induction e using induction_children with
  | h e ih =>
    obtain ⟨hhits, hchildren⟩ := avoids_iff.mp he
    obtain ⟨hnode, hrest⟩ := any_eq_false_iff.mp hnone
    refine avoids_zero nofun hhits (fun c hc => ih c hc (hchildren c hc) (hrest c hc)) ?_
    intro c hc
    refine eq_false_of_ne_true fun hshape => ?_
    -- A choice in the watched place is what the rule would have refused.
    have hternary : TernaryTarget.isTernary c = true := by
      unfold isShape at hshape
      split at hshape <;> simp_all [TernaryTarget.isTernary]
    obtain ⟨i, hplace, hi⟩ := Option.bind_eq_some_iff.mp hc
    -- What is watched is the written place, and only these two nodes have one.
    cases e with
    | binary ty op left right =>
      cases hop : op.isAssignment with
      | false => simp [head, place?, hop] at hplace
      | true =>
        obtain rfl : i = 0 := by simpa [head, place?, hop] using hplace.symm
        obtain rfl : left = c := Option.some.inj hi
        simp [TernaryTarget.writesTernary, hop, hternary] at hnode
    | unary ty op operand =>
      cases hop : op.writesOperand with
      | false => simp [head, place?, hop] at hplace
      | true =>
        obtain rfl : i = 0 := by simpa [head, place?, hop] using hplace.symm
        obtain rfl : operand = c := Option.some.inj hi
        simp [TernaryTarget.writesTernary, hop, hternary] at hnode
    | _ => exact absurd hplace (by simp [head, place?])

/-- On a target that cannot write through a choice, a program that has no choice below what it
    writes is either refused or comes out of the pipeline with no choice on the path of anything
    that is written. -/
theorem legalize_leaves_no_written_choice (t : Target) (p p' : Program) (s s' : Scratch)
    (hneeds : t.profile.needs .splitTernaryTargets = true)
    (hp : p.anyNode writesBelowTarget = false)
    (hrun : (legalize t p).run.run s = (.ok p', s')) : p'.anyNode writesThroughChoice = false := by
  -- The rules after the first are those before the split, the split, and those after it.
  have hpipeline : rulesAfter "frag_coord" = rulesBetween "frag_coord" "ternary_lvalue" ++
      .always "ternary_lvalue" (fun t p => liftUnsupported (TernaryTarget.legalize t.profile p)) ::
        rulesAfter "ternary_lvalue" := rfl
  have hrule : ∀ p, p.All (Avoids .choiceTarget 1) → Yields (Program.All (Avoids .choiceTarget 0))
      (Rule.step t p (.always "ternary_lvalue" fun t p =>
        liftUnsupported (TernaryTarget.legalize t.profile p))) := by
    refine fun p hp => .after fun _ => ?_
    refine (((kept _ 1).ternaryTarget hp).mono fun p' hp' => ?_).liftUnsupported
    exact hp'.1.imp₂ (Program.anyNode_eq_false_iff.mp (hp'.2 hneeds)) avoids_of_not_writesTernary
  have havoids : p.All (Avoids .choiceTarget 1) := Program.anyNode_eq_false_iff.mp hp
  have hresult : p'.All (Avoids .choiceTarget 0) :=
    Yields.of_run (legalize_avoids (w := .choiceTarget) nofun hpipeline hrule havoids) hrun
  exact Program.anyNode_eq_false_iff.mpr
    (hresult.mono fun e he => any_mono hits_of_writesThroughChoice he)

/-- A choice between a choice and a component, assigned to. -/
theorem nested_choice_is_split :
    let v (name : String) : Expr := .ofVar name .float
    let cond (name : String) : Expr := .ofVar name .bool
    let x : Expr := .ofSwizzle (.ofVar "u" (.vec 2)) [.x]
    let target : Expr := .ofTernary (cond "c") (.ofTernary (cond "d") (v "a") (v "b")) x
    let p : Program := ⟨.fragment, [.function (.entry [.assign target (.float .one)])]⟩
    let t : Target := { profile := { workarounds := .single .splitTernaryTargets } }
    t.profile.needs .splitTernaryTargets = true ∧ p.anyNode writesBelowTarget = false ∧
      ∃ p' s', (legalize t p).run.run {} = (.ok p', s') ∧
        p'.anyNode writesThroughChoice = false := by
  intro v cond x target p t
  have hneeds : t.profile.needs .splitTernaryTargets = true := by decide
  have hp : p.anyNode writesBelowTarget = false := by decide
  -- The program is legalized by evaluation.
  obtain ⟨p', s', hrun, -⟩ := exists_ok_of_any (r := (legalize t p).run.run {})
    (q := fun _ => true) (by decide)
  exact ⟨hneeds, hp, p', s', hrun, legalize_leaves_no_written_choice t p p' {} s' hneeds hp hrun⟩

/-- `(c ? a : b).x = 1.0` passes the rule as it is. -/
theorem swizzled_choice_is_left :
    let v (name : String) : Expr := .ofVar name (.vec 2)
    let target : Expr := .ofSwizzle (.ofTernary (.ofVar "c" .bool) (v "a") (v "b")) [.x]
    let p : Program := ⟨.fragment, [.function (.entry [.assign target (.float .one)])]⟩
    let t : Target := { profile := { workarounds := .single .splitTernaryTargets } }
    t.profile.needs .splitTernaryTargets = true ∧
      ∃ p' s', (legalize t p).run.run {} = (.ok p', s') ∧
        p'.anyNode writesThroughChoice = true := by
  intro v target p t
  exact ⟨by decide, exists_ok_of_any (by decide)⟩

end Legalize

end ShaderGen
