import ShaderGen.Proofs.Legalize.Outline

/-!
# Where short-circuit operators are left

A target that cannot have short-circuit operators gets choices instead. A rule that runs later
conjoins conditions of loops with `true`, on purpose by the operator `&&`, and those stay:
`Stmt.Unfolded` says that short-circuit operators stand nowhere else. The rules after that replace
expressions, and whatever they replace stays as it should be for its place (`Expr.Refolds`).

## Key results

- `Legalize.legalize_unfolds`: short-circuit operators of a legalized program
-/

namespace ShaderGen

open List (Forall₂)

namespace Expr

/-- There is no short-circuit operator in an expression. -/
def Unfolded (e : Expr) : Prop := e.any isShortCircuit = false

/-- The conjunction of `true` with an expression that has no short-circuit operator. -/
inductive Conjoined : Expr → Prop
  | mk {ty literalTy : Ty} {cond : Expr} (h : cond.Unfolded) :
    Conjoined (.binary ty .logicalAnd cond (.literal literalTy (.bool true)))

/-- A variable or a literal. -/
def isAtom : Expr → Bool
  | .var _ _ | .literal _ _ => true
  | _ => false

/-- What an expression becomes is as fit for its place as the expression was. -/
structure Refolds (e e' : Expr) : Prop where
  unfolded : e.Unfolded → e'.Unfolded
  atom : e.isAtom = true → e' = e
  conjoined : e.Conjoined → e'.Conjoined
  denied : ∀ {ty cond}, e = .unary ty .not cond → cond.Conjoined →
    ∃ cond', e' = .unary ty .not cond' ∧ cond'.Conjoined

/-- Whether a node is a short-circuit operator is told by the node. -/
theorem isShortCircuit_withChildren (e : Expr) (cs : List Expr) :
    (e.withChildren cs).isShortCircuit = e.isShortCircuit := by
  unfold withChildren
  split
  case h_2 op _ _ _ _ => cases op <;> rfl
  all_goals rfl

/-- What fills a tree is no such operator. -/
theorem not_isShortCircuit_of_isFiller {calls : Bool} {e : Expr} (h : e.isFiller calls = true) :
    e.isShortCircuit = false := by
  have hplain := (Bool.and_eq_true_iff.mp h).1
  exact (Bool.not_eq_true' _).mp (Bool.and_eq_true_iff.mp hplain).2

/-- A tree has none if its root is none and its subtrees have none. -/
theorem unfolded_iff {e : Expr} :
    e.Unfolded ↔ e.isShortCircuit = false ∧ ∀ c ∈ e.children, c.Unfolded :=
  any_eq_false_iff

/-- What is no short-circuit operator is not spelled as a choice. -/
theorem unfoldNode_eq_self {e : Expr} (h : e.isShortCircuit = false) :
    Legalize.ShortCircuit.unfoldNode e = e := by
  unfold Legalize.ShortCircuit.unfoldNode
  split
  · cases h
  · cases h
  · rfl

/-- A choice instead of each operator leaves none. -/
theorem unfolded_unfold (e : Expr) : (e.bottomUp Legalize.ShortCircuit.unfoldNode).Unfolded := by
  refine bottomUp_related (R := fun _ e' => e'.Unfolded) (fun e cs hcs => ?_) e
  have hchildren : ∀ c ∈ (e.withChildren cs).children, c.Unfolded := fun c hc =>
    have ⟨_, _, h⟩ := exists_related_child hcs c hc
    h
  generalize e.withChildren cs = node at hchildren
  have hbool : ∀ value, (Expr.bool value).Unfolded := fun _ => rfl
  unfold Legalize.ShortCircuit.unfoldNode
  split
  · simp only [children, List.forall_mem_cons] at hchildren
    refine unfolded_iff.mpr ⟨rfl, ?_⟩
    simpa [ofTernary, children] using ⟨hchildren.1, hchildren.2.1, hbool false⟩
  · simp only [children, List.forall_mem_cons] at hchildren
    refine unfolded_iff.mpr ⟨rfl, ?_⟩
    simpa [ofTernary, children] using ⟨hchildren.1, hbool true, hchildren.2.1⟩
  · -- Neither of the two operators, so the node stays as it is.
    next hand hor =>
    refine unfolded_iff.mpr ⟨?_, hchildren⟩
    unfold isShortCircuit
    split
    · exact absurd rfl (hand _ _ _)
    · exact absurd rfl (hor _ _ _)
    · rfl

/-- A condition with a constant is joined once. -/
theorem Unfolded.andTrue {cond : Expr} (h : cond.Unfolded) :
    (Legalize.LoopCondition.andTrue cond).Conjoined :=
  .mk h

end Expr

open ShaderGen.Expr

namespace Legalize

/-- Rules that replace calls and swizzles leave everything fit for its place. -/
theorem refits_refolds : Refits true isRefitted Refolds where
  refl e := ⟨id, fun _ => rfl, id, fun heq h => ⟨_, heq, h⟩⟩
  trans h h' := by
    refine ⟨h'.unfolded ∘ h.unfolded, fun hatom => ?_, h'.conjoined ∘ h.conjoined, ?_⟩
    · obtain rfl := h.atom hatom
      exact h'.atom hatom
    · intro ty cond heq hcond
      obtain ⟨cond', heq', hcond'⟩ := h.denied heq hcond
      exact h'.denied heq' hcond'
  congr {e cs} hcs := by
    refine ⟨?_, fun hatom => ?_, ?_, ?_⟩
    · exact (isCongruence_avoids isShortCircuit_withChildren).congr
        (hcs.imp fun _ _ h => h.unfolded)
    · cases e with
      | var | literal =>
        cases hcs
        rfl
      | _ => exact absurd hatom (by simp [isAtom])
    · rintro ⟨hcond⟩
      obtain _ | ⟨hleft, _ | ⟨hright, _ | _⟩⟩ := hcs
      obtain rfl := hright.atom rfl
      exact .mk (hleft.unfolded hcond)
    · rintro ty cond rfl hcond
      obtain _ | ⟨hoperand, _ | _⟩ := hcs
      exact ⟨_, rfl, hoperand.conjoined hcond⟩
  -- What a rule makes over has no short circuit of its own, and is none of the shapes a loop looks
  -- for.
  remake {e e'} he hmade _ := by
    refine ⟨fun hunfolded => ?_, fun hatom => ?_, ?_, ?_⟩
    · exact hmade.any_eq_false (fun _ => not_isShortCircuit_of_isFiller) (fun _ _ _ => rfl)
        fun _ hd => hd.any_eq_false hunfolded
    · cases e with
      | var | literal => exact absurd he (by simp [isRefitted])
      | _ => exact absurd hatom (by simp [isAtom])
    · rintro ⟨-⟩
      exact absurd he (by simp [isRefitted])
    · rintro ty cond rfl -
      exact absurd he (by simp [isRefitted])

end Legalize

/-! ### Statements -/

namespace Stmt

/-- Short-circuit operators stand only where conditions of loops are conjoined with `true`, if they
    may stand there at all: as a condition of a loop, or in the check at the start of a loop that
    leaves it once its flag is set. -/
inductive Unfolded (conjoins : Bool) : Stmt → Prop
  | plain {s : Stmt} (own : ∀ e ∈ s.own, e.Unfolded)
    (nested : ∀ t ∈ s.nested, Unfolded conjoins t) : Unfolded conjoins s
  | whileLoop {cond : Expr} {body : Stmt} (may : conjoins = true) (hcond : cond.Conjoined)
    (hbody : Unfolded conjoins body) : Unfolded conjoins (.whileLoop cond body)
  | doWhile {cond : Expr} {body : Stmt} (may : conjoins = true) (hcond : cond.Conjoined)
    (hbody : Unfolded conjoins body) : Unfolded conjoins (.doWhile body cond)
  | forLoop {init : Option Stmt} {cond : Expr} {step : Option Expr} {body : Stmt}
    (may : conjoins = true) (hinit : ∀ s ∈ init.toList, Unfolded conjoins s)
    (hcond : cond.Conjoined) (hstep : ∀ e ∈ step, e.Unfolded) (hbody : Unfolded conjoins body) :
    Unfolded conjoins (.forLoop init (some cond) step body)
  | flagged {cond denied : Expr} {flagTy ty : Ty} {name : String} {leave : Stmt}
    {otherwise : Option Stmt} {rest : List Stmt} (may : conjoins = true) (hcond : cond.Conjoined)
    (hname : "_tmpLoopSeenOnce".toList <+: name.toList) (hdenied : denied.Conjoined)
    (hleave : Unfolded conjoins leave) (hother : ∀ s ∈ otherwise.toList, Unfolded conjoins s)
    (hrest : ∀ s ∈ rest, Unfolded conjoins s) :
    Unfolded conjoins (.whileLoop cond (.block (.ifElse (.var flagTy name)
      (.block [.ifElse (.unary ty .not denied) leave otherwise]) none :: rest)))

section

variable {conjoins : Bool} {s s' : Stmt}

/-- A statement without such operators is one in which no condition is joined. -/
theorem All.unfolded (h : s.All Expr.Unfolded) : s.Unfolded conjoins := by
  induction h with
  | intro own _ ih => exact .plain own ih

/-- A block is unfolded if its members are. -/
theorem Unfolded.of_block {ss : List Stmt} (h : (block ss).Unfolded conjoins) :
    ∀ s ∈ ss, s.Unfolded conjoins := by
  cases h with
  | plain _ nested => exact nested

/-- A choice is unfolded if its condition and branches are. -/
theorem Unfolded.of_ifElse {cond : Expr} {thenBranch : Stmt} {elseBranch : Option Stmt}
    (h : (ifElse cond thenBranch elseBranch).Unfolded conjoins) :
    cond.Unfolded ∧ thenBranch.Unfolded conjoins ∧
      ∀ s ∈ elseBranch.toList, s.Unfolded conjoins := by
  cases h with
  | plain own nested =>
    exact ⟨own cond List.mem_cons_self, List.forall_mem_cons.mp nested⟩

/-- The condition of a loop is conjoined with `true`, and that of its exit check. -/
theorem unfolded_andTrueInLoop (hown : ∀ e ∈ s.own, e.Unfolded)
    (hnested : ∀ t ∈ s.nested, t.Unfolded true) :
    (Legalize.LoopCondition.andTrueInLoop s).Unfolded true := by
  unfold Legalize.LoopCondition.andTrueInLoop
  split
  · next cond body =>
    have hcond := (hown cond List.mem_cons_self).andTrue
    have hbody := hnested body List.mem_cons_self
    unfold Legalize.LoopCondition.andTrueInExitCheck
    split
    · split
      · -- The body opens with an exit check, whose condition is joined as well.
        next hname =>
        obtain ⟨hcheck, hrest⟩ := List.forall_mem_cons.mp hbody.of_block
        obtain ⟨hexit, -⟩ := List.forall_mem_cons.mp hcheck.of_ifElse.2.1.of_block
        obtain ⟨hdenied, hleave, hother⟩ := hexit.of_ifElse
        have hdenied' := (unfolded_iff.mp hdenied).2 _ List.mem_cons_self
        exact .flagged rfl hcond (List.isPrefixOf_iff_prefix.mp hname) hdenied'.andTrue hleave
          hother hrest
      · exact .whileLoop rfl hcond hbody
    · exact .whileLoop rfl hcond hbody
  · next init cond step body =>
    -- The first part of the loop is a statement, the step an expression.
    obtain ⟨hinit, hbody⟩ := List.forall_mem_append.mp hnested
    obtain ⟨hcond, hstep⟩ := List.forall_mem_cons.mp hown
    exact .forLoop rfl hinit hcond.andTrue (fun e he => hstep e (Option.mem_toList.mpr he))
      (hbody body List.mem_cons_self)
  · -- A loop that tests at the end has its condition joined like the others.
    next body cond =>
    exact .doWhile rfl (hown cond List.mem_cons_self).andTrue (hnested body List.mem_cons_self)
  · exact .plain hown hnested

/-- Where every expression becomes one that is fit for its place, so does every statement. -/
theorem Mirrors.unfolded (h : s.Mirrors Refolds s') (hs : s.Unfolded conjoins) :
    s'.Unfolded conjoins := by
  have hlist : ∀ {ss ss' : List Stmt}, Forall₂ (Mirrors Refolds) ss ss' →
      (∀ s ∈ ss, ∀ {s'}, s.Mirrors Refolds s' → s'.Unfolded conjoins) →
        ∀ s' ∈ ss', s'.Unfolded conjoins := by
    intro ss ss' hss ih s' hs'
    obtain ⟨s, hmem, hmirror⟩ := exists_of_forall₂ hss s' hs'
    exact ih s hmem hmirror
  -- By induction on how the statement is fit for its place, since a flagged loop is recognized by
  -- its first statement.
  induction hs generalizing s' with
  | plain own _ ih =>
    -- Any other statement: its own expressions are refolded one by one.
    refine .plain (fun e' he' => ?_) (hlist h.nested fun s hs _ => ih s hs)
    obtain ⟨e, he, hrefolds⟩ := exists_of_forall₂ h.own e' he'
    exact hrefolds.unfolded (own e he)
  | whileLoop may hcond _ ih =>
    obtain _ | _ | _ | _ | ⟨hc, hbody⟩ := h
    exact .whileLoop may (hc.conjoined hcond) (ih hbody)
  | doWhile may hcond _ ih =>
    obtain _ | _ | _ | _ | _ | ⟨hbody, hc⟩ := h
    exact .doWhile may (hc.conjoined hcond) (ih hbody)
  | forLoop may _ hcond hstep _ ihi ihb =>
    obtain _ | _ | _ | ⟨hi, hc, ht, hbody⟩ := h
    obtain ⟨hc⟩ := hc
    refine .forLoop may (hlist (forall₂_toList hi) fun s hs _ => ihi s hs) (hc.conjoined hcond) ?_
      (ihb hbody)
    intro e' he'
    obtain ⟨e, he, hrefolds⟩ := exists_of_forall₂ (forall₂_toList ht) e' (Option.mem_toList.mpr he')
    exact hrefolds.unfolded (hstep e (Option.mem_toList.mp he))
  | flagged may hcond hname hdenied _ _ _ ihl iho ihr =>
    obtain _ | _ | _ | _ | ⟨hc, hbody⟩ := h
    -- The shape of the flagged loop is followed down to its exit check.
    obtain ⟨_ | ⟨hcheck, hrest⟩⟩ := hbody
    obtain _ | _ | ⟨hflag, ⟨_ | ⟨hexit, hnil⟩⟩, hnone⟩ := hcheck
    cases hnil
    cases hnone
    obtain _ | _ | ⟨hdeny, hleave, hother⟩ := hexit
    obtain rfl := hflag.atom rfl
    -- The denied condition stays denied, as the negation is refolded with it.
    obtain ⟨denied', rfl, hdenied'⟩ := hdeny.denied rfl hdenied
    exact .flagged may (hc.conjoined hcond) hname hdenied' (ihl hleave)
      (hlist (forall₂_toList hother) fun s hs _ => iho s hs) (hlist hrest fun s hs _ => ihr s hs)

end

end Stmt

/-! ### Programs -/

namespace Outline

/-- Short-circuit operators stand only where conditions of loops are conjoined with `true`, if they
    may stand there at all. -/
def unfolded (conjoins : Bool) : Outline where
  stmts := Stmt.Unfolded conjoins
  globals d := ∀ e ∈ d.init, e.Unfolded

/-- The rules after the loops keep what is unfolded so. -/
theorem turns_unfolded (conjoins : Bool) :
    Turns Refolds (unfolded conjoins) (unfolded conjoins) where
  stmts h := h.unfolded
  globals h := (turns_ofExprs fun h => h.unfolded).globals h
  header := id
  temp h := (Stmt.all_decl.mpr (by simp [h])).unfolded

/-- A moved initial value brings no operator. -/
theorem hoists_unfolded (conjoins : Bool) : Hoists (unfolded conjoins) where
  header _ _ := trivial
  value hd hvalue :=
    (Stmt.all_returnWith.mpr fun _ he => Option.mem_some.mp he ▸ hvalue _ hd).unfolded
  call _ _ _ _ he := Option.mem_some.mp he ▸ rfl

end Outline

namespace Legalize

open Outline

variable {t : Target} {p : Program}

/-- A program without such operators shows none. -/
theorem shows_unfolded_of_all {conjoins : Bool} (h : p.All Expr.Unfolded) :
    p.Shows (unfolded conjoins) := by
  intro el hel
  have hall := h el hel
  cases el with
  | global d => exact hall
  | function fn => exact ⟨trivial, fun s hs => (hall s hs).unfolded⟩
  | layout l => trivial

/-- The rule for loops joins the conditions, and nothing else. -/
theorem shows_loopCondition (h : p.All Expr.Unfolded) :
    (LoopCondition.legalize p).Shows (unfolded true) := by
  refine Replaces.shows_mapFunctions (o := ofExprs Expr.Unfolded) (fun _ hd => hd)
    (fun fn hfn => ?_) (shows_ofExprs.mpr h)
  refine ⟨trivial, Stmt.bottomUpList_rebuilds (P := fun s => ∀ e ∈ s.own, e.Unfolded) ?_
    fun s hs => (hfn.2 s hs).everywhere⟩
  exact fun s t hown heq _ hnested => Stmt.unfolded_andTrueInLoop (heq ▸ hown) hnested

/-- On a target that is to have no short-circuit operators, those that are left stand where
    conditions of loops are conjoined with `true`, if the target needs that. -/
theorem legalize_unfolds (hneeds : t.profile.needs .unfoldShortCircuit = true) :
    Yields (Program.Shows (unfolded (t.profile.needs .loopConditionAndTrue)))
      (legalize t p) := by
  have hbefore : Yields (Program.All Expr.Unfolded)
      ((rulesBefore "loop_condition_and_true").foldlM (Rule.step t) p) := by
    have hsplit : rulesBefore "loop_condition_and_true" = rulesBefore "short_circuit" ++
        [.workaround "short_circuit" .unfoldShortCircuit fun p =>
          pure (ShortCircuit.legalize p)] := rfl
    rw [hsplit, List.foldlM_append]
    refine .after fun p => ?_
    rw [List.foldlM_cons]
    have hall : (ShortCircuit.legalize p).All Expr.Unfolded :=
      Program.mapNodes_all (Q := fun _ => True) (fun e _ => unfolded_unfold e)
        (Program.all_iff_meets.mpr p.meets_anything)
    refine Yields.bind (Q := Program.All Expr.Unfolded) ?_ fun p hp => .pure hp
    exact step_workaround hneeds (.pure hall)
  refine foldlM_yields_at (pipeline_eq "loop_condition_and_true" rfl) hbefore (fun p hp => ?_)
    fun r hr p hp => ?_
  · -- Without the workaround for loops no condition is joined.
    refine yields_step_cases (fun henabled => ?_) fun _ => shows_unfolded_of_all hp
    have hconjoins : t.profile.needs .loopConditionAndTrue = true := henabled
    rw [hconjoins]
    exact .pure (shows_loopCondition hp)
  · exact shows_late refits_refolds (turns_unfolded _) (hoists_unfolded _) hr hp

end Legalize

end ShaderGen
