import ShaderGen.Proofs.Legalize.Helpers
import ShaderGen.Proofs.Legalize.Kept
import ShaderGen.Proofs.Legalize.Reworked
import ShaderGen.Proofs.Semantics.Machine

/-!
# How clip positions are passed on

Where fragment coordinates are computed from the clip position, a vertex program puts what it writes
to the position into another variable as well. The rule does so for plain and compound assignments
of the whole position. If a program writes the position in no other way (`passable`), then in the
program that is written out each write of the position is the value of an assignment to the other
variable, which nothing else writes (`PassesOn`): no later rule comes between the two, or makes a
write end up in either of them.

## Key results

- `pipeline_passes_on`: whole vertex programs come to pass on each write
-/

namespace ShaderGen.Legalize.FragCoord

open ShaderGen.Expr

/-- Reference to the clip position, or to the variable that passes it on. -/
def isClip : Expr → Bool
  | .builtin _ .position => true
  | .var _ name => name == varyingName
  | _ => false

/-- Plain or compound assignment of the whole clip position, with the types that it has. -/
def assignsWhole : Expr → Bool
  | .binary ty op (.builtin positionTy .position) _ =>
    op.isAssignment && ty.laneCount == 4 && positionTy.laneCount == 4
  | _ => false

/-- Whether a node writes the clip position in part or along a path, or writes the variable that
    passes it on. -/
def writesAside (e : Expr) : Bool :=
  !assignsWhole e && e.target?.any fun target => target.reached.any isClip

/-- What is asked of a program so that each of its writes of the clip position is passed on. -/
def passable : Demand where
  names := (· ≠ varyingName)
  exprs e := e.any writesAside = false

/-- A write may end up in the clip position, or in the variable that passes it on. -/
def ReachesClip (e : Expr) : Prop := ∃ v ∈ e.reached, isClip v = true

/-- Each write of the clip position is an assignment of the whole position, whose value is assigned
    to the variable that passes it on. -/
inductive PassesOn : Expr → Prop
  | forward {ty varyingTy valueTy positionTy : Ty} {op : BinaryOp} {value : Expr}
    (hop : op.isAssignment = true) (hvarying : varyingTy.laneCount = 4)
    (hvalue : valueTy.laneCount = 4) (hposition : positionTy.laneCount = 4) (h : PassesOn value) :
    PassesOn (.binary ty .assign (.var varyingTy varyingName)
      (.binary valueTy op (.builtin positionTy .position) value))
  | other {e : Expr} (h : ∀ target ∈ e.target?, ¬ ReachesClip target)
    (children : ∀ c ∈ e.children, PassesOn c) : PassesOn e

/-- An assignment of the whole clip position, before its value is assigned as well. -/
def WritesWhole (e : Expr) : Prop :=
  ∃ ty op positionTy value, e = .binary ty op (.builtin positionTy .position) value ∧
    op.isAssignment = true ∧ ty.laneCount = 4 ∧ positionTy.laneCount = 4 ∧ PassesOn value

/-- What is asked of a program that passes on the clip position. -/
def passing : Demand where
  names := (· ≠ varyingName)
  exprs := PassesOn

/-! ### What rules do to writes -/

/-- A temporary is neither the position nor the varying. -/
theorem not_isClip_temp {v : Expr} (h : v.IsTemp) : isClip v = false := by
  obtain ⟨ty, stem, n, rfl⟩ := h
  have hne : Stem.nth stem n ≠ varyingName := by
    intro heq
    -- The names start with different letters.
    have hhead := congrArg (fun s : String => s.toList.head?) heq
    revert hhead
    simp only [Stem.nth, String.toList_append]
    cases stem <;> simp [Stem.text, varyingName]
  simpa [isClip] using hne

/-- No numbered name is that of the varying. -/
theorem nth_ne_varyingName (stem : Stem) (n : Nat) : Stem.nth stem n ≠ varyingName := by
  intro heq
  have hclip := not_isClip_temp (v := .var .float (Stem.nth stem n)) ⟨_, stem, n, rfl⟩
  simp [isClip, heq] at hclip

/-- A clip position has no parts to rebuild. -/
theorem withChildren_of_isClip {R : Expr → Expr → Prop} {e : Expr} {cs : List Expr}
    (hclip : isClip e = true) (hcs : List.Forall₂ R e.children cs) : e.withChildren cs = e := by
  cases e with
  | var | builtin =>
    cases hcs
    rfl
  | _ => exact absurd hclip (by simp [isClip])

/-- A plain node passes writes on if its children do. -/
theorem PassesOn.of_isPlain {e : Expr} (h : e.isPlain = true) (hc : ∀ c ∈ e.children, PassesOn c) :
    PassesOn e :=
  .other (by simp [target?_of_isPlain h]) hc

/-- So does a plain leaf. -/
theorem PassesOn.of_leaf {e : Expr} (h : e.isPlain = true) (hleaf : e.children = []) : PassesOn e :=
  .of_isPlain h (by simp [hleaf])

/-- The children of a plain node pass them on if it does. -/
theorem PassesOn.children_of_isPlain {e : Expr} (he : PassesOn e) (h : e.isPlain = true) :
    ∀ c ∈ e.children, PassesOn c := by
  cases he with
  | forward => exact absurd h (by simp [isPlain, BinaryOp.isAssignment])
  | other _ hc => exact hc

/-- What is inside an expression passes them on with it. -/
theorem PassesOn.inside {e d : Expr} (he : PassesOn e) (h : Inside e d) : PassesOn d := by
  induction h with
  | self => exact he
  | child _ plain hmem ih => exact ih.children_of_isPlain plain _ hmem

/-- What is made of such parts passes them on. -/
theorem PassesOn.of_madeOf {P : Expr → Prop} {e : Expr} (h : MadeOf true P e)
    (hP : ∀ d, P d → PassesOn d) : PassesOn e := by
  induction h with
  | part hd => exact hP _ hd
  | node filler _ _ ih => exact .of_isPlain (isPlain_of_isFiller filler) ih
  | @temp ty tempTy stem n value _ ih =>
    -- The temporary is written to, and it is no position.
    refine .other ?_ ?_
    · rintro target ⟨rfl⟩ ⟨v, hv, hclip⟩
      obtain rfl := List.mem_singleton.mp hv
      rw [not_isClip_temp ⟨_, stem, n, rfl⟩] at hclip
      cases hclip
    · refine List.forall_mem_cons.mpr ⟨.of_leaf rfl rfl, List.forall_mem_singleton.mpr ih⟩

/-- What a rule may do to an expression that passes on the clip position. -/
structure Handled (e e' : Expr) : Prop where
  passes : PassesOn e → PassesOn e'
  whole : WritesWhole e → WritesWhole e'
  reaches : ReachesClip e' → ReachesClip e
  same : isClip e = true → e' = e

/-- No rule comes between a write of the clip position and what passes it on. -/
theorem reworks_handled : Reworks Handled where
  refl e := ⟨id, id, id, fun _ => rfl⟩
  trans h h' := ⟨h'.passes ∘ h.passes, h'.whole ∘ h.whole, h.reaches ∘ h'.reaches, fun hclip => by
    obtain rfl := h.same hclip
    exact h'.same hclip⟩
  congr {e cs} hcs := by
    -- A whole write keeps its target, since a clip position is related to itself only.
    have hwhole : WritesWhole e → WritesWhole (e.withChildren cs) := by
      rintro ⟨ty, op, positionTy, value, rfl, hop, hty, hposition, hvalue⟩
      obtain _ | ⟨hleft, _ | ⟨hright, _ | _⟩⟩ := hcs
      obtain rfl := hleft.same rfl
      exact ⟨ty, op, positionTy, _, rfl, hop, hty, hposition, hright.passes hvalue⟩
    refine ⟨fun he => ?_, hwhole, reached_withChildren (hcs.imp fun _ _ h => h.reaches),
      fun hclip => withChildren_of_isClip hclip hcs⟩
    -- A node that passes the position on does so over related children; any other has a target that
    -- reaches no clip position, and gets none.
    cases he with
    | forward hop hvarying hvalue hposition h =>
      obtain _ | ⟨hleft, _ | ⟨hright, _ | _⟩⟩ := hcs
      obtain rfl := hleft.same (by simp [isClip])
      obtain ⟨ty', op', positionTy', value', rfl, hop', hty', hposition', hvalue'⟩ :=
        hright.whole ⟨_, _, _, _, rfl, hop, hvalue, hposition, h⟩
      exact .forward hop' hvarying hty' hposition' hvalue'
    | other htarget hchildren =>
      refine .other (fun target' ht' hreaches => ?_) fun c' hc' => ?_
      · obtain ⟨target, ht, h⟩ := exists_related_target hcs target' ht'
        exact htarget target ht (h.reaches hreaches)
      · obtain ⟨c, hc, h⟩ := exists_related_child hcs c' hc'
        exact h.passes (hchildren c hc)
  remake {e e'} he hmade hreached := by
    refine ⟨fun hpasses => .of_madeOf hmade fun d hd => hpasses.inside hd, ?_, ?_, ?_⟩
    · rintro ⟨ty, op, positionTy, value, rfl, hop, -⟩
      simp [staysPut, target?, hop] at he
    · rintro ⟨v, hv, hclip⟩
      rcases hreached v hv with hv | htemp
      · exact ⟨v, hv, hclip⟩
      · rw [not_isClip_temp htemp] at hclip
        cases hclip
    · intro hclip
      cases e with
      | var | builtin => exact absurd he (by simp [staysPut])
      | _ => exact absurd hclip (by simp [isClip])
  counter ty := by
    refine ⟨fun _ => .of_leaf rfl rfl, ?_, ?_, by simp [isClip]⟩
    · rintro ⟨_, _, _, _, heq, -⟩
      cases heq
    · rintro ⟨v, hv, hclip⟩
      obtain rfl := List.mem_singleton.mp hv
      exact absurd hclip (by decide)

/-- No rule after the one about the coordinate writes the position. -/
theorem carried_passing : Carried passing := by
  refine reworks_handled.carried (c := passing) (fun h => h.passes) (by simp [passing])
    nth_ne_varyingName ?arms ?negated ?andTrue ?made ?runAll
  case arms =>
    intro ty choiceTy op cond a b value hop h
    cases h with
    | other htarget hchildren =>
      simp only [children, List.forall_mem_cons] at hchildren
      obtain ⟨hchoice, hvalue, -⟩ := hchildren
      have harms := hchoice.children_of_isPlain rfl
      simp only [children, List.forall_mem_cons] at harms
      obtain ⟨hcond, ha, hb, -⟩ := harms
      have hnone := htarget _ (if_pos hop)
      -- An assignment to a choice is not the write that is passed on, so the choice reaches no clip
      -- position, and neither does either arm.
      have hassign : ∀ ty {d}, PassesOn d →
          (ReachesClip d → ReachesClip (.ternary choiceTy cond a b)) →
            PassesOn (.binary ty op d value) := by
        intro ty d hd hreach
        refine .other (fun target ht hclip => ?_) (by simpa [children] using ⟨hd, hvalue⟩)
        obtain rfl := Option.some.inj ((if_pos hop).symm.trans ht)
        exact hnone (hreach hclip)
      -- What an arm reaches, the choice reaches.
      refine ⟨hcond, fun ty => ⟨hassign ty ha ?_, hassign ty hb ?_⟩⟩
      · rintro ⟨v, hv, hclip⟩
        exact ⟨v, List.mem_append_left _ hv, hclip⟩
      · rintro ⟨v, hv, hclip⟩
        exact ⟨v, List.mem_append_right _ hv, hclip⟩
  -- A negation and a conjunction with a literal write nothing.
  case negated =>
    intro ty e
    refine ⟨fun h => h.children_of_isPlain rfl _ List.mem_cons_self, fun h => ?_⟩
    exact .of_isPlain rfl (List.forall_mem_singleton.mpr h)
  case andTrue =>
    intro e he
    refine .of_isPlain rfl (List.forall_mem_cons.mpr ⟨he, List.forall_mem_singleton.mpr ?_⟩)
    exact .of_leaf rfl rfl
  case made => exact fun e he => .of_madeOf he fun d hd => hd.elim
  case runAll =>
    intro count
    have hcounter : PassesOn Invocations.counter := .of_leaf rfl rfl
    -- The counter is written, but it is no clip position.
    have hwrites : ∀ e : Expr, e.target? = some Invocations.counter →
        (∀ c ∈ e.children, PassesOn c) → PassesOn e := by
      intro e ht
      refine .other fun target htarget => ?_
      obtain rfl := Option.some.inj (ht.symm.trans htarget)
      rintro ⟨v, hv, hclip⟩
      obtain rfl := List.mem_singleton.mp hv
      exact absurd hclip (by decide)
    have hliteral : ∀ n, PassesOn (.int n) := fun n => .of_leaf rfl rfl
    -- The loop calls the entry point and ends a primitive.
    have hbody : ∀ s ∈ [Stmt.expr (.ofUserCall Invocations.invokeName [] .void), .endPrimitive],
        s.Fits passing.names PassesOn :=
      List.forall_mem_cons.mpr ⟨Stmt.fits_expr.mpr (.of_leaf rfl rfl),
        List.forall_mem_singleton.mpr (Stmt.fits_iff.mpr (by simp [Stmt.own, Stmt.nested]))⟩
    -- The four parts of the loop: start, test, step and body.
    refine List.forall_mem_singleton.mpr (Stmt.fits_forLoop.mpr ⟨?_, ?_, ?_, ?_⟩)
    · rintro _ ⟨rfl⟩
      exact Stmt.fits_expr.mpr (hwrites _ rfl (List.forall_mem_cons.mpr
        ⟨hcounter, List.forall_mem_singleton.mpr (hliteral 0)⟩))
    · rintro _ ⟨rfl⟩
      exact .of_isPlain rfl (List.forall_mem_cons.mpr
        ⟨hcounter, List.forall_mem_singleton.mpr (hliteral count)⟩)
    · rintro _ ⟨rfl⟩
      exact hwrites _ rfl (List.forall_mem_singleton.mpr hcounter)
    · exact Stmt.fits_block.mpr hbody

/-! ### Before the rule -/

/-- Reference to the clip position with the type that it has. -/
def IsPosition (e : Expr) : Prop := ∃ ty, e = .builtin ty .position ∧ ty.laneCount = 4

/-- A node writes aside if it reaches the position, and is no whole assignment to it. -/
theorem writesAside_eq_false_iff {e : Expr} : writesAside e = false ↔
    assignsWhole e = true ∨ ∀ target ∈ e.target?, ¬ ReachesClip target := by
  unfold writesAside ReachesClip
  rw [Bool.and_eq_false_iff, Bool.not_eq_false', Option.any_eq_false]
  refine or_congr_right (forall₂_congr fun target _ => ?_)
  simp

/-- An expression in which nothing but whole assignments writes the clip position. -/
def Passable (e : Expr) : Prop := e.any writesAside = false

/-- An expression is passable if its root is and its subtrees are. -/
theorem passable_iff {e : Expr} : Passable e ↔
    (assignsWhole e = true ∨ ∀ target ∈ e.target?, ¬ ReachesClip target) ∧
      ∀ c ∈ e.children, Passable c := by
  rw [← writesAside_eq_false_iff]
  exact any_eq_false_iff

/-- What a rule may do to an expression before clip positions are passed on. -/
structure Prepared (e e' : Expr) : Prop where
  passable : Passable e → Passable e'
  reaches : ReachesClip e' → ReachesClip e
  position : IsPosition e → IsPosition e'

/-- A whole assignment is one of four lanes to the position. -/
theorem assignsWhole_eq_true_iff {e : Expr} : assignsWhole e = true ↔
    ∃ ty op left value, e = .binary ty op left value ∧ op.isAssignment = true ∧
      ty.laneCount = 4 ∧ IsPosition left := by
  constructor
  · unfold assignsWhole
    split
    · -- Only an assignment with the position on its left passes the test.
      next ty op positionTy value =>
      simp only [Bool.and_eq_true, beq_iff_eq]
      rintro ⟨⟨hop, hty⟩, hposition⟩
      exact ⟨ty, op, _, value, rfl, hop, hty, positionTy, rfl, hposition⟩
    · exact nofun
  · rintro ⟨ty, op, _, value, rfl, hop, hty, positionTy, rfl, hposition⟩
    simp [assignsWhole, hop, hty, hposition]

/-- Sub-expressions may be prepared anywhere. -/
theorem isCongruence_prepared : IsCongruence Prepared where
  trans h h' := ⟨h'.passable ∘ h.passable, h.reaches ∘ h'.reaches, h'.position ∘ h.position⟩
  congr {e cs} hcs := by
    refine ⟨fun he => ?_, reached_withChildren (hcs.imp fun _ _ h => h.reaches), ?_⟩
    · obtain ⟨hnode, hchildren⟩ := passable_iff.mp he
      refine passable_iff.mpr ⟨hnode.imp (fun hwhole => ?_) fun htarget target' ht' hreaches => ?_,
        fun c' hc' => ?_⟩
      · -- The target is still the position, so the assignment is still a whole one.
        obtain ⟨ty, op, left, value, rfl, hop, hty, hleft⟩ := assignsWhole_eq_true_iff.mp hwhole
        obtain _ | ⟨hl, _ | ⟨-, _ | _⟩⟩ := hcs
        exact assignsWhole_eq_true_iff.mpr ⟨ty, op, _, _, rfl, hop, hty, hl.position hleft⟩
      · obtain ⟨target, ht, h⟩ := exists_related_target hcs target' ht'
        exact htarget target ht (h.reaches hreaches)
      · obtain ⟨c, hc, h⟩ := exists_related_child hcs c' hc'
        exact h.passable (hchildren c hc)
    · rintro ⟨ty, rfl, hty⟩
      cases hcs
      exact ⟨ty, rfl, hty⟩

/-- A type does not tell what a node is. -/
theorem isClip_withTy (ty : Ty) (e : Expr) : isClip (e.withTy ty) = isClip e := by
  cases e with
  | builtin _ which => cases which <;> rfl
  | _ => rfl

/-- Raising precisions prepares. -/
theorem prepared_raise (e : Expr) : Prepared e (HighPrecision.raiseNode e) := by
  have hlanes : ∀ ty, (HighPrecision.raiseTy ty).laneCount = ty.laneCount := fun ty => rfl
  refine ⟨fun he => ?_, ?_, ?_⟩
  · obtain ⟨hnode, hchildren⟩ := passable_iff.mp he
    refine passable_iff.mpr ⟨hnode.imp (fun hwhole => ?_) ?_, ?_⟩
    · obtain ⟨ty, op, left, value, rfl, hop, hty, hleft⟩ := assignsWhole_eq_true_iff.mp hwhole
      exact assignsWhole_eq_true_iff.mpr ⟨_, op, left, value, rfl, hop, hty, hleft⟩
    · cases e <;> exact id
    · rwa [HighPrecision.raiseNode, children_withTy]
  · -- Whatever is reached is reached under another precision.
    cases e with
    | var | builtin =>
      rintro ⟨v, hv, hclip⟩
      obtain rfl := List.mem_singleton.mp hv
      exact ⟨_, List.mem_singleton_self _, (isClip_withTy _ _).symm.trans hclip⟩
    | binary ty op left right => cases op <;> exact id
    | _ => exact id
  · rintro ⟨ty, rfl, hty⟩
    exact ⟨_, rfl, hty⟩

/-- Reading sizes prepares. -/
theorem prepared_substitute (e : Expr) : Prepared e (TargetSize.substituteNode e) := by
  -- A built-in other than the position gives way to a uniform other than the varying: neither is a
  -- clip position.
  have huniform : ∀ {which name}, which ≠ Builtin.position → name ≠ varyingName → ∀ ty ty',
      Prepared (.builtin ty which) (.var ty' name) := by
    intro which name hwhich hname ty ty'
    refine ⟨fun _ => passable_iff.mpr ⟨.inr nofun, nofun⟩, ?_, ?_⟩
    · rintro ⟨v, hv, hclip⟩
      obtain rfl := List.mem_singleton.mp hv
      simp [isClip, hname] at hclip
    · rintro ⟨_, heq, -⟩
      exact absurd (Expr.builtin.inj heq).2 hwhich
  have hwidth : TargetSize.isWidth e = true → ∃ ty, e = .builtin ty .width := by
    unfold TargetSize.isWidth
    split
    · exact fun _ => ⟨_, rfl⟩
    · exact nofun
  have hheight : TargetSize.isHeight e = true → ∃ ty, e = .builtin ty .height := by
    unfold TargetSize.isHeight
    split
    · exact fun _ => ⟨_, rfl⟩
    · exact nofun
  unfold TargetSize.substituteNode
  split
  · next h =>
    obtain ⟨ty, rfl⟩ := hwidth h
    exact huniform (by decide) (by decide) _ _
  · split
    · next h =>
      obtain ⟨ty, rfl⟩ := hheight h
      exact huniform (by decide) (by decide) _ _
    · exact ⟨id, id, id⟩

/-! ### The rule -/

/-- What the rule does to an expression. -/
structure Forwarded (e e' : Expr) : Prop where
  passes : Passable e → PassesOn e'
  reaches : ReachesClip e' → ReachesClip e
  same : isClip e = true → e' = e

/-- Each write of the clip position is passed on. -/
theorem forwarded_bottomUp (e : Expr) : Forwarded e (e.bottomUp forwardNode) := by
  refine bottomUp_related (fun e cs hcs => ?_) e
  have hreaches : ReachesClip (e.withChildren cs) → ReachesClip e :=
    reached_withChildren (hcs.imp fun _ _ h => h.reaches)
  have hsame : isClip e = true → e.withChildren cs = e :=
    fun hclip => withChildren_of_isClip hclip hcs
  have hchildren : Passable e → ∀ c' ∈ (e.withChildren cs).children, PassesOn c' := by
    intro he c' hc'
    obtain ⟨c, hc, h⟩ := exists_related_child hcs c' hc'
    exact h.passes ((passable_iff.mp he).2 c hc)
  -- A node that writes the position over the new children is a whole assignment over the old ones.
  have hwhole : Passable e → (∃ target ∈ (e.withChildren cs).target?, ReachesClip target) →
      ∃ ty op left value value', e = .binary ty op left value ∧ op.isAssignment = true ∧
        ty.laneCount = 4 ∧ IsPosition left ∧ cs = [left, value'] := by
    rintro he ⟨target', ht', hclip⟩
    obtain ⟨target, ht, h⟩ := exists_related_target hcs target' ht'
    rcases (passable_iff.mp he).1 with hassigns | hnone
    · obtain ⟨ty, op, left, value, rfl, hop, hty, hleft⟩ := assignsWhole_eq_true_iff.mp hassigns
      obtain _ | ⟨hl, _ | ⟨-, _ | _⟩⟩ := hcs
      obtain ⟨positionTy, rfl, hposition⟩ := hleft
      obtain rfl := hl.same rfl
      exact ⟨ty, op, _, value, _, rfl, hop, hty, ⟨positionTy, rfl, hposition⟩, rfl⟩
    · exact absurd (h.reaches hclip) (hnone target ht)
  -- Only a node that assigns the position is passed on, and what it writes is the whole position by
  -- then.
  unfold forwardNode
  split
  · next hassigns =>
    have htarget : ∃ target ∈ (e.withChildren cs).target?, ReachesClip target := by
      unfold assignsPosition at hassigns
      split at hassigns
      · next heq => exact ⟨_, by rw [heq]; exact if_pos hassigns, _, List.mem_singleton_self _, rfl⟩
      · cases hassigns
    refine ⟨fun he => ?_, ?_, fun hclip => ?_⟩
    · obtain ⟨ty, op, left, value, value', rfl, hop, hty, ⟨positionTy, rfl, hposition⟩, rfl⟩ :=
        hwhole he htarget
      exact .forward hop rfl hty hposition (hchildren he value' (by simp [withChildren, children]))
    · rintro ⟨v, hv, -⟩
      exact absurd hv List.not_mem_nil
    · rw [hsame hclip] at htarget
      obtain ⟨target, ht, -⟩ := htarget
      cases e with
      | var | builtin => cases ht
      | _ => exact absurd hclip (by simp [isClip])
  · next hassigns =>
    refine ⟨fun he => .other (fun target' ht' hclip => hassigns ?_) (hchildren he), hreaches, hsame⟩
    obtain ⟨ty, op, left, value, value', rfl, hop, -, ⟨positionTy, rfl, -⟩, rfl⟩ :=
      hwhole he ⟨target', ht', hclip⟩
    exact hop

/-! ### The whole pipeline -/

/-- A vertex program whose writes of the clip position can all be passed on. -/
def IsPassable (p : Program) : Prop := p.stage = .vertex ∧ p.Meets passable

/-- A map of nodes that prepares keeps programs passable. -/
theorem isPassable_mapNodes {f : Expr → Expr} (hf : ∀ e, Prepared e (f e)) {p : Program}
    (hp : IsPassable p) : IsPassable (p.mapNodes f) :=
  ⟨hp.1, Program.mapNodes_meets (fun e => (isCongruence_prepared.bottomUp hf e).passable) rfl hp.2⟩

/-- So does the rule about precisions. -/
theorem isPassable_raise {p : Program} (hp : IsPassable p) :
    IsPassable (HighPrecision.legalize p) :=
  ⟨hp.1, meets_highPrecision rfl
    (fun e => (isCongruence_prepared.bottomUp prepared_raise e).passable) hp.2⟩

/-- After the rule about the coordinate every write of the position is passed on. -/
theorem legalize_passes_on {t : Target} {p : Program} (hpolicy : t.coordPolicy = .fromVarying)
    (hflip : t.flipsY = false) (hp : IsPassable p) :
    Yields (Program.Meets passing) (FragCoord.legalize t p) := by
  refine yields_legalize (Q := Program.Meets passing) (isPassable_mapNodes prepared_substitute hp)
    (fun p hp _ => ?_) fun q hq => ?_
  · unfold applyPolicy
    rw [hpolicy, hp.1]
    exact .after fun _ => .pure
      (Program.mapNodes_meets (fun e => (forwarded_bottomUp e).passes) rfl hp.2)
  · rwa [if_neg (by simp [hflip])]

/-- In the program that is written out each write of the clip position is passed on. -/
theorem pipeline_passes_on {t : Target} {p p' : Program} {s' : Scratch}
    (hpolicy : t.coordPolicy = .fromVarying) (hflip : t.flipsY = false) (hp : IsPassable p)
    (hrun : (Legalize.legalize t p).run.run {} = (.ok p', s')) :
    (s'.withHelpers p').Meets passing := by
  have hp' : p'.Meets passing := Yields.of_run (carried_passing.legalize (P := IsPassable)
    (fun _ => isPassable_raise) (fun _ => legalize_passes_on hpolicy hflip) hp) hrun
  refine List.forall_mem_append.mpr ⟨fun el hel => ?_, hp'⟩
  obtain ⟨⟨shape, fn⟩, hmem, rfl⟩ := List.mem_map.mp hel
  obtain hnone | ⟨ty, rfl⟩ := legalize_adds_helpers hrun _ hmem
  · exact absurd hnone (by simp)
  -- The helper writes nothing at all.
  · have hx : PassesOn (.ofVar "x" ty) := .of_leaf rfl rfl
    have hvalue : PassesOn (.ofBinary .mul (.ofVar "x" ty) (.ofCall .sign [.ofVar "x" ty])) :=
      .of_isPlain rfl (List.forall_mem_cons.mpr ⟨hx, List.forall_mem_singleton.mpr
        (.of_isPlain rfl (List.forall_mem_singleton.mpr hx))⟩)
    have hname : "x" ≠ varyingName := by decide
    refine ⟨trivial, List.forall_mem_singleton.mpr hname, .inl (List.forall_mem_singleton.mpr ?_)⟩
    exact Stmt.fits_returnWith.mpr fun e he => Option.some.inj he ▸ hvalue

end ShaderGen.Legalize.FragCoord
