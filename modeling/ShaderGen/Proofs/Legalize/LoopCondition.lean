import ShaderGen.Proofs.Legalize.DoWhile
import ShaderGen.Proofs.Legalize.LoopPlan
import ShaderGen.Proofs.Legalize.ShortCircuit
import ShaderGen.Proofs.Semantics.Valued

/-!
# Conditions of loops

The rule for conditions runs after loops that test at their end may have been replaced, and after
short-circuit operators may have been spelled as choices. All three together follow the plan of the
first two with another last entry, so every condition is changed once and nothing else is.

A condition `c` and `c && true` have one truth value, and `c && true` computes `c` once and nothing
else, so every statement does what it did.

## Key results

- `stmt_andTrue`: what the rule for conditions makes of a plan that leaves them alone
- `preserves_andTrueInLoop`: what a loop does
- `legalize_conjoins`: nothing but the conditions of loops is changed, and a program keeps its runs
-/

namespace ShaderGen.Legalize.LoopCondition

open Stmt Behaviour

/-! ### What looks like an exit check -/

/-- The statement is an `if` on a variable that is named like the flag of a loop. -/
def asksFlag : Stmt → Bool
  | .ifElse (.var _ name) _ _ => isLoopFlag name
  | _ => false

/-- The statement is a block that starts so. -/
def opensWithFlag : Stmt → Bool
  | .block ss => ss.head?.any asksFlag
  | _ => false

/-- A body that does not start with a flag is no exit check. -/
theorem andTrueInExitCheck_eq_self {s : Stmt} (h : opensWithFlag s = false) :
    andTrueInExitCheck s = s := by
  unfold andTrueInExitCheck
  split
  · have hname : isLoopFlag _ = false := h
    rw [hname]
    rfl
  · rfl

/-- Statements that do not open a loop like an exit check does, put into a block or not. -/
structure Quiet (ss : List Stmt) : Prop where
  ne_nil : ss ≠ []
  starts : ss.head?.any asksFlag = false
  opens (s : Stmt) (h : ss = [s]) : opensWithFlag s = false

/-- One statement that is no flag leaves loops around it alone. -/
theorem Quiet.single {s : Stmt} (hstarts : asksFlag s = false)
    (hopens : opensWithFlag s = false) : Quiet [s] where
  ne_nil := List.cons_ne_nil _ _
  starts := hstarts
  opens t ht := by
    obtain rfl := List.singleton_inj.mp ht
    exact hopens

/-- A body of such statements does not start with a flag. -/
theorem Quiet.opensWithFlag_ofList {ss : List Stmt} (h : Quiet ss) :
    opensWithFlag (ofList ss) = false := by
  match ss, h with
  | [s], h => exact h.opens s rfl
  | [], h => exact absurd rfl h.ne_nil
  | s :: s' :: ss, h => exact h.starts

/-- Spelling operators differently makes no variable. -/
theorem eq_var_of_spelled {unfolds : Bool} {e : Expr} {ty : Ty} {name : String}
    (h : spelled unfolds e = .var ty name) : e = .var ty name := by
  cases unfolds with
  | false => exact h
  | true =>
    have h : e.bottomUp ShortCircuit.unfoldNode = .var ty name := h
    -- Unfolding makes choices of operators, and keeps what any other node is.
    cases e with
    | var => exact h
    | binary ty op left right =>
      rw [Expr.bottomUp_binary] at h
      cases op <;> cases h
    | _ => simp [ShortCircuit.unfoldNode] at h

/-- No statement that the rules before this one write starts with a flag, but their own loops. -/
theorem quiet_stmt {plan : Plan} {unfolds : Bool} (hplan : plan.expr = spelled unfolds) {s : Stmt}
    (h : s.mentions DoWhile.flags = false) (sc : Scratch) : Quiet ((plan.stmt s).run sc).1 := by
  induction s generalizing sc with
  | block body ih =>
    refine .single rfl ?_
    show ((plan.list body).run sc).1.head?.any asksFlag = false
    cases body with
    | nil => rfl
    | cons s ss =>
      -- The block opens with what its first statement becomes.
      have hs := ih s List.mem_cons_self (Bool.or_eq_false_iff.mp h).1 sc
      show (((plan.stmt s).run sc).1 ++ _).head?.any asksFlag = false
      rw [List.head?_append_of_ne_nil _ hs.ne_nil]
      exact hs.starts
  | ifElse cond thenBranch elseBranch =>
    refine .single ?_ rfl
    show asksFlag (.ifElse (plan.expr cond) _ _) = false
    obtain ⟨hcond, -⟩ := Bool.or_eq_false_iff.mp (Bool.or_eq_false_iff.mp h).1
    rw [hplan]
    unfold asksFlag
    split
    · next heq =>
      -- The condition was that variable before, and no flag is mentioned.
      obtain ⟨hvar, -, -⟩ := Stmt.ifElse.inj heq
      rw [eq_var_of_spelled hvar] at hcond
      exact hcond
    · rfl
  | doWhile body cond =>
    show Quiet ((if plan.replaces then _ else _ : ScratchM (List Stmt)).run sc).1
    split
    · -- What replaces a loop starts with the declaration of its flag.
      exact ⟨List.cons_ne_nil _ _, rfl, fun s hs => by cases hs⟩
    · exact .single rfl rfl
  | _ => exact .single rfl rfl

/-! ### What the rule for conditions makes of a statement -/

section

variable {replaces unfolds : Bool}

/-- A block is rewritten in its members. -/
theorem bottomUp_andTrue_block (body : List Stmt) :
    (block body).bottomUp andTrueInLoop = .block (body.map (bottomUp andTrueInLoop)) :=
  congrArg block (bottomUpList_eq_map _ body)

/-- A choice is rewritten in its branches. -/
theorem bottomUp_andTrue_ifElse (cond : Expr) (s : Stmt) (o : Option Stmt) :
    (ifElse cond s o).bottomUp andTrueInLoop =
      .ifElse cond (s.bottomUp andTrueInLoop) (o.map (bottomUp andTrueInLoop)) := by
  cases o <;> rfl

/-- A `for` loop is rewritten in its body, and gets the constant after its condition. -/
theorem bottomUp_andTrue_forLoop (init : Option Stmt) (cond step : Option Expr) (body : Stmt) :
    (forLoop init cond step body).bottomUp andTrueInLoop =
      .forLoop (init.map (bottomUp andTrueInLoop)) (cond.map andTrue) step
        (body.bottomUp andTrueInLoop) := by
  cases init <;> cases cond <;> rfl

/-- A body is rewritten, as a block or not. -/
theorem bottomUp_toBlock (s : Stmt) :
    s.toBlock.bottomUp andTrueInLoop = (s.bottomUp andTrueInLoop).toBlock := by
  cases s with
  | forLoop init cond step body => cases cond <;> rfl
  | _ => rfl

/-- So are several statements in place of one. -/
theorem bottomUp_andTrue_ofList (ss : List Stmt) :
    (ofList ss).bottomUp andTrueInLoop = ofList (ss.map (bottomUp andTrueInLoop)) := by
  match ss with
  | [] => rfl
  | [s] => rfl
  | s :: s' :: ss => exact bottomUp_andTrue_block (s :: s' :: ss)

/-- The exit check of a replaced loop is found by the name of the flag. -/
theorem replacement_andTrue {flagName : String} (hflag : DoWhile.flags flagName = true)
    (cond : Expr) (body : Stmt) :
    ((Plan.before replaces unfolds).replacement flagName cond body).map (bottomUp andTrueInLoop) =
      (Plan.after replaces unfolds).replacement flagName cond
        (body.bottomUp andTrueInLoop) := by
  have hcheck (rest : List Stmt) :
      andTrueInExitCheck (.block (DoWhile.exitCheck (.ofVar flagName .bool) cond :: rest)) =
        .block (DoWhile.exitCheck (.ofVar flagName .bool) (andTrue cond) :: rest) := if_pos hflag
  rw [Plan.replacement, Plan.replacement, ← bottomUp_toBlock]
  exact congrArg (fun body => [_, Stmt.whileLoop _ body]) (hcheck _)

/-- What is done next only matters for what can be returned. -/
theorem bind_congr_of_run {β γ : Type} {x : ScratchM β} {f g : β → ScratchM γ}
    (h : ∀ sc, f (x.run sc).1 = g (x.run sc).1) : x >>= f = x >>= g := by
  funext sc
  show (f (x.run sc).1).run _ = (g (x.run sc).1).run _
  rw [h]

/-- A list is planned with the constant just as it is planned without, and rewritten after. -/
theorem list_andTrue {ss : List Stmt}
    (h : ∀ s ∈ ss, (Plan.after replaces unfolds).stmt s =
      List.map (bottomUp andTrueInLoop) <$> (Plan.before replaces unfolds).stmt s) :
    (Plan.after replaces unfolds).list ss =
      List.map (bottomUp andTrueInLoop) <$> (Plan.before replaces unfolds).list ss := by
  induction ss with
  | nil => rfl
  | cons s ss ih =>
    obtain ⟨hs, hss⟩ := List.forall_mem_cons.mp h
    rw [Plan.list, Plan.list, hs, ih hss]
    simp

/-- The same for cases. -/
theorem caseList_andTrue {cases : List Case} (hflags : casesMention DoWhile.flags cases = false)
    (h : ∀ label body, .mk label body ∈ cases → ∀ s ∈ body, s.mentions DoWhile.flags = false →
      (Plan.after replaces unfolds).stmt s =
        List.map (bottomUp andTrueInLoop) <$> (Plan.before replaces unfolds).stmt s) :
    (Plan.after replaces unfolds).caseList cases =
      bottomUpCases andTrueInLoop <$> (Plan.before replaces unfolds).caseList cases := by
  induction cases with
  | nil => rfl
  | cons c cases ih =>
    obtain ⟨label, body⟩ := c
    -- The flag is mentioned neither in the first case nor in the others.
    obtain ⟨hbody, hrest⟩ := Bool.or_eq_false_iff.mp hflags
    have hlist := list_andTrue fun s hs =>
      h label body List.mem_cons_self s hs (listMentions_eq_false_iff.mp hbody s hs)
    rw [Plan.caseList, Plan.caseList, hlist,
      ih hrest fun label' body' hc => h label' body' (List.mem_cons_of_mem _ hc)]
    simp [bottomUpCases, bottomUpList_eq_map]

/-- A body that is rebuilt does not look as if it started with an exit check. -/
theorem exitCheck_of_quiet {s : Stmt} (h : s.mentions DoWhile.flags = false)
    (hs : (Plan.after replaces unfolds).stmt s =
      List.map (bottomUp andTrueInLoop) <$> (Plan.before replaces unfolds).stmt s) (sc : Scratch) :
    andTrueInExitCheck
        (ofList ((((Plan.before replaces unfolds).stmt s).run sc).1.map (bottomUp andTrueInLoop))) =
      ofList ((((Plan.before replaces unfolds).stmt s).run sc).1.map (bottomUp andTrueInLoop)) := by
  have hspelled : (Plan.after replaces unfolds).expr = spelled unfolds := rfl
  have hquiet := quiet_stmt hspelled h sc
  rw [hs] at hquiet
  exact andTrueInExitCheck_eq_self hquiet.opensWithFlag_ofList

/-- The rule for conditions takes what comes of one plan to what comes of the other. -/
theorem stmt_andTrue (s : Stmt) : ∀ replaces, s.mentions DoWhile.flags = false →
    (Plan.after replaces unfolds).stmt s =
      List.map (bottomUp andTrueInLoop) <$> (Plan.before replaces unfolds).stmt s := by
  induction s with
  -- By induction on the statement; both plans visit it in the same order.
  | block body ih =>
    intro replaces h
    have hbody := list_andTrue fun s hs => ih s hs replaces (listMentions_eq_false_iff.mp h s hs)
    rw [Plan.stmt, Plan.stmt, hbody]
    simp [bottomUp_andTrue_block]
  | decl d => exact fun _ _ => rfl
  -- The branches have no condition of a loop, so the rule goes through them.
  | ifElse cond thenBranch elseBranch iht ihe =>
    intro replaces h
    obtain ⟨h, helse⟩ := Bool.or_eq_false_iff.mp h
    have hoption : (Plan.after replaces unfolds).option elseBranch =
        Option.map (bottomUp andTrueInLoop) <$>
          (Plan.before replaces unfolds).option elseBranch := by
      cases elseBranch with
      | none => rfl
      | some s => simp [Plan.option, ihe s rfl replaces helse, bottomUp_andTrue_ofList]
    rw [Plan.stmt, Plan.stmt, iht replaces (Bool.or_eq_false_iff.mp h).2, hoption]
    simp [bottomUp_andTrue_ifElse, bottomUp_andTrue_ofList]
  -- A counting loop has a condition of its own only if one is written.
  | forLoop init cond step body ihi ihb =>
    intro replaces h
    obtain ⟨h, hbody⟩ := Bool.or_eq_false_iff.mp h
    obtain ⟨h, -⟩ := Bool.or_eq_false_iff.mp h
    obtain ⟨hinit, -⟩ := Bool.or_eq_false_iff.mp h
    -- Loops in the initializer are not replaced, as if none were.
    have hheader : init.map (Plan.after replaces unfolds).header =
        (init.map (Plan.before replaces unfolds).header).map (bottomUp andTrueInLoop) := by
      cases init with
      | none => rfl
      | some s =>
        have hs := ihi s rfl false hinit
        rw [Plan.stmt_eq_pure rfl, Plan.stmt_eq_pure rfl] at hs
        have hrun := congrArg (fun x : ScratchM (List Stmt) => (x.run {}).1) hs
        exact congrArg some (List.singleton_inj.mp hrun)
    rw [Plan.stmt, Plan.stmt, ihb replaces hbody, hheader]
    simp [bottomUp_andTrue_forLoop, bottomUp_andTrue_ofList, Function.comp_def]
  | whileLoop cond body ih =>
    intro replaces h
    obtain ⟨-, hbody⟩ := Bool.or_eq_false_iff.mp h
    have hs := ih replaces hbody
    rw [Plan.stmt, Plan.stmt, hs, bind_map_left, map_bind]
    -- Whether the body looks like an exit check depends on what it becomes.
    refine bind_congr_of_run fun sc => ?_
    rw [map_pure, ← exitCheck_of_quiet hbody hs sc, ← bottomUp_andTrue_ofList]
    rfl
  | doWhile body cond ih =>
    intro replaces h
    obtain ⟨-, hbody⟩ := Bool.or_eq_false_iff.mp h
    have hs := ih replaces hbody
    rw [Plan.stmt, Plan.stmt]
    -- Where the loop is replaced, the rule meets the replacement instead of the loop.
    cases replaces with
    | false =>
      simp [hs, bottomUp, bottomUp_andTrue_ofList]
      rfl
    | true =>
      simp only [Plan.before_replaces, Plan.after_replaces, if_true, map_bind]
      -- The exit check is recognized by the name that the flag is given.
      refine bind_congr_of_run fun sc => ?_
      rw [hs, bind_map_left]
      refine bind_congr fun ss => ?_
      rw [map_pure, replacement_andTrue (starts_freshName .loopFlag sc), bottomUp_andTrue_ofList]
      rfl
  -- The labels stay, and the bodies are lists.
  | switchOn value cases ih =>
    intro replaces h
    obtain ⟨-, hcases⟩ := Bool.or_eq_false_iff.mp h
    have hcases := caseList_andTrue hcases fun label body hc s hs => ih label body hc s hs replaces
    rw [Plan.stmt, Plan.stmt, hcases]
    simp [bottomUp, andTrueInLoop]
  | expr | returnWith | breakOut | continueLoop | discard | emitVertex | endPrimitive =>
    exact fun _ _ => rfl

/-- The same for elements, of which only functions have loops. -/
theorem element_andTrue {el : Element}
    (h : ∀ f, el = .function f → listMentions DoWhile.flags f.body = false) :
    (Plan.after replaces unfolds).element el =
      Element.mapFunction (Function.mapBody (bottomUpList andTrueInLoop)) <$>
        (Plan.before replaces unfolds).element el := by
  cases el with
  | global d => rfl
  | layout l => rfl
  | function f =>
    -- A body may be taken statement by statement.
    have hstmts : ∀ s ∈ f.body, (Plan.after replaces unfolds).stmt s =
        List.map (bottomUp andTrueInLoop) <$> (Plan.before replaces unfolds).stmt s :=
      fun s hs => stmt_andTrue s replaces (listMentions_eq_false_iff.mp (h f rfl) s hs)
    rw [Plan.element, Plan.element, list_andTrue hstmts]
    simp [Element.mapFunction, Function.mapBody, bottomUpList_eq_map]

/-- The rule for conditions follows the plan that changes them. -/
theorem legalize_prepare {p : Program} (h : p.mentions DoWhile.flags = false) :
    legalize <$> prepare replaces unfolds p = (Plan.after replaces unfolds).program p := by
  have hfunctions : ∀ el ∈ p.elements, ∀ f, el = .function f →
      listMentions DoWhile.flags f.body = false := by
    rintro _ hf f rfl
    rw [Program.mentions, List.any_eq_false] at h
    exact eq_false_of_ne_true (h f (List.mem_filterMap.mpr ⟨_, hf, rfl⟩))
  -- Functions are planned in a row, as each takes names from the supply.
  have helements : p.elements.mapM (Plan.after replaces unfolds).element =
      List.map (Element.mapFunction (Function.mapBody (bottomUpList andTrueInLoop))) <$>
        p.elements.mapM (Plan.before replaces unfolds).element := by
    generalize p.elements = els at hfunctions
    induction els with
    | nil => rfl
    | cons el els ih =>
      obtain ⟨hel, hels⟩ := List.forall_mem_cons.mp hfunctions
      rw [List.mapM_cons, List.mapM_cons, element_andTrue hel, ih hels]
      simp
  rw [prepare_eq_program, Plan.program, Plan.program, helements]
  simp [legalize, Program.mapFunctions]

end

/-! ### What loops do -/

/-- What a condition asks, less what it is conjoined with and its negation. -/
def asked : Expr → Expr
  | .binary _ .logicalAnd cond (.literal _ (.bool true)) => asked cond
  | .unary _ .not cond => asked cond
  | e => e

section

variable {α : Type}

/-- The values that expressions have by a lookup. Each time an expression is evaluated, what it asks
    is noted. -/
def noting (note : Expr → Eval α Unit) (lookup : Lookup α) (m : Machine α) : Valuation α :=
  fun e => do
    note (asked e)
    e.valuesBy lookup m

/-- A condition that is conjoined with `true` is evaluated once and keeps its truth value. -/
structure Conjoins (values : Valuation α) (m : Machine α) : Prop where
  conjoined (cond : Expr) : values (andTrue cond) =
    (fun vs => [m.literal (.bool (m.holds vs))]) <$> values cond
  negated (ty : Ty) (cond : Expr) :
    values (.unary ty .not (andTrue cond)) = values (.unary ty .not cond)

/-- The element with conditions of loops changed, and no run: from every state a function ends as it
    did, in the state that it ended in, with what is done on the way. -/
inductive KeepsRuns (values : Valuation α) (m : Machine α) : Element → Element → Prop
  | global (d : Decl) : KeepsRuns values m (.global d) (.global d)
  | function {f : Function} {body : List Stmt}
    (h : listBehaviourBy values m body = listBehaviourBy values m f.body) :
    KeepsRuns values m (.function f) (.function { f with body })
  | layout (l : Layout) : KeepsRuns values m (.layout l) (.layout l)

variable {values : Valuation α} {m : Machine α}

/-- By a lookup, `c && true` computes what `c` does. -/
theorem valuesBy_andTrue (lookup : Lookup α) (cond : Expr) :
    (andTrue cond).valuesBy lookup m =
      (fun vs => [m.literal (.bool (m.holds vs))]) <$> cond.valuesBy lookup m := by
  have hop : BinaryOp.logicalAnd.isAssignment = false := rfl
  refine (ShortCircuit.valuesBy_operator hop .bool cond (.bool true)).trans ?_
  rw [← bind_pure_comp]
  refine bind_congr fun vs => ?_
  -- The literal is only computed where the condition holds, and then gives the result.
  cases hvs : m.holds vs <;> rfl

/-- A negation is evaluated through its operand. -/
theorem valuesBy_not (lookup : Lookup α) (ty : Ty) (cond : Expr) :
    (Expr.unary ty .not cond).valuesBy lookup m =
      (fun vs => [m.literal (.bool !m.holds vs)].takeD ty.laneCount m.undefined) <$>
        cond.valuesBy lookup m := by
  simp [Expr.valuesBy, Expr.evalBy, UnaryOp.writesOperand, Machine.unaryResult]

/-- Truth is what a literal says. -/
theorem holds_literal (b : Bool) : m.holds [m.literal (.bool b)] = b := m.truth_literal b

/-- A machine that notes its operators still finds `c && true` to be `c`. -/
theorem conjoins_noting (note : Expr → Eval α Unit) (lookup : Lookup α) (m : Machine α) :
    Conjoins (noting note lookup m) m where
  conjoined cond := by
    rw [noting, noting, valuesBy_andTrue]
    exact (map_bind _ _ _).symm
  negated ty cond := by
    rw [noting, noting, valuesBy_not, valuesBy_not, valuesBy_andTrue, Functor.map_map]
    simp only [holds_literal]
    rfl

/-- With nothing noted and nothing else looked up, expressions have the values of the machine. -/
theorem conjoins_values (m : Machine α) : Conjoins (Expr.values m) m := by
  have hplain : noting (fun _ => pure ()) .plain m = Expr.values m :=
    funext fun e => e.valuesBy_plain m
  exact hplain ▸ conjoins_noting (fun _ => pure ()) .plain m

/-- A choice on a condition with the constant is one on the condition. -/
theorem branchBy_andTrue (h : Conjoins values m) (cond : Expr) (A B : Behaviour α) :
    branchBy values m (andTrue cond) A B = branchBy values m cond A B := by
  unfold branchBy
  rw [h.conjoined, after_map]
  simp only [holds_literal]

/-- So is the test of a loop. -/
theorem testBy_andTrue (h : Conjoins values m) (cond : Expr) :
    testBy values m (andTrue cond) = testBy values m cond :=
  branchBy_andTrue h cond _ _

/-- So is the negated test in an exit check. -/
theorem branchBy_not_andTrue (h : Conjoins values m) (ty : Ty) (cond : Expr) (A B : Behaviour α) :
    branchBy values m (.unary ty .not (andTrue cond)) A B =
      branchBy values m (.unary ty .not cond) A B := by
  unfold branchBy
  rw [h.negated]

/-- The constant in an exit check changes no run. -/
theorem preserves_andTrueInExitCheck (h : Conjoins values m) :
    Preserves values m andTrueInExitCheck where
  declared s := by
    unfold andTrueInExitCheck
    split
    · split <;> rfl
    · rfl
  behaviour s := by
    unfold andTrueInExitCheck
    -- Only a block that starts with an exit check is changed, in the condition of the check.
    split
    · split
      · simp only [behaviourBy, listBehaviourBy, branchBy_not_andTrue h]
        rfl
      · rfl
    · rfl

/-- A loop does what it did. -/
theorem preserves_andTrueInLoop (h : Conjoins values m) : Preserves values m andTrueInLoop where
  declared s := by
    cases s with
    | forLoop init cond step body => cases cond <;> rfl
    | _ => rfl
  behaviour s := by
    have hcheck := preserves_andTrueInExitCheck h
    cases s with
    -- The body may hold the exit check of a former `do` loop.
    | whileLoop cond body =>
      show (Stmt.whileLoop _ _).behaviourBy values m = _
      rw [behaviourBy, behaviourBy, testBy_andTrue h, hcheck.declared, hcheck.behaviour]
    | doWhile body cond =>
      show (Stmt.doWhile _ _).behaviourBy values m = _
      rw [behaviourBy, behaviourBy, testBy_andTrue h]
    | forLoop init cond step body =>
      cases cond with
      | none => rfl
      | some cond =>
        show (Stmt.forLoop _ _ _ _).behaviourBy values m = _
        rw [behaviourBy, behaviourBy]
        have htest := testBy_andTrue h cond
        exact congrArg (fun test => inScope _ (seq _ (Forever (seq test _)))) htest
    | _ => rfl

/-- Every function of the rewritten program runs as it did. -/
theorem keepsRuns_legalize (h : Conjoins values m) (p : Program) :
    List.Forall₂ (KeepsRuns values m) p.elements (legalize p).elements := by
  refine List.forall₂_map_right_iff.mpr (List.forall₂_same.mpr fun el _ => ?_)
  cases el with
  | global d => exact .global d
  | layout l => exact .layout l
  | function f =>
    exact .function (listBehaviourBy_bottomUpList (preserves_andTrueInLoop h) f.body)

/-- Loading the program runs no loop, so it is the same. -/
theorem load_legalize (m : Machine α) (p : Program) (shared : Variable → Nat → α) :
    (legalize p).load m shared = p.load m shared := by
  have hinit (m : Machine α) (init : Option Expr) :
      Option.Rel (fun e e' => e'.values m = e.values m) init init := by
    -- Initial values are not rewritten.
    cases init with
    | none => exact .none
    | some e => exact .some rfl
  have hsame (m : Machine α) (el : Element) :
      el.SameOn m (el.mapFunction (Function.mapBody (bottomUpList andTrueInLoop))) := by
    cases el with
    | global d => exact .global (hinit m d.init)
    | layout l => exact .layout l
    | function f =>
      have hloops := preserves_andTrueInLoop (conjoins_values m)
      have hbody := listBehaviourBy_bottomUpList hloops f.body
      rw [listBehaviourBy_eq_listBehaviour, listBehaviourBy_eq_listBehaviour] at hbody
      exact .function hbody
  refine Program.load_eq_of_same (K := fun _ => True) (fun _ _ _ => trivial) ?_ trivial shared
  exact List.forall₂_map_right_iff.mpr (List.forall₂_same.mpr fun el _ m _ => hsame m el)

end

/-- Loops that test at their end are replaced or not, short-circuit operators are spelled as choices
    or not, and then conditions are changed. In what comes of this, the condition of each loop is
    conjoined with `true` once, be the loop in other loops or not, and so is the condition in the
    exit check of each loop that is replaced; all else is what it is without the last rule. That
    rule keeps the runs of every function. It also keeps them with a note for each evaluation of
    an expression, whatever noting one and looking a variable up do. So conditions are evaluated as
    often as before, and at the same time as before. -/
theorem legalize_conjoins (replaces unfolds : Bool) {p : Program}
    (h : p.mentions DoWhile.flags = false) :
    prepare replaces unfolds p = (Plan.before replaces unfolds).program p ∧
    legalize <$> prepare replaces unfolds p = (Plan.after replaces unfolds).program p ∧
    ∀ sc : Scratch, let before := ((prepare replaces unfolds p).run sc).1
      ∀ {α : Type} (m : Machine α),
        (∀ (note : Expr → Eval α Unit) (lookup : Lookup α),
          List.Forall₂ (KeepsRuns (noting note lookup m) m) before.elements
            (legalize before).elements) ∧
        ∀ shared, (legalize before).load m shared = before.load m shared := by
  -- Noting what is evaluated is one more machine, so the same theorem tells of it.
  refine ⟨prepare_eq_program replaces unfolds p, legalize_prepare h, fun sc α m => ⟨?_, ?_⟩⟩
  · intro note lookup
    exact keepsRuns_legalize (conjoins_noting note lookup m) _
  · exact load_legalize m _

/-- A loop that tests at its end, in the body of another loop. Its condition is a choice after the
    rules before. -/
theorem nested_loops_are_conjoined :
    let a : Expr := .ofVar "a" .bool
    let ask : Expr := .ofUserCall "ask" [] .bool
    let p : Program := ⟨.fragment, [.function (.entry [.forLoop none (some a) none
      (.doWhile .continueLoop (.ofBinary .logicalAnd a ask))])]⟩
    let flag : Expr := .ofVar "_tmpLoopSeenOnce0" .bool
    let loops (condition : Expr → Expr) : Program := ⟨.fragment, [.function (.entry
      [.forLoop none (some (condition a)) none (.block
        [.decl (.plain "_tmpLoopSeenOnce0" .bool (some (.bool false))),
          .whileLoop (condition (.bool true)) (.block
            [.ifElse flag (.block [.ifElse
                (.ofUnary .not (condition (.ternary .bool a ask (.bool false))))
                (.block [.breakOut]) none]) none,
              .assign flag (.bool true), .block [.continueLoop]])])])]⟩
    let conjoined (cond : Expr) : Expr := .ofBinary .logicalAnd cond (.bool true)
    p.mentions DoWhile.flags = false ∧ ((prepare true true p).run {}).1 = loops id ∧
      legalize (loops id) = loops conjoined ∧
      ∀ shared, (loops conjoined).load .integers shared = (loops id).load .integers shared := by
  intro a ask p flag loops conjoined
  -- What becomes of the loops is found by evaluation; the theorem says that the runs agree.
  have h : p.mentions DoWhile.flags = false := by decide
  have hbefore : ((prepare true true p).run {}).1 = loops id := rfl
  have hafter : legalize (loops id) = loops conjoined := rfl
  obtain ⟨-, -, hruns⟩ := legalize_conjoins true true h
  exact ⟨h, hbefore, hafter, (hruns {} .integers).2⟩

end ShaderGen.Legalize.LoopCondition
