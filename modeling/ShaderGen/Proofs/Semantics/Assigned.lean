import ShaderGen.Proofs.Semantics.Transition

/-!
# Runs that use what is assigned only

A shared variable may have no value: an output before it is written, or the clip position after a
vertex was emitted. In a run that is checked, components may be unassigned, and the run goes on only
as long as it uses none of these, writes no shared variable that it must not write, and emits no
vertex before all of its components are assigned. Components are only used where something is
computed from them; a swizzle or an index selects some of them before that.

Expressions and statements are checked as they run, and functions are checked along with their
callers.

## Main definitions

- `Checker`: a machine, and what a run may write and has to assign
- `Expr.check`, `Stmt.check`: what expressions and statements do in a run that is checked
- `Checker.declare`: functions of the program
-/

namespace ShaderGen

open Behaviour

variable {α β : Type}

/-- A machine, along with what is asked of runs. A function of the program gives no reply if it does
    not return or does what it must not do. -/
structure Checker (α : Type) where
  machine : Machine α
  /-- shared variables that may be written -/
  mayWrite : Variable → Bool
  /-- components that have to be assigned when a vertex is emitted -/
  vertex : Cell → Bool
  /-- components that are unassigned after a vertex is emitted -/
  lost : Cell → Bool
  call : String → List (Ty × List α) → (Variable → Nat → Option α) → Option (Reply (Option α))

/-! ### States with unassigned components -/

namespace State

/-- The state with all components assigned. -/
def assigned (σ : State α) : State (Option α) where
  shared v i := some (σ.shared v i)
  locals name := (σ.locals name).map fun content i => some (content i)
  trace := []

/-- Whether a variable is a local. -/
def hasLocal (σ : State α) : Variable → Bool
  | .named name => (σ.locals name).isSome
  | .builtin _ => false

/-- The state with some shared components unassigned. -/
def lose (σ : State (Option α)) (lost : Cell → Bool) : State (Option α) :=
  { σ with shared := fun v i => if lost ⟨v, i⟩ then none else σ.shared v i }

end State

namespace Eval

/-- Values of components that are used. -/
def need (vs : List (Option α)) : Eval (Option α) (List α) :=
  ExceptT.mk fun σ => (vs.mapM id).map fun vs => (.ok vs, σ)

theorem mapM_id_eq_some {vs : List (Option α)} {ws : List α} :
    vs.mapM id = some ws ↔ vs = ws.map some := by
  induction vs generalizing ws with
  | nil => cases ws <;> simp
  | cons v vs ih =>
    cases v with
    | none => cases ws <;> simp [List.mapM_cons]
    -- One more value that is known is put in front of both lists.
    | some v =>
      have hrest : (some v :: vs).mapM id = (vs.mapM id).map (v :: ·) := by
        rw [List.mapM_cons]
        cases vs.mapM id <;> rfl
      rw [hrest, Option.map_eq_some_iff]
      cases ws with
      | nil => simp
      | cons w ws => simp [ih, eq_comm, and_comm]

/-- What is used was assigned, and nothing else happens. -/
theorem run_need {vs : List (Option α)} {σ τ : State (Option α)} {r : Except Discarded (List α)}
    (h : (need vs).run.run σ = some (r, τ)) : ∃ ws, vs = ws.map some ∧ r = .ok ws ∧ τ = σ := by
  obtain ⟨ws, hws, hend⟩ := Option.map_eq_some_iff.mp h
  cases hend
  exact ⟨ws, mapM_id_eq_some.mp hws, rfl, rfl⟩

end Eval

namespace Checker

variable (c : Checker α)

/-- Components that belong to no variable. -/
def temporaries (ty : Ty) (vs : List α) : List (Lane (Option α)) :=
  (c.machine.temporaries ty vs).map fun l => ⟨some l.value, l.cell?⟩

/-- As many components as a value of the type has. -/
def fit (ty : Ty) (ls : List (Lane (Option α))) : List (Lane (Option α)) :=
  ls.takeD ty.laneCount ⟨some c.machine.undefined, none⟩

/-- Component that a selector picks. -/
def pickLane (kind : ScalarKind) (ls : List (Lane (Option α))) : Selector → Lane (Option α) :=
  Selector.pick ⟨some c.machine.undefined, none⟩
    (fun one => ⟨some (c.machine.literal (kind.unitLiteral one)), none⟩) ls

/-- Whether a component belongs to no variable, or to one that may be written. -/
def admits (σ : State (Option α)) (l : Lane (Option α)) : Bool :=
  l.cell?.all fun cell => σ.hasLocal cell.owner || c.mayWrite cell.owner

/-- Writes components in order, if they may be written. -/
def store (ls : List (Lane (Option α))) (vs : List α) : Eval (Option α) Unit :=
  ExceptT.mk fun σ =>
    if ls.all (c.admits σ) then some (.ok (), σ.store ls (vs.map some)) else none

/-- Calls a function of the program. -/
def invoke (name : String) (args : List (Ty × List α)) : Eval (Option α) (List (Option α)) :=
  ExceptT.mk fun σ =>
    (c.call name args σ.shared).map fun reply =>
      (reply.result.elim (.error .discarded) .ok,
        { σ with
          shared := reply.shared
          trace := σ.trace ++ .call name (args.map fun arg => (arg.1, arg.2.map some)) ::
            reply.actions })

/-- Emits a vertex whose components are all assigned. -/
def emit : Behaviour (Option α) := fun σ o τ =>
  (∀ cell, c.vertex cell = true → (σ.shared cell.owner cell.lane).isSome) ∧
    change (fun σ => (σ.act (.emitVertex σ.shared)).lose c.lost) σ o τ

end Checker

/-! ### Expressions -/

namespace Expr

mutual
/-- What an expression computes in a run that is checked. -/
def check (c : Checker α) : Expr → Eval (Option α) (List (Lane (Option α)))
  | .literal ty value => pure (c.temporaries ty [c.machine.literal value])
  | .var ty name => Eval.load (.named name) ty
  | .builtin ty which => Eval.load (.builtin which) ty
  | .unary ty op operand => do
    let target ← operand.check c
    let old ← Eval.need (Lane.values target)
    let new := c.machine.unaryResult op operand.ty old
    if op.writesOperand then do
      c.store target new
      pure (c.temporaries ty (if op.followsOperand then old else new))
    else pure (c.temporaries ty new)
  | .binary ty op left right =>
    if op.isAssignment then do
      let target ← left.check c
      -- A plain assignment does not use what it overwrites.
      let old ← if op = .assign then pure [] else Eval.need (Lane.values target)
      let ls ← right.check c
      let vs ← Eval.need (Lane.values ls)
      let new := c.machine.assigned op left.ty old right.ty vs
      c.store target new
      pure (c.temporaries ty new)
    else do
      let ls ← left.check c
      let vs ← Eval.need (Lane.values ls)
      match op.decided? (c.machine.holds vs) with
      | some b => pure (c.temporaries ty [c.machine.literal (.bool b)])
      | none => do
        let ls' ← right.check c
        let vs' ← Eval.need (Lane.values ls')
        pure (c.temporaries ty (c.machine.binaryResult op left.ty vs right.ty vs'))
  | .ternary ty cond ifTrue ifFalse => do
    let ls ← cond.check c
    let vs ← Eval.need (Lane.values ls)
    if c.machine.holds vs then c.fit ty <$> ifTrue.check c else c.fit ty <$> ifFalse.check c
  | .call ty (.intrinsic function) args => do
    let vs ← checkArgs c args
    pure (c.temporaries ty (c.machine.intrinsic function vs))
  | .call ty (.user name) args => do
    let vs ← checkArgs c args
    let result ← c.invoke name vs
    let vs ← Eval.need result
    pure (c.temporaries ty vs)
  | .swizzle ty base mask =>
    (fun ls => c.fit ty (mask.map (c.pickLane base.ty.componentKind ls))) <$> base.check c
  | .index ty base position => do
    let ls ← base.check c
    let place ← position.check c
    let vs ← Eval.need (Lane.values place)
    pure (c.fit ty (Machine.past ty.laneCount ls (c.machine.asInteger vs)))
  | .construct ty args => do
    let vs ← checkArgs c args
    pure (c.temporaries ty (c.machine.construct ty vs))
  | .group ty inner => c.fit ty <$> inner.check c

/-- What several expressions compute, from left to right, with their types. -/
def checkArgs (c : Checker α) : List Expr → Eval (Option α) (List (Ty × List α))
  | [] => pure []
  | e :: es => do
    let ls ← e.check c
    let vs ← Eval.need (Lane.values ls)
    let rest ← checkArgs c es
    pure ((e.ty, vs) :: rest)
end

/-- The components of the value of an expression that is used. -/
def checkValues (c : Checker α) (e : Expr) : Eval (Option α) (List α) := do
  let ls ← e.check c
  Eval.need (Lane.values ls)

end Expr

/-! ### Statements -/

namespace Checker

variable (c : Checker α)

/-- Goes on one way or the other, as a condition tells. -/
def branch (cond : Expr) (A B : Behaviour (Option α)) : Behaviour (Option α) :=
  after (cond.checkValues c) fun vs => if c.machine.holds vs then A else B

/-- Goes on if a condition holds, and breaks out of the loop otherwise. -/
def test (cond : Expr) : Behaviour (Option α) := c.branch cond skip (exit .breakOut)

end Checker

/-- Runs a declaration. -/
def Decl.check (c : Checker α) (d : Decl) : Behaviour (Option α) :=
  match d.init with
  | none => .declare d.name fun _ => some c.machine.undefined
  | some e => after (e.checkValues c) fun vs =>
    .declare d.name fun i => some (vs.getD i c.machine.undefined)

namespace Stmt

mutual
/-- What a statement does in a run that is checked. -/
def check (c : Checker α) : Stmt → Behaviour (Option α)
  | .block body => inScope (listDeclared body) (listCheck c body)
  | .decl d => d.check c
  | .ifElse cond thenBranch elseBranch =>
    c.branch cond (inScope thenBranch.declared (thenBranch.check c)) (elseCheck c elseBranch)
  | .forLoop init cond step body =>
    inScope (listDeclared init.toList)
      (seq (initCheck c init)
        (Forever
          (seq (cond.elim skip c.test)
            (andThen (inScope body.declared (body.check c))
              (step.elim skip fun e => after (e.check c) fun _ => skip)))))
  | .whileLoop cond body =>
    Forever (seq (c.test cond) (inScope body.declared (body.check c)))
  | .doWhile body cond =>
    Forever (andThen (inScope body.declared (body.check c)) (c.test cond))
  | .switchOn value cases =>
    after (value.checkValues c) fun vs => catchBreak
      (inScope (casesDeclared cases)
        (seqAll ((selected (c.machine.asInteger vs) (caseChecks c cases)).map Prod.snd)))
  | .expr e => after (e.check c) fun _ => skip
  | .returnWith none => exit (.returned none)
  | .returnWith (some e) =>
    after (e.checkValues c) fun vs => exit (.returned (some (vs.map some)))
  | .breakOut => exit .breakOut
  | .continueLoop => exit .continueLoop
  | .discard => exit .discarded
  | .emitVertex => c.emit
  | .endPrimitive => change fun σ => σ.act .endPrimitive

/-- What the second branch of an `if` does. -/
def elseCheck (c : Checker α) : Option Stmt → Behaviour (Option α)
  | none => skip
  | some s => inScope s.declared (s.check c)

/-- What the initializer of a `for` does. -/
def initCheck (c : Checker α) : Option Stmt → Behaviour (Option α)
  | none => skip
  | some s => s.check c

/-- What several statements do one after the other. -/
def listCheck (c : Checker α) : List Stmt → Behaviour (Option α)
  | [] => skip
  | s :: ss => seq (s.check c) (listCheck c ss)

/-- What the cases of a `switch` do, each with its label. -/
def caseChecks (c : Checker α) : List Case → List (Option Int × Behaviour (Option α))
  | [] => []
  | .mk label body :: cases => (label, listCheck c body) :: caseChecks c cases
end

end Stmt

/-! ### Runs are determined -/

/-- Emitting a vertex has one end at most. -/
theorem Checker.deterministic_emit (c : Checker α) : Deterministic c.emit := by
  rintro σ o τ o' τ' ⟨-, h⟩ ⟨-, h'⟩
  exact Deterministic.change _ h h'

/-- A choice has one end at most if both branches have. -/
theorem Checker.deterministic_branch (c : Checker α) (cond : Expr) {A B : Behaviour (Option α)}
    (hA : Deterministic A) (hB : Deterministic B) : Deterministic (c.branch cond A B) := by
  refine .after fun vs => ?_
  split
  · exact hA
  · exact hB

/-- So has a declaration. -/
theorem Decl.deterministic_check (c : Checker α) (d : Decl) : Deterministic (d.check c) := by
  unfold Decl.check
  split
  · exact .change _
  · exact .after fun vs => .change _

namespace Stmt

variable (c : Checker α)

/-- So has a list, if its statements have. -/
theorem deterministic_listCheck {ss : List Stmt} (h : ∀ s ∈ ss, Deterministic (s.check c)) :
    Deterministic (listCheck c ss) := by
  induction ss with
  | nil => exact .skip
  | cons s ss ih =>
    obtain ⟨hs, hss⟩ := List.forall_mem_cons.mp h
    exact hs.seq (ih hss)

/-- So has each case. -/
theorem deterministic_caseChecks {cases : List Case}
    (h : ∀ label body, .mk label body ∈ cases → Deterministic (listCheck c body)) :
    ∀ b ∈ caseChecks c cases, Deterministic b.2 := by
  induction cases with
  | nil => exact fun b hb => absurd hb List.not_mem_nil
  | cons first cases ih =>
    obtain ⟨label, body⟩ := first
    refine List.forall_mem_cons.mpr ⟨h label body List.mem_cons_self, ih fun label' body' hc => ?_⟩
    exact h label' body' (List.mem_cons_of_mem _ hc)

/-- A run that is checked ends in one way only. -/
theorem deterministic_check (s : Stmt) : Deterministic (s.check c) := by
  -- A computation has one result by its nature, so what is left to look at are the combinators
  -- around it.
  induction s with
  | block body ih => exact (deterministic_listCheck c ih).inScope
  | decl d => exact d.deterministic_check c
  | ifElse cond thenBranch elseBranch iht ihe =>
    refine c.deterministic_branch cond iht.inScope ?_
    -- The branch that is taken otherwise may be missing.
    cases elseBranch with
    | none => exact .skip
    | some s => exact (ihe s rfl).inScope
  | forLoop init cond step body ihi ihb =>
    have hinit : Deterministic (initCheck c init) := by
      cases init with
      | none => exact .skip
      | some s => exact ihi s rfl
    have hcond : Deterministic (cond.elim skip c.test) := by
      cases cond with
      | none => exact .skip
      | some e => exact c.deterministic_branch e .skip (.exit _)
    have hstep : Deterministic (step.elim skip fun e => after (e.check c) fun _ => skip) := by
      cases step with
      | none => exact .skip
      | some e => exact .after fun _ => .skip
    exact (hinit.seq (hcond.seq (ihb.inScope.andThen hstep)).forever).inScope
  -- The test of a loop is a branch that may leave it.
  | whileLoop cond body ih =>
    exact ((c.deterministic_branch cond .skip (.exit _)).seq ih.inScope).forever
  | doWhile body cond ih =>
    exact (ih.inScope.andThen (c.deterministic_branch cond .skip (.exit _))).forever
  | switchOn value cases ih =>
    refine .after fun vs => .catchBreak (.inScope (.seqAll fun b hb => ?_))
    -- The cases that run are some of those that were checked.
    obtain ⟨first, hfirst, rfl⟩ := List.mem_map.mp hb
    exact deterministic_caseChecks c
      (fun label body hcase => deterministic_listCheck c (ih label body hcase)) first
      (mem_of_mem_selected hfirst)
  | expr e => exact .after fun _ => .skip
  | returnWith value =>
    cases value with
    | none => exact .exit _
    | some e => exact .after fun vs => .exit _
  | breakOut => exact .exit _
  | continueLoop => exact .exit _
  | discard => exact .exit _
  | emitVertex => exact c.deterministic_emit
  | endPrimitive => exact .change _

/-- Assigning a whole built-in variable from a shared variable whose components are assigned. -/
theorem check_assign {c : Checker α} {σ : State (Option α)} (which : Builtin) (name : String)
    (hlocals : σ.locals = fun _ => none) (hwrite : c.mayWrite (.builtin which) = true)
    (hsource : ∀ i, (σ.shared (.named name) i).isSome) :
    ∃ τ, (Stmt.assign (.ofBuiltin which) (.ofVar name which.ty)).check c σ .normal τ ∧
      τ.locals = σ.locals ∧ ∀ v i, τ.shared v i =
        if v = .builtin which ∧ i < which.ty.laneCount then σ.shared (.named name) i
        else σ.shared v i := by
  -- No local is in scope, so the name reads the shared variable, all of whose components have
  -- values.
  have hread : σ.read (.named name) = σ.shared (.named name) := by
    show (σ.locals name).getD _ = _
    rw [hlocals]
    rfl
  choose x hx using fun i => Option.isSome_iff_exists.mp (hsource i)
  let vs : List α := (List.range which.ty.laneCount).map x
  let target := Variable.lanes (.builtin which) which.ty (σ.read (.builtin which))
  let source := Variable.lanes (.named name) which.ty (σ.read (.named name))
  have hvalues : Lane.values source = vs.map some := by
    simp [source, Lane.values, Variable.lanes, vs, hread, hx]
  have hneed : (Eval.need (Lane.values source)).run.run σ = some (.ok vs, σ) :=
    congrArg (Option.map _) (Eval.mapM_id_eq_some.mpr hvalues)
  have hlength : vs.length = which.ty.laneCount := by simp [vs]
  have hassigned : c.machine.assigned .assign which.ty [] which.ty vs = vs := by
    show vs.takeD which.ty.laneCount _ = vs
    rw [← hlength, List.takeD_eq_take _ (Nat.le_refl _), List.take_length]
  have hadmits : target.all (c.admits σ) = true := by
    simp [target, Variable.lanes, Checker.admits, hwrite]
  have hstores : (c.store target (c.machine.assigned .assign which.ty [] which.ty vs)).run.run σ =
      some (.ok (), σ.store target (vs.map some)) := by
    rw [hassigned]
    exact if_pos hadmits
  -- Both halves of the assignment are run: the source is needed whole, then the target is stored.
  have hrun : ((Expr.assign (.ofBuiltin which) (.ofVar name which.ty)).check c).run.run σ =
      some (.ok (c.temporaries which.ty vs), σ.store target (vs.map some)) := by
    change (StateT.run (ExceptT.run (Eval.need (Lane.values source) >>= fun vs => _)) σ) = _
    rw [ExceptT.run_bind, StateT.run_bind, hneed]
    change (StateT.run (ExceptT.run (c.store target
      (c.machine.assigned .assign which.ty [] which.ty vs) >>= fun _ => _)) σ) = _
    rw [ExceptT.run_bind, StateT.run_bind, hstores]
    show some (Except.ok (c.temporaries which.ty (c.machine.assigned .assign which.ty []
      which.ty vs)), _) = _
    rw [hassigned]
  have hstore := State.store_lanes (σ := σ) (v := .builtin which) (by rintro _ ⟨⟩)
    ((List.length_map some).trans hlength) (σ.read (.builtin which))
  refine ⟨σ.store target (vs.map some), ?_, by rw [hstore], fun v i => ?_⟩
  · show Behaviour.after _ _ σ .normal _
    unfold Behaviour.after
    rw [hrun]
    exact ⟨rfl, rfl⟩
  · -- Past the end of the variable nothing was written.
    rw [hstore]
    show (if v = .builtin which then (vs.map some).getD i (σ.shared v i) else σ.shared v i) = _
    by_cases hv : v = .builtin which
    · by_cases hi : i < which.ty.laneCount
      · simp [hv, hi, vs, hx]
      · simp [hv, hi, vs]
    · simp [hv]
end Stmt

/-! ### Functions -/

namespace Function

variable (c : Checker α) (f : Function) (args : List (Ty × List α))
  (shared : Variable → Nat → Option α)

/-- The state in which a call of a function starts. Arguments are assigned. -/
def checkStart : State (Option α) :=
  { (f.start c.machine args fun _ _ => c.machine.undefined).assigned with shared }

/-- The runs of a function that are checked. -/
def Checks : Behaviour (Option α) := Stmt.listCheck c f.body

open Classical in
/-- The reply to a call. There is none if no run passes. -/
noncomputable def checkReply? : Option (Reply (Option α)) :=
  if h : ∃ run : Outcome (Option α) × State (Option α),
      f.Checks c (f.checkStart c args shared) run.1 run.2 then
    some (.ofRun h.choose.1 h.choose.2)
  else none

variable {c f args shared}

/-- A reply comes from a run. -/
theorem checks_of_checkReply? {reply : Reply (Option α)}
    (h : f.checkReply? c args shared = some reply) :
    ∃ o τ, f.Checks c (f.checkStart c args shared) o τ ∧ reply = .ofRun o τ := by
  unfold checkReply? at h
  split at h
  · next hex => exact ⟨_, _, hex.choose_spec, (Option.some.inj h).symm⟩
  · cases h

variable (c f) in
/-- So has a function. -/
theorem deterministic_checks : Deterministic (f.Checks c) :=
  Stmt.deterministic_listCheck c fun s _ => s.deterministic_check c

/-- The reply to a call is that of its run. -/
theorem checkReply?_of_checks {o : Outcome (Option α)} {τ : State (Option α)}
    (h : f.Checks c (f.checkStart c args shared) o τ) :
    f.checkReply? c args shared = some (.ofRun o τ) := by
  have hex : ∃ run : Outcome (Option α) × State (Option α),
      f.Checks c (f.checkStart c args shared) run.1 run.2 := ⟨(o, τ), h⟩
  obtain ⟨ho, hτ⟩ := f.deterministic_checks c h hex.choose_spec
  rw [checkReply?, dif_pos hex, ho, hτ]

end Function

/-- The machine that knows one more function of the program. -/
noncomputable def Checker.declare (c : Checker α) (f : Function) : Checker α :=
  { c with call := fun name args shared =>
      if f.isCalled args name then f.checkReply? c args shared else c.call name args shared }

/-- A call that is meant for the function that was declared last. -/
theorem Machine.call_declare {m : Machine α} {f : Function} {name : String}
    {args : List (Ty × List α)} (h : f.isCalled args name = true) (shared : Variable → Nat → α) :
    (m.declare f).call name args shared = f.reply? m args shared :=
  if_pos h

/-- Declaring functions changes nothing but what is known of calls. -/
theorem Machine.foldl_declare (m : Machine α) (fs : List Function) :
    ∃ call, fs.foldl Machine.declare m = m.withCalls call := by
  induction fs generalizing m with
  | nil => exact ⟨m.call, rfl⟩
  | cons f fs ih => exact ih (m.declare f)

/-- Declaring functions changes what may be called, and nothing else. -/
theorem Checker.foldl_declare (c : Checker α) (fs : List Function) :
    ∃ call, fs.foldl Checker.declare c = { c with call } := by
  induction fs generalizing c with
  | nil => exact ⟨c.call, rfl⟩
  | cons f fs ih => exact ih (c.declare f)

section

variable {name : String} {args : List (Ty × List α)} {fs : List Function}
  (h : ∀ f ∈ fs, f.isCalled args name = false)

include h

/-- Functions that a call is not meant for make no difference to it. -/
theorem Machine.call_foldl_declare (m : Machine α) :
    (fs.foldl Machine.declare m).call name args = m.call name args := by
  induction fs generalizing m with
  | nil => rfl
  | cons f fs ih =>
    obtain ⟨hf, hfs⟩ := List.forall_mem_cons.mp h
    refine (ih hfs (m.declare f)).trans (funext fun shared => ?_)
    exact if_neg (by simp [hf])

/-- A call of none of the functions is answered as before. -/
theorem Checker.call_foldl_declare (c : Checker α) :
    (fs.foldl Checker.declare c).call name args = c.call name args := by
  induction fs generalizing c with
  | nil => rfl
  | cons f fs ih =>
    obtain ⟨hf, hfs⟩ := List.forall_mem_cons.mp h
    refine (ih hfs (c.declare f)).trans (funext fun shared => ?_)
    exact if_neg (by simp [hf])

end

namespace Program

/-- The machine that knows the functions of a program. -/
noncomputable def known (m : Machine α) (p : Program) : Machine α :=
  p.functions.foldl Machine.declare m

/-- The same for runs that are checked. -/
noncomputable def checked (c : Checker α) (p : Program) : Checker α :=
  p.functions.foldl Checker.declare c

/-- It is what loading the program comes to know. -/
theorem known_of_load {m known : Machine α} {p : Program} {shared : Variable → Nat → α}
    {σ : State α} (h : p.load m shared = some (.ok known, σ)) : known = p.known m := by
  obtain ⟨stage, elements⟩ := p
  change (elements.foldlM Element.load m).run.run ⟨shared, fun _ => none, []⟩ = _ at h
  show known = (elements.filterMap Element.function?).foldl Machine.declare m
  generalize (⟨shared, fun _ => none, []⟩ : State α) = τ at h
  induction elements generalizing m τ with
  | nil =>
    cases h
    rfl
  | cons el elements ih =>
    -- A function is added to what is known, and a layout adds nothing.
    rw [List.foldlM_cons, ExceptT.run_bind, StateT.run_bind] at h
    cases el with
    | function f => exact ih τ h
    | layout l => exact ih τ h
    | global d =>
      -- An initial value changes what is shared, and not what is known.
      change (StateT.run (ExceptT.run (d.load m >>= fun _ => pure m)) τ >>= _) = _ at h
      rw [ExceptT.run_bind, StateT.run_bind] at h
      cases hload : (d.load m).run.run τ with
      | none =>
        rw [hload] at h
        cases h
      | some end_ =>
        -- A load that discards the fragment never gives a machine, so it did not.
        obtain ⟨_ | _, ρ⟩ := end_
        · rw [hload] at h
          cases h
        · rw [hload] at h
          exact ih ρ h

end Program

end ShaderGen
