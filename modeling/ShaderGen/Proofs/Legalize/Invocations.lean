import Mathlib.Algebra.Group.Nat.Defs
import ShaderGen.Proofs.Legalize.InvocationLoop
import ShaderGen.Proofs.Semantics.StmtCompletion

/-!
# What a loop of invocations emits

Every invocation of a program sees its own number, the inputs and uniforms that all of them see, and
no outputs. The looped program calls the former entry function once for each, with the number in the
counter, and ends a primitive after each call. As an invocation assigns outputs before it uses them
and writes nothing else, it does not notice what those before it left behind, and does in the loop
what it does alone. So the loop emits what the invocations emit, in the order of their numbers.

## Main definitions

- `assigning`, `given`: runs of invocations that are checked, and what they may use
- `alone`, `counted`: runs of the original and of the looped program that complete them
- `AtHead`: the invariant of the loop

## Key results

- `turn_step`, `forever_turn`: one turn of the loop, and all that are left
- `call_looped`: what a call in the loop does
- `legalize_emits_invocations`: what the looped program emits
-/

namespace ShaderGen.Legalize.Invocations

open Behaviour Stmt List

variable {α : Type}

/-! ### Invocations -/

/-- Runs that write outputs only, assign them before they use them, and emit no vertex before all
    of its outputs are assigned. -/
def assigning (m : Machine α) (p : Program) : Checker α where
  machine := m
  mayWrite v := 0 < outputWidth p v
  vertex cell := cell.lane < outputWidth p cell.owner
  lost _ := false
  call _ _ _ := none

/-- What an invocation of some number sees. -/
def numbered (m : Machine α) (shared : Variable → Nat → α) (k : Nat) : Variable → Nat → α :=
  fun v i => if v = .builtin .invocationId then m.literal (.int k) else shared v i

/-- Whether a component has a value when an invocation starts. Outputs have none, and nor has the
    counter, which the program does not know. The number of the invocation is a scalar. -/
def isGiven (p : Program) (cell : Cell) : Bool :=
  if cell.owner = .builtin .invocationId then cell.lane = 0
  else outputWidth p cell.owner = 0 && cell.owner ≠ .named counterName

/-- What an invocation of some number may use. -/
def given (m : Machine α) (p : Program) (shared : Variable → Nat → α) (k : Nat) :
    Variable → Nat → Option α :=
  fun v i => if isGiven p ⟨v, i⟩ then some (numbered m shared k v i) else none

/-- A vertex shows the outputs that another has. -/
def ShowsOutputs (p : Program) (shared : Variable → Nat → Option α)
    (shared' : Variable → Nat → α) : Prop :=
  ∀ v i, i < outputWidth p v → shared v i = some (shared' v i)

/-- Runs of the original program. -/
def alone (p : Program) : Completion α where
  place := .builtin
  Shows := ShowsOutputs p
  Invariant _ := True

/-- Runs that keep the number of the invocation in the counter. Nothing but outputs changes. -/
def counted (p : Program) (start : Variable → Nat → Option α) : Completion α where
  place
    | .invocationId => .named counterName
    | which => .builtin which
  Shows := ShowsOutputs p
  Invariant shared := ∀ v, outputWidth p v = 0 → shared v = start v

/-- A vertex shows the outputs if all of them are assigned and kept in their places. -/
theorem shows_outputs {p : Program} {k : Completion α} (hshows : k.Shows = ShowsOutputs p)
    (hhome : ∀ v, 0 < outputWidth p v → k.home v = v) {shared : Variable → Nat → Option α}
    {shared' : Variable → Nat → α} (h : k.Shared shared shared')
    (hassigned : ∀ cell : Cell, (cell.lane < outputWidth p cell.owner : Bool) = true →
      (shared cell.owner cell.lane).isSome) : k.Shows shared shared' := by
  rw [hshows]
  intro v i hi
  obtain ⟨x, hx⟩ := Option.isSome_iff_exists.mp (hassigned ⟨v, i⟩ (decide_eq_true hi))
  have hagrees := h.agrees v i x hx
  rw [hhome v (Nat.zero_lt_of_lt hi)] at hagrees
  rw [hx, hagrees]

section

variable {m : Machine α} {p : Program} {start : Variable → Nat → Option α}
  (hcounter : outputWidth p (.named counterName) = 0)

/-- Only the number of the invocation has moved to the counter. -/
theorem home_counted_of_ne {v : Variable} (h : v ≠ .builtin .invocationId) :
    (counted p start).home v = v := by
  cases v with
  | named name => rfl
  | builtin which =>
    cases which with
    | invocationId => exact absurd rfl h
    | _ => rfl

/-- What the program writes to its outputs is where it was. -/
theorem home_counted_of_output {v : Variable} (h : 0 < outputWidth p v) :
    (counted p start).home v = v := by
  refine home_counted_of_ne ?_
  rintro rfl
  exact absurd h (Nat.lt_irrefl 0)

include hcounter

/-- What the program writes is never kept in the counter, so its writes keep the correspondence. -/
theorem keeps_counted (call) :
    ({ assigning m p with call } : Checker α).Keeps (counted p start) where
  home v w hv h := by
    have hwidth : 0 < outputWidth p v := of_decide_eq_true hv
    rw [home_counted_of_output hwidth] at h
    by_cases hw : w = .builtin .invocationId
    · subst hw
      obtain rfl : .named counterName = v := h
      omega
    · rwa [home_counted_of_ne hw] at h
  write {σ cell} x hcell h v hv := by
    -- The counter is no output, so the cell written is another one.
    have hne : v ≠ cell.owner := by
      rintro rfl
      have hwidth : 0 < outputWidth p cell.owner := of_decide_eq_true hcell
      omega
    rw [← h v hv]
    exact funext fun i => if_neg fun heq => hne heq.1
  lose h := h

end

/-! ### Rewritten functions -/

/-- Whether a node reads the number of the invocation as something else than an integer. -/
def mistypesId : Expr → Bool
  | .builtin ty .invocationId => ty != .int
  | _ => false

/-- What a program has to keep free, and how it reads the number of the invocation. -/
def reserved : Demand where
  names := (· ≠ counterName)
  exprs e := e.any mistypesId = false

section

variable {m m' : Machine α} {p : Program} {start : Variable → Nat → Option α} {call}

/-- Every node but a built-in variable is left as it is. -/
theorem readCounter_withChildren {e : Expr} (h : ∀ ty which, e ≠ .builtin ty which)
    (cs : List Expr) : readCounter (e.withChildren cs) = e.withChildren cs := by
  unfold Expr.withChildren
  split
  case h_9 =>
    cases e with
    | builtin ty which => exact absurd rfl (h ty which)
    | _ => rfl
  all_goals rfl

/-- The counter is read where the number of the invocation was. -/
theorem readCounter_completes
    (hc : ({ assigning m p with call } : Checker α).Keeps (counted p start))
    (hm : ({ assigning m p with call } : Checker α).Covers (counted p start) m') (e : Expr)
    (he : e.any mistypesId = false) :
    e.Completes (counted p start) { assigning m p with call } m' (e.bottomUp readCounter) := by
  refine Expr.bottomUp_related (R := fun e e' => e.any mistypesId = false →
    e.Completes (counted p start) { assigning m p with call } m' e') (fun e cs hcs he => ?_) e he
  obtain ⟨hnode, hchildren⟩ := Expr.any_eq_false_iff.mp he
  -- Only the number of the invocation is read elsewhere; all other nodes are congruences.
  by_cases hbuiltin : ∃ ty which, e = .builtin ty which
  · obtain ⟨ty, which, rfl⟩ := hbuiltin
    cases hcs
    cases which with
    | invocationId =>
      obtain rfl : ty = .int := by simpa [mistypesId] using hnode
      exact Expr.completes_placed rfl .int
    | _ => exact Expr.completes_builtin rfl ty
  · have hne (ty : Ty) (which : Builtin) (h : e = .builtin ty which) : False :=
      hbuiltin ⟨ty, which, h⟩
    rw [readCounter_withChildren hne]
    refine Expr.completes_withChildren hc hm ?_ hne
    exact ((forall₂_and_left _ _).mpr ⟨hchildren, hcs⟩).imp fun _ _ h => h.2 h.1

/-- Both runs emit a vertex with what has been written to the outputs. -/
theorem emitVertex_completes_counted
    (hc : ({ assigning m p with call } : Checker α).Keeps (counted p start)) :
    Stmt.emitVertex.Completes (counted p start) { assigning m p with call } m' [.emitVertex] :=
  .emitVertex hc fun _ _ h hassigned =>
    shows_outputs rfl (fun _ => home_counted_of_output) h hassigned

/-- A function that reads the counter can stand for one that reads the number of the invocation. -/
theorem counting_completes (hcounter : outputWidth p (.named counterName) = 0) {f : Function}
    (hf : f.Meets reserved) : f.Completes (counted p start) (assigning m p) (counting f) := by
  -- Only the counter is not free, and no parameter has its name.
  have hfree {name : String} (h : name ≠ counterName) : (counted p start).Free name := by
    rintro ⟨⟩ heq <;> cases heq
    exact h rfl
  refine ⟨rfl, rfl, fun x hx => hfree (hf.params x hx), fun call m' hm => .mapExprs fun s hs => ?_⟩
  have hc : ({ assigning m p with call } : Checker α).Keeps (counted p start) :=
    keeps_counted hcounter call
  have hfits := (Demand.body_iff_of_prologue_eq_nil rfl).mp hf.body s hs
  exact s.completes_mapExprs hm (readCounter_completes hc hm) (emitVertex_completes_counted hc)
    (hfits.mono (fun _ => hfree) fun _ => id)

/-- A function can stand for itself where the number of the invocation is kept in its place. -/
theorem self_completes (f : Function) : f.Completes (alone p) (assigning m p) f :=
  f.completes_self (fun _ => rfl) (fun _ => trivial) fun _ _ h hassigned =>
    shows_outputs rfl (fun v _ => Completion.home_of_place (fun _ => rfl) v) h hassigned

end

/-! ### What is emitted -/

/-- A vertex with its outputs, or the end of a primitive. -/
inductive Emission (α : Type) where
  | vertex (outputs : Variable → Nat → Option α)
  | endPrimitive

/-- What an action emits. Only the components of outputs belong to a vertex. -/
def emission? (p : Program) : Action α → Option (Emission α)
  | .emitVertex shared =>
    some (.vertex fun v i => if i < outputWidth p v then some (shared v i) else none)
  | .endPrimitive => some .endPrimitive
  | _ => none

/-- The vertices and ends of primitives that are emitted, in order. -/
def emitted (p : Program) (actions : List (Action α)) : List (Emission α) :=
  actions.filterMap (emission? p)

/-- What two runs emit in a row is emitted by the first and then by the second. -/
theorem emitted_append (p : Program) (as bs : List (Action α)) :
    emitted p (as ++ bs) = emitted p as ++ emitted p bs :=
  List.filterMap_append

/-- Emissions are all that counts of what a run did. -/
theorem emitted_emissions (p : Program) (actions : List (Action α)) :
    emitted p (emissions actions) = emitted p actions := by
  unfold emitted emissions
  rw [List.filterMap_filter]
  refine List.filterMap_congr fun a _ => ?_
  cases a <;> rfl

section

variable {p : Program} {k k' : Completion α} (hk : k.Shows = ShowsOutputs p)
  (hk' : k'.Shows = ShowsOutputs p)

include hk hk'

/-- Two runs that emit what one checked run emits, emit the same. -/
theorem emission?_eq {a : Action (Option α)} {b c : Action α} (hb : k.Emitted a b)
    (hc : k'.Emitted a c) : emission? p b = emission? p c := by
  cases hb with
  | primitive =>
    cases hc
    rfl
  -- A vertex is the same if its outputs are, and only their lanes are looked at.
  | vertex hb =>
    obtain hc | _ := hc
    rw [hk] at hb
    rw [hk'] at hc
    refine congrArg (fun outputs => some (Emission.vertex outputs)) (funext fun v => ?_)
    funext i
    split
    · next hi => rw [← hb v i hi, hc v i hi]
    · rfl

/-- Runs that show the same outputs emit the same. -/
theorem emitted_eq {actions : List (Action (Option α))} {bs cs : List (Action α)}
    (hb : Forall₂ k.Emitted actions (emissions bs))
    (hc : Forall₂ k'.Emitted actions (emissions cs)) : emitted p bs = emitted p cs := by
  rw [← emitted_emissions, ← emitted_emissions p cs]
  -- Both lists are compared with the same actions, one emission after another.
  generalize emissions bs = bs, emissions cs = cs at hb hc
  induction hb generalizing cs with
  | nil =>
    cases hc
    rfl
  | cons hfirst _ ih =>
    obtain _ | ⟨hfirst', hrest'⟩ := hc
    unfold emitted at ih ⊢
    rw [List.filterMap_cons, List.filterMap_cons, emission?_eq hk hk' hfirst hfirst', ih _ hrest']

end

/-! ### The loop -/

/-- The machine counts the invocations: adding one to a number before the last gives the next, and
    the numbers before the last are the ones less than it. -/
structure CountsTo (m : Machine α) (count : Nat) : Prop where
  next (k : Nat) : k < count →
    m.unary .postIncrement .int [m.literal (.int k)] = [m.literal (.int (k + 1 : Nat))]
  less (k : Nat) : k ≤ count → m.holds (m.binary .lt .int [m.literal (.int k)]
    (.scalar .int .reduced) [m.literal (.int count)]) = decide (k < count)

/-- What stands in the body of the loop. -/
def invocation : Stmt := .block [.expr (.ofUserCall invokeName [] .void), .endPrimitive]

/-- One turn of the loop. -/
def turn (m : Machine α) (count : Nat) : Behaviour α :=
  seq (test m (.ofBinary .lt counter (.int count)))
    (andThen (invocation.behaviour m)
      (after ((Expr.ofUnary .postIncrement counter).eval m) fun _ => skip))

/-- The new entry point sets the counter to zero and loops. -/
theorem runs_runAll (m : Machine α) (count : Nat) : (runAll count).Runs m =
    seq ((Stmt.assign counter (.int 0)).behaviour m) (Forever (turn m count)) := by
  -- The loop by its definition, with empty scopes around it and around its body.
  have hloop : (runAll count).Runs m = inScope [] (seq
      ((Stmt.assign counter (.int 0)).behaviour m)
        (Forever (seq (test m (.ofBinary .lt counter (.int count)))
          (andThen (inScope [] (invocation.behaviour m))
            (after ((Expr.ofUnary .postIncrement counter).eval m) fun _ => skip))))) :=
    listBehaviour_singleton _ _
  rw [hloop, inScope_nil, inScope_nil]
  rfl

/-- What functions share is ready for an invocation in the loop: the counter is at its number, and
    everything else that is given to it is there. -/
def Ready (m : Machine α) (p : Program) (shared : Variable → Nat → α) (k : Nat)
    (shared' : Variable → Nat → α) : Prop :=
  (counted p (given m p shared k)).Shared (given m p shared k) shared'

/-- A call of the former entry function returns, emits what it should, and leaves untouched what was
    ready for it. -/
def Serves (m : Machine α) (p : Program) (shared : Variable → Nat → α) (k : Nat)
    (shown : List (Emission α)) : Prop :=
  ∀ shared', Ready m p shared k shared' → ∃ reply, m.call invokeName [] shared' = some reply ∧
    reply.result.isSome ∧ Ready m p shared k reply.shared ∧ emitted p reply.actions = shown

/-- The counter is at a number, and no local variable hides it. -/
structure CountsAt (m : Machine α) (k : Nat) (σ : State α) : Prop where
  locals : σ.locals = fun _ => none
  counter : σ.shared (.named counterName) 0 = m.literal (.int k)

/-- The state at the head of the loop, before an invocation of some number. -/
structure AtHead (m : Machine α) (p : Program) (shared : Variable → Nat → α) (k : Nat)
    (σ : State α) : Prop where
  locals : σ.locals = fun _ => none
  ready : Ready m p shared k σ.shared

/-- The state after a call of the former entry function, with its primitive ended. -/
def afterCall (σ : State α) (reply : Reply α) : State α :=
  State.act { σ with
    shared := reply.shared
    trace := σ.trace ++ .call invokeName [] :: reply.actions } .endPrimitive

/-- The counter, as something that is written. -/
def counterCell : Cell := ⟨.named counterName, 0⟩

section

variable {m : Machine α} {p : Program} {shared shared' : Variable → Nat → α} {count k : Nat}
  {σ : State α}

/-- All that is given to the program but the number of the invocation is unchanged. -/
theorem Ready.eq (h : Ready m p shared k shared') {v : Variable} {i : Nat}
    (hv : v ≠ .builtin .invocationId) (hgiven : isGiven p ⟨v, i⟩ = true) :
    shared' v i = shared v i := by
  have hnumbered : given m p shared k v i = some (shared v i) := by
    unfold given numbered
    rw [if_pos hgiven, if_neg hv]
  have hagrees := h.agrees v i _ hnumbered
  rwa [home_counted_of_ne hv] at hagrees

/-- Setting the counter makes everything ready for the invocation of that number. -/
theorem ready_setCounter (h : ∀ v i, v ≠ .builtin .invocationId → isGiven p ⟨v, i⟩ = true →
    σ.shared v i = shared v i) (k : Nat) :
    Ready m p shared k (σ.setShared counterCell (m.literal (.int k))).shared := by
  refine ⟨fun v i x hx => ?_, fun _ _ => rfl⟩
  obtain ⟨hgiven, hx⟩ := Option.ite_none_right_eq_some.mp hx
  obtain rfl := Option.some.inj hx
  show (if (counted p _).home v = .named counterName ∧ i = 0 then _ else _) = _
  unfold numbered
  -- The counter has the number, and every other given cell what it had.
  by_cases hv : v = .builtin .invocationId
  · subst hv
    obtain rfl : i = 0 := of_decide_eq_true hgiven
    rw [if_pos ⟨rfl, rfl⟩, if_pos rfl]
  · rw [home_counted_of_ne hv, if_neg hv, if_neg]
    · exact h v i hv hgiven
    · rintro ⟨rfl, -⟩
      simp [isGiven] at hgiven

/-- Outside of the functions the counter is shared, so a write to it is a shared write. -/
theorem write_counterCell (hlocals : σ.locals = fun _ => none) (x : α) :
    σ.write counterCell x = (σ.setShared counterCell x).act (.write counterCell x) := by
  have hnone : ∀ name, counterCell.owner = .named name → σ.locals name = none :=
    fun name _ => congrFun hlocals name
  exact State.write_shared hnone x

/-- With the counter set, the loop is at the head of the invocation of that number. -/
theorem AtHead.setCounter (hlocals : σ.locals = fun _ => none)
    (h : ∀ v i, v ≠ .builtin .invocationId → isGiven p ⟨v, i⟩ = true →
      σ.shared v i = shared v i) (k : Nat) :
    AtHead m p shared k (σ.write counterCell (m.literal (.int k))) := by
  rw [write_counterCell hlocals]
  exact ⟨hlocals, ready_setCounter h k⟩

/-- At the head of an invocation the counter has its number. -/
theorem AtHead.countsAt (h : AtHead m p shared k σ) : CountsAt m k σ :=
  ⟨h.locals, h.ready.agrees (.builtin .invocationId) 0 _ rfl⟩

/-- This is what reading the counter finds. -/
theorem CountsAt.read_eq (h : CountsAt m k σ) :
    σ.read (.named counterName) 0 = m.literal (.int k) := by
  have hread : σ.read (.named counterName) = σ.shared (.named counterName) := by
    show (σ.locals counterName).getD _ = _
    rw [h.locals]
    rfl
  rw [hread]
  exact h.counter

/-- The condition of the loop holds as long as an invocation is left. -/
theorem test_iff (hm : CountsTo m count) (hσ : CountsAt m k σ) (hk : k ≤ count)
    (o : Outcome α) (τ : State α) :
    test m (.ofBinary .lt counter (.int count)) σ o τ ↔
      o = (if k < count then .normal else .breakOut) ∧ τ = σ := by
  have hrun : ((Expr.ofBinary .lt counter (.int count)).values m).run.run σ =
      some (.ok (Lane.values (m.temporaries .bool (m.binary .lt .int
        [σ.read (.named counterName) 0] (.scalar .int .reduced) [m.literal (.int count)]))), σ) :=
    rfl
  have hholds (vs : List α) : m.holds (Lane.values (m.temporaries .bool vs)) = m.holds vs := by
    cases vs <;> rfl
  -- The comparison has no effects, so the test is the machine's own comparison.
  unfold Behaviour.test Behaviour.branch Behaviour.after
  rw [hrun, hσ.read_eq]
  dsimp only
  rw [hholds, hm.less k hk]
  by_cases hlt : k < count
  · simp [hlt, skip, exit]
  · simp [hlt, exit]

/-- The body of the loop calls the former entry function and ends its primitive. -/
theorem behaviour_invocation {reply : Reply α}
    (hreply : m.call invokeName [] σ.shared = some reply) (hresult : reply.result.isSome) :
    invocation.behaviour m σ .normal (afterCall σ reply) := by
  obtain ⟨vs, hvs⟩ := Option.isSome_iff_exists.mp hresult
  let called : State α :=
    { σ with shared := reply.shared, trace := σ.trace ++ .call invokeName [] :: reply.actions }
  -- A call that returns gives its result, the new shared state and the actions after it.
  have hinvoke : (Eval.call m invokeName []).run.run σ = some (.ok vs, called) := by
    show (m.call invokeName [] σ.shared).map _ = _
    rw [hreply, Option.map_some, hvs]
    rfl
  have hcall : ((Expr.ofUserCall invokeName [] .void).eval m).run.run σ =
      some (.ok (m.temporaries .void vs), called) := by
    change (StateT.run (ExceptT.run (m.temporaries .void <$> Eval.call m invokeName [])) σ) = _
    rw [← bind_pure_comp, ExceptT.run_bind, StateT.run_bind, hinvoke]
    rfl
  have hexpr : (Stmt.expr (.ofUserCall invokeName [] .void)).behaviour m σ .normal called := by
    show Behaviour.after _ _ σ .normal called
    unfold Behaviour.after
    rw [hcall]
    exact ⟨rfl, rfl⟩
  -- The primitive is ended after the call, and nothing is declared in the block.
  rw [invocation, Stmt.behaviour, show listDeclared [_, _] = [] from rfl, inScope_nil]
  exact .inl ⟨called, hexpr, .inl ⟨afterCall σ reply, ⟨rfl, rfl⟩, rfl, rfl⟩⟩

/-- The step of the loop counts the invocation. -/
theorem run_increment (hm : CountsTo m count) (hσ : CountsAt m k σ) (hk : k < count) :
    ((Expr.ofUnary .postIncrement counter).eval m).run.run σ =
      some (.ok (m.temporaries .int [m.literal (.int k)]),
        σ.write counterCell (m.literal (.int (k + 1 : Nat)))) := by
  have hrun : ((Expr.ofUnary .postIncrement counter).eval m).run.run σ =
      some (.ok (m.temporaries .int [σ.read (.named counterName) 0]),
        σ.store [⟨σ.read (.named counterName) 0, some counterCell⟩]
          (m.unary .postIncrement .int [σ.read (.named counterName) 0])) := rfl
  rw [hrun, hσ.read_eq, hm.next k hk]
  rfl

/-- A turn of the loop in which the call returns and leaves the counter alone. -/
theorem turn_of_call (hm : CountsTo m count) (hσ : CountsAt m k σ) (hk : k < count)
    {reply : Reply α} (hreply : m.call invokeName [] σ.shared = some reply)
    (hresult : reply.result.isSome)
    (hcounter : reply.shared (.named counterName) 0 = m.literal (.int k)) :
    turn m count σ .normal
      ((afterCall σ reply).write counterCell (m.literal (.int (k + 1 : Nat)))) := by
  have hended : CountsAt m k (afterCall σ reply) := ⟨hσ.locals, hcounter⟩
  refine .inl ⟨σ, (test_iff hm hσ (Nat.le_of_lt hk) _ _).mpr ⟨(if_pos hk).symm, rfl⟩, ?_⟩
  refine .inl ⟨.normal, _, behaviour_invocation hreply hresult, rfl, ?_⟩
  unfold Behaviour.after
  rw [run_increment hm hended hk]
  exact ⟨rfl, rfl⟩

/-- One turn of the loop runs one invocation and ends its primitive. Then the loop is at its head
    again, with the next number. -/
theorem turn_step (hm : CountsTo m count) (hσ : AtHead m p shared k σ) (hk : k < count)
    {shown : List (Emission α)} (hserves : Serves m p shared k shown) :
    ∃ τ, turn m count σ .normal τ ∧ AtHead m p shared (k + 1) τ ∧
      emitted p τ.trace = emitted p σ.trace ++ (shown ++ [.endPrimitive]) := by
  obtain ⟨reply, hreply, hresult, hready, rfl⟩ := hserves σ.shared hσ.ready
  have hended : AtHead m p shared k (afterCall σ reply) := ⟨hσ.locals, hready⟩
  refine ⟨_, turn_of_call hm hσ.countsAt hk hreply hresult hended.countsAt.counter,
    .setCounter hended.locals (fun v i => hready.eq) (k + 1), ?_⟩
  -- The call is no emission.
  have hcall (actions : List (Action α)) :
      emitted p (.call invokeName [] :: actions) = emitted p actions := rfl
  rw [write_counterCell hended.locals]
  show emitted p (((σ.trace ++ .call invokeName [] :: reply.actions) ++ [.endPrimitive]) ++
    [.write counterCell _]) = _
  rw [emitted_append, emitted_append, emitted_append, hcall]
  exact (List.append_nil _).trans (List.append_assoc ..)

/-- From its head on, the loop runs the invocations that are left. -/
theorem forever_turn (hm : CountsTo m count) {shown : Nat → List (Emission α)}
    (hserves : ∀ k < count, Serves m p shared k (shown k)) (hk : k ≤ count)
    (hσ : AtHead m p shared k σ) :
    ∃ τ, Forever (turn m count) σ .normal τ ∧ emitted p τ.trace = emitted p σ.trace ++
      (List.range' k (count - k)).flatMap fun k => shown k ++ [.endPrimitive] := by
  -- By induction on the number of invocations that are left.
  induction hleft : count - k generalizing k σ with
  | zero =>
    obtain rfl : k = count := by omega
    have hleave : turn m k σ .breakOut σ :=
      .inr ⟨nofun, (test_iff hm hσ.countsAt hk _ _).mpr ⟨(if_neg (Nat.lt_irrefl k)).symm, rfl⟩⟩
    exact ⟨σ, .leave hleave rfl rfl, by simp⟩
  | succ left ih =>
    have hlt : k < count := by omega
    obtain ⟨ρ, hturn, hρ, htrace⟩ := turn_step hm hσ hlt (hserves k hlt)
    obtain ⟨τ, hloop, hrest⟩ := ih hlt hρ (by omega)
    refine ⟨τ, .again hturn rfl hloop, ?_⟩
    rw [hrest, htrace, List.range'_succ, List.flatMap_cons, List.append_assoc]

/-- The new entry function runs all invocations one after the other. -/
theorem reply?_runAll (hm : CountsTo m count) {shown : Nat → List (Emission α)}
    (hserves : ∀ k < count, Serves m p shared k (shown k)) :
    ∃ reply, (runAll count).reply? m [] shared = some reply ∧ reply.result = some [] ∧
      emitted p reply.actions =
        (List.range count).flatMap fun k => shown k ++ [.endPrimitive] := by
  let start : State α := ⟨shared, fun _ => none, []⟩
  let first := start.write counterCell (m.literal (.int (0 : Nat)))
  -- The initializer of the loop sets the counter to zero.
  have hfirst : AtHead m p shared 0 first := .setCounter (σ := start) rfl (fun _ _ _ _ => rfl) 0
  obtain ⟨τ, hloop, htrace⟩ := forever_turn hm hserves (Nat.zero_le count) hfirst
  have hinit : (Stmt.assign counter (.int 0)).behaviour m start .normal first := ⟨rfl, rfl⟩
  have hrun : (runAll count).Runs m ((runAll count).start m [] shared) .normal τ := by
    rw [runs_runAll]
    exact .inl ⟨first, hinit, hloop⟩
  refine ⟨_, Function.reply?_of_runs hrun, rfl, htrace.trans ?_⟩
  rw [List.range_eq_range']
  rfl

end

/-! ### Calls of the looped program -/

/-- The function that a program starts at takes no parameters if a run of it is checked. -/
theorem isCalled_main {c : Checker α} {before after : List Function} {main : Function}
    (hcall : ∀ args shared, c.call Function.entryName args shared = none)
    (hbefore : ∀ f ∈ before, f.isEntry = false) (hafter : ∀ f ∈ after, f.isEntry = false)
    {shared : Variable → Nat → Option α} {checked : Reply (Option α)}
    (h : ((before ++ main :: after).foldl Checker.declare c).call Function.entryName [] shared =
      some checked) :
    main.params = [] ∧
      main.checkReply? (before.foldl Checker.declare c) [] shared = some checked := by
  -- No other function has the name of the entry point, so a call of it passes them by.
  have hother {fs : List Function} (hfs : ∀ f ∈ fs, f.isEntry = false) :
      ∀ f ∈ fs, f.isCalled ([] : List (Ty × List α)) Function.entryName = false := by
    intro f hf
    have hname : (Function.entryName == f.name) = false := by
      rw [BEq.comm]
      exact hfs f hf
    rw [Function.isCalled, hname, Bool.false_and]
  rw [List.foldl_append, List.foldl_cons, Checker.call_foldl_declare (hother hafter)] at h
  obtain ⟨hcalled, hreply⟩ | ⟨-, hreply⟩ := ite_eq_iff.mp h
  · refine ⟨?_, hreply⟩
    obtain ⟨-, hparams⟩ := Bool.and_eq_true_iff.mp hcalled
    exact List.map_eq_nil_iff.mp (eq_of_beq hparams).symm
  · rw [Checker.call_foldl_declare (hother hbefore), hcall] at hreply
    cases hreply

/-- The counter is no output. -/
theorem outputWidth_counter {p : Program} (h : p.Meets reserved) :
    outputWidth p (.named counterName) = 0 := by
  -- No element declares an output of the name of the counter.
  have hnone : p.elements.filterMap (outputWidth? counterName) = [] := by
    refine List.filterMap_eq_nil_iff.mpr fun el hel => ?_
    cases el with
    | global d => exact if_neg fun hd => (h _ hel).1 hd.2
    | _ => rfl
  show (p.elements.filterMap _).headD 0 = 0
  rw [hnone]
  rfl

/-- After an invocation, everything but its outputs is as it was. -/
theorem ready_of_completes {m : Machine α} {p : Program} {shared : Variable → Nat → α} {k : Nat}
    {checked : Reply (Option α)} {reply : Reply α}
    (h : checked.Completes (counted p (given m p shared k)) reply) :
    Ready m p shared k reply.shared := by
  refine ⟨fun v i x hx => h.shared.agrees v i x ?_, fun _ _ => rfl⟩
  obtain ⟨hgiven, -⟩ := Option.ite_none_right_eq_some.mp hx
  -- What is given is no output, so it is as it was.
  have hwidth : outputWidth p v = 0 := by
    unfold isGiven at hgiven
    split at hgiven
    · next hv =>
      cases hv
      rfl
    · simp_all
  rw [h.shared.invariant v hwidth]
  exact hx

/-- In the original program, a run of an invocation completes the one that is checked. -/
theorem call_known {m : Machine α} {p : Program} {shared : Variable → Nat → α} {k : Nat}
    {checked : Reply (Option α)} (hchecked : (p.checked (assigning m p)).call Function.entryName []
      (given m p shared k) = some checked) :
    ∃ reply, (p.known m).call Function.entryName [] (numbered m shared k) = some reply ∧
      checked.Completes (alone p) reply := by
  have hcovers : (p.checked (assigning m p)).Covers (alone p) (p.known m) := by
    refine Checker.Covers.declareAll ⟨⟨m.call, rfl⟩, fun _ h => by cases h⟩ ?_
    exact forall₂_same.mpr fun f _ => self_completes f
  refine hcovers.call ⟨fun v i x hx => ?_, trivial⟩ hchecked
  obtain ⟨-, hx⟩ := Option.ite_none_right_eq_some.mp hx
  rw [Completion.home_of_place fun _ => rfl]
  exact Option.some.inj hx

/-- In the looped program, a call of the former entry function completes it as well. -/
theorem call_looped {m : Machine α} {p : Program} {before after : List Function} {main : Function}
    (hbefore : ∀ f ∈ before, f.isEntry = false ∧ f.Meets reserved) (hmain : main.Meets reserved)
    (hafter : ∀ f ∈ after, f.isEntry = false ∧ f.name ≠ invokeName)
    (hcounter : outputWidth p (.named counterName) = 0) {shared : Variable → Nat → α} {k : Nat}
    {checked : Reply (Option α)}
    (hchecked : ((before ++ main :: after).foldl Checker.declare (assigning m p)).call
      Function.entryName [] (given m p shared k) = some checked)
    {shared' : Variable → Nat → α} (hready : Ready m p shared k shared') :
    ∃ reply, ((before.map counting ++ { counting main with name := invokeName } ::
        after.map counting).foldl Machine.declare m).call invokeName [] shared' = some reply ∧
      checked.Completes (counted p (given m p shared k)) reply := by
  -- In the checked program the entry function answers the call by its own name.
  obtain ⟨hparams, hreply⟩ := isCalled_main (fun _ _ => rfl) (fun f hf => (hbefore f hf).1)
    (fun f hf => (hafter f hf).1) hchecked
  -- What is declared before it covers what is declared before the renamed function, so the body of
  -- the one completes the body of the other.
  have hcovers : (before.foldl Checker.declare (assigning m p)).Covers
      (counted p (given m p shared k)) ((before.map counting).foldl Machine.declare m) := by
    refine Checker.Covers.declareAll ⟨⟨m.call, rfl⟩, fun _ h => by cases h⟩ ?_
    rw [forall₂_map_right_iff, forall₂_same]
    exact fun f hf => counting_completes hcounter (hbefore f hf).2
  have hcompletes : main.Completes (counted p (given m p shared k)) (assigning m p)
      (counting main) := counting_completes hcounter hmain
  obtain ⟨call, hcall⟩ := (assigning m p).foldl_declare before
  rw [hcall] at hcovers hreply
  let renamed : Function := { counting main with name := invokeName }
  have hparams' : renamed.params = main.params := rfl
  obtain ⟨reply, hreply', hreplies⟩ := Function.reply?_completes hcovers hparams' hcompletes.free
    (hcompletes.body call _ hcovers) hready hreply
  -- The renamed function is the only one that the loop can call.
  have hother : ∀ f ∈ after.map counting,
      f.isCalled ([] : List (Ty × List α)) invokeName = false := by
    rw [List.forall_mem_map]
    intro f hf
    have hname : (invokeName == f.name) = false :=
      beq_eq_false_iff_ne.mpr fun h => (hafter f hf).2 h.symm
    rw [Function.isCalled, show (counting f).name = f.name from rfl, hname, Bool.false_and]
  have hcalled : renamed.isCalled ([] : List (Ty × List α)) invokeName = true := by
    show (invokeName == invokeName && [] == List.map _ main.params) = true
    rw [hparams]
    rfl
  refine ⟨reply, ?_, hreplies⟩
  rw [List.foldl_append, List.foldl_cons, Machine.call_foldl_declare hother]
  exact (Machine.call_declare hcalled shared').trans hreply'

/-- The former entry function serves the loop with an invocation of each number. -/
theorem serves_looped {p : Program} {before after : List Element} {main : Function}
    (hp : p.elements = before ++ .function main :: after)
    (hothers : ∀ f, .function f ∈ before ++ after → f.isEntry = false)
    (hnames : ∀ f, .function f ∈ p.elements → f.name ≠ invokeName) (hreserved : p.Meets reserved)
    {m : Machine α} {shared : Variable → Nat → α} {k : Nat} {checked : Reply (Option α)}
    (hchecked : (p.checked (assigning m p)).call Function.entryName [] (given m p shared k) =
      some checked) (hreturns : checked.result.isSome) {reply : Reply α}
    (hreply : checked.Completes (alone p) reply) :
    Serves (((before.filterMap Element.function?).map counting ++
      { counting main with name := invokeName } ::
        (after.filterMap Element.function?).map counting).foldl Machine.declare m) p shared k
      (emitted p reply.actions) := by
  intro shared' hready
  -- The functions of the program are those before the entry function, itself, and those after it,
  -- which is how they are declared in the looped program.
  have hfunctions : p.functions = before.filterMap Element.function? ++
      main :: after.filterMap Element.function? := by
    simp [Program.functions, hp, Element.function?]
  obtain ⟨call, hknows⟩ := m.foldl_declare ((before.filterMap Element.function?).map counting ++
    { counting main with name := invokeName } :: (after.filterMap Element.function?).map counting)
  rw [hknows] at hready ⊢
  unfold Program.checked at hchecked
  rw [hfunctions] at hchecked
  have hfirst : ∀ f ∈ before.filterMap Element.function?,
      f.isEntry = false ∧ f.Meets reserved := by
    intro f hf
    have hmem := Element.mem_functions.mp hf
    exact ⟨hothers f (List.mem_append_left _ hmem), hreserved (.function f) (by simp [hp, hmem])⟩
  have hlast : ∀ f ∈ after.filterMap Element.function?,
      f.isEntry = false ∧ f.name ≠ invokeName := by
    intro f hf
    have hmem := Element.mem_functions.mp hf
    exact ⟨hothers f (List.mem_append_right _ hmem), hnames f (by simp [hp, hmem])⟩
  have hmain : main.Meets reserved := hreserved (.function main) (by simp [hp])
  obtain ⟨reply', hreply', hcompletes⟩ :=
    call_looped hfirst hmain hlast (outputWidth_counter hreserved) hchecked hready
  rw [hknows] at hreply'
  refine ⟨reply', hreply', ?_, ready_of_completes hcompletes,
    emitted_eq rfl rfl hcompletes.emitted hreply.emitted⟩
  rwa [hcompletes.result, Option.isSome_map] at hreturns

/-- What the program emits is told by its outputs, which the rewritten program shares. -/
theorem emitted_looped {p : Program} {before after : List Element} {main : Function}
    (hp : p.elements = before ++ .function main :: after) (hmain : main.isEntry = true)
    (hbefore : ∀ f, .function f ∈ before → f.isEntry = false) (actions : List (Action α)) :
    emitted (looped p) actions = emitted p actions := by
  refine List.filterMap_congr fun a _ => ?_
  cases a with
  | emitVertex shared =>
    unfold emission?
    rw [outputWidth_looped hp hmain hbefore]
  | _ => rfl

/-- The invocations of a program in a loop. The program has one entry function, none of its
    functions is called as that one will be, and nothing is declared under the name of the counter.
    What is made of it asks for one invocation, and its output layouts name vertex counts that are
    as many times greater as there were invocations, up to the greatest. Let each invocation of the
    program return, write nothing that functions share but outputs, and assign these before it uses
    them or emits a vertex. Then a run of what is made of it emits what the invocations emit, in the
    order of their numbers, and ends a primitive after each. -/
theorem legalize_emits_invocations (p : Program) {before after : List Element} {main : Function}
    (hp : p.elements = before ++ .function main :: after) (hmain : main.isEntry = true)
    (hothers : ∀ f, .function f ∈ before ++ after → f.isEntry = false)
    (hnames : ∀ f, .function f ∈ p.elements → f.name ≠ invokeName)
    (hreserved : p.Meets reserved) (s : Scratch) :
    ∃ p' s', (legalize p).run.run s = (.ok p', s') ∧
      s'.globals.any (AddedGlobal.declares counterName) = true ∧ p'.declaredInvocations = 1 ∧
      p'.elements.flatMap vertexCounts = (p.elements.flatMap vertexCounts).map
        (fun vertices => min (vertices * p.declaredInvocations) (2 ^ 32 - 1)) ∧
      ∀ m : Machine α, CountsTo m p.declaredInvocations → ∀ shared,
        (∀ k < p.declaredInvocations, ∃ checked,
          (p.checked (assigning m p)).call Function.entryName [] (given m p shared k) =
            some checked ∧ checked.result.isSome) →
        ∃ (reply : Reply α) (replies : Nat → Reply α),
          (p'.known m).call Function.entryName [] shared = some reply ∧ reply.result = some [] ∧
          (∀ k < p.declaredInvocations,
            (p.known m).call Function.entryName [] (numbered m shared k) = some (replies k)) ∧
          emitted p' reply.actions = (List.range p.declaredInvocations).flatMap
            fun k => emitted p (replies k).actions ++ [.endPrimitive] := by
  have hbefore : ∀ f, .function f ∈ before → f.isEntry = false :=
    fun f hf => hothers f (List.mem_append_left _ hf)
  have hentry : p.functions.any Function.isEntry = true := by
    simp [Program.functions, hp, Element.function?, hmain]
  obtain ⟨s', hrun, hdeclared⟩ := run_legalize hentry s
  -- The count and the layouts hold of any run; the rest is about the loop.
  refine ⟨looped p, s', hrun, hdeclared, declaredInvocations_looped hp hmain hbefore,
    vertexCounts_looped hp hmain hbefore, fun m hm shared hchecked => ?_⟩
  choose checked hcall hreturns using hchecked
  choose native hknown hcompletes using fun k hk => call_known (hcall k hk)
  let replies (k : Nat) : Reply α :=
    if h : k < p.declaredInvocations then native k h else ⟨none, shared, []⟩
  have hreplies {k : Nat} (hk : k < p.declaredInvocations) : replies k = native k hk := dif_pos hk
  -- All functions of the looped program but its entry function, which is declared last.
  let functions := (before.filterMap Element.function?).map counting ++
    { counting main with name := invokeName } :: (after.filterMap Element.function?).map counting
  obtain ⟨call, hknows⟩ := m.foldl_declare functions
  have hserves (k : Nat) (hk : k < p.declaredInvocations) :
      Serves (m.withCalls call) p shared k (emitted p (replies k).actions) := by
    rw [← hknows, hreplies hk]
    exact serves_looped hp hothers hnames hreserved (hcall k hk) (hreturns k hk) (hcompletes k hk)
  -- The loop runs all of them, one after the other.
  obtain ⟨reply, hreply, hresult, hemitted⟩ :=
    reply?_runAll (m := m.withCalls call) ⟨hm.next, hm.less⟩ hserves
  refine ⟨reply, replies, ?_, hresult, fun k hk => ?_, ?_⟩
  · -- The new entry function is the last to be declared, so it is the one that is called.
    have hcalled : (runAll p.declaredInvocations).isCalled ([] : List (Ty × List α))
        Function.entryName = true := rfl
    unfold Program.known
    rw [functions_looped hp hmain hbefore, List.foldl_append, hknows]
    exact (Machine.call_declare hcalled shared).trans hreply
  · rw [hreplies hk]
    exact hknown k hk
  · rw [emitted_looped hp hmain hbefore]
    exact hemitted

/-- The integers count to any number. -/
theorem countsTo_integers (count : Nat) : CountsTo Machine.integers count where
  next _ _ := rfl
  less k hk := by
    show ((if (k : Int) < count then (1 : Int) else 0) != 0) = decide (k < count)
    by_cases h : k < count <;> simp [h]

/-- A geometry program that runs twice. Its first invocation returns after one vertex. -/
def returnsEarly : Function :=
  .entry
    [.assign (.ofBuiltin .position) (.ofVar "corner" (.vec 4)), .emitVertex,
     .ifElse (.ofBinary .lt (.ofBuiltin .invocationId) (.int 1)) (.returnWith none) none,
     .emitVertex]

def twoInvocations : Program :=
  ⟨.geometry,
    [.layout ⟨.input, [.points, .invocations 2]⟩, .layout ⟨.output, [.lineStrip, .maxVertices 2]⟩,
     .global (.uninitialized .uniform "corner" (.vec 4)), .function returnsEarly]⟩

/-- Both invocations of the example run to their end, the first one through its early return. -/
theorem checked_twoInvocations (shared : Variable → Nat → Int) (k : Nat) :
    let m := Machine.integers
    let p := twoInvocations
    ∃ checked, (p.checked (assigning m p)).call Function.entryName [] (given m p shared k) =
      some checked ∧ checked.result.isSome := by
  intro m p
  let c := assigning m p
  let start := returnsEarly.checkStart c [] (given m p shared k)
  have hwidth (cell : Cell) (h : c.vertex cell = true) :
      cell.owner = .builtin .position ∧ cell.lane < Builtin.position.ty.laneCount := by
    obtain ⟨owner, lane⟩ := cell
    have hlane : lane < outputWidth p owner := of_decide_eq_true h
    match owner with
    | .builtin .position => exact ⟨rfl, hlane⟩
    | .named _ | .builtin .fragColor | .builtin .fragCoord | .builtin .invocationId
    | .builtin .width | .builtin .height | .builtin (.inPosition _) => cases hlane
  -- The run is followed statement by statement: the position is assigned, one vertex is emitted,
  -- and then the number decides whether to return.
  -- First the position is assigned, so the vertex may be emitted.
  obtain ⟨ρ, hmove, hlocals, hshared⟩ := Stmt.check_assign (c := c) (σ := start)
    .position "corner" rfl rfl fun i => rfl
  have hemit {σ : State (Option Int)} (hσ : σ.shared = ρ.shared) :
      c.emit σ .normal (σ.act (.emitVertex σ.shared)) := by
    refine ⟨fun cell hcell => ?_, rfl, rfl⟩
    rw [hσ, hshared, if_pos (hwidth cell hcell)]
    rfl
  let placed := ρ.act (.emitVertex ρ.shared)
  -- Then the number is read, which the run was given.
  have hnumber : placed.shared (.builtin .invocationId) 0 = some (k : Int) := by
    show ρ.shared (.builtin .invocationId) 0 = _
    rw [hshared]
    rfl
  have hcond : ((Expr.ofBinary .lt (.ofBuiltin .invocationId) (.int 1)).checkValues c).run.run
      placed = some (.ok [if (k : Int) < 1 then 1 else 0], placed) := by
    have hneed : (Eval.need [placed.shared (.builtin .invocationId) 0]).run.run placed =
        some (.ok [(k : Int)], placed) := by
      rw [hnumber]
      rfl
    change (StateT.run (ExceptT.run ((Eval.need [placed.shared (.builtin .invocationId) 0] >>=
      fun vs => _) >>= fun ls => Eval.need (Lane.values ls))) placed) = _
    rw [ExceptT.run_bind, StateT.run_bind, ExceptT.run_bind, StateT.run_bind, hneed]
    rfl
  have hbranch : (Stmt.ifElse (.ofBinary .lt (.ofBuiltin .invocationId) (.int 1))
      (.returnWith none) none).check c placed
        (if k < 1 then .returned none else .normal) placed := by
    show Behaviour.after _ _ placed _ placed
    unfold Behaviour.after
    rw [hcond]
    by_cases hk : k < 1
    · rw [if_pos hk, if_pos (by omega)]
      exact ⟨placed, ⟨rfl, rfl⟩, rfl⟩
    · rw [if_neg hk, if_neg (by omega)]
      exact ⟨rfl, rfl⟩
  -- Only the first invocation returns before the second vertex.
  have hrun : ∃ o τ, returnsEarly.Checks c start o τ ∧ (o = .returned none ∨ o = .normal) := by
    by_cases hk : k < 1
    · rw [if_pos hk] at hbranch
      have hreturn : returnsEarly.Checks c start (.returned none) placed :=
        .inl ⟨ρ, hmove, .inl ⟨placed, hemit rfl, .inr ⟨nofun, hbranch⟩⟩⟩
      exact ⟨_, _, hreturn, .inl rfl⟩
    · rw [if_neg hk] at hbranch
      have hend : returnsEarly.Checks c start .normal (placed.act (.emitVertex placed.shared)) :=
        .inl ⟨ρ, hmove, .inl ⟨placed, hemit rfl,
          .inl ⟨placed, hbranch, .inl ⟨_, hemit rfl, rfl, rfl⟩⟩⟩⟩
      exact ⟨_, _, hend, .inr rfl⟩
  obtain ⟨o, τ, hchecks, ho⟩ := hrun
  refine ⟨_, Function.checkReply?_of_checks hchecks, ?_⟩
  rcases ho with rfl | rfl <;> rfl

/-- The first of two invocations returns early, and the second emits one vertex more. -/
theorem returnsEarly_emits_invocations :
    let p := twoInvocations
    let m := Machine.integers
    returnsEarly.isEntry = true ∧
      (∀ f, .function f ∈ p.elements.take 3 ++ [] → f.isEntry = false) ∧
      (∀ f, .function f ∈ p.elements → f.name ≠ invokeName) ∧ p.Meets reserved ∧
      CountsTo m p.declaredInvocations ∧
      ∀ shared, ∃ p' s', (legalize p).run.run {} = (.ok p', s') ∧
        p'.elements.flatMap vertexCounts = [4] ∧
        ∃ (reply : Reply Int) (replies : Nat → Reply Int),
          (p'.known m).call Function.entryName [] shared = some reply ∧
            reply.result = some [] ∧
            (∀ k < 2, (p.known m).call Function.entryName [] (numbered m shared k) =
              some (replies k)) ∧
            emitted p' reply.actions = emitted p (replies 0).actions ++ [.endPrimitive] ++
              emitted p (replies 1).actions ++ [.endPrimitive] := by
  intro p m
  have hothers : ∀ f, .function f ∈ p.elements.take 3 ++ [] → f.isEntry = false := by
    simp [p, twoInvocations]
  -- No function has the name of the loop.
  have hnames : ∀ f, .function f ∈ p.elements → f.name ≠ invokeName := by
    simp [p, twoInvocations, returnsEarly, Function.entry, Function.entryName, invokeName]
  -- No statement of the entry function mentions a reserved name.
  have hbody : ∀ s ∈ returnsEarly.body, s.Fits reserved.names reserved.exprs := by
    have hemit : Stmt.emitVertex.Fits reserved.names reserved.exprs :=
      fits_iff.mpr (by simp [Stmt.own, Stmt.nested])
    refine List.forall_mem_cons.mpr ⟨fits_expr.mpr rfl, List.forall_mem_cons.mpr ⟨hemit, ?_⟩⟩
    refine List.forall_mem_cons.mpr ⟨?_, List.forall_mem_singleton.mpr hemit⟩
    exact fits_ifElse.mpr ⟨rfl, fits_returnWith.mpr (by rintro _ ⟨⟩), by rintro _ ⟨⟩⟩
  have hreserved : p.Meets reserved := by
    have hcorner : "corner" ≠ counterName := by decide
    refine List.forall_mem_cons.mpr ⟨trivial, List.forall_mem_cons.mpr ⟨trivial, ?_⟩⟩
    refine List.forall_mem_cons.mpr ⟨⟨hcorner, by rintro _ ⟨⟩⟩, List.forall_mem_singleton.mpr ?_⟩
    exact ⟨trivial, List.forall_mem_nil _, .inl hbody⟩
  have hm : CountsTo m p.declaredInvocations := countsTo_integers _
  refine ⟨rfl, hothers, hnames, hreserved, hm, fun shared => ?_⟩
  have hp : p.elements = p.elements.take 3 ++ .function returnsEarly :: [] := rfl
  -- The theorem is applied, and its list of two invocations written out.
  obtain ⟨p', s', hrun, -, -, hvertices, hemits⟩ :=
    legalize_emits_invocations p hp rfl hothers hnames hreserved {}
  obtain ⟨reply, replies, hreply, hresult, hknown, hemitted⟩ :=
    hemits m hm shared fun k _ => checked_twoInvocations shared k
  refine ⟨p', s', hrun, hvertices, reply, replies, hreply, hresult, hknown, ?_⟩
  have hcount : p.declaredInvocations = 2 := rfl
  rw [hcount] at hemitted
  simpa [List.range_succ] using hemitted

end ShaderGen.Legalize.Invocations
