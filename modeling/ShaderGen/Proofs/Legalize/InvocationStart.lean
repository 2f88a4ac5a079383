import ShaderGen.Proofs.Legalize.Invocations
import ShaderGen.Proofs.Semantics.Transition

/-!
# What an invocation starts with

An invocation of a program on its own starts with its number, and with the initial values of the
globals as they come out for that number. In the looped program the globals get their initial values
once, before the loop starts and before the counter is set, and a call of the former entry function
finds them as the calls before it left them. So it starts as on its own where no initial value
depends on the number of the invocation and nothing writes a plain global.

## Main definitions

- `Behaviour.Arrives`: the states before the turns of a loop
- `loopEntry`: the entry function of the looped program
- `Starts`: the state in which an invocation starts in a run of the looped program
- `holds`: the variables that an invocation must find as they were at first

## Key results

- `legalize_starts_invocations_alike`: what an invocation starts with in the loop and on its own
- `number_is_read_too_early`: an initial value that reads the number of the invocation
-/

namespace ShaderGen

open Behaviour

variable {α β γ : Type}

/-- The states before the turns of a loop that is entered in a state. -/
inductive Behaviour.Arrives (turn : Behaviour α) (σ : State α) : Nat → State α → Prop
  | enter : Arrives turn σ 0 σ
  | again {k : Nat} {ρ τ : State α} {o : Outcome α} (h : Arrives turn σ k ρ) (hturn : turn ρ o τ)
      (ho : o.goesOn = true) : Arrives turn σ (k + 1) τ

namespace Legalize.Invocations

/-- The entry function of the looped program, which calls the former one for one invocation after
    another. -/
def loopEntry (count : Nat) : Function :=
  .entry
    [.forLoop (some (.assign counter (.int 0))) (some (.ofBinary .lt counter (.int count)))
      (some (.ofUnary .postIncrement counter)) invocation]

/-- In a run of a program that ends with the loop of invocations, the former entry function is
    called for an invocation of some number. -/
def Starts (m : Machine α) (p : Program) (shared : Variable → Nat → α) (count k : Nat)
    (start : State α) : Prop :=
  ∃ els known σ first head, p.elements = els ++ [.function (loopEntry count)] ∧
    (els.foldlM Element.load m).run.run ⟨shared, fun _ => none, []⟩ = some (.ok known, σ) ∧
    (Stmt.assign counter (.int 0)).behaviour known ⟨σ.shared, fun _ => none, []⟩ .normal first ∧
    Arrives (turn known count) first k head ∧
    test known (.ofBinary .lt counter (.int count)) head .normal start

/-! ### Initial values -/

/-- Whether a node depends on the number of the invocation, or calls a function that may. -/
def dependsOnNumber : Expr → Bool
  | .builtin _ .invocationId | .call _ (.user _) _ => true
  | _ => false

/-- The states differ in the number of the invocation only, and in what was done before. -/
structure SameButNumber (σ σ' : State α) : Prop where
  shared : ∀ v, v ≠ .builtin .invocationId → σ'.shared v = σ.shared v
  locals : σ'.locals = σ.locals

namespace SameButNumber

variable {σ σ' : State α}

/-- A write on both sides keeps them alike. -/
theorem write (h : SameButNumber σ σ') (cell : Cell) (value : α) :
    SameButNumber (σ.write cell value) (σ'.write cell value) := by
  have hset : SameButNumber (σ.setShared cell value) (σ'.setShared cell value) := by
    refine ⟨fun v hv => funext fun i => ?_, h.locals⟩
    show (if _ then value else σ'.shared v i) = if _ then value else σ.shared v i
    rw [h.shared v hv]
  unfold State.write
  rw [h.locals]
  -- The write goes to a local if there is one of the name, and to the shared variables otherwise.
  split
  · split
    · exact ⟨h.shared, congrArg (fun locals x => if x = _ then some _ else locals x) h.locals⟩
    · exact ⟨hset.shared, hset.locals⟩
  · exact ⟨hset.shared, hset.locals⟩

/-- So does a store to lanes. -/
theorem store (h : SameButNumber σ σ') (ls : List (Lane α)) (vs : List α) :
    SameButNumber (σ.store ls vs) (σ'.store ls vs) := by
  induction ls generalizing vs σ σ' with
  | nil => cases vs <;> exact h
  | cons l ls ih =>
    -- A lane without a cell is not written.
    obtain ⟨value, _ | cell⟩ := l
    · cases vs with
      | nil => exact h
      | cons v vs => exact ih h vs
    · cases vs with
      | nil => exact h
      | cons v vs => exact ih (h.write cell v) vs

end SameButNumber

/-- Computations with one result that do not see the number of the invocation. -/
abbrev Ignores (x y : Eval α β) : Prop := Continues SameButNumber Eq x y

namespace Ignores

variable {x y : Eval α β}

/-- A value alone reads nothing. -/
theorem pure (b : β) : Ignores (Pure.pure b : Eval α β) (Pure.pure b) :=
  Eval.Relates.pure fun _ _ h => ⟨rfl, h⟩

/-- Parts that ignore the number ignore it together. -/
theorem bind {f g : β → Eval α γ} (h : Ignores x y) (hf : ∀ b, Ignores (f b) (g b)) :
    Ignores (x >>= f) (y >>= g) := by
  refine Eval.Relates.bind h fun b c => .assume ?_
  rintro rfl
  exact hf b

/-- A function of the value ignores it, too. -/
theorem map (f : β → γ) (h : Ignores x y) : Ignores (f <$> x) (f <$> y) := by
  rw [← bind_pure_comp, ← bind_pure_comp]
  exact h.bind fun b => pure (f b)

/-- Any other variable is read without regard to the number. -/
theorem load {v : Variable} (hv : v ≠ .builtin .invocationId) (ty : Ty) :
    Ignores (Eval.load v ty : Eval α _) (Eval.load v ty) := by
  intro σ σ' h
  refine .some (.ok ⟨?_, h⟩)
  have hread : σ'.read v = σ.read v := by
    cases v with
    | named name => exact congrArg₂ Option.getD (congrFun h.locals name) (h.shared _ nofun)
    | builtin which => exact h.shared _ hv
  exact congrArg (v.lanes ty) hread.symm

/-- A store goes to the same lanes on both sides. -/
theorem store (ls : List (Lane α)) (vs : List α) :
    Ignores (Eval.store ls vs) (Eval.store ls vs) :=
  Eval.Relates.modify fun _ _ h => ⟨rfl, h.store ls vs⟩

section

variable {m : Machine α} {call call' : String → List (Ty × List α) → (Variable → Nat → α) →
  Option (Reply α)}

/-- Arguments ignore the number if each does. -/
theorem evalArgs {es : List Expr}
    (h : ∀ e ∈ es, Ignores (e.eval (m.withCalls call)) (e.eval (m.withCalls call'))) :
    Ignores (Expr.evalArgs (m.withCalls call) es) (Expr.evalArgs (m.withCalls call') es) := by
  induction es with
  | nil => exact pure []
  | cons e es ih =>
    have hrest := ih fun e' he' => h e' (List.mem_cons_of_mem e he')
    exact ((h e List.mem_cons_self).map _).bind fun _ => hrest.bind fun _ => pure _

/-- An expression that does not depend on the number of the invocation does not see it, whatever
    functions the machines know. -/
theorem eval (e : Expr) : e.any dependsOnNumber = false →
    Ignores (e.eval (m.withCalls call)) (e.eval (m.withCalls call')) := by
  -- Only the number itself and a call of a user function depend on the number, and both are
  -- excluded. Every other node passes on what its children compute.
  induction e using Expr.induction_children with
  | h e ih =>
    intro he
    obtain ⟨hnode, hchildren⟩ := Expr.any_eq_false_iff.mp he
    have hchild {c : Expr} (hc : c ∈ e.children) := ih c hc (hchildren c hc)
    have hvalues {c : Expr} (hc : c ∈ e.children) := (hchild hc).map Lane.values
    cases e with
    | literal ty value => exact pure _
    | var ty name => exact load (v := .named name) nofun ty
    | builtin ty which =>
      refine load ?_ ty
      rintro ⟨⟩
      cases hnode
    | unary ty op operand =>
      have hoperand : operand ∈ (Expr.unary ty op operand).children := List.mem_cons_self
      unfold Expr.eval
      split
      · exact (hchild hoperand).bind fun _ => (store _ _).bind fun _ => pure _
      · exact (hvalues hoperand).bind fun _ => pure _
    | binary ty op left right =>
      have hleft : left ∈ (Expr.binary ty op left right).children := List.mem_cons_self
      have hright : right ∈ (Expr.binary ty op left right).children := by simp [Expr.children]
      unfold Expr.eval
      split
      · exact (hchild hleft).bind fun _ => (hvalues hright).bind fun _ =>
          (store _ _).bind fun _ => pure _
      · refine (hvalues hleft).bind fun ls => ?_
        -- Whether the right operand is evaluated is decided by the value of the left one, which is
        -- the same in both runs.
        have hholds : ∀ call, (m.withCalls call).holds ls = m.holds ls := fun _ => rfl
        rw [hholds, hholds]
        cases op.decided? (m.holds ls) with
        | some b => exact pure _
        | none => exact (hvalues hright).bind fun _ => pure _
    | ternary ty cond ifTrue ifFalse =>
      have htrue : ifTrue ∈ (Expr.ternary ty cond ifTrue ifFalse).children := by
        simp [Expr.children]
      have hfalse : ifFalse ∈ (Expr.ternary ty cond ifTrue ifFalse).children := by
        simp [Expr.children]
      unfold Expr.eval
      refine (hvalues List.mem_cons_self).bind fun vs => ?_
      show Ignores (if m.holds vs then _ else _) (if m.holds vs then _ else _)
      split
      · exact (hchild htrue).map _
      · exact (hchild hfalse).map _
    | call ty callee args =>
      cases callee with
      | intrinsic function => exact (evalArgs fun _ hc => hchild hc).bind fun _ => pure _
      | user name => cases hnode
    | swizzle ty base mask => exact (hchild List.mem_cons_self).map _
    | index ty base position =>
      have hposition : position ∈ (Expr.index ty base position).children := by
        simp [Expr.children]
      exact (hchild List.mem_cons_self).bind fun _ => (hvalues hposition).bind fun _ => pure _
    | construct ty args => exact (evalArgs fun _ hc => hchild hc).bind fun _ => pure _
    | group ty inner => exact (hchild List.mem_cons_self).map _

end

end Ignores

/-- An initial value that does not depend on the number of the invocation is left as it is. -/
theorem bottomUp_readCounter_eq (e : Expr) :
    e.any dependsOnNumber = false → e.bottomUp readCounter = e := by
  refine Expr.bottomUp_related (R := fun e e' => e.any dependsOnNumber = false → e' = e)
    (fun e cs hcs he => ?_) e
  obtain ⟨hnode, hchildren⟩ := Expr.any_eq_false_iff.mp he
  -- The children are the same, since none of them depends on the number.
  have hsame : List.Forall₂ Eq e.children cs :=
    ((List.forall₂_and_left _ _).mpr ⟨hchildren, hcs⟩).imp fun _ _ h => (h.2 h.1).symm
  rw [List.forall₂_eq_eq_eq] at hsame
  rw [← hsame, Expr.withChildren_children]
  cases e with
  | builtin ty which => cases which <;> first | rfl | cases hnode
  | _ => rfl

section

variable {m : Machine α}

/-- A global whose initial value does not depend on the number is loaded alike. -/
theorem ignores_load {d : Decl} (hd : ∀ e ∈ d.init, e.any dependsOnNumber = false) (call call') :
    Ignores (d.load (m.withCalls call)) (d.load (m.withCalls call')) := by
  unfold Decl.load
  split
  · exact .pure ()
  · next e he =>
    -- The initializer is evaluated at file scope on both sides.
    have hscope : Ignores (modify State.atFileScope : Eval α Unit) (modify State.atFileScope) :=
      Eval.Relates.modify fun _ _ h => ⟨rfl, h.shared, rfl⟩
    refine hscope.bind fun _ => ((Ignores.eval e (hd e he)).map Lane.values).bind fun vs => ?_
    refine Eval.Relates.modify fun σ σ' h => ⟨rfl, ?_⟩
    show SameButNumber (σ.atFileScope.store (Variable.lanes _ d.ty (σ.shared _)) _)
      (σ'.atFileScope.store (Variable.lanes _ d.ty (σ'.shared _)) _)
    rw [h.shared (.named d.name) nofun]
    have hfile : SameButNumber σ.atFileScope σ'.atFileScope := ⟨h.shared, rfl⟩
    exact hfile.store _ _

/-- Elements leave the same behind when they are loaded, whatever functions are known by then. -/
def LoadAlike (m : Machine α) (els els' : List Element) : Prop :=
  ∀ call call', Continues SameButNumber
    (fun known known' => (∃ call, known = m.withCalls call) ∧ ∃ call', known' = m.withCalls call')
    (els.foldlM Element.load (m.withCalls call)) (els'.foldlM Element.load (m.withCalls call'))

namespace LoadAlike

variable {els els' rest rest' : List Element}

/-- Nothing is loaded alike. -/
theorem nil : LoadAlike m [] [] :=
  fun call call' => Eval.Relates.pure fun _ _ h => ⟨⟨⟨call, rfl⟩, ⟨call', rfl⟩⟩, h⟩

/-- Elements in a row are loaded alike if each part is. -/
theorem append (h : LoadAlike m els els') (hrest : LoadAlike m rest rest') :
    LoadAlike m (els ++ rest) (els' ++ rest') := by
  intro call call'
  rw [List.foldlM_append, List.foldlM_append]
  refine (h call call').bind fun known known' => .assume ?_
  rintro ⟨⟨call, rfl⟩, ⟨call', rfl⟩⟩
  exact hrest call call'

/-- Functions hold no values, so they are loaded alike. -/
theorem function (f f' : Function) : LoadAlike m [.function f] [.function f'] :=
  fun _ _ => Eval.Relates.pure fun _ _ h => ⟨⟨⟨_, rfl⟩, ⟨_, rfl⟩⟩, h⟩

/-- What stands for the elements in the looped program. -/
theorem rework (count : Nat)
    (hinit : ∀ d, .global d ∈ els → ∀ e ∈ d.init, e.any dependsOnNumber = false) :
    LoadAlike m els (els.flatMap (rework count)) := by
  -- The state the globals are loaded into agrees up to the number, element by element. What the
  -- machines know after a function need not agree.
  induction els with
  | nil => exact nil
  | cons el els ih =>
    have hrest := ih fun d hd => hinit d (List.mem_cons_of_mem el hd)
    show LoadAlike m ([el] ++ els) (Invocations.rework count el ++ els.flatMap _)
    refine append ?_ hrest
    cases el with
    | function f => exact function f _
    | layout l =>
      intro call call'
      obtain ⟨_ | _, items⟩ := l
      · rcases rework_input count items with h | h <;> rw [h]
        · exact Eval.Relates.pure fun _ _ h => ⟨⟨⟨call, rfl⟩, ⟨call', rfl⟩⟩, h⟩
        · exact Eval.Relates.pure fun _ _ h => ⟨⟨⟨call, rfl⟩, ⟨call', rfl⟩⟩, h⟩
      · exact Eval.Relates.pure fun _ _ h => ⟨⟨⟨call, rfl⟩, ⟨call', rfl⟩⟩, h⟩
    | global d =>
      intro call call'
      have hd := hinit d List.mem_cons_self
      -- An initial value that does not depend on the number does not read it, so reading the
      -- counter in its place changes nothing.
      have hsame : Invocations.rework count (.global d) = [.global d] := by
        obtain ⟨storage, name, ty, init⟩ := d
        cases init with
        | none => rfl
        | some e =>
          show [Element.global ⟨storage, name, ty, some (e.bottomUp readCounter)⟩] = _
          rw [bottomUp_readCounter_eq e (hd e rfl)]
      simp only [hsame, List.foldlM_cons, List.foldlM_nil, bind_pure, Element.load]
      refine Eval.Relates.bind (ignores_load hd call call') fun _ _ => ?_
      exact Eval.Relates.pure fun _ _ h => ⟨⟨⟨call, rfl⟩, ⟨call', rfl⟩⟩, h.2⟩

/-- The looped program without its entry function. -/
theorem looped {p : Program} {before after : List Element} {main : Function}
    (hp : p.elements = before ++ .function main :: after)
    (hinit : ∀ d, .global d ∈ p.elements → ∀ e ∈ d.init, e.any dependsOnNumber = false)
    (count : Nat) (main' : Function) :
    LoadAlike m p.elements (before.flatMap (Invocations.rework count) ++
      .function main' :: after.flatMap (Invocations.rework count)) := by
  rw [hp] at hinit ⊢
  have hfirst := rework (m := m) count fun d (hd : .global d ∈ before) =>
    hinit d (List.mem_append_left _ hd)
  have hlast := rework (m := m) count fun d (hd : .global d ∈ after) =>
    hinit d (List.mem_append_right _ (List.mem_cons_of_mem _ hd))
  exact hfirst.append ((function main main').append hlast)

/-- What one of them leaves behind, the other does as well. -/
theorem loads (h : LoadAlike m els els') {start start' σ' : State α}
    (hstart : SameButNumber start start') {known' : Machine α}
    (hload : (els'.foldlM Element.load m).run.run start' = some (.ok known', σ')) :
    (∃ call, known' = m.withCalls call) ∧
      ∃ known σ, (els.foldlM Element.load m).run.run start = some (.ok known, σ) ∧
        SameButNumber σ σ' := by
  have hloads := h m.call m.call hstart
  change Option.Rel _ ((els.foldlM Element.load m).run.run start) _ at hloads
  rw [show m.withCalls m.call = m from rfl, hload] at hloads
  -- The load was assumed to end well, so the other one does.
  generalize (els.foldlM Element.load m).run.run start = r at hloads ⊢
  cases hloads with
  | some hends =>
    cases hends with
    | ok h => exact ⟨h.1.2, _, _, rfl, h.2⟩

end LoadAlike

end

/-! ### Variables that nothing writes -/

/-- Whether an element declares a plain global under a name. -/
def declaresPlain (name : String) : Element → Bool
  | .global d => d.storage == .auto && d.name == name
  | _ => false

/-- Whether a variable is a plain global of a program. -/
def isPlain (p : Program) : Variable → Bool
  | .named name => p.elements.any (declaresPlain name)
  | .builtin _ => false

/-- Whether the calls in the loop must leave a variable alone: a plain global, the number of the
    invocation, or the counter. -/
def holds (p : Program) (v : Variable) : Bool :=
  v = .builtin .invocationId || v = .named counterName || isPlain p v

/-- Whether a node writes to one of several variables. -/
def writesTo (vars : Variable → Bool) (e : Expr) : Bool :=
  e.target?.any fun target => target.reached.any fun r => r.owner?.any vars

/-- Several variables have the same components. -/
def Leaves (vars : Variable → Bool) (shared shared' : Variable → Nat → α) : Prop :=
  ∀ v, vars v = true → shared' v = shared v

/-- Every function that a machine knows leaves several variables alone. -/
def KnowsToLeave (vars : Variable → Bool) (m : Machine α) : Prop :=
  ∀ name args shared reply, m.call name args shared = some reply → Leaves vars shared reply.shared

/-- A write to an expression may end up in one of the variables. -/
def ReachesAny (vars : Variable → Bool) (e : Expr) : Prop :=
  ∃ r ∈ e.reached, r.owner?.any vars = true

/-- An expression writes to a variable if one of its targets reaches it. -/
theorem writesTo_eq_false_iff {vars : Variable → Bool} {e : Expr} :
    writesTo vars e = false ↔ ∀ target ∈ e.target?, ¬ ReachesAny vars target := by
  unfold writesTo ReachesAny
  cases e.target? <;> simp

/-- Reading the counter brings in no write to variables to which the number of the invocation
    belongs. -/
theorem writesTo_readCounter {vars : Variable → Bool} (hvars : vars (.builtin .invocationId) = true)
    (e : Expr) (he : e.any (writesTo vars) = false) :
    (e.bottomUp readCounter).any (writesTo vars) = false := by
  -- A write is found at the target of a node, so the walk also has to know that a target reaches no
  -- variable that it did not reach before.
  let R (e e' : Expr) : Prop := (ReachesAny vars e' → ReachesAny vars e) ∧
    (e.any (writesTo vars) = false → e'.any (writesTo vars) = false)
  refine (Expr.bottomUp_related (R := R) (fun e cs hcs => ?_) e).2 he
  by_cases hbuiltin : ∃ ty which, e = .builtin ty which
  · obtain ⟨ty, which, rfl⟩ := hbuiltin
    cases hcs
    cases which with
    | invocationId => exact ⟨fun _ => ⟨_, List.mem_singleton_self _, hvars⟩, fun _ => rfl⟩
    | _ => exact ⟨id, id⟩
  · rw [readCounter_withChildren fun ty which h => hbuiltin ⟨ty, which, h⟩]
    refine ⟨Expr.reached_withChildren (hcs.imp fun _ _ h => h.1), fun hany => ?_⟩
    obtain ⟨hnode, hchildren⟩ := Expr.any_eq_false_iff.mp hany
    refine Expr.any_eq_false_iff.mpr ⟨?_, fun c' hc' => ?_⟩
    · rw [writesTo_eq_false_iff] at hnode ⊢
      intro target' ht' hreaches
      obtain ⟨target, ht, h⟩ := Expr.exists_related_target hcs target' ht'
      exact hnode target ht (h.1 hreaches)
    · obtain ⟨c, hc, hrelated⟩ := Expr.exists_related_child hcs c' hc'
      exact hrelated.2 (hchildren c hc)

section

variable {vars : Variable → Bool} {m : Machine α}

/-- Leaving variables alone is something that runs in a row do together. -/
theorem transition_leaves :
    Transition (fun _ => True) fun σ τ : State α => Leaves vars σ.shared τ.shared where
  refl _ _ _ := rfl
  trans h h' v hv := (h' v hv).trans (h v hv)
  leave _ h := h
  setLocal _ _ _ _ _ _ := rfl
  emitVertex _ _ _ := rfl
  endPrimitive _ _ _ := rfl

/-- Each step leaves alone what is not written. -/
theorem steps_leaves (hm : KnowsToLeave vars m) :
    Transition.Steps m (fun v => vars v = false)
      fun σ τ : State α => Leaves vars σ.shared τ.shared where
  write _ _ hcell value v hv := by
    refine State.shared_write_of_ne ?_ value _
    rintro rfl
    simp [hv] at hcell
  call σ _ _ _ hreply := hm _ _ _ _ hreply

/-- An expression that writes none of the variables leaves them alone. -/
theorem follows_sparing (hm : KnowsToLeave vars m) (e : Expr) :
    e.any (writesTo vars) = false →
      Eval.Follows (fun σ τ => Leaves vars σ.shared τ.shared) (Lane.Owned e.Reaches)
        (e.eval m) := by
  induction e using Expr.induction_children with
  | h e ih =>
    intro he
    obtain ⟨hnode, hchildren⟩ := Expr.any_eq_false_iff.mp he
    refine Expr.follows_eval transition_leaves (steps_leaves hm) (fun target ht v hv => ?_)
      fun c hc => ih c hc (hchildren c hc)
    -- A write would go to what the target reaches, and that is spared.
    obtain ⟨r, hr, howner⟩ := hv
    have hspared := writesTo_eq_false_iff.mp hnode target ht
    rw [Bool.eq_false_iff]
    exact fun hvar => hspared ⟨r, hr, by rw [howner]; exact hvar⟩

/-- A machine that leaves the variables alone may come to know a function that does not write
    them. -/
theorem KnowsToLeave.declare (hm : KnowsToLeave vars m) {f : Function}
    (hf : f.All fun e => e.any (writesTo vars) = false) : KnowsToLeave vars (m.declare f) := by
  intro name args shared reply hreply
  change (if f.isCalled args name then f.reply? m args shared else m.call name args shared) =
    some reply at hreply
  -- A call of the new function runs its body, any other one is known already.
  split at hreply
  · obtain ⟨o, τ, hrun, rfl⟩ := Function.runs_of_reply? hreply
    have hfollows : Behaviour.Follows (fun σ τ => Leaves vars σ.shared τ.shared) (f.Runs m) :=
      Stmt.follows_listBehaviour transition_leaves fun s hs =>
        s.follows_behaviour transition_leaves
          (fun e he => (follows_sparing hm e he).map transition_leaves fun _ _ => trivial)
          (Stmt.all_iff_fits.mp (hf s hs))
    rw [← (f.start_spec m args shared).1]
    exact hfollows hrun
  · exact hm name args shared reply hreply

/-- The function with the counter read in place of the number of the invocation writes no more than
    before. -/
theorem all_counting (hvars : vars (.builtin .invocationId) = true) {f : Function}
    (hf : f.All fun e => e.any (writesTo vars) = false) :
    (counting f).All fun e => e.any (writesTo vars) = false := by
  let p : Program := ⟨.geometry, [.function f]⟩
  have hp : p.All fun e => e.any (writesTo vars) = false := List.forall_mem_singleton.mpr hf
  have hcounting : (p.mapNodes readCounter).All fun e => e.any (writesTo vars) = false :=
    Program.mapNodes_all (writesTo_readCounter hvars) hp
  refine hcounting (.function (counting f)) ?_
  rw [Program.elements_mapNodes]
  exact List.mem_singleton_self _

/-- So does declaring several. -/
theorem KnowsToLeave.declareAll {fs : List Function} (hm : KnowsToLeave vars m)
    (hfs : ∀ f ∈ fs, f.All fun e => e.any (writesTo vars) = false) :
    KnowsToLeave vars (fs.foldl Machine.declare m) := by
  induction fs generalizing m with
  | nil => exact hm
  | cons f fs ih =>
    obtain ⟨hf, hrest⟩ := List.forall_mem_cons.mp hfs
    exact ih (hm.declare hf) hrest

/-! ### The loop, up to an invocation -/

/-- The body of the loop declares nothing, and leaves alone what the functions leave alone. -/
theorem follows_invocation (hm : KnowsToLeave vars m) :
    Behaviour.Follows (fun σ τ => τ.locals = σ.locals ∧ Leaves vars σ.shared τ.shared)
      (invocation.behaviour m) := by
  -- The relation is one that statements can be followed by: it is reflexive, composes, and leaving
  -- a scope or emitting keeps it. It allows no declaration.
  have hT : Transition (fun _ => False)
      fun σ τ : State α => τ.locals = σ.locals ∧ Leaves vars σ.shared τ.shared :=
    { refl := fun σ => ⟨rfl, fun _ _ => rfl⟩
      trans := fun h h' => ⟨h'.1.trans h.1, fun v hv => (h'.2 v hv).trans (h.2 v hv)⟩
      leave := fun {σ ρ} names h => by
        refine ⟨?_, h.2⟩
        show (fun x => if x ∈ names then σ.locals x else ρ.locals x) = _
        simp [h.1]
      setLocal := fun _ _ h => h.elim
      emitVertex := fun _ => ⟨rfl, fun _ _ => rfl⟩
      endPrimitive := fun _ => ⟨rfl, fun _ _ => rfl⟩ }
  have hW : Transition.Steps m (fun _ => False)
      fun σ τ : State α => τ.locals = σ.locals ∧ Leaves vars σ.shared τ.shared :=
    ⟨fun _ _ h => h.elim, fun _ _ _ _ hreply => ⟨rfl, hm _ _ _ _ hreply⟩⟩
  refine Stmt.follows_behaviour (Q := (· = .ofUserCall invokeName [] .void)) hT ?_ invocation ?_
  · rintro _ rfl
    have hcall : Eval.Follows _ _ ((Expr.ofUserCall invokeName [] .void).eval m) :=
      Expr.follows_eval hT hW (fun _ h => by cases h) fun _ h => by cases h
    exact hcall.map hT fun _ _ => trivial
  · have hend : Stmt.endPrimitive.Fits (fun _ => False) (· = .ofUserCall invokeName [] .void) :=
      Stmt.fits_iff.mpr (by simp [Stmt.own, Stmt.nested])
    exact Stmt.fits_block.mpr (List.forall_mem_cons.mpr
      ⟨Stmt.fits_expr.mpr rfl, List.forall_mem_singleton.mpr hend⟩)

/-- The counter is at the number that is written to it. -/
theorem CountsAt.write {σ : State α} (hlocals : σ.locals = fun _ => none) (k : Nat) :
    CountsAt m k (σ.write counterCell (m.literal (.int k))) := by
  rw [write_counterCell hlocals]
  refine ⟨hlocals, ?_⟩
  show (if Variable.named counterName = counterCell.owner ∧ 0 = counterCell.lane then _
    else σ.shared (.named counterName) 0) = _
  exact if_pos ⟨rfl, rfl⟩

/-- At its head the loop has counted its turns, and the variables are as they were at first. -/
theorem countsAt_of_arrives {count : Nat} (hm : CountsTo m count) (hleaves : KnowsToLeave vars m)
    (hcounter : vars (.named counterName) = true) {first head : State α} {k : Nat}
    (hfirst : CountsAt m 0 first) (h : Arrives (turn m count) first k head) :
    k ≤ count ∧ CountsAt m k head ∧
      ∀ v, vars v = true → v ≠ .named counterName → head.shared v = first.shared v := by
  -- The invariant at the head is that the counter is the number of turns made, and it is kept by
  -- the test, an invocation and the increment in turn.
  induction h with
  | enter => exact ⟨Nat.zero_le _, hfirst, fun _ _ _ => rfl⟩
  | @again k ρ τ o _ hturn ho ih =>
    obtain ⟨hk, hρ, hsame⟩ := ih
    obtain ⟨ρ', htest, hrest⟩ | ⟨ho', htest⟩ := hturn
    · obtain ⟨hnormal, rfl⟩ := (test_iff hm hρ hk _ _).mp htest
      have hlt : k < count := by
        by_contra hge
        rw [if_neg hge] at hnormal
        cases hnormal
      -- Both ways for an invocation to end lead to the increment; a loop that is left does not
      -- arrive again.
      obtain ⟨o', ended, hinvocation, -, hstep⟩ | ⟨hgo, -⟩ := hrest
      · obtain ⟨hlocals, hkept⟩ := follows_invocation hleaves hinvocation
        have hended : CountsAt m k ended :=
          ⟨hlocals.trans hρ.locals, (congrFun (hkept _ hcounter) 0).trans hρ.counter⟩
        unfold Behaviour.after at hstep
        rw [run_increment hm hended hlt] at hstep
        obtain ⟨-, rfl⟩ := hstep
        refine ⟨hlt, .write hended.locals (k + 1), fun v hv hne => ?_⟩
        rw [State.shared_write_of_ne (show v ≠ counterCell.owner from hne)]
        exact (hkept v hv).trans (hsame v hv hne)
      · rw [ho] at hgo
        cases hgo
    · obtain ⟨heq, -⟩ := (test_iff hm hρ hk _ _).mp htest
      split at heq
      · exact absurd heq ho'
      · rw [heq] at ho
        cases ho

end

/-! ### Invocations in the loop and on their own -/

/-- The first function that a program can start at, with what is before it and after it. -/
theorem exists_entry {els : List Element}
    (h : (els.filterMap Element.function?).any Function.isEntry = true) :
    ∃ before main after, els = before ++ .function main :: after ∧ main.isEntry = true ∧
      ∀ f, .function f ∈ before → f.isEntry = false := by
  induction els with
  | nil => cases h
  | cons el els ih =>
    -- The first element is the entry point, or it stands in front of it.
    by_cases hel : ∃ main : Function, el = .function main ∧ main.isEntry = true
    · obtain ⟨main, rfl, hmain⟩ := hel
      exact ⟨[], main, els, rfl, hmain, nofun⟩
    · have hrest : (els.filterMap Element.function?).any Function.isEntry = true := by
        cases el with
        | function f =>
          have hf : f.isEntry = false := by
            rw [Bool.eq_false_iff]
            exact fun hf => hel ⟨f, rfl, hf⟩
          simpa [Element.function?, hf] using h
        | _ => exact h
      obtain ⟨before, main, after, rfl, hmain, hbefore⟩ := ih hrest
      refine ⟨el :: before, main, after, rfl, hmain, fun f hf => ?_⟩
      rcases List.mem_cons.mp hf with rfl | hf
      · rw [Bool.eq_false_iff]
        exact fun hf => hel ⟨f, rfl, hf⟩
      · exact hbefore f hf

/-- What an invocation starts with. No initial value of the program depends on the number of the
    invocation, and nothing writes a plain global, the counter or that number. Then what is made of
    the program ends with the loop over its invocations. In every run of it, the former entry
    function is called with the counter at the number of the invocation, and each plain global has
    the value that it has when that invocation starts on its own. -/
theorem legalize_starts_invocations_alike (p : Program)
    (hentry : p.functions.any Function.isEntry = true)
    (hcounter : isPlain p (.named counterName) = false)
    (hwrites : p.anyNode (writesTo (holds p)) = false)
    (hinit : ∀ d, .global d ∈ p.elements → ∀ e ∈ d.init, e.any dependsOnNumber = false)
    (s : Scratch) :
    ∃ p' s', (legalize p).run.run s = (.ok p', s') ∧
      (∃ els, p'.elements = els ++ [.function (loopEntry p.declaredInvocations)]) ∧
      ∀ m : Machine α, KnowsToLeave (holds p) m → CountsTo m p.declaredInvocations →
        ∀ shared k start, Starts m p' shared p.declaredInvocations k start →
          k < p.declaredInvocations ∧
          start.shared (.named counterName) 0 = m.literal (.int k) ∧
          ∃ known τ, p.load m (numbered m shared k) = some (.ok known, τ) ∧
            ∀ v, isPlain p v = true → start.shared v = τ.shared v := by
  obtain ⟨before, main, after, hp, hmain, hbefore⟩ := exists_entry hentry
  obtain ⟨s', hrun, -⟩ := run_legalize hentry s
  refine ⟨looped p, s', hrun, ⟨_, elements_looped hp hmain hbefore⟩,
    fun m hm hcounts shared k start hstart => ?_⟩
  obtain ⟨els, known, σ, first, head, hels, hload, hassign, harrives, htest⟩ := hstart
  -- What is loaded before the loop stands for the elements of the program.
  obtain rfl : els = before.flatMap (rework p.declaredInvocations) ++
      .function { counting main with name := invokeName } ::
        after.flatMap (rework p.declaredInvocations) := by
    rw [elements_looped hp hmain hbefore] at hels
    exact (List.append_inj' hels rfl).1.symm
  have hsame : SameButNumber ⟨numbered m shared k, fun _ => none, []⟩
      (⟨shared, fun _ => none, []⟩ : State α) := ⟨fun v hv => (funext fun i => if_neg hv).symm, rfl⟩
  obtain ⟨⟨call, rfl⟩, known₀, τ, hnative, hτ⟩ := (LoadAlike.looped hp hinit _ _).loads hsame hload
  -- The functions that were loaded do not change how the machine counts.
  have hcounts : CountsTo (m.withCalls call) p.declaredInvocations := ⟨hcounts.next, hcounts.less⟩
  -- Its functions leave alone what the loop must find as it was.
  have hknown : KnowsToLeave (holds p) (m.withCalls call) := by
    have hall := Program.anyNode_eq_false_iff.mp hwrites
    have hcounting (f : Function) (hf : .function f ∈ p.elements) :
        (counting f).All fun e => e.any (writesTo (holds p)) = false :=
      all_counting (by simp [holds]) (hall (.function f) hf)
    rw [Program.known_of_load (p := ⟨p.stage, _⟩) hload]
    refine hm.declareAll fun f hf => ?_
    simp only [Program.functions, List.filterMap_append, List.filterMap_cons, Element.function?,
      filterMap_function?_rework, List.mem_append, List.mem_cons, List.mem_map] at hf
    rw [hp] at hcounting
    rcases hf with ⟨f, hf, rfl⟩ | rfl | ⟨f, hf, rfl⟩
    · exact hcounting f (List.mem_append_left _ (Element.mem_functions.mp hf))
    · exact hcounting main (by simp)
    · exact hcounting f (by simp [Element.mem_functions.mp hf])
  -- The loop starts with its counter at zero and goes round until it arrives at the start.
  let loaded : State α := ⟨σ.shared, fun _ => none, []⟩
  obtain rfl : first = loaded.write counterCell (m.literal (.int (0 : Nat))) := hassign.2
  obtain ⟨hk, hhead, hkept⟩ := countsAt_of_arrives hcounts hknown (by simp [holds])
    (.write (m := m.withCalls call) (σ := loaded) rfl 0) harrives
  obtain ⟨hnormal, rfl⟩ := (test_iff hcounts hhead hk _ _).mp htest
  -- An invocation starts only where the test of the loop holds.
  have hlt : k < p.declaredInvocations := by
    by_contra hge
    rw [if_neg hge] at hnormal
    cases hnormal
  refine ⟨hlt, hhead.counter, known₀, τ, hnative, fun v hv => ?_⟩
  -- What is promised concerns neither the counter nor the number itself.
  have hne : v ≠ .named counterName := by
    rintro rfl
    rw [hcounter] at hv
    cases hv
  have hid : v ≠ .builtin .invocationId := by
    rintro rfl
    cases hv
  rw [hkept v (by simp [holds, hv]) hne,
    State.shared_write_of_ne (show v ≠ counterCell.owner from hne)]
  exact hτ.shared v hid

/-- A geometry program that runs twice, and emits a vertex at the place that a global holds. -/
def emitsAt : Function :=
  .entry [.assign (.ofBuiltin .position) (.ofConstruct (.vec 4) [.ofVar "place" .int]), .emitVertex]

def twiceAt (place : Expr) : Program :=
  ⟨.geometry,
    [.layout ⟨.input, [.points, .invocations 2]⟩, .layout ⟨.output, [.lineStrip, .maxVertices 1]⟩,
     .global (.plain "place" .int (some place)), .function emitsAt]⟩

/-- The second invocation of the program starts, with the value that its global has got. -/
theorem starts_twiceAt (place : Expr) {value : Int} {shared : Variable → Nat → Int}
    (hplace : ((place.bottomUp readCounter).values Machine.integers).run.run
      ⟨shared, fun _ => none, []⟩ = some (.ok [value], ⟨shared, fun _ => none, []⟩)) :
    ∃ start, Starts .integers (looped (twiceAt place)) shared 2 1 start ∧
      start.shared (.named "place") 0 = value := by
  let m := Machine.integers
  let invoke : Function := { emitsAt with name := invokeName }
  let known := m.declare invoke
  let cell : Cell := ⟨.named "place", 0⟩
  let σ : State Int := (⟨shared, fun _ => none, []⟩ : State Int).write cell value
  let first : State Int := (⟨σ.shared, fun _ => none, []⟩ : State Int).write counterCell 0
  have hcounts : CountsTo known 2 := ⟨(countsTo_integers 2).next, (countsTo_integers 2).less⟩
  -- The first invocation writes the position and emits a vertex.
  let clip (lane : Nat) : Cell := ⟨.builtin .position, lane⟩
  let moved : State Int := (((((⟨first.shared, fun _ => none, []⟩ : State Int).write
    (clip 0) value).write (clip 1) value).write (clip 2) value).write (clip 3) value)
  have hrun : invoke.Runs m (invoke.start m [] first.shared) .normal
      (moved.act (.emitVertex moved.shared)) :=
    .inl ⟨moved, ⟨rfl, rfl⟩, .inl ⟨_, ⟨rfl, rfl⟩, rfl, rfl⟩⟩
  -- The first invocation replies, and its turn of the loop ends normally.
  have hreply : known.call invokeName [] first.shared = some (.ofRun .normal _) :=
    (Machine.call_declare rfl _).trans (Function.reply?_of_runs hrun)
  have hfirst : CountsAt known 0 first := ⟨rfl, rfl⟩
  have hturn := turn_of_call hcounts hfirst (by decide) hreply rfl rfl
  refine ⟨_, ⟨_, known, σ, first, _, rfl, ?_, ⟨rfl, rfl⟩, .again .enter hturn rfl,
    (test_iff hcounts (.write rfl 1) (by decide) _ _).mpr ⟨rfl, rfl⟩⟩, rfl⟩
  -- What is left is that the globals are loaded before: the place is read there.
  let d : Decl := .plain "place" .int (some (place.bottomUp readCounter))
  have hload : (d.load m).run.run ⟨shared, fun _ => none, []⟩ = some (.ok (), σ) := by
    change StateT.run (ExceptT.run ((place.bottomUp readCounter).values m >>= fun vs => _))
      ⟨shared, fun _ => none, []⟩ = _
    rw [ExceptT.run_bind, StateT.run_bind, hplace]
    rfl
  change StateT.run (ExceptT.run ((d.load m >>= fun _ => pure m) >>= fun m => pure (m.declare _)))
    ⟨shared, fun _ => none, []⟩ = _
  rw [bind_assoc, ExceptT.run_bind, StateT.run_bind, hload]
  rfl

/-- Where the global gets a constant, the second invocation starts with its number and with the
    constant, as it does on its own. -/
theorem second_invocation_starts_alike :
    let m := Machine.integers
    let p := twiceAt (.int 3)
    p.functions.any Function.isEntry = true ∧ isPlain p (.named counterName) = false ∧
      p.anyNode (writesTo (holds p)) = false ∧
      (∀ d, .global d ∈ p.elements → ∀ e ∈ d.init, e.any dependsOnNumber = false) ∧
      KnowsToLeave (holds p) m ∧ CountsTo m p.declaredInvocations ∧
      ∃ p' s', (legalize p).run.run {} = (.ok p', s') ∧ ∀ shared, ∃ start,
        Starts m p' shared 2 1 start ∧ start.shared (.named counterName) 0 = 1 ∧
          ∃ known τ, p.load m (numbered m shared 1) = some (.ok known, τ) ∧
            start.shared (.named "place") = τ.shared (.named "place") := by
  intro m p
  have hinit : ∀ d, .global d ∈ p.elements → ∀ e ∈ d.init, e.any dependsOnNumber = false := by
    simp [p, twiceAt, Decl.plain, dependsOnNumber, Expr.int, Expr.any]
  have hleaves : KnowsToLeave (holds p) m := by
    rintro name args shared _ ⟨rfl⟩ v _
    rfl
  obtain ⟨p', s', hrun, -, hstarts⟩ :=
    @legalize_starts_invocations_alike Int p rfl rfl rfl hinit {}
  -- The rewritten program is known, so it may be named.
  obtain rfl : looped p = p' := by
    obtain ⟨s'', hlooped, -⟩ := run_legalize (p := p) rfl {}
    rw [hlooped] at hrun
    exact Except.ok.inj (congrArg Prod.fst hrun)
  refine ⟨rfl, rfl, rfl, hinit, hleaves, countsTo_integers 2, looped p, s', hrun, fun shared => ?_⟩
  have hplace : ((Expr.int 3).values m).run.run ⟨shared, fun _ => none, []⟩ =
    some (.ok [3], ⟨shared, fun _ => none, []⟩) := rfl
  obtain ⟨start, hstart, -⟩ := starts_twiceAt (.int 3) hplace
  -- The two starts agree on the global, by the general statement.
  obtain ⟨-, hcounter, known, τ, hload, hsame⟩ :=
    hstarts m hleaves (countsTo_integers 2) shared 1 start hstart
  exact ⟨start, hstart, hcounter, known, τ, hload, hsame _ rfl⟩

/-- An initial value that reads the number of the invocation gets what the counter holds before it
    is set, in every invocation. -/
theorem number_is_read_too_early :
    let m := Machine.integers
    let p := twiceAt (.ofBuiltin .invocationId)
    let shared : Variable → Nat → Int := fun _ _ => 0
    p.stage = .geometry ∧ p.declaredInvocations = 2 ∧ isPlain p (.named "place") = true ∧
      CountsTo m 2 ∧
      ∃ p' s' start known τ, (legalize p).run.run {} = (.ok p', s') ∧
        Starts m p' shared 2 1 start ∧
        p.load m (numbered m shared 1) = some (.ok known, τ) ∧
        start.shared (.named "place") 0 ≠ τ.shared (.named "place") 0 := by
  intro m p shared
  have hread : (counter.values m).run.run ⟨shared, fun _ => none, []⟩ =
    some (.ok [0], ⟨shared, fun _ => none, []⟩) := rfl
  -- The counter is read as zero, since `main` has not yet set it.
  obtain ⟨start, hstart, hplace⟩ := starts_twiceAt (.ofBuiltin .invocationId) hread
  refine ⟨rfl, rfl, rfl, countsTo_integers 2, looped p, _, start, m.declare emitsAt, _, rfl,
    hstart, rfl, ?_⟩
  rw [hplace]
  decide

end Legalize.Invocations

end ShaderGen
