import ShaderGen.Proofs.Rewriting
import ShaderGen.Proofs.Semantics.Loading

/-!
# What happens between two states of a run

A relation between states may hold of the start and the end of whatever a program does: of each
write, of each call and of each declaration, and from one step to the next. It then holds of the
start and the end of every expression and of every statement, however they end. Which variables an
expression writes is told by its targets alone (`Expr.reached`).

## Main definitions

- `Eval.Follows`, `Behaviour.Follows`: computations and statements that a relation holds of
- `Transition`: a relation that holds of whatever statements do besides computing expressions

## Key results

- `Expr.follows_eval`: a node follows a relation if its children do and its target may be written
- `Stmt.follows_behaviour`: a statement does if its expressions do
-/

namespace ShaderGen

open Behaviour

variable {α β γ : Type}

/-- However a computation ends, the relation holds between where it started and where it ends, and
    its result has a property. -/
def Eval.Follows (T : State α → State α → Prop) (P : β → Prop) (x : Eval α β) : Prop :=
  ∀ ⦃σ r τ⦄, x.run.run σ = some (r, τ) → T σ τ ∧ ∀ b, r = .ok b → P b

/-- However a statement ends, the relation holds between where it started and where it ends. -/
def Behaviour.Follows (T : State α → State α → Prop) (A : Behaviour α) : Prop :=
  ∀ ⦃σ o τ⦄, A σ o τ → T σ τ

/-- A relation that goes on from step to step, and holds of what statements do besides computing
    expressions, as long as they declare names of a certain kind. -/
structure Transition (N : String → Prop) (T : State α → State α → Prop) : Prop where
  refl (σ : State α) : T σ σ
  trans {σ ρ τ : State α} (h : T σ ρ) (h' : T ρ τ) : T σ τ
  leave {σ ρ : State α} (names : List String) (h : T σ ρ) : T σ (ρ.leave σ names)
  setLocal (σ : State α) {name : String} (h : N name) (content : Nat → α) :
    T σ (σ.setLocal name (some content))
  emitVertex (σ : State α) : T σ (σ.act (.emitVertex σ.shared))
  endPrimitive (σ : State α) : T σ (σ.act .endPrimitive)

/-- The relation holds of writes to variables of a certain kind and of calls. -/
structure Transition.Steps (m : Machine α) (W : Variable → Prop) (T : State α → State α → Prop) :
    Prop where
  write (σ : State α) {cell : Cell} (h : W cell.owner) (value : α) : T σ (σ.write cell value)
  call (σ : State α) {name : String} {args : List (Ty × List α)} {reply : Reply α}
    (h : m.call name args σ.shared = some reply) :
    T σ { σ with
      shared := reply.shared
      trace := σ.trace ++ .call name args :: reply.actions }

variable {N : String → Prop} {W : Variable → Prop} {T : State α → State α → Prop} {m : Machine α}

/-! ### Computations -/

namespace Eval.Follows

variable {P : β → Prop} {Q : γ → Prop} {x : Eval α β}

/-- A weaker demand on the result may be made. -/
theorem mono {P' : β → Prop} (h : Follows T P x) (hmono : ∀ b, P b → P' b) : Follows T P' x :=
  fun _ _ _ hrun => ⟨(h hrun).1, fun b hb => hmono b ((h hrun).2 b hb)⟩

/-- A value alone is a transition, as nothing changes. -/
theorem pure (hT : Transition N T) {b : β} (h : P b) : Follows T P (pure b : Eval α β) := by
  rintro σ _ _ ⟨⟩
  exact ⟨hT.refl σ, by rintro _ ⟨⟩; exact h⟩

/-- Two computations in a row follow the transition if both do. -/
theorem bind (hT : Transition N T) {f : β → Eval α γ} (h : Follows T P x)
    (hf : ∀ b, P b → Follows T Q (f b)) : Follows T Q (x >>= f) := by
  intro σ r τ hrun
  rw [ExceptT.run_bind, StateT.run_bind] at hrun
  cases hx : x.run.run σ with
  | none =>
    rw [hx] at hrun
    cases hrun
  -- The first part may have been discarded, and then it is all that ran.
  | some end_ =>
    obtain ⟨first, ρ⟩ := end_
    rw [hx] at hrun
    obtain ⟨hρ, hP⟩ := h hx
    cases first with
    | error d =>
      cases hrun
      exact ⟨hρ, nofun⟩
    | ok b =>
      obtain ⟨hτ, hQ⟩ := hf b (hP b rfl) hrun
      exact ⟨hT.trans hρ hτ, hQ⟩

/-- A function of the result changes no state. -/
theorem map (hT : Transition N T) {f : β → γ} (h : Follows T P x) (hf : ∀ b, P b → Q (f b)) :
    Follows T Q (f <$> x) := by
  rw [← bind_pure_comp]
  exact h.bind hT fun b hb => .pure hT (hf b hb)

/-- A change of state follows the transition if it always makes one. -/
theorem modify {f : State α → State α} (h : ∀ σ, T σ (f σ)) :
    Follows T (fun _ => True) (modify f : Eval α Unit) := by
  rintro σ _ _ ⟨⟩
  exact ⟨h σ, fun _ _ => trivial⟩

/-- Loading gives lanes of the variable and changes nothing. -/
theorem load (hT : Transition N T) {v : Variable} (hv : W v) (ty : Ty) :
    Follows T (Lane.Owned W) (load v ty : Eval α (List (Lane α))) := by
  rintro σ _ _ ⟨⟩
  exact ⟨hT.refl σ, by rintro _ ⟨⟩; exact Lane.owned_lanes hv ty _⟩

end Eval.Follows

/-- The relation holds of several writes. -/
theorem State.store_of_steps (hT : Transition N T) (hW : Transition.Steps m W T) (σ : State α)
    {ls : List (Lane α)} (hls : Lane.Owned W ls) (vs : List α) : T σ (σ.store ls vs) := by
  -- The lanes and the values are taken together: a lane without a value, or without a cell, is
  -- skipped.
  induction ls generalizing vs σ with
  | nil => cases vs <;> exact hT.refl σ
  | cons l ls ih =>
    have hrest : Lane.Owned W ls := fun l' hl' => hls l' (List.mem_cons_of_mem l hl')
    obtain ⟨value, cell?⟩ := l
    cases vs with
    | nil => cases cell? <;> exact hT.refl σ
    | cons v vs =>
      cases cell? with
      | none => exact ih σ hrest vs
      | some cell =>
        exact hT.trans (hW.write σ (hls _ List.mem_cons_self cell rfl) v) (ih _ hrest vs)

/-! ### Writing a whole variable -/

/-- The actions that write components of a variable in order. -/
def Variable.writes (v : Variable) (vs : List α) : List (Action α) :=
  vs.mapIdx fun i value => .write ⟨v, i⟩ value

/-- A write leaves other variables that functions share alone. -/
theorem State.shared_write_of_ne {cell : Cell} {v : Variable} (h : v ≠ cell.owner) (value : α)
    (σ : State α) : (σ.write cell value).shared v = σ.shared v := by
  have hset : (σ.setShared cell value).shared v = σ.shared v :=
    funext fun i => if_neg fun heq => h heq.1
  -- A write goes to a local or to the component itself, so not to another variable.
  unfold State.write
  split
  · split
    · rfl
    · exact hset
  · exact hset

/-- A variable that is no local is written where functions share it. -/
theorem State.write_shared {σ : State α} {cell : Cell}
    (h : ∀ name, cell.owner = .named name → σ.locals name = none) (value : α) :
    σ.write cell value = (σ.setShared cell value).act (.write cell value) := by
  unfold State.write
  split
  · next name howner => rw [h name howner]
  · rfl

/-- Writing all components of a variable that is no local. -/
theorem State.store_lanes {σ : State α} {v : Variable} {ty : Ty} {vs : List α}
    (h : ∀ name, v = .named name → σ.locals name = none) (hvs : vs.length = ty.laneCount)
    (content : Nat → α) :
    σ.store (v.lanes ty content) vs =
      { σ with
        shared := fun w i => if w = v then vs.getD i (σ.shared w i) else σ.shared w i
        trace := σ.trace ++ v.writes vs } := by
  -- By induction on the values, with those counted that are written already.
  have hfrom : ∀ (k : Nat) (vs : List α) (σ : State α),
      (∀ name, v = .named name → σ.locals name = none) →
      σ.store ((List.range' k vs.length).map fun i => ⟨content i, some ⟨v, i⟩⟩) vs =
        { σ with
          shared := fun w i =>
            if w = v ∧ k ≤ i then vs.getD (i - k) (σ.shared w i) else σ.shared w i
          trace := σ.trace ++ vs.mapIdx fun i value => .write ⟨v, k + i⟩ value } := by
    intro k vs
    induction vs generalizing k with
    | nil =>
      intro σ _
      simp [State.store]
    | cons x vs ih =>
      intro σ hlocal
      have hwrite : σ.write ⟨v, k⟩ x = (σ.setShared ⟨v, k⟩ x).act (.write ⟨v, k⟩ x) :=
        State.write_shared hlocal x
      rw [List.length_cons, List.range'_succ, List.map_cons, State.store, hwrite]
      rw [ih (k + 1) ((σ.setShared ⟨v, k⟩ x).act (.write ⟨v, k⟩ x)) hlocal]
      simp only [State.act, State.setShared, List.mapIdx_cons, State.mk.injEq, true_and]
      refine ⟨?_, ?_⟩
      · -- A cell is the one just written, one of those still to be written, or none of them.
        funext w i
        by_cases hw : w = v
        · rcases Nat.lt_trichotomy i k with hlt | rfl | hgt
          · simp [hw, Nat.not_le.mpr hlt, show i ≠ k by omega, show ¬ k + 1 ≤ i by omega]
          · simp [hw, show ¬ i + 1 ≤ i by omega]
          · obtain ⟨j, rfl⟩ : ∃ j, i = k + 1 + j := ⟨i - (k + 1), by omega⟩
            simp [hw, show k + 1 + j ≠ k by omega, show k ≤ k + 1 + j by omega,
              show k + 1 + j - k = j + 1 by omega]
        · simp [hw]
      · simp [Nat.add_assoc, Nat.add_comm 1]
  have hlanes : v.lanes ty content =
      (List.range' 0 vs.length).map fun i => ⟨content i, some ⟨v, i⟩⟩ := by
    rw [hvs, ← List.range_eq_range']
    rfl
  rw [hlanes, hfrom 0 vs σ h]
  simp [Variable.writes]

/-! ### Expressions -/

namespace Expr

open Eval

/-- The variable that an expression is. -/
def owner? : Expr → Option Variable
  | .var _ name => some (.named name)
  | .builtin _ which => some (.builtin which)
  | _ => none

/-- A variable that a write to an expression may end up in. -/
def Reaches (e : Expr) (v : Variable) : Prop := ∃ r ∈ e.reached, r.owner? = some v

/-- Arguments follow the transition one after the other. -/
theorem follows_evalArgs (hT : Transition N T) {es : List Expr}
    (h : ∀ e ∈ es, Follows T (Lane.Owned e.Reaches) (e.eval m)) :
    Follows T (fun _ => True) (evalArgs m es) := by
  induction es with
  | nil => exact .pure hT trivial
  | cons e es ih =>
    have hfirst := (h e List.mem_cons_self).map hT (f := Lane.values) (Q := fun _ => True)
      fun _ _ => trivial
    refine hfirst.bind hT fun vs _ => ?_
    exact (ih fun e' he' => h e' (List.mem_cons_of_mem e he')).bind hT fun _ _ => .pure hT trivial

/-- The relation holds of a node if it does of the children and of writes to the target. What the
    node computes belongs to variables that it reaches. -/
theorem follows_eval (hT : Transition N T) (hW : Transition.Steps m W T) {e : Expr}
    (htarget : ∀ target ∈ e.target?, ∀ v, target.Reaches v → W v)
    (h : ∀ c ∈ e.children, Follows T (Lane.Owned c.Reaches) (c.eval m)) :
    Follows T (Lane.Owned e.Reaches) (e.eval m) := by
  have hvalue (ty : Ty) (vs : List α) :
      Follows T (Lane.Owned e.Reaches) (pure (m.temporaries ty vs) : Eval α _) :=
    .pure hT (Lane.owned_temporaries ty vs)
  have hvalues {c : Expr} (hc : c ∈ e.children) :
      Follows T (fun _ => True) (Lane.values <$> c.eval m) :=
    (h c hc).map hT fun _ _ => trivial
  have hstore {target : Expr} (ht : e.target? = some target) {ls : List (Lane α)}
      (hls : Lane.Owned target.Reaches ls) (vs : List α) :
      Follows T (fun _ => True) (store ls vs) :=
    .modify fun σ => State.store_of_steps hT hW σ (hls.mono (htarget target ht)) vs
  -- A child on the path to what is reached reaches no more than the node.
  have hpath {c : Expr} (hc : c ∈ e.children) (hreached : ∀ r ∈ c.reached, r ∈ e.reached) :
      Follows T (Lane.Owned e.Reaches) (c.eval m) :=
    (h c hc).mono fun _ hls => hls.mono fun _ ⟨r, hr, hv⟩ => ⟨r, hreached r hr, hv⟩
  cases e with
  | literal ty value => exact hvalue _ _
  | var ty name => exact .load hT ⟨_, List.mem_singleton_self _, rfl⟩ ty
  | builtin ty which => exact .load hT ⟨_, List.mem_singleton_self _, rfl⟩ ty
  -- An increment stores into what its operand evaluates to, every other operator only computes.
  | unary ty op operand =>
    have hoperand : operand ∈ (Expr.unary ty op operand).children := List.mem_singleton_self _
    unfold eval
    split
    · next hop =>
      refine (h _ hoperand).bind hT fun target ht => ?_
      exact (hstore (if_pos hop) ht _).bind hT fun _ _ => hvalue _ _
    · exact (hvalues hoperand).bind hT fun _ _ => hvalue _ _
  | binary ty op left right =>
    have hleft : left ∈ (Expr.binary ty op left right).children := List.mem_cons_self
    have hright : right ∈ (Expr.binary ty op left right).children := by simp [children]
    unfold eval
    split
    · -- An assignment does so too, after the right side has run.
      next hop =>
      refine (h _ hleft).bind hT fun target ht => (hvalues hright).bind hT fun vs _ => ?_
      exact (hstore (if_pos hop) ht _).bind hT fun _ _ => hvalue _ _
    · refine (hvalues hleft).bind hT fun ls _ => ?_
      split
      · exact hvalue _ _
      · exact (hvalues hright).bind hT fun _ _ => hvalue _ _
  | ternary ty cond ifTrue ifFalse =>
    refine (hvalues (c := cond) List.mem_cons_self).bind hT fun vs _ => ?_
    split
    · exact (hpath (by simp [children]) fun _ => List.mem_append_left _).map hT
        fun _ hls => hls.fit ty
    · exact (hpath (by simp [children]) fun _ => List.mem_append_right _).map hT
        fun _ hls => hls.fit ty
  | call ty callee args =>
    -- The condition may run anything; the lanes come from the arm it selects.
    have hargs := follows_evalArgs hT h
    cases callee with
    | intrinsic function => exact hargs.bind hT fun _ _ => hvalue _ _
    | user name =>
      refine hargs.bind hT fun vs _ => ?_
      -- A call may change whatever a function can.
      refine Follows.map hT (P := fun _ => True) (fun σ r τ hrun => ?_)
        fun _ _ => Lane.owned_temporaries ty _
      obtain ⟨reply, hreply, hend⟩ := Option.map_eq_some_iff.mp hrun
      cases hend
      exact ⟨hW.call σ hreply, fun _ _ => trivial⟩
  | swizzle ty base mask =>
    exact (hpath (c := base) List.mem_cons_self fun _ => id).map hT
      fun _ hls => (hls.pickLane _ mask).fit ty
  | index ty base position =>
    refine (hpath (c := base) List.mem_cons_self fun _ => id).bind hT fun ls hls => ?_
    exact (hvalues (c := position) (by simp [children])).bind hT fun _ _ =>
      .pure hT ((hls.past _ _).fit ty)
  | construct ty args => exact (follows_evalArgs hT h).bind hT fun _ _ => hvalue _ _
  | group ty inner =>
    exact (hpath (c := inner) List.mem_cons_self fun _ => id).map hT fun _ hls => hls.fit ty

end Expr

/-! ### Statements -/

namespace Behaviour.Follows

variable {A B : Behaviour α}

/-- An exit changes nothing. -/
theorem exit (hT : Transition N T) (o : Outcome α) : Follows T (exit o) := by
  rintro σ _ _ ⟨rfl, rfl⟩
  exact hT.refl _

/-- So does doing nothing. -/
theorem skip (hT : Transition N T) : Follows T (skip : Behaviour α) := exit hT .normal

/-- A change of state follows the transition if it makes one. -/
theorem change {f : State α → State α} (h : ∀ σ, T σ (f σ)) : Follows T (change f) := by
  rintro σ _ _ ⟨rfl, rfl⟩
  exact h σ

/-- Two behaviours in a row follow it if both do. -/
theorem seq (hT : Transition N T) (hA : Follows T A) (hB : Follows T B) :
    Follows T (seq A B) := by
  rintro σ o τ (⟨ρ, ha, hb⟩ | ⟨-, ha⟩)
  · exact hT.trans (hA ha) (hB hb)
  · exact hA ha

/-- The same where a `continue` goes on to the second. -/
theorem andThen (hT : Transition N T) (hA : Follows T A) (hB : Follows T B) :
    Follows T (andThen A B) := by
  rintro σ o τ (⟨o', ρ, ha, -, hb⟩ | ⟨-, ha⟩)
  · exact hT.trans (hA ha) (hB hb)
  · exact hA ha

/-- A scope follows it if what runs in it does. -/
theorem inScope (hT : Transition N T) (names : List String) (hA : Follows T A) :
    Follows T (inScope names A) := by
  rintro σ o _ ⟨ρ, ha, rfl⟩
  exact hT.leave names (hA ha)

/-- A behaviour after a value follows it if both do. -/
theorem after (hT : Transition N T) {P : β → Prop} {x : Eval α β} {k : β → Behaviour α}
    (hx : Eval.Follows T P x) (hk : ∀ b, P b → Follows T (k b)) : Follows T (after x k) := by
  intro σ o τ h
  unfold Behaviour.after at h
  cases hrun : x.run.run σ with
  | none =>
    rw [hrun] at h
    exact h.elim
  | some end_ =>
    -- The value may not have been reached, if the fragment was discarded.
    obtain ⟨r, ρ⟩ := end_
    rw [hrun] at h
    obtain ⟨hρ, hP⟩ := hx hrun
    cases r with
    | error d =>
      obtain ⟨-, rfl⟩ := h
      exact hρ
    | ok b => exact hT.trans hρ (hk b (hP b rfl) h)

/-- Catching a break changes no state. -/
theorem catchBreak (hA : Follows T A) : Follows T (catchBreak A) := by
  rintro σ o τ ⟨o', ha, -⟩
  exact hA ha

/-- Behaviours in a row follow it if each does. -/
theorem seqAll (hT : Transition N T) {As : List (Behaviour α)} (h : ∀ A ∈ As, Follows T A) :
    Follows T (seqAll As) := by
  induction As with
  | nil => exact skip hT
  | cons A As ih =>
    exact (h A List.mem_cons_self).seq hT (ih fun B hB => h B (List.mem_cons_of_mem A hB))

/-- What holds of every turn holds of the loop. -/
theorem forever (hT : Transition N T) {turn : Behaviour α} (h : Follows T turn) :
    Follows T (Forever turn) := by
  intro σ o τ hrun
  induction hrun with
  | again first _ _ ih => exact hT.trans (h first) ih
  | leave last _ _ => exact h last

end Behaviour.Follows

namespace Stmt

variable {Q : Expr → Prop}

/-- A list follows it if its statements do. -/
theorem follows_listBehaviour (hT : Transition N T) {ss : List Stmt}
    (h : ∀ s ∈ ss, Follows T (s.behaviour m)) : Follows T (listBehaviour m ss) := by
  induction ss with
  | nil => exact .skip hT
  | cons s ss ih =>
    exact (h s List.mem_cons_self).seq hT (ih fun t ht => h t (List.mem_cons_of_mem s ht))

/-- Cases follow it if the statements in them do. -/
theorem follows_caseBehaviours (hT : Transition N T) {cases : List Case}
    (h : ∀ c ∈ cases, ∀ s ∈ c.body, Follows T (s.behaviour m)) :
    ∀ b ∈ caseBehaviours m cases, Follows T b.2 := by
  induction cases with
  | nil => exact fun b hb => absurd hb List.not_mem_nil
  | cons c cases ih =>
    obtain ⟨label, body⟩ := c
    refine List.forall_mem_cons.mpr ⟨?_, ih fun c hc => h c (List.mem_cons_of_mem _ hc)⟩
    exact follows_listBehaviour hT (h (.mk label body) List.mem_cons_self)

/-- The relation holds of a statement if it does of its expressions. -/
theorem follows_behaviour (hT : Transition N T)
    (he : ∀ e, Q e → Eval.Follows T (fun _ => True) (e.values m)) (s : Stmt) (hs : s.Fits N Q) :
    Follows T (s.behaviour m) := by
  -- What conditions, tests and expressions do, from what is known of their values.
  have hbranch {cond : Expr} (hcond : Q cond) {A B : Behaviour α} (hA : Follows T A)
      (hB : Follows T B) : Follows T (branch m cond A B) := by
    refine .after hT (he cond hcond) fun vs _ => ?_
    split
    · exact hA
    · exact hB
  have htest {cond : Expr} (hcond : Q cond) : Follows T (test m cond) :=
    hbranch hcond (.skip hT) (.exit hT _)
  have heval {e : Expr} (h : Q e) : Follows T (after (e.eval m) fun _ => skip) := by
    rw [after_eval]
    exact .after hT (he e h) fun _ _ => .skip hT
  induction s with
  | block body ih =>
    rw [fits_block] at hs
    exact (follows_listBehaviour hT fun s h => ih s h (hs s h)).inScope hT _
  | decl d =>
    obtain ⟨hname, hinit⟩ := fits_decl.mp hs
    -- A declaration without an initializer still resets the local of its name.
    show Follows T (d.behaviour m)
    unfold Decl.behaviour
    split
    · exact .change fun σ => hT.setLocal σ hname _
    · next e heq =>
      exact .after hT (he e (hinit e heq)) fun vs _ => .change fun σ => hT.setLocal σ hname _
  -- Each branch is a scope, and an absent one does nothing.
  | ifElse cond thenBranch elseBranch iht ihe =>
    obtain ⟨hcond, hthen, helse⟩ := fits_ifElse.mp hs
    refine hbranch hcond ((iht hthen).inScope hT _) ?_
    cases elseBranch with
    | none => exact .skip hT
    | some s => exact (ihe s rfl (helse s rfl)).inScope hT _
  | forLoop init cond step body ihi ihb =>
    obtain ⟨hinit, hcond, hstep, hbody⟩ := fits_forLoop.mp hs
    have hfirst : Follows T (initBehaviour m init) := by
      cases init with
      | none => exact .skip hT
      | some s => exact ihi s rfl (hinit s rfl)
    have hcheck : Follows T (cond.elim skip (test m)) := by
      cases cond with
      | none => exact .skip hT
      | some e => exact htest (hcond e rfl)
    have hlast : Follows T (step.elim skip fun e => after (e.eval m) fun _ => skip) := by
      cases step with
      | none => exact .skip hT
      | some e => exact heval (hstep e rfl)
    -- A turn of the loop is the test, the body in a scope of its own and the step.
    have hturn := hcheck.seq hT (((ihb hbody).inScope hT body.declared).andThen hT hlast)
    exact (hfirst.seq hT (hturn.forever hT)).inScope hT _
  | whileLoop cond body ih =>
    obtain ⟨hcond, hbody⟩ := fits_whileLoop.mp hs
    exact ((htest hcond).seq hT ((ih hbody).inScope hT _)).forever hT
  | doWhile body cond ih =>
    obtain ⟨hcond, hbody⟩ := fits_doWhile.mp hs
    exact (((ih hbody).inScope hT _).andThen hT (htest hcond)).forever hT
  | switchOn value cases ih =>
    obtain ⟨hvalue, hcases⟩ := fits_switchOn.mp hs
    refine .after hT (he value hvalue) fun vs _ => .catchBreak (.inScope hT _ (.seqAll hT ?_))
    intro b hb
    -- The selected cases are among the cases.
    obtain ⟨c, hc, rfl⟩ := List.mem_map.mp hb
    refine follows_caseBehaviours hT (fun c hc s h => ?_) c (mem_of_mem_selected hc)
    obtain ⟨label, body⟩ := c
    exact ih label body hc s h (hcases _ hc s h)
  | expr e => exact heval (fits_expr.mp hs)
  | returnWith value =>
    cases value with
    | none => exact .exit hT _
    | some e => exact .after hT (he e (fits_returnWith.mp hs e rfl)) fun _ _ => .exit hT _
  | breakOut => exact .exit hT _
  | continueLoop => exact .exit hT _
  | discard => exact .exit hT _
  | emitVertex => exact .change hT.emitVertex
  | endPrimitive => exact .change hT.endPrimitive

end Stmt

end ShaderGen
