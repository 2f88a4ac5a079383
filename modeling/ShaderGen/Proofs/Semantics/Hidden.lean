import ShaderGen.Expr.Traverse
import ShaderGen.Proofs.Semantics.Evaluation

/-!
# Variables that a program does not know of

A rewriting rule may add variables of its own. What is left of a state without them is
`State.visible`. An expression that does not mention them computes the same from states that look
the same, and leaves them alone.

## Key results

- `Expr.blind_eval`: an expression does not see what it does not mention
-/

namespace ShaderGen

variable {α β γ : Type} (hidden : String → Bool)

/-- Whether a variable has a hidden name. -/
def Variable.isHidden : Variable → Bool
  | .named name => hidden name
  | .builtin _ => false

/-- Whether an action writes a variable with a hidden name. -/
def Action.isHidden : Action α → Bool
  | .write cell _ => cell.owner.isHidden hidden
  | _ => false

/-- Whether an expression refers to a variable with a hidden name. -/
def Expr.mentions (e : Expr) : Bool :=
  e.any fun
    | .var _ name => hidden name
    | _ => false

namespace State

/-- What can be seen of a state: not the locals with hidden names, nor that they were written. -/
def visible (σ : State α) : State α where
  shared := σ.shared
  locals x := if hidden x then none else σ.locals x
  trace := σ.trace.filter fun action => !action.isHidden hidden

/-- Locals with hidden names are the same, some names aside. -/
def Keeps (names : List String) (σ τ : State α) : Prop :=
  ∀ x, hidden x = true → x ∉ names → τ.locals x = σ.locals x

variable {hidden} {σ τ ρ : State α} {names : List String}

/-- A state keeps its own names. -/
theorem Keeps.refl : σ.Keeps hidden names σ := fun _ _ _ => rfl

/-- What two runs in a row keep, the whole keeps. -/
theorem Keeps.trans (h : σ.Keeps hidden names ρ) (h' : ρ.Keeps hidden names τ) :
    σ.Keeps hidden names τ :=
  fun x hx hn => (h' x hx hn).trans (h x hx hn)

/-- More names may change, and the rest is kept. -/
theorem Keeps.mono {names' : List String} (h : σ.Keeps hidden names τ)
    (hsub : ∀ x ∈ names, x ∈ names') : σ.Keeps hidden names' τ :=
  fun x hx hn => h x hx fun hmem => hn (hsub x hmem)

/-- A name in sight has one content, whether the others are forgotten or not. -/
theorem read_visible {v : Variable} (h : v.isHidden hidden = false) (σ : State α) :
    (σ.visible hidden).read v = σ.read v := by
  cases v with
  | builtin which => rfl
  | named name =>
    have hname : hidden name = false := h
    simp [read, visible, hname]

/-- Setting a local in sight and forgetting the others may be done in either order. -/
theorem visible_setLocal {name : String} (h : hidden name = false)
    (content : Option (Nat → α)) (σ : State α) :
    (σ.setLocal name content).visible hidden = (σ.visible hidden).setLocal name content := by
  simp only [visible, setLocal, State.mk.injEq, true_and, and_true]
  funext x
  by_cases hx : x = name
  · subst hx
    simp [h]
  · simp [hx]

/-- Setting a hidden local changes nothing in sight. -/
theorem visible_setLocal_of_hidden {name : String} (h : hidden name = true)
    (content : Option (Nat → α)) (σ : State α) :
    (σ.setLocal name content).visible hidden = σ.visible hidden := by
  simp only [visible, setLocal, State.mk.injEq, true_and, and_true]
  funext x
  by_cases hx : x = name
  · subst hx
    simp [h]
  · simp [hx]

/-- An action in sight is done in either order with forgetting. -/
theorem visible_act {action : Action α} (h : action.isHidden hidden = false) (σ : State α) :
    (σ.act action).visible hidden = (σ.visible hidden).act action := by
  simp [visible, act, h]

/-- A hidden action leaves no trace in sight. -/
theorem visible_act_of_hidden {action : Action α} (h : action.isHidden hidden = true)
    (σ : State α) : (σ.act action).visible hidden = σ.visible hidden := by
  simp [visible, act, h]

/-- A write in sight and forgetting may be done in either order. -/
theorem visible_write {cell : Cell} (h : cell.owner.isHidden hidden = false) (value : α)
    (σ : State α) :
    (σ.write cell value).visible hidden = (σ.visible hidden).write cell value := by
  unfold write
  rw [visible_act (show (Action.write cell value).isHidden hidden = false from h)]
  -- Only a name can be a local, and a name that is in sight is one on both sides.
  cases howner : cell.owner with
  | builtin which => rfl
  | named name =>
    have hname : hidden name = false := by
      rw [howner] at h
      exact h
    have hlocal : (σ.visible hidden).locals name = σ.locals name := by simp [visible, hname]
    simp only [hlocal]
    cases σ.locals name with
    | none => rfl
    | some content => rw [visible_setLocal hname]

/-- A write in sight does not reach a hidden local. -/
theorem keeps_write {cell : Cell} (h : cell.owner.isHidden hidden = false) (value : α)
    (σ : State α) : σ.Keeps hidden [] (σ.write cell value) := by
  intro x hx _
  unfold write
  cases howner : cell.owner with
  | builtin which => rfl
  -- The name written is in sight, so it is no hidden one.
  | named name =>
    have hne : x ≠ name := by
      rintro rfl
      simp [howner, Variable.isHidden, hx] at h
    dsimp only
    cases σ.locals name with
    | none => rfl
    | some content => exact if_neg hne

/-- Names that are hidden on one side only make no difference at the end of a scope. -/
theorem visible_leave {σ' start start' : State α} {names names' : List String}
    (h : σ.visible hidden = σ'.visible hidden)
    (hstart : start.visible hidden = start'.visible hidden)
    (hnames : ∀ x, hidden x = false → (x ∈ names' ↔ x ∈ names)) :
    (σ.leave start names).visible hidden = (σ'.leave start' names').visible hidden := by
  -- Shared variables and the trace do not change on leaving, so only the locals are looked at.
  simp only [visible, State.mk.injEq] at h hstart
  obtain ⟨hshared, hlocals, htrace⟩ := h
  simp only [visible, leave, State.mk.injEq, hshared, htrace, and_true, true_and]
  funext x
  cases hx : hidden x with
  | true => rfl
  | false =>
    -- A name in sight is given back on both sides, or on neither.
    have hsame := congrFun hlocals x
    have hsame' := congrFun hstart.2.1 x
    simp only [hx, Bool.false_eq_true, if_false] at hsame hsame' ⊢
    simp only [hnames x hx, hsame, hsame']

end State

/-- No component stands for a variable with a hidden name. -/
def Lane.Visible (ls : List (Lane α)) : Prop := Owned (fun v => v.isHidden hidden = false) ls

namespace Lane

variable {hidden} {m : Machine α} {ls : List (Lane α)}

/-- Temporaries have no cells to hide. -/
theorem visible_temporaries (ty : Ty) (vs : List α) : Visible hidden (m.temporaries ty vs) :=
  owned_temporaries ty vs

/-- The lanes of a variable in sight are in sight. -/
theorem visible_lanes {v : Variable} (h : v.isHidden hidden = false) (ty : Ty) (content : Nat → α) :
    Visible hidden (v.lanes ty content) :=
  owned_lanes h ty content

/-- Fitting to a type adds no cell. -/
theorem Visible.fit (h : Visible hidden ls) (ty : Ty) : Visible hidden (m.fit ty ls) :=
  Owned.fit h ty

/-- Indexing adds no cell. -/
theorem Visible.past (h : Visible hidden ls) (n : Nat) (i : Int) :
    Visible hidden (Machine.past n ls i) :=
  Owned.past h n i

/-- Picking lanes adds no cell. -/
theorem Visible.pickLane (h : Visible hidden ls) (kind : ScalarKind) (mask : Mask) :
    Visible hidden (mask.map (m.pickLane kind ls)) :=
  Owned.pickLane h kind mask

end Lane

namespace State

variable {hidden}

/-- A store in sight may be done in either order with forgetting, and keeps hidden locals. -/
theorem visible_store {ls : List (Lane α)} (h : Lane.Visible hidden ls) (vs : List α)
    (σ : State α) :
    (σ.store ls vs).visible hidden = (σ.visible hidden).store ls vs ∧
      σ.Keeps hidden [] (σ.store ls vs) := by
  induction ls generalizing vs σ with
  -- Values are stored one lane after the other, and a lane without a cell takes none.
  | nil => cases vs <;> exact ⟨rfl, .refl⟩
  | cons l ls ih =>
    have hls : Lane.Visible hidden ls := fun l' hl' => h l' (List.mem_cons_of_mem l hl')
    obtain ⟨value, cell?⟩ := l
    cases vs with
    | nil => cases cell? <;> exact ⟨rfl, .refl⟩
    | cons v vs =>
      cases cell? with
      | none => exact ih hls vs σ
      | some cell =>
        have hcell := h _ List.mem_cons_self cell rfl
        obtain ⟨hvisible, hkeeps⟩ := ih hls vs (σ.write cell v)
        exact ⟨hvisible.trans (by rw [visible_write hcell]; rfl),
          (keeps_write hcell v σ).trans hkeeps⟩

end State

/-! ### Computations that do not see what is hidden -/

namespace Eval

/-- From states that look the same the computation does the same; it leaves hidden locals alone,
    and what it computes has a property. -/
def Blind (P : β → Prop) (x : Eval α β) : Prop :=
  ∀ σ σ' : State α, σ.visible hidden = σ'.visible hidden →
    Option.Rel (fun r r' => r'.1 = r.1 ∧ r.2.visible hidden = r'.2.visible hidden ∧
      σ'.Keeps hidden [] r'.2 ∧ ∀ b, r.1 = .ok b → P b) (x.run.run σ) (x.run.run σ')

variable {hidden} {P : β → Prop} {Q : γ → Prop} {x : Eval α β}

/-- A value alone reads nothing. -/
theorem blind_pure {b : β} (h : P b) : Blind hidden P (pure b : Eval α β) := by
  intro σ σ' hσ
  refine .some ⟨rfl, hσ, .refl, fun b' hb' => ?_⟩
  cases hb'
  exact h

/-- What two parts do not see, the two together do not see. -/
theorem Blind.bind {f : β → Eval α γ} (hx : Blind hidden P x)
    (hf : ∀ b, P b → Blind hidden Q (f b)) : Blind hidden Q (x >>= f) := by
  intro σ σ' hσ
  rw [ExceptT.run_bind, StateT.run_bind, StateT.run_bind]
  have h := hx σ σ' hσ
  generalize x.run.run σ = r, x.run.run σ' = r' at h
  -- The computation goes on only where both sides returned, with the same result.
  cases h with
  | none => exact .none
  | @some r r' h =>
    obtain ⟨r, τ⟩ := r
    obtain ⟨r', τ'⟩ := r'
    obtain ⟨hr, hτ, hkeeps, hP⟩ := h
    cases hr
    cases r with
    | error d => exact .some ⟨rfl, hτ, hkeeps, nofun⟩
    | ok b =>
      have hnext := hf b (hP b rfl) τ τ' hτ
      show Option.Rel _ ((f b).run.run τ) ((f b).run.run τ')
      generalize (f b).run.run τ = s, (f b).run.run τ' = s' at hnext
      cases hnext with
      | none => exact .none
      | some h =>
        obtain ⟨hs, hvisible, hkeeps', hQ⟩ := h
        exact .some ⟨hs, hvisible, hkeeps.trans hkeeps', hQ⟩

/-- A function of the value sees no state. -/
theorem Blind.map {f : β → γ} (hx : Blind hidden P x) (hf : ∀ b, P b → Q (f b)) :
    Blind hidden Q (f <$> x) := by
  rw [← bind_pure_comp]
  exact hx.bind fun b hb => blind_pure (hf b hb)

/-- A variable in sight is read without regard to hidden ones. -/
theorem blind_load {v : Variable} (h : v.isHidden hidden = false) (ty : Ty) :
    Blind hidden (Lane.Visible hidden) (load v ty : Eval α (List (Lane α))) := by
  intro σ σ' hσ
  -- The variable is not hidden, so both states hold the same of it.
  have hread : σ'.read v = σ.read v := by
    rw [← State.read_visible h, ← hσ, State.read_visible h]
  refine .some ⟨?_, hσ, .refl, fun ls hls => ?_⟩
  · show Except.ok (v.lanes ty (σ'.read v)) = .ok (v.lanes ty (σ.read v))
    rw [hread]
  · cases hls
    exact Lane.visible_lanes h ty _

/-- A store to cells in sight is made without regard to hidden names. -/
theorem blind_store {ls : List (Lane α)} (h : Lane.Visible hidden ls) (vs : List α) :
    Blind hidden (fun _ => True) (store ls vs) := by
  intro σ σ' hσ
  obtain ⟨hvisible, -⟩ := State.visible_store h vs σ
  obtain ⟨hvisible', hkeeps⟩ := State.visible_store h vs σ'
  exact .some ⟨rfl, by rw [hvisible, hσ, hvisible'], hkeeps, fun _ _ => trivial⟩

/-- A call reads the shared variables alone, and these are in sight. -/
theorem blind_call (m : Machine α) (name : String) (args : List (Ty × List α)) :
    Blind hidden (fun _ => True) (call m name args) := by
  intro σ σ' hσ
  simp only [State.visible, State.mk.injEq] at hσ
  -- The reply is the same, and what it adds to the trace is added on both sides.
  obtain ⟨hshared, hlocals, htrace⟩ := hσ
  show Option.Rel _ ((m.call name args σ.shared).map _) ((m.call name args σ'.shared).map _)
  rw [← hshared]
  cases m.call name args σ.shared with
  | none => exact .none
  | some reply =>
    refine .some ⟨rfl, ?_, fun _ _ _ => rfl, fun _ _ => trivial⟩
    simp only [State.visible, List.filter_append, htrace, hlocals]

end Eval

namespace Expr

open Eval

variable {hidden} (m : Machine α)

/-- Arguments are evaluated one after the other, each without regard to hidden names. -/
theorem blind_evalArgs {es : List Expr}
    (h : ∀ e ∈ es, Blind hidden (Lane.Visible hidden) (e.eval m)) :
    Blind hidden (fun _ => True) (evalArgs m es) := by
  induction es with
  | nil => exact blind_pure trivial
  | cons e es ih =>
    have hes := ih fun e' he' => h e' (List.mem_cons_of_mem e he')
    have he : Blind hidden (fun _ => True) (Lane.values <$> e.eval m) :=
      (h e List.mem_cons_self).map fun _ _ => trivial
    exact he.bind fun _ _ => hes.bind fun _ _ => blind_pure trivial

/-! ### What the operands mention -/

section

variable (hidden) (ty : Ty)

/-- A name is mentioned in an operator if it is in an operand. -/
theorem mentions_binary (op : BinaryOp) (left right : Expr) :
    (binary ty op left right).mentions hidden =
      (left.mentions hidden || right.mentions hidden) := rfl

/-- A name is mentioned in a choice if it is in the condition or an arm. -/
theorem mentions_ternary (cond ifTrue ifFalse : Expr) :
    (ternary ty cond ifTrue ifFalse).mentions hidden =
      (cond.mentions hidden || ifTrue.mentions hidden || ifFalse.mentions hidden) := rfl

/-- A name is mentioned in an index if it is in the base or the position. -/
theorem mentions_index (base position : Expr) :
    (index ty base position).mentions hidden =
      (base.mentions hidden || position.mentions hidden) := rfl

/-- A name is mentioned in a call if it is in an argument. -/
theorem mentions_call (callee : Callee) (args : List Expr) :
    (call ty callee args).mentions hidden = args.any (mentions hidden) :=
  anyList_eq_any _ args

/-- A name is mentioned in a constructor if it is in an argument. -/
theorem mentions_construct (args : List Expr) :
    (construct ty args).mentions hidden = args.any (mentions hidden) :=
  anyList_eq_any _ args

end

/-- An expression does not see what it does not mention. -/
theorem blind_eval (e : Expr) : e.mentions hidden = false →
    Blind hidden (Lane.Visible hidden) (e.eval m) := by
  -- What only the value of an operand is needed for does not depend on its cells.
  have values {e : Expr} (h : Blind hidden (Lane.Visible hidden) (e.eval m)) :
      Blind hidden (fun _ => True) (Lane.values <$> e.eval m) := h.map fun _ _ => trivial
  have temporaries (ty : Ty) (vs : List α) :
      Blind hidden (Lane.Visible hidden) (pure (m.temporaries ty vs) : Eval α (List (Lane α))) :=
    blind_pure (Lane.visible_temporaries ty vs)
  induction e with
  | literal ty value => exact fun _ => temporaries _ _
  | var ty name =>
    intro h
    have hname : Variable.isHidden hidden (.named name) = false := h
    exact blind_load hname ty
  | builtin ty which => exact fun _ => blind_load rfl ty
  | unary ty op operand ih =>
    intro h
    have hoperand := ih h
    simp only [eval]
    -- The operators that write need the cells of the operand, the others its value.
    split
    · refine hoperand.bind fun target htarget => ?_
      exact (blind_store htarget _).bind fun _ _ => temporaries _ _
    · exact (values hoperand).bind fun _ _ => temporaries _ _
  | binary ty op left right ihl ihr =>
    intro h
    rw [mentions_binary, Bool.or_eq_false_iff] at h
    have hleft := ihl h.1
    have hright := ihr h.2
    simp only [eval]
    split
    · -- The cells of the target matter as well, as it is written to.
      refine hleft.bind fun target htarget => (values hright).bind fun vs _ => ?_
      exact (blind_store htarget _).bind fun _ _ => temporaries _ _
    · refine (values hleft).bind fun ls _ => ?_
      -- A short-circuit operator may stop before the right operand.
      split
      · exact temporaries _ _
      · exact (values hright).bind fun _ _ => temporaries _ _
  | ternary ty cond ifTrue ifFalse ihc iht ihf =>
    intro h
    rw [mentions_ternary, Bool.or_eq_false_iff, Bool.or_eq_false_iff] at h
    refine (values (ihc h.1.1)).bind fun vs _ => ?_
    split
    · exact (iht h.1.2).map fun _ hls => hls.fit ty
    · exact (ihf h.2).map fun _ hls => hls.fit ty
  | call ty callee args ih =>
    intro h
    rw [mentions_call, List.any_eq_false] at h
    have hargs := blind_evalArgs m fun e he => ih e he (eq_false_of_ne_true (h e he))
    cases callee with
    | intrinsic function => exact hargs.bind fun _ _ => temporaries _ _
    | user name =>
      refine hargs.bind fun vs _ => (blind_call m name vs).map fun _ _ => ?_
      exact Lane.visible_temporaries _ _
  | swizzle ty base mask ih =>
    exact fun h => (ih h).map fun _ hls => (hls.pickLane _ mask).fit ty
  | index ty base position ihb ihp =>
    intro h
    rw [mentions_index, Bool.or_eq_false_iff] at h
    -- The position is only a value, but the base is a target, too.
    refine (ihb h.1).bind fun ls hls => (values (ihp h.2)).bind fun place _ => ?_
    exact blind_pure ((hls.past _ _).fit ty)
  | construct ty args ih =>
    intro h
    rw [mentions_construct, List.any_eq_false] at h
    have hargs := blind_evalArgs m fun e he => ih e he (eq_false_of_ne_true (h e he))
    exact hargs.bind fun _ _ => temporaries _ _
  | group ty inner ih => exact fun h => (ih h).map fun _ hls => hls.fit ty

/-- So is its value. -/
theorem blind_values {e : Expr} (h : e.mentions hidden = false) :
    Blind hidden (fun _ => True) (e.values m) :=
  (blind_eval m e h).map fun _ _ => trivial

end Expr

end ShaderGen
