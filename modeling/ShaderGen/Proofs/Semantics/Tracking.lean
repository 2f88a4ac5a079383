import ShaderGen.Proofs.Children
import ShaderGen.Proofs.Semantics.Congruence
import ShaderGen.Proofs.Semantics.Hidden

/-!
# Added variables and functions

A rule may add variables and functions of its own, with names that the program does not use. A
program with them is compared with the one without by what is left of its states and its traces: not
the variables with added names, not that they were written, and not that a function with such a name
was called. An expression tracks another if it computes the same from such states, and changes of
the added variables only those that it is said to (`Expr.Tracks`).

## Key results

- `Expr.tracks_withChildren`: a node tracks another if its children do
- `Eval.Tracks.frame`: what is not among the variables of an expression stays as it is
-/

namespace ShaderGen

open Behaviour

variable {α β γ : Type} (added : String → Bool)

/-- Whether an action writes a variable or calls a function with an added name. -/
def Action.isAdded : Action α → Bool
  | .write cell _ => cell.owner.isHidden added
  | .call name _ => added name
  | _ => false

/-- What is left of a trace without the added names. -/
def seen (actions : List (Action α)) : List (Action α) := actions.filter fun a => !a.isAdded added

/-- Replies that differ in added names only. -/
structure Reply.Alike (r r' : Reply α) : Prop where
  result : r'.result = r.result
  shared : r'.shared = r.shared
  actions : seen added r'.actions = seen added r.actions

/-- Machines that differ in the functions of the program. A function without an added name gives a
    reply on both or on none, and the replies differ in added names only. -/
def Machine.Alike (m m' : Machine α) : Prop :=
  ∃ call, m' = m.withCalls call ∧ ∀ name args shared, added name = false →
    Option.Rel (Reply.Alike added) (m.call name args shared) (call name args shared)

/-- The second state is the first, save for added names, and what was done before it started is
    not in its trace. -/
structure State.Shadows (before : List (Action α)) (σ σ' : State α) : Prop where
  shared : σ'.shared = σ.shared
  locals : ∀ x, added x = false → σ'.locals x = σ.locals x
  trace : seen added σ.trace = before ++ seen added σ'.trace

/-- The second state shadows the first and has certain added variables as locals. -/
structure State.Equipped (before : List (Action α)) (names : List String) (σ σ' : State α) :
    Prop extends State.Shadows added before σ σ' where
  declares : ∀ x ∈ names, added x = true ∧ (σ'.locals x).isSome

/-- The second state is equipped with certain added variables, and is like the state that it started
    from in all other locals with added names. -/
structure State.Tracked (before : List (Action α)) (names : List String) (start σ σ' : State α) :
    Prop extends State.Equipped added before names σ σ' where
  keeps : start.Keeps added names σ'

/-- The same component. Where the second can be written and the first cannot, it belongs to one of
    certain added variables. -/
inductive Lane.Tracks (names : List String) : Lane α → Lane α → Prop
  | same (l : Lane α) (h : ∀ cell, l.cell? = some cell → cell.owner.isHidden added = false) :
    Tracks names l l
  | lost (value : α) (cell? : Option Cell)
    (h : ∀ cell, cell? = some cell → ∃ x ∈ names, cell.owner = .named x) :
    Tracks names ⟨value, none⟩ ⟨value, cell?⟩

/-- The second computation does what the first does, and changes of the added variables only certain
    ones, which are locals. -/
def Eval.Tracks (names : List String) (R : β → γ → Prop) (x : Eval α β) (y : Eval α γ) : Prop :=
  ∀ before start, Continues (State.Tracked added before names start) R x y

/-- The second expression computes what the first does, and changes of the added variables only
    certain ones, which are locals. -/
structure Expr.Tracks (m m' : Machine α) (names : List String) (e e' : Expr) : Prop where
  ty_eq : e'.ty = e.ty
  eval : Eval.Tracks added names (List.Forall₂ (Lane.Tracks added names)) (e.eval m) (e'.eval m')

variable {added}

/-- What is seen of two runs in a row is seen of each. -/
@[simp] theorem seen_append (as bs : List (Action α)) :
    seen added (as ++ bs) = seen added as ++ seen added bs :=
  List.filter_append ..

/-! ### States -/

namespace State

variable {before : List (Action α)} {names : List String} {start σ σ' : State α}

/-- Actions that look alike keep the states alike. -/
theorem Shadows.act {action action' : Action α} (h : σ.Shadows added before σ')
    (haction : seen added [action] = seen added [action']) :
    (σ.act action).Shadows added before (σ'.act action') where
  shared := h.shared
  locals := h.locals
  trace := by
    show seen added (σ.trace ++ [action]) = before ++ seen added (σ'.trace ++ [action'])
    rw [seen_append, seen_append, h.trace, haction, List.append_assoc]

/-- The added action is not seen. -/
theorem Shadows.act_right {action : Action α} (h : σ.Shadows added before σ')
    (haction : action.isAdded added = true) : σ.Shadows added before (σ'.act action) where
  shared := h.shared
  locals := h.locals
  trace := by
    show seen added σ.trace = before ++ seen added (σ'.trace ++ [action])
    rw [seen_append, h.trace]
    simp [seen, haction]

/-- Setting the same local on both sides keeps them alike. -/
theorem Shadows.setLocal (h : σ.Shadows added before σ') (name : String)
    (content : Option (Nat → α)) :
    (σ.setLocal name content).Shadows added before (σ'.setLocal name content) where
  shared := h.shared
  locals x hx := by
    show (if x = name then content else σ'.locals x) = if x = name then content else σ.locals x
    rw [h.locals x hx]
  trace := h.trace

/-- Setting an added local keeps them alike, as it is not seen. -/
theorem Shadows.setLocal_right {name : String} (h : σ.Shadows added before σ')
    (hname : added name = true) (content : Option (Nat → α)) :
    σ.Shadows added before (σ'.setLocal name content) where
  shared := h.shared
  locals x hx := by
    have hne : x ≠ name := by
      rintro rfl
      simp [hname] at hx
    exact (if_neg hne).trans (h.locals x hx)
  trace := h.trace

/-- What is in sight reads the same. -/
theorem Shadows.read_eq {v : Variable} (h : σ.Shadows added before σ')
    (hv : v.isHidden added = false) : σ'.read v = σ.read v := by
  cases v with
  | builtin which => exact congrFun h.shared _
  | named name => rw [read, read, h.shared, h.locals name hv]

/-- Leaving a scope on both sides keeps them alike. -/
theorem Shadows.leave {ρ ρ' : State α} (h : ρ.Shadows added before ρ')
    (hstart : σ.Shadows added before σ') (names : List String) :
    (ρ.leave σ names).Shadows added before (ρ'.leave σ' names) where
  shared := h.shared
  locals x hx := by
    show (if x ∈ names then σ'.locals x else ρ'.locals x) =
      if x ∈ names then σ.locals x else ρ.locals x
    rw [h.locals x hx, hstart.locals x hx]
  trace := h.trace

/-- A write that both states see. -/
theorem Shadows.write {cell : Cell} (h : σ.Shadows added before σ')
    (hcell : cell.owner.isHidden added = false) (value : α) :
    (σ.write cell value).Shadows added before (σ'.write cell value) := by
  have hshared : (σ.setShared cell value).Shadows added before (σ'.setShared cell value) :=
    { h with
      shared := by
        funext v i
        show (if _ then value else σ'.shared v i) = if _ then value else σ.shared v i
        rw [h.shared] }
  unfold State.write
  cases howner : cell.owner with
  | builtin which => exact hshared.act rfl
  | named name =>
    rw [howner] at hcell
    dsimp only
    -- Both states have a local with the name or neither has, so both write to the same place.
    rw [h.locals name hcell]
    cases σ.locals name with
    | none => exact hshared.act rfl
    | some content => exact (h.setLocal name _).act rfl

/-- A write to a local with an added name is not seen. -/
theorem Shadows.write_right {cell : Cell} {name : String} {content : Nat → α}
    (h : σ.Shadows added before σ') (howner : cell.owner = .named name)
    (hname : added name = true) (hlocal : σ'.locals name = some content) (value : α) :
    σ.Shadows added before (σ'.write cell value) := by
  unfold State.write
  -- The cell belongs to a local variable, and one that is hidden.
  rw [howner]
  dsimp only
  rw [hlocal]
  refine (h.setLocal_right hname _).act_right ?_
  show cell.owner.isHidden added = true
  rw [howner]
  exact hname

/-- Which locals there are is not changed by writing. -/
theorem isSome_locals_write (cell : Cell) (value : α) (σ : State α) (x : String) :
    ((σ.write cell value).locals x).isSome = (σ.locals x).isSome := by
  unfold State.write
  cases cell.owner with
  | builtin which => rfl
  | named name =>
    dsimp only
    -- A write to a local leaves it a local; any other write is to something shared.
    cases hlocal : σ.locals name with
    | none => rfl
    | some content =>
      show (if x = name then _ else σ.locals x).isSome = _
      split
      · next hx => rw [hx, hlocal]; rfl
      · rfl

/-- Writing a cell changes no local of another name. -/
theorem locals_write_of_ne {cell : Cell} {x : String} (h : cell.owner ≠ .named x) (value : α)
    (σ : State α) : (σ.write cell value).locals x = σ.locals x := by
  unfold State.write
  cases howner : cell.owner with
  | builtin which => rfl
  | named name =>
    -- A write to another name leaves the local as it is.
    have hne : x ≠ name := by
      rintro rfl
      exact h howner
    dsimp only
    cases σ.locals name with
    | none => rfl
    | some content => exact if_neg hne

namespace Equipped

variable (h : σ.Equipped added before names σ')

include h

/-- The same value is written to the same cell. -/
theorem write {cell : Cell} (hcell : cell.owner.isHidden added = false) (value : α) :
    (σ.write cell value).Equipped added before names (σ'.write cell value) where
  toShadows := h.toShadows.write hcell value
  declares x hx := by
    rw [isSome_locals_write]
    exact h.declares x hx

/-- A temporary may be written on one side alone, as it is a declared local. -/
theorem write_right {cell : Cell} {name : String} (hname : name ∈ names)
    (howner : cell.owner = .named name) (value : α) :
    σ.Equipped added before names (σ'.write cell value) where
  toShadows := by
    obtain ⟨hadded, hsome⟩ := h.declares name hname
    obtain ⟨content, hlocal⟩ := Option.isSome_iff_exists.mp hsome
    exact h.toShadows.write_right howner hadded hlocal value
  declares x hx := by
    rw [isSome_locals_write]
    exact h.declares x hx

/-- Declaring a temporary on one side equips the state with it. -/
theorem declare_right {name : String} (hname : added name = true) (content : Nat → α) :
    σ.Equipped added before (names ++ [name]) (σ'.setLocal name (some content)) where
  toShadows := h.toShadows.setLocal_right hname _
  declares x hx := by
    show added x = true ∧ (if x = name then some content else σ'.locals x).isSome
    -- The new name has a local of its own, and the others keep theirs.
    rcases List.mem_append.mp hx with hx | hx
    · refine ⟨(h.declares x hx).1, ?_⟩
      split
      · rfl
      · exact (h.declares x hx).2
    · obtain rfl := List.mem_singleton.mp hx
      exact ⟨hname, by rw [if_pos rfl]; rfl⟩

end Equipped

/-- Without temporaries, being equipped is being alike. -/
theorem equipped_nil : Equipped added before [] = Shadows added before (α := α) :=
  funext fun _ => funext fun _ => propext ⟨fun h => h.toShadows, fun h => ⟨h, nofun⟩⟩

/-- What statements do themselves leaves the added locals where they are. -/
theorem scoped_equipped : Scoped (Equipped added before names (α := α)) where
  leave within h hstart := by
    refine ⟨h.toShadows.leave hstart.toShadows within, fun x hx => ⟨(h.declares x hx).1, ?_⟩⟩
    -- A temporary is declared before the scope is entered, so it stays declared after it.
    show (if x ∈ within then _ else _ : Option (Nat → α)).isSome
    split
    · exact (hstart.declares x hx).2
    · exact (h.declares x hx).2
  setLocal name content h := by
    refine ⟨h.toShadows.setLocal name _, fun x hx => ⟨(h.declares x hx).1, ?_⟩⟩
    show (if x = name then _ else _ : Option (Nat → α)).isSome
    split
    · rfl
    · exact (h.declares x hx).2
  emitVertex {σ σ'} h := by
    refine ⟨h.toShadows.act ?_, h.declares⟩
    rw [h.shared]
  endPrimitive h := ⟨h.toShadows.act rfl, h.declares⟩

/-- The same values are stored to tracked lanes. -/
theorem Tracked.store {ls ls' : List (Lane α)}
    (hls : List.Forall₂ (Lane.Tracks added names) ls ls') (vs : List α)
    (h : Tracked added before names start σ σ') :
    Tracked added before names start (σ.store ls vs) (σ'.store ls' vs) := by
  induction hls generalizing vs σ σ' with
  | nil => cases vs <;> exact h
  | @cons l l' ls ls' hl _ ih =>
    cases vs with
    | nil =>
      have hnil (σ : State α) (l : Lane α) (ls : List (Lane α)) : σ.store (l :: ls) [] = σ := by
        obtain ⟨_, cell?⟩ := l
        cases cell? <;> rfl
      rw [hnil, hnil]
      exact h
    | cons v vs =>
      -- A component that both sides can write is not an added one. One that only the second side
      -- can write is, and writing it is not seen.
      cases hl with
      | same _ hvisible =>
        obtain ⟨value, cell?⟩ := l
        cases cell? with
        | none => exact ih vs h
        | some cell =>
          have hcell := hvisible cell rfl
          exact ih vs ⟨h.toEquipped.write hcell v,
            h.keeps.trans ((keeps_write hcell v σ').mono nofun)⟩
      | lost value cell? hnames =>
        cases cell? with
        | none => exact ih vs h
        | some cell =>
          obtain ⟨x, hx, howner⟩ := hnames cell rfl
          refine ih vs ⟨h.toEquipped.write_right hx howner v, h.keeps.trans fun y _ hy => ?_⟩
          refine locals_write_of_ne (fun heq => hy ?_) v σ'
          obtain rfl : x = y := Variable.named.inj (howner.symm.trans heq)
          exact hx

end State

/-! ### Components -/

namespace Lane

open List (Forall₂)

variable {names : List String} {ls ls' : List (Lane α)} {l l' : Lane α}

/-- Tracked lanes have one value. -/
theorem Tracks.value_eq (h : Lane.Tracks added names l l') : l'.value = l.value := by
  cases h <;> rfl

/-- So do lists of them. -/
theorem values_eq_of_tracks (h : Forall₂ (Lane.Tracks added names) ls ls') :
    Lane.values ls' = Lane.values ls := by
  induction h with
  | nil => rfl
  | cons hl _ ih => exact congrArg₂ List.cons hl.value_eq ih

/-- Lanes that track with few temporaries track with more. -/
theorem Tracks.mono {big : List String} (h : Lane.Tracks added names l l')
    (hsub : ∀ x ∈ names, x ∈ big) : Lane.Tracks added big l l' := by
  cases h with
  | same _ hvisible => exact .same _ hvisible
  | lost value cell? hcell =>
    refine .lost value cell? fun cell hc => ?_
    obtain ⟨x, hx, howner⟩ := hcell cell hc
    exact ⟨x, hsub x hx, howner⟩

/-- Lanes of variables in sight track themselves. -/
theorem tracks_of_visible (h : Lane.Visible added ls) : Forall₂ (Lane.Tracks added names) ls ls :=
  List.forall₂_same.mpr fun l hl => .same l (h l hl)

/-- What is past the end of a list has no cell. -/
theorem Tracks.undefined (m : Machine α) :
    Lane.Tracks added names (⟨m.undefined, none⟩ : Lane α) ⟨m.undefined, none⟩ :=
  .same _ nofun

/-- Fitting to a type keeps lanes tracked. -/
theorem tracks_fit (h : Forall₂ (Lane.Tracks added names) ls ls') (m : Machine α) (ty : Ty) :
    Forall₂ (Lane.Tracks added names) (m.fit ty ls) (m.fit ty ls') := by
  unfold Machine.fit
  generalize ty.laneCount = n
  induction n generalizing ls ls' with
  | zero => exact .nil
  | succ n ih =>
    cases h with
    -- Where values are missing, both sides are filled up alike.
    | nil => exact .cons (.undefined m) (ih .nil)
    | cons hl hrest => exact .cons hl (ih hrest)

/-- So does indexing. -/
theorem tracks_past (h : Forall₂ (Lane.Tracks added names) ls ls') (n : Nat) (i : Int) :
    Forall₂ (Lane.Tracks added names) (Machine.past n ls i) (Machine.past n ls' i) := by
  cases i with
  | ofNat i => exact List.forall₂_drop _ h
  | negSucc i => exact .nil

/-- Each lane of a list is tracked, also past its end. -/
theorem tracks_getD (h : Forall₂ (Lane.Tracks added names) ls ls') (m : Machine α) (i : Nat) :
    Lane.Tracks added names (ls.getD i ⟨m.undefined, none⟩) (ls'.getD i ⟨m.undefined, none⟩) := by
  induction h generalizing i with
  | nil => exact .undefined m
  | cons hl _ ih =>
    cases i with
    | zero => exact hl
    | succ i => exact ih i

/-- Picking from tracked lanes gives tracked lanes. -/
theorem tracks_pickLane (h : Forall₂ (Lane.Tracks added names) ls ls') (m : Machine α)
    (kind : ScalarKind) (mask : Mask) :
    Forall₂ (Lane.Tracks added names) (mask.map (m.pickLane kind ls))
      (mask.map (m.pickLane kind ls')) := by
  rw [List.forall₂_map_left_iff, List.forall₂_map_right_iff]
  refine List.forall₂_same.mpr fun s _ => ?_
  unfold Machine.pickLane Selector.pick
  cases s.lane? with
  | none => exact .same _ nofun
  | some lane => exact tracks_getD h m lane

/-- Temporary values have no cells. -/
theorem tracks_temporaries (m : Machine α) (ty : Ty) (vs : List α) :
    Forall₂ (Lane.Tracks added names) (m.temporaries ty vs) (m.temporaries ty vs) :=
  tracks_of_visible (visible_temporaries ty vs)

end Lane

/-! ### Computations -/

namespace Eval

open List (Forall₂)

variable {δ ε : Type} {names : List String} {R : β → γ → Prop} {S : δ → ε → Prop} {x : Eval α β}
  {y : Eval α γ}

/-- What a property of the new state says that does not depend on the variables that are changed
    stays true. -/
theorem Tracks.frame {big : List String} (h : Tracks added names R x y)
    (hsub : ∀ x ∈ names, x ∈ big) {F : State α → Prop}
    (hF : ∀ ρ τ : State α, ρ.Keeps added names τ → F ρ → F τ) (before : List (Action α))
    (start : State α) :
    Relates (State.Tracked added before big start)
      (fun σ σ' => State.Tracked added before big start σ σ' ∧ F σ')
      (fun b c τ τ' => R b c ∧ State.Tracked added before big start τ τ' ∧ F τ') x y := by
  rintro σ σ' ⟨hσ, hFσ⟩
  -- The state that the computation starts in is taken as the start, so what it keeps is counted
  -- from there.
  have hwide {τ τ' : State α} (hτ : State.Tracked added before names σ' τ τ') :
      State.Tracked added before big start τ τ' := by
    refine ⟨⟨hτ.toShadows, fun x hx => ⟨(hσ.declares x hx).1, ?_⟩⟩,
      hσ.keeps.trans (hτ.keeps.mono hsub)⟩
    by_cases hmem : x ∈ names
    · exact (hτ.declares x hmem).2
    · rw [hτ.keeps x (hσ.declares x hx).1 hmem]
      exact (hσ.declares x hx).2
  have hstart : State.Tracked added before names σ' σ σ' :=
    ⟨⟨hσ.toShadows, fun x hx => hσ.declares x (hsub x hx)⟩, .refl⟩
  have hrun := h before σ' hstart
  generalize x.run.run σ = r, y.run.run σ' = r' at hrun ⊢
  cases hrun with
  | none => exact .none
  | some hends =>
    cases hends with
    | ok hQ => exact .some (.ok ⟨hQ.1, hwide hQ.2, hF _ _ hQ.2.keeps hFσ⟩)
    | error hE => exact .some (.error (hwide hE))

/-- More temporaries and a weaker relation of results are no harm. -/
theorem Tracks.mono {big : List String} {R' : β → γ → Prop} (h : Tracks added names R x y)
    (hsub : ∀ x ∈ names, x ∈ big) (hR : ∀ b c, R b c → R' b c) : Tracks added big R' x y := by
  intro before start
  have hframe := h.frame hsub (F := fun _ => True) (fun _ _ _ => id) before start
  exact (hframe.pre fun _ _ hσ => ⟨hσ, trivial⟩).post fun b c _ _ hQ => ⟨hR b c hQ.1, hQ.2.1⟩

/-- A computation that tracks another does the same from states with the variables that it
    changes. -/
theorem Tracks.continues (h : Tracks added names R x y) (before : List (Action α)) :
    Continues (State.Equipped added before names) R x y := by
  intro σ σ' hσ
  have hrun := h before σ' (show State.Tracked added before names σ' σ σ' from ⟨hσ, .refl⟩)
  generalize x.run.run σ = r, y.run.run σ' = r' at hrun ⊢
  cases hrun with
  | none => exact .none
  | some hends =>
    exact .some (hends.mono (fun _ _ hE => hE.toEquipped) fun _ _ _ _ hQ => ⟨hQ.1, hQ.2.toEquipped⟩)

/-- Values that are related are results that are. -/
theorem Tracks.pure {b : β} {c : γ} (h : R b c) :
    Tracks added names R (pure b : Eval α β) (Pure.pure c : Eval α γ) :=
  fun _ _ => .pure fun _ _ hσ => ⟨h, hσ⟩

/-- Tracked computations in a row are tracked. -/
theorem Tracks.bind {f : β → Eval α δ} {g : γ → Eval α ε} (h : Tracks added names R x y)
    (hf : ∀ b c, R b c → Tracks added names S (f b) (g c)) :
    Tracks added names S (x >>= f) (y >>= g) :=
  fun before start => (h before start).bind fun b c _ _ hQ => hf b c hQ.1 before start hQ.2

/-- A function of the results is tracked if it keeps them related. -/
theorem Tracks.map {f : β → δ} {g : γ → ε} (h : Tracks added names R x y)
    (hf : ∀ b c, R b c → S (f b) (g c)) : Tracks added names S (f <$> x) (g <$> y) :=
  fun before start => (h before start).map fun b c _ _ hQ => ⟨hf b c hQ.1, hQ.2⟩

/-- A variable in sight is loaded alike. -/
theorem tracks_load {v : Variable} (hv : v.isHidden added = false) (ty : Ty) :
    Tracks added names (Forall₂ (Lane.Tracks added names)) (load v ty : Eval α _) (load v ty) := by
  intro before start σ σ' hσ
  refine .some (.ok ⟨?_, hσ⟩)
  show Forall₂ _ (v.lanes ty (σ.read v)) (v.lanes ty (σ'.read v))
  rw [hσ.read_eq hv]
  exact Lane.tracks_of_visible (Lane.visible_lanes hv ty _)

/-- Values are stored alike to tracked lanes. -/
theorem tracks_store {ls ls' : List (Lane α)} (h : Forall₂ (Lane.Tracks added names) ls ls')
    (vs : List α) : Tracks added names (fun _ _ => True) (store ls vs) (store ls' vs) :=
  fun _ _ _ _ hσ => .some (.ok ⟨trivial, hσ.store h vs⟩)

/-- A call of a function that both machines have. -/
theorem tracks_call {m m' : Machine α} (hm : m.Alike added m') {name : String}
    (hname : added name = false) (args : List (Ty × List α)) :
    Tracks added names Eq (call m name args) (call m' name args) := by
  obtain ⟨call', rfl, hcall⟩ := hm
  intro before start σ σ' hσ
  have hreply := hcall name args σ.shared hname
  show Option.Rel _ ((m.call name args σ.shared).map _) ((call' name args σ'.shared).map _)
  rw [hσ.shared]
  generalize m.call name args σ.shared = r, call' name args σ.shared = r' at hreply
  cases hreply with
  | none => exact .none
  | @some r r' hr =>
    -- The reply changes what is shared and logs its actions behind the call.
    have hτ : State.Tracked added before names start
        { σ with shared := r.shared, trace := σ.trace ++ .call name args :: r.actions }
        { σ' with shared := r'.shared, trace := σ'.trace ++ .call name args :: r'.actions } := by
      refine ⟨⟨⟨hr.shared, hσ.locals, ?_⟩, hσ.declares⟩, hσ.keeps⟩
      have hactions : seen added (Action.call name args :: r'.actions) =
          seen added (Action.call name args :: r.actions) := by
        rw [← List.singleton_append, ← @List.singleton_append _ _ r.actions, seen_append,
          seen_append, hr.actions]
      simp only [seen_append, hσ.trace, hactions, List.append_assoc]
    -- A reply without a result discards the fragment on both sides.
    refine .some ?_
    show Ends _ _ (r.result.elim (.error .discarded) .ok, _)
      (r'.result.elim (.error .discarded) .ok, _)
    rw [hr.result]
    cases r.result with
    | none => exact .error hτ
    | some vs => exact .ok ⟨rfl, hτ⟩

end Eval

/-! ### Expressions -/

namespace Expr

open List (Forall₂)

variable {m m' : Machine α} {names : List String} {e e' : Expr} {es es' : List Expr}

/-- More temporaries are no harm to an expression. -/
theorem Tracks.mono {big : List String} (h : e.Tracks added m m' names e')
    (hsub : ∀ x ∈ names, x ∈ big) : e.Tracks added m m' big e' where
  ty_eq := h.ty_eq
  eval := h.eval.mono hsub fun _ _ hls => hls.imp fun _ _ hl => hl.mono hsub

/-- Tracked expressions have the same value. -/
theorem Tracks.values (h : e.Tracks added m m' names e') :
    Eval.Tracks added names Eq (e.values m) (e'.values m') :=
  h.eval.map fun _ _ hls => (Lane.values_eq_of_tracks hls).symm

/-- Whether a node refers to a variable or a function with a name. -/
def refersTo (names : String → Bool) : Expr → Bool
  | .var _ name | .call _ (.user name) _ => names name
  | _ => false

/-- Tracked arguments have the same values. -/
theorem tracks_evalArgs (h : Forall₂ (Tracks added m m' names) es es') :
    Eval.Tracks added names Eq (evalArgs m es) (evalArgs m' es') := by
  induction h with
  | nil => exact .pure rfl
  | @cons e e' es es' he _ ih =>
    refine he.values.bind fun vs vs' hvs => ih.bind fun rest rest' hrest => .pure ?_
    rw [hvs, hrest, he.ty_eq]

/-- A result in temporaries is the same on both sides. -/
theorem tracks_result (hm : m.Alike added m') (names : List String) (ty : Ty) (vs : List α) :
    Eval.Tracks added names (Forall₂ (Lane.Tracks added names))
      (pure (m.temporaries ty vs) : Eval α _) (pure (m'.temporaries ty vs)) := by
  obtain ⟨call, rfl, -⟩ := hm
  exact .pure (Lane.tracks_temporaries m ty vs)

/-! Operands that are used for their values give the same values; those that are written to, or
reached through, keep the cells. -/

namespace Tracks

/-- Operators with one operand are tracked through it. -/
theorem unary (hm : m.Alike added m') {ty : Ty} {op : UnaryOp} (h : e.Tracks added m m' names e') :
    (Expr.unary ty op e).Tracks added m m' names (.unary ty op e') := by
  refine ⟨rfl, ?_⟩
  have hresult := tracks_result hm names ty
  obtain ⟨call, rfl, -⟩ := hm
  simp only [Expr.eval, h.ty_eq]
  split
  · -- An operator that writes stores what it computes, any other only computes it.
    refine h.eval.bind fun target target' htarget => ?_
    rw [Lane.values_eq_of_tracks htarget]
    exact (Eval.tracks_store htarget _).bind fun _ _ _ => hresult _
  · refine h.values.bind fun vs vs' hvs => ?_
    obtain rfl := hvs
    exact hresult _

/-- Operators with two operands are tracked through both. -/
theorem binary (hm : m.Alike added m') {ty : Ty} {op : BinaryOp} {left left' right right' : Expr}
    (hleft : left.Tracks added m m' names left') (hright : right.Tracks added m m' names right') :
    (Expr.binary ty op left right).Tracks added m m' names (.binary ty op left' right') := by
  refine ⟨rfl, ?_⟩
  have hresult := tracks_result hm names ty
  obtain ⟨call, rfl, -⟩ := hm
  simp only [Expr.eval, hleft.ty_eq, hright.ty_eq]
  split
  · -- A target is written to once both operands are evaluated.
    refine hleft.eval.bind fun target target' htarget => hright.values.bind fun vs vs' hvs => ?_
    obtain rfl := hvs
    rw [Lane.values_eq_of_tracks htarget]
    exact (Eval.tracks_store htarget _).bind fun _ _ _ => hresult _
  · refine hleft.values.bind fun ls ls' hls => ?_
    obtain rfl := hls
    -- Whether a short-circuit operator stops depends on the value alone.
    have hholds : (m.withCalls call).holds ls = m.holds ls := rfl
    rw [hholds]
    cases op.decided? (m.holds ls) with
    | some b => exact hresult _
    | none =>
      refine hright.values.bind fun rs rs' hrs => ?_
      obtain rfl := hrs
      exact hresult _

/-- Choices are tracked through the condition and the arms. -/
theorem ternary (hm : m.Alike added m') {ty : Ty}
    {cond cond' ifTrue ifTrue' ifFalse ifFalse' : Expr}
    (hcond : cond.Tracks added m m' names cond') (htrue : ifTrue.Tracks added m m' names ifTrue')
    (hfalse : ifFalse.Tracks added m m' names ifFalse') :
    (Expr.ternary ty cond ifTrue ifFalse).Tracks added m m' names
      (.ternary ty cond' ifTrue' ifFalse') := by
  refine ⟨rfl, ?_⟩
  obtain ⟨call, rfl, -⟩ := hm
  simp only [Expr.eval]
  refine hcond.values.bind fun vs vs' hvs => ?_
  -- The conditions have the same values, so the same arm is taken.
  obtain rfl := hvs
  show Eval.Tracks added names _ _ (if m.holds vs then _ else _)
  split
  · exact htrue.eval.map fun _ _ hls => Lane.tracks_fit hls m ty
  · exact hfalse.eval.map fun _ _ hls => Lane.tracks_fit hls m ty

/-- Calls are tracked through their arguments, if the function is in sight. -/
theorem call (hm : m.Alike added m') {ty : Ty} {callee : Callee}
    (hnode : (Expr.call ty callee es).refersTo added = false)
    (h : Forall₂ (Tracks added m m' names) es es') :
    (Expr.call ty callee es).Tracks added m m' names (.call ty callee es') := by
  refine ⟨rfl, ?_⟩
  have hresult := tracks_result hm names ty
  cases callee with
  | intrinsic function =>
    obtain ⟨call, rfl, -⟩ := hm
    refine (tracks_evalArgs h).bind fun vs vs' hvs => ?_
    obtain rfl := hvs
    exact hresult _
  | user name =>
    refine (tracks_evalArgs h).bind fun vs vs' hvs => ?_
    -- The name is none of the added ones, so both machines know the function alike.
    obtain rfl := hvs
    have hcall : Eval.Tracks added names Eq _ _ := Eval.tracks_call hm hnode vs
    obtain ⟨call, rfl, -⟩ := hm
    refine hcall.map fun ls ls' hls => ?_
    obtain rfl := hls
    exact Lane.tracks_temporaries m ty ls

/-- Swizzles are tracked through their base. -/
theorem swizzle (hm : m.Alike added m') {ty : Ty} {mask : Mask}
    (h : e.Tracks added m m' names e') :
    (Expr.swizzle ty e mask).Tracks added m m' names (.swizzle ty e' mask) := by
  refine ⟨rfl, ?_⟩
  obtain ⟨call, rfl, -⟩ := hm
  simp only [Expr.eval, h.ty_eq]
  exact h.eval.map fun _ _ hls => Lane.tracks_fit (Lane.tracks_pickLane hls m _ mask) m ty

/-- Indexing is tracked through base and position. -/
theorem index (hm : m.Alike added m') {ty : Ty} {base base' position position' : Expr}
    (hbase : base.Tracks added m m' names base')
    (hposition : position.Tracks added m m' names position') :
    (Expr.index ty base position).Tracks added m m' names (.index ty base' position') := by
  refine ⟨rfl, ?_⟩
  obtain ⟨call, rfl, -⟩ := hm
  simp only [Expr.eval]
  refine hbase.eval.bind fun ls ls' hls => hposition.values.bind fun place place' hplace =>
    .pure ?_
  obtain rfl := hplace
  exact Lane.tracks_fit (Lane.tracks_past hls _ _) m ty

/-- Constructors are tracked through their arguments. -/
theorem construct (hm : m.Alike added m') {ty : Ty} (h : Forall₂ (Tracks added m m' names) es es') :
    (Expr.construct ty es).Tracks added m m' names (.construct ty es') := by
  refine ⟨rfl, ?_⟩
  have hresult := tracks_result hm names ty
  obtain ⟨call, rfl, -⟩ := hm
  refine (tracks_evalArgs h).bind fun vs vs' hvs => ?_
  obtain rfl := hvs
  exact hresult _

/-- Groups are tracked through what they hold. -/
theorem group (hm : m.Alike added m') {ty : Ty} (h : e.Tracks added m m' names e') :
    (Expr.group ty e).Tracks added m m' names (.group ty e') := by
  refine ⟨rfl, ?_⟩
  obtain ⟨call, rfl, -⟩ := hm
  exact h.eval.map fun _ _ hls => Lane.tracks_fit hls m ty

end Tracks

/-- A node over expressions that track the children of another tracks it, as long as it does not
    refer to added names itself. -/
theorem tracks_withChildren (hm : m.Alike added m') {cs : List Expr}
    (hnode : e.refersTo added = false) (h : Forall₂ (Tracks added m m' names) e.children cs) :
    e.Tracks added m m' names (e.withChildren cs) := by
  -- One case for each node, each by the lemma above for it.
  cases e with
  | literal ty value =>
    cases h
    refine ⟨rfl, ?_⟩
    have hresult := tracks_result hm names ty
    obtain ⟨call, rfl, -⟩ := hm
    exact hresult _
  | var ty name =>
    cases h
    have hname : Variable.isHidden added (.named name) = false := hnode
    exact ⟨rfl, Eval.tracks_load hname ty⟩
  | builtin ty which =>
    cases h
    exact ⟨rfl, Eval.tracks_load rfl ty⟩
  -- A node with children: the list has as many, each tracking its own.
  | unary ty op operand =>
    obtain _ | ⟨hoperand, _ | _⟩ := h
    exact hoperand.unary hm
  | binary ty op left right =>
    obtain _ | ⟨hleft, _ | ⟨hright, _ | _⟩⟩ := h
    exact hleft.binary hm hright
  | ternary ty cond ifTrue ifFalse =>
    obtain _ | ⟨hcond, _ | ⟨htrue, _ | ⟨hfalse, _ | _⟩⟩⟩ := h
    exact hcond.ternary hm htrue hfalse
  | call ty callee args => exact .call hm hnode h
  | swizzle ty base mask =>
    obtain _ | ⟨hbase, _ | _⟩ := h
    exact hbase.swizzle hm
  | index ty base position =>
    obtain _ | ⟨hbase, _ | ⟨hposition, _ | _⟩⟩ := h
    exact hbase.index hm hposition
  | construct ty args => exact .construct hm h
  | group ty inner =>
    obtain _ | ⟨hinner, _ | _⟩ := h
    exact hinner.group hm

/-- An expression without added names does the same on both machines. -/
theorem tracks_self (hm : m.Alike added m') (h : e.any (refersTo added) = false) :
    e.Tracks added m m' [] e := by
  induction e using induction_children with
  | h e ih =>
    obtain ⟨hnode, hchildren⟩ := any_eq_false_iff.mp h
    have hsame := tracks_withChildren hm hnode
      (List.forall₂_same.mpr fun c hc => ih c hc (hchildren c hc))
    rwa [withChildren_children] at hsame

/-- Statements can be over expressions that track others. -/
theorem Tracks.agrees (h : e.Tracks added m m' names e') (before : List (Action α)) :
    e.Agrees (State.Equipped added before names) m m' e' :=
  h.values.continues before

end Expr

end ShaderGen
