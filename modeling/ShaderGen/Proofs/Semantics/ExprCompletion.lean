import ShaderGen.Proofs.Children
import ShaderGen.Proofs.Semantics.Assigned
import ShaderGen.Proofs.Semantics.Refinement

/-!
# Runs that complete checked ones

A run that is checked leaves open what unassigned components hold. A run on components that are all
assigned completes it if it holds the same wherever those of the checked run are assigned: as the
checked run never uses the others, the two never part. The run that completes another may do so for
another program. It may keep a built-in variable in another place, and show the vertices that it
emits in a form of its own (`Completion`).

## Main definitions

- `Completion`: where a run keeps built-in variables, and how its vertices show those of another
- `State.Completes`, `Reply.Completes`: what completes what a checked run leaves
- `Checker.Covers`: the functions that a machine has to know

## Key results

- `State.Completes.store`: writes that may happen keep states alike
- `Expr.completes_withChildren`: a node completes another if its children do
-/

namespace ShaderGen

open Behaviour List

variable {α β γ : Type}

/-- How a run completes a checked one: where it keeps a built-in variable, and how the vertices that
    it emits show those of the other. What the other shares may be known to have a property. -/
structure Completion (α : Type) where
  place : Builtin → Variable
  Shows : (Variable → Nat → Option α) → (Variable → Nat → α) → Prop
  Invariant : (Variable → Nat → Option α) → Prop

namespace Completion

variable (k : Completion α)

/-- Where a variable is kept. -/
def home : Variable → Variable
  | .named name => .named name
  | .builtin which => k.place which

/-- No built-in variable is kept under the name. -/
def Free (name : String) : Prop := ∀ which, k.place which ≠ .named name

/-- The same contents where components are assigned. -/
structure Shared (shared : Variable → Nat → Option α) (shared' : Variable → Nat → α) : Prop where
  agrees (v : Variable) (i : Nat) (x : α) : shared v i = some x → shared' (k.home v) i = x
  invariant : k.Invariant shared

/-- An emission that shows another. -/
inductive Emitted : Action (Option α) → Action α → Prop
  | vertex {shared : Variable → Nat → Option α} {shared' : Variable → Nat → α}
    (h : k.Shows shared shared') : Emitted (.emitVertex shared) (.emitVertex shared')
  | primitive : Emitted .endPrimitive .endPrimitive

end Completion

/-- Whether an action emits a vertex or ends a primitive. -/
def Action.emits : Action α → Bool
  | .emitVertex _ | .endPrimitive => true
  | _ => false

/-- Vertices that are emitted, and where primitives end. -/
def emissions (actions : List (Action α)) : List (Action α) := actions.filter Action.emits

/-- What is emitted by two runs in a row. -/
theorem emissions_append (as bs : List (Action α)) :
    emissions (as ++ bs) = emissions as ++ emissions bs :=
  filter_append ..

/-- A state holds what another does where that is assigned, and the same was emitted. -/
structure State.Completes (k : Completion α) (σ : State (Option α)) (τ : State α) : Prop where
  shared : k.Shared σ.shared τ.shared
  locals (name : String) :
    Option.Rel (fun content content' => ∀ i x, content i = some x → content' i = x)
      (σ.locals name) (τ.locals name)
  free (name : String) : ¬ k.Free name → σ.locals name = none
  emitted : Forall₂ k.Emitted (emissions σ.trace) (emissions τ.trace)

/-- States that complete others, and what functions return. -/
def Completion.correspondence (k : Completion α) : Correspondence (Option α) α where
  Holds := State.Completes k
  Returned vs vs' := vs = vs'.map some
  leave {σ σ' τ τ'} names h h' := by
    refine ⟨h'.shared, fun name => ?_, fun name hname => ?_, h'.emitted⟩
    · show Option.Rel _ (if name ∈ names then _ else _) (if name ∈ names then _ else _)
      split
      · exact h.locals name
      · exact h'.locals name
    · show (if name ∈ names then _ else _) = none
      split
      · exact h.free name hname
      · exact h'.free name hname

/-- A component that holds what another does if that is assigned, and is kept in the place of it. -/
structure Lane.Completes (k : Completion α) (l : Lane (Option α)) (l' : Lane α) : Prop where
  value (x : α) : l.value = some x → l'.value = x
  cell : l'.cell? = l.cell?.map fun cell => ⟨k.home cell.owner, cell.lane⟩

/-- What a call leaves completes what another leaves. -/
structure Reply.Completes (k : Completion α) (r : Reply (Option α)) (r' : Reply α) : Prop where
  result : r.result = r'.result.map (List.map some)
  shared : k.Shared r.shared r'.shared
  emitted : Forall₂ k.Emitted (emissions r.actions) (emissions r'.actions)

/-- A machine knows the functions that a checker knows: wherever the checker gives a reply, the
    machine gives one that completes it. -/
structure Checker.Covers (k : Completion α) (c : Checker α) (m : Machine α) : Prop where
  machine : ∃ call, m = c.machine.withCalls call
  call {name : String} {args : List (Ty × List α)} {shared : Variable → Nat → Option α}
    {shared' : Variable → Nat → α} {reply : Reply (Option α)} (h : k.Shared shared shared')
    (hreply : c.call name args shared = some reply) :
    ∃ reply', m.call name args shared' = some reply' ∧ reply.Completes k reply'

variable {k : Completion α} {c : Checker α} {m : Machine α}

/-! ### Components -/

/-- Lists that are padded to one length stay related, if what pads them is. -/
theorem forall₂_takeD {R : β → γ → Prop} {xs : List β} {ys : List γ} {d : β} {d' : γ}
    (h : Forall₂ R xs ys) (hd : R d d') (n : Nat) : Forall₂ R (xs.takeD n d) (ys.takeD n d') := by
  induction n generalizing xs ys with
  | zero => exact .nil
  | succ n ih =>
    cases h with
    | nil => exact .cons hd (ih .nil)
    | cons hx hxs => exact .cons hx (ih hxs)

/-- Related lists are related at every index, also past their ends. -/
theorem forall₂_getD {R : β → γ → Prop} {xs : List β} {ys : List γ} {d : β} {d' : γ}
    (h : Forall₂ R xs ys) (hd : R d d') (i : Nat) : R (xs.getD i d) (ys.getD i d') := by
  induction h generalizing i with
  | nil => exact hd
  | cons hx _ ih =>
    cases i with
    | zero => exact hx
    | succ i => exact ih i

namespace Lane

/-- A temporary with a known value is the same temporary. -/
theorem completes_temporary (v : α) : Lane.Completes k ⟨some v, none⟩ ⟨v, none⟩ :=
  ⟨fun _ h => Option.some.inj h, rfl⟩

/-- Temporaries with known values are those of the machine. -/
theorem completes_temporaries {call} (ty : Ty) (vs : List α) :
    Forall₂ (Lane.Completes k) (c.temporaries ty vs)
      ((c.machine.withCalls call).temporaries ty vs) := by
  show Forall₂ _ (List.map _ (c.machine.temporaries ty vs)) (c.machine.temporaries ty vs)
  rw [forall₂_map_left_iff, forall₂_same]
  intro l hl
  obtain ⟨v, -, rfl⟩ := List.mem_map.mp hl
  exact completes_temporary v

/-- Lanes that are completed are so after they are fitted to a type. -/
theorem completes_fit {call} {ls : List (Lane (Option α))} {ls' : List (Lane α)}
    (h : Forall₂ (Lane.Completes k) ls ls') (ty : Ty) :
    Forall₂ (Lane.Completes k) (c.fit ty ls) ((c.machine.withCalls call).fit ty ls') :=
  forall₂_takeD h (completes_temporary _) _

/-- So they are past an index. -/
theorem completes_past {ls : List (Lane (Option α))} {ls' : List (Lane α)}
    (h : Forall₂ (Lane.Completes k) ls ls') (n : Nat) (i : Int) :
    Forall₂ (Lane.Completes k) (Machine.past n ls i) (Machine.past n ls' i) := by
  cases i with
  | ofNat i => exact forall₂_drop _ h
  | negSucc i => exact .nil

/-- So they are when a mask picks from them, literals included. -/
theorem completes_pickLane {call} {ls : List (Lane (Option α))} {ls' : List (Lane α)}
    (h : Forall₂ (Lane.Completes k) ls ls') (kind : ScalarKind) (mask : Mask) :
    Forall₂ (Lane.Completes k) (mask.map (c.pickLane kind ls))
      (mask.map ((c.machine.withCalls call).pickLane kind ls')) := by
  rw [forall₂_map_left_iff, forall₂_map_right_iff, forall₂_same]
  intro s _
  show Lane.Completes k (Selector.pick _ _ ls s) (Selector.pick _ _ ls' s)
  unfold Selector.pick
  cases s.lane? with
  | none => exact completes_temporary _
  | some lane => exact forall₂_getD h (completes_temporary _) lane

end Lane

/-! ### States -/

/-- What may be written is kept in a place of its own, and what is known of the shared variables
    stays true. -/
structure Checker.Keeps (c : Checker α) (k : Completion α) : Prop where
  home (v w : Variable) : c.mayWrite v = true → k.home w = k.home v → w = v
  write {σ : State (Option α)} {cell : Cell} (x : α) : c.mayWrite cell.owner = true →
    k.Invariant σ.shared → k.Invariant (σ.setShared cell (some x)).shared
  lose {σ : State (Option α)} : k.Invariant σ.shared → k.Invariant (σ.lose c.lost).shared

namespace State.Completes

variable {σ : State (Option α)} {τ : State α}

/-- What is no local here is none there. -/
theorem locals_eq_none (h : σ.Completes k τ) {name : String} (hname : σ.locals name = none) :
    τ.locals name = none := by
  have hlocals := h.locals name
  rw [hname] at hlocals
  generalize τ.locals name = content at hlocals ⊢
  cases hlocals
  rfl

/-- No local hides the place of a built-in variable. -/
theorem locals_place (h : σ.Completes k τ) {which : Builtin} {name : String}
    (hplace : k.place which = .named name) : τ.locals name = none :=
  h.locals_eq_none (h.free name fun hfree => hfree which hplace)

/-- A variable holds the same where it is assigned. -/
theorem read (h : σ.Completes k τ) (v : Variable) (i : Nat) (x : α) (hx : σ.read v i = some x) :
    τ.read (k.home v) i = x := by
  cases v with
  | named name =>
    have hlocals := h.locals name
    have hshared := h.shared.agrees (.named name) i x
    change ((σ.locals name).getD (σ.shared (.named name))) i = some x at hx
    show ((τ.locals name).getD (τ.shared (.named name))) i = x
    generalize σ.locals name = content, τ.locals name = content' at hlocals hx
    cases hlocals with
    | none => exact hshared hx
    | some hcontent => exact hcontent i x hx
  | builtin which =>
    -- A built-in variable may have a place with a name, which no local hides.
    have hread : τ.read (k.place which) = τ.shared (k.place which) := by
      cases hplace : k.place which with
      | builtin which' => rfl
      | named name =>
        show (τ.locals name).getD _ = _
        rw [h.locals_place hplace]
        rfl
    exact (congrFun hread i).trans (h.shared.agrees (.builtin which) i x hx)

/-- An action that emits nothing leaves the states alike. -/
theorem act (h : σ.Completes k τ) {a : Action (Option α)} {a' : Action α}
    (ha : Forall₂ k.Emitted (emissions [a]) (emissions [a'])) :
    (σ.act a).Completes k (τ.act a') where
  shared := h.shared
  locals := h.locals
  free := h.free
  emitted := by
    show Forall₂ _ (emissions (σ.trace ++ [a])) (emissions (τ.trace ++ [a']))
    rw [emissions_append, emissions_append]
    exact rel_append h.emitted ha

/-- A known value written to a shared variable is written to its place. -/
theorem setShared (h : σ.Completes k τ) (hc : c.Keeps k) {cell : Cell}
    (hcell : c.mayWrite cell.owner = true) (v : α) :
    (σ.setShared cell (some v)).Completes k (τ.setShared ⟨k.home cell.owner, cell.lane⟩ v) where
  shared := by
    refine ⟨fun w i x hx => ?_, hc.write v hcell h.shared.invariant⟩
    change (if w = cell.owner ∧ i = cell.lane then some v else σ.shared w i) = some x at hx
    show (if k.home w = k.home cell.owner ∧ i = cell.lane then v else τ.shared (k.home w) i) = x
    split at hx
    · next hw =>
      -- Only the cell written goes to the cell written, so no other one is hit.
      rw [if_pos ⟨congrArg k.home hw.1, hw.2⟩]
      exact Option.some.inj hx
    · next hw =>
      rw [if_neg fun hw' => hw ⟨hc.home _ w hcell hw'.1, hw'.2⟩]
      exact h.shared.agrees w i x hx
  locals := h.locals
  free := h.free
  emitted := h.emitted

/-- A local is set on both sides. -/
theorem setLocal (h : σ.Completes k τ) {name : String} (hname : k.Free name)
    {content : Nat → Option α} {content' : Nat → α}
    (hcontent : ∀ i x, content i = some x → content' i = x) :
    (σ.setLocal name (some content)).Completes k (τ.setLocal name (some content')) where
  shared := h.shared
  locals name' := by
    -- At the name itself both hold the new content, elsewhere what they held.
    show Option.Rel _ (if name' = name then _ else _) (if name' = name then _ else _)
    split
    · exact .some hcontent
    · exact h.locals name'
  free name' hname' := by
    show (if name' = name then _ else _) = none
    split
    · next heq => exact absurd (heq ▸ hname) hname'
    · exact h.free name' hname'
  emitted := h.emitted

/-- A state is completed by what completes it with more components assigned. -/
theorem lose (h : σ.Completes k τ) (hc : c.Keeps k) : (σ.lose c.lost).Completes k τ where
  shared := by
    refine ⟨fun v i x hx => ?_, hc.lose h.shared.invariant⟩
    -- A component that is lost has no value to agree with.
    change (if c.lost ⟨v, i⟩ then none else σ.shared v i) = some x at hx
    split at hx
    · cases hx
    · exact h.shared.agrees v i x hx
  locals := h.locals
  free := h.free
  emitted := h.emitted

/-- Writing a component that may be written. -/
theorem write (h : σ.Completes k τ) (hc : c.Keeps k) {cell : Cell}
    (hcell : (σ.hasLocal cell.owner || c.mayWrite cell.owner) = true) (v : α) :
    (σ.write cell (some v)).Completes k (τ.write ⟨k.home cell.owner, cell.lane⟩ v) := by
  by_cases hlocal : ∃ name content, cell.owner = .named name ∧ σ.locals name = some content
  · -- A local is written in both runs.
    obtain ⟨name, content, howner, hcontent⟩ := hlocal
    have hrel := h.locals name
    rw [hcontent] at hrel
    obtain ⟨content', hcontent', hlanes⟩ : ∃ content', τ.locals name = some content' ∧
        ∀ i x, content i = some x → content' i = x := by
      generalize τ.locals name = o at hrel
      cases hrel with
      | some h => exact ⟨_, rfl, h⟩
    -- The run that is checked has no local that is not free.
    have hfree : k.Free name := by
      by_contra hfree
      rw [h.free name hfree] at hcontent
      cases hcontent
    have hwrite : σ.write cell (some v) = (σ.setLocal name
        (some fun i => if i = cell.lane then some v else content i)).act
          (.write cell (some v)) := by
      simp only [State.write, howner, hcontent]
    have hwrite' : τ.write ⟨k.home cell.owner, cell.lane⟩ v = (τ.setLocal name
        (some fun i => if i = cell.lane then v else content' i)).act
          (.write ⟨k.home cell.owner, cell.lane⟩ v) := by
      simp only [State.write, howner, Completion.home, hcontent']
    rw [hwrite, hwrite']
    refine (h.setLocal hfree fun i x hx => ?_).act .nil
    -- The lane that is written, and the lanes beside it.
    by_cases hi : i = cell.lane
    · rw [if_pos hi] at hx ⊢
      exact Option.some.inj hx
    · rw [if_neg hi] at hx ⊢
      exact hlanes i x hx
  · -- What is shared may only be written if nothing else is kept in its place.
    have hnone : ∀ name, cell.owner = .named name → σ.locals name = none := by
      intro name howner
      by_contra hsome
      obtain ⟨content, hcontent⟩ := Option.ne_none_iff_exists'.mp hsome
      exact hlocal ⟨name, content, howner, hcontent⟩
    -- There is no local in the way, so the write goes to what is shared.
    have hmay : c.mayWrite cell.owner = true := by
      have hshared : σ.hasLocal cell.owner = false := by
        cases howner : cell.owner with
        | builtin which => rfl
        | named name => exact congrArg Option.isSome (hnone name howner)
      simpa [hshared] using hcell
    have hnone' : ∀ name, k.home cell.owner = .named name → τ.locals name = none := by
      intro name hhome
      cases howner : cell.owner with
      | builtin which =>
        rw [howner] at hhome
        exact h.locals_place hhome
      | named name' =>
        obtain rfl : name' = name := by simpa [howner, Completion.home] using hhome
        exact h.locals_eq_none (hnone _ howner)
    rw [State.write_shared hnone, State.write_shared hnone']
    exact (h.setShared hc hmay v).act .nil

/-- Writing several components that may be written. -/
theorem store (h : σ.Completes k τ) (hc : c.Keeps k) {ls : List (Lane (Option α))}
    {ls' : List (Lane α)} (hls : Forall₂ (Lane.Completes k) ls ls')
    (hadmits : ∀ l ∈ ls, c.admits σ l = true) (vs : List α) :
    (σ.store ls (vs.map some)).Completes k (τ.store ls' vs) := by
  induction hls generalizing σ τ vs with
  | nil => cases vs <;> exact h
  | @cons l l' ls ls' hl _ ih =>
    obtain ⟨hfirst, hrest⟩ := List.forall_mem_cons.mp hadmits
    obtain ⟨value, cell?⟩ := l
    obtain ⟨value', cell?'⟩ := l'
    obtain rfl : cell?' = cell?.map fun cell => ⟨k.home cell.owner, cell.lane⟩ := hl.cell
    cases vs with
    | nil => cases cell? <;> exact h
    | cons v vs =>
      cases cell? with
      | none => exact ih h hrest vs
      | some cell =>
        refine ih (h.write hc hfirst v) (fun l hl => ?_) vs
        -- A write changes which variables are locals as little as it changes what may be written.
        have hlocal : (σ.write cell (some v)).hasLocal = σ.hasLocal := by
          funext w
          cases w with
          | named name => exact isSome_locals_write cell (some v) σ name
          | builtin which => rfl
        unfold Checker.admits
        rw [hlocal]
        exact hrest l hl

end State.Completes

/-! ### Computations -/

namespace Eval

/-- Values that are all known are the values there. -/
theorem values_completes {ls : List (Lane (Option α))} {ls' : List (Lane α)} {vs : List α}
    (h : Forall₂ (Lane.Completes k) ls ls') (hvs : Lane.values ls = vs.map some) :
    Lane.values ls' = vs := by
  induction h generalizing vs with
  | nil =>
    obtain rfl := List.map_eq_nil_iff.mp hvs.symm
    rfl
  | @cons l l' ls ls' hl _ ih =>
    obtain ⟨v, vs, rfl, hv, hrest⟩ := List.map_eq_cons_iff.mp hvs.symm
    exact congrArg₂ (· :: ·) (hl.value v hv.symm) (ih hrest.symm)

/-- A computation goes on with what is used. -/
theorem refines_need_bind {Q : β → γ → Prop} {vs : List (Option α)} {vs' : List α}
    {f : List α → Eval (Option α) β} {y : Eval α γ} (h : ∀ ws, vs = ws.map some → ws = vs')
    (hf : Refines k.correspondence Q (f vs') y) :
    Refines k.correspondence Q (need vs >>= f) y := by
  have hneed : Refines k.correspondence (fun ws (_ : Unit) => ws = vs') (need vs) (pure ()) := by
    intro σ τ hσ r σ' hrun
    obtain ⟨ws, hws, rfl, rfl⟩ := run_need hrun
    exact ⟨_, τ, rfl, .ok (h ws hws), hσ⟩
  have hbind := hneed.bind (f := f) (g := fun _ => y) fun ws _ hws => hws ▸ hf
  rwa [pure_bind] at hbind

/-- What is used has the same values in a run that completes another. -/
theorem refines_use_bind {Q : β → γ → Prop} {ls : List (Lane (Option α))} {ls' : List (Lane α)}
    {f : List α → Eval (Option α) β} {y : Eval α γ} (h : Forall₂ (Lane.Completes k) ls ls')
    (hf : Refines k.correspondence Q (f (Lane.values ls')) y) :
    Refines k.correspondence Q (need (Lane.values ls) >>= f) y :=
  refines_need_bind (fun _ hws => (values_completes h hws).symm) hf

/-- Lanes are read from the place of the variable. -/
theorem refines_load (v : Variable) (ty : Ty) :
    Refines k.correspondence (Forall₂ (Lane.Completes k)) (load v ty) (load (k.home v) ty) := by
  rintro σ τ hσ _ _ ⟨⟩
  refine ⟨_, τ, rfl, .ok ?_, hσ⟩
  show Forall₂ _ (List.map _ _) (List.map _ _)
  rw [forall₂_map_left_iff, forall₂_map_right_iff, forall₂_same]
  exact fun i _ => ⟨hσ.read v i, rfl⟩

/-- Known values are stored to the cells there. -/
theorem refines_store (hc : c.Keeps k) {ls : List (Lane (Option α))} {ls' : List (Lane α)}
    (h : Forall₂ (Lane.Completes k) ls ls') (vs : List α) :
    Refines k.correspondence (fun _ _ => True) (c.store ls vs) (store ls' vs) := by
  intro σ τ hσ r σ' hrun
  obtain ⟨hadmits, hend⟩ := Option.ite_none_right_eq_some.mp hrun
  cases hend
  exact ⟨_, _, rfl, .ok trivial, hσ.store hc h (List.all_eq_true.mp hadmits) vs⟩

/-- A call of a function that the machine knows. -/
theorem refines_call (hm : c.Covers k m) (name : String) (args : List (Ty × List α)) :
    Refines k.correspondence (fun vs vs' => vs = vs'.map some) (c.invoke name args)
      (call m name args) := by
  intro σ τ hσ r σ' hrun
  obtain ⟨reply, hreply, hend⟩ := Option.map_eq_some_iff.mp hrun
  cases hend
  obtain ⟨reply', hreply', hcompletes⟩ := hm.call hσ.shared hreply
  refine ⟨_, _, congrArg (Option.map _) hreply', ?_, hcompletes.shared, hσ.locals, hσ.free, ?_⟩
  · -- The function gives a result or discards the fragment, alike in both runs.
    rw [hcompletes.result]
    cases reply'.result with
    | none => exact .error
    | some vs => exact .ok rfl
  · show Forall₂ _ (emissions (σ.trace ++ _ :: _)) (emissions (τ.trace ++ _ :: _))
    rw [emissions_append, emissions_append]
    exact rel_append hσ.emitted hcompletes.emitted

end Eval

/-! ### Expressions -/

/-- An expression that computes what another does in a run that completes one of the other. -/
structure Expr.Completes (k : Completion α) (c : Checker α) (m : Machine α) (e e' : Expr) :
    Prop where
  ty : e'.ty = e.ty
  eval : Eval.Refines k.correspondence (Forall₂ (Lane.Completes k)) (e.check c) (e'.eval m)

namespace Expr

open Eval

variable {e e' : Expr} {es es' : List Expr}

/-- A variable that is kept in some place completes another that has this place. -/
theorem completes_var (ty : Ty) (name : String) :
    Completes k c m (.var ty name) (.var ty name) :=
  ⟨rfl, refines_load (.named name) ty⟩

/-- A built-in variable at its own place is read as itself. -/
theorem completes_builtin {which : Builtin} (h : k.place which = .builtin which) (ty : Ty) :
    Completes k c m (.builtin ty which) (.builtin ty which) := by
  refine ⟨rfl, ?_⟩
  have hload := refines_load (k := k) (.builtin which) ty
  rwa [Completion.home, h] at hload

/-- One with a name for its place is read by that name. -/
theorem completes_placed {which : Builtin} {name : String} (h : k.place which = .named name)
    (ty : Ty) : Completes k c m (.builtin ty which) (.var ty name) := by
  refine ⟨rfl, ?_⟩
  have hload := refines_load (k := k) (.builtin which) ty
  rwa [Completion.home, h] at hload

/-- An expression with known values has these values. -/
theorem Completes.values (h : Completes k c m e e') :
    Refines k.correspondence Eq (e.checkValues c) (e'.values m) := by
  unfold checkValues Expr.values
  rw [← bind_pure_comp]
  refine h.eval.bind fun ls ls' hls => ?_
  rw [← bind_pure (need _)]
  exact refines_use_bind hls (.pure rfl)

/-- Operands that are used, one after the other. -/
theorem refines_args (h : Forall₂ (Completes k c m) es es') :
    Refines k.correspondence Eq (checkArgs c es) (evalArgs m es') := by
  induction h with
  | nil => exact .pure rfl
  | @cons e e' es es' he _ ih =>
    -- The values of the first argument are known, then those of the others.
    have hargs := he.values.bind fun vs vs' hvs => ih.bind fun rest rest' hrest =>
      Refines.pure (Q := Eq) (show (e.ty, vs) :: rest = (e'.ty, vs') :: rest' by
        rw [he.ty, hvs, hrest])
    rw [checkValues, bind_assoc] at hargs
    exact hargs

/-- A result of known values is the same result. -/
theorem refines_result (hm : c.Covers k m) (ty : Ty) (vs : List α) :
    Refines k.correspondence (Forall₂ (Lane.Completes k)) (pure (c.temporaries ty vs))
      (pure (m.temporaries ty vs)) := by
  obtain ⟨call, rfl⟩ := hm.machine
  exact .pure (Lane.completes_temporaries ty vs)

/-! A node completes another of its kind if its children do: both run their children in one order. A
run that is checked stops at a value that is not there, so where one is used both runs have it
(`refines_use_bind`). -/

namespace Completes

/-- Operators with one operand are completed through the operand. -/
theorem unary (hc : c.Keeps k) (hm : c.Covers k m) {ty : Ty} {op : UnaryOp}
    (h : Completes k c m e e') : Completes k c m (.unary ty op e) (.unary ty op e') := by
  refine ⟨rfl, ?_⟩
  have hvalue := refines_result hm ty
  obtain ⟨call, rfl⟩ := hm.machine
  unfold check Expr.eval
  rw [h.ty]
  -- An operator that writes needs the value of its target and stores the new one.
  split
  · refine h.eval.bind fun target target' htarget => refines_use_bind htarget ?_
    exact (refines_store hc htarget _).bind fun _ _ _ => hvalue _
  · rw [bind_map_left]
    exact h.eval.bind fun ls ls' hls => refines_use_bind hls (hvalue _)

/-- What is left of an assignment once its target is found. Where the old value is not used, it
    makes no difference to what is written. -/
theorem assigned (hc : c.Keeps k) (hm : c.Covers k m) (h : Completes k c m e e') (ty leftTy : Ty)
    {op : BinaryOp} {target : List (Lane (Option α))} {target' : List (Lane α)}
    (htarget : Forall₂ (Lane.Completes k) target target') {old : List α}
    (hold : op = .assign ∨ old = Lane.values target') :
    Refines k.correspondence (Forall₂ (Lane.Completes k))
      (e.check c >>= fun ls => need (Lane.values ls) >>= fun vs =>
        c.store target (c.machine.assigned op leftTy old e.ty vs) >>= fun _ =>
          pure (c.temporaries ty (c.machine.assigned op leftTy old e.ty vs)))
      (e'.eval m >>= fun ls =>
        store target' (m.assigned op leftTy (Lane.values target') e.ty (Lane.values ls)) >>=
          fun _ => pure (m.temporaries ty
            (m.assigned op leftTy (Lane.values target') e.ty (Lane.values ls)))) := by
  have hvalue := refines_result hm ty
  obtain ⟨call, rfl⟩ := hm.machine
  refine h.eval.bind fun ls ls' hls => refines_use_bind hls ?_
  -- The old value is used by compound assignments only, and there it is the value of the target.
  have hnew : c.machine.assigned op leftTy old e.ty (Lane.values ls') =
      c.machine.assigned op leftTy (Lane.values target') e.ty (Lane.values ls') := by
    rcases hold with rfl | rfl
    · rfl
    · rfl
  rw [hnew]
  exact (refines_store hc htarget _).bind fun _ _ _ => hvalue _

/-- Operators with two operands are completed through both. -/
theorem binary (hc : c.Keeps k) (hm : c.Covers k m) {ty : Ty} {op : BinaryOp}
    {left left' right right' : Expr} (hleft : Completes k c m left left')
    (hright : Completes k c m right right') :
    Completes k c m (.binary ty op left right) (.binary ty op left' right') := by
  refine ⟨rfl, ?_⟩
  have hvalue := refines_result hm ty
  unfold check Expr.eval
  rw [hleft.ty, hright.ty]
  simp only [bind_map_left]
  split
  · refine hleft.eval.bind fun target target' htarget => ?_
    -- Plain assignment does not need the old value of its target, the compound ones do.
    split
    · next hassign =>
      rw [pure_bind]
      exact assigned hc hm hright ty left.ty htarget (.inl hassign)
    · exact refines_use_bind htarget (assigned hc hm hright ty left.ty htarget (.inr rfl))
  · refine hleft.eval.bind fun ls ls' hls => refines_use_bind hls ?_
    obtain ⟨call, rfl⟩ := hm.machine
    -- Whether the right operand is needed is told by the truth of the left one on both sides.
    have hholds : (c.machine.withCalls call).holds (Lane.values ls') =
        c.machine.holds (Lane.values ls') := rfl
    rw [hholds]
    cases op.decided? (c.machine.holds (Lane.values ls')) with
    | some b => exact hvalue _
    | none => exact hright.eval.bind fun ls ls' hls => refines_use_bind hls (hvalue _)

/-- Choices are completed through the condition and the arm it chooses. -/
theorem ternary (hm : c.Covers k m) {ty : Ty} {cond cond' ifTrue ifTrue' ifFalse ifFalse' : Expr}
    (hcond : Completes k c m cond cond') (htrue : Completes k c m ifTrue ifTrue')
    (hfalse : Completes k c m ifFalse ifFalse') :
    Completes k c m (.ternary ty cond ifTrue ifFalse) (.ternary ty cond' ifTrue' ifFalse') := by
  refine ⟨rfl, ?_⟩
  obtain ⟨call, rfl⟩ := hm.machine
  unfold check Expr.eval
  rw [bind_map_left]
  refine hcond.eval.bind fun ls ls' hls => refines_use_bind hls ?_
  -- The condition has a value in the checked run, which the other run has too.
  show Refines _ _ (if c.machine.holds (Lane.values ls') then _ else _)
    (if c.machine.holds (Lane.values ls') then _ else _)
  split
  · exact htrue.eval.map fun _ _ hls => Lane.completes_fit hls ty
  · exact hfalse.eval.map fun _ _ hls => Lane.completes_fit hls ty

/-- Calls are completed through their arguments. -/
theorem call (hm : c.Covers k m) {ty : Ty} (callee : Callee)
    (h : Forall₂ (Completes k c m) es es') :
    Completes k c m (.call ty callee es) (.call ty callee es') := by
  refine ⟨rfl, ?_⟩
  have hvalue := refines_result hm ty
  cases callee with
  | intrinsic function =>
    obtain ⟨call, rfl⟩ := hm.machine
    unfold check Expr.eval
    refine (refines_args h).bind fun vs vs' hvs => ?_
    obtain rfl := hvs
    exact hvalue _
  | user name =>
    unfold check Expr.eval
    refine (refines_args h).bind fun vs vs' hvs => ?_
    obtain rfl := hvs
    rw [← bind_pure_comp]
    refine (refines_call hm name vs).bind fun result result' hresult => ?_
    -- What the function returns is there in full.
    have hsame (ws : List α) (hws : result = ws.map some) : ws = result' := by
      rw [hresult] at hws
      exact (List.map_injective_iff.mpr (fun _ _ => Option.some.inj) hws).symm
    exact refines_need_bind hsame (hvalue _)

/-- Swizzles are completed through their base. -/
theorem swizzle (hm : c.Covers k m) {ty : Ty} (mask : Mask) (h : Completes k c m e e') :
    Completes k c m (.swizzle ty e mask) (.swizzle ty e' mask) := by
  refine ⟨rfl, ?_⟩
  obtain ⟨call, rfl⟩ := hm.machine
  unfold check Expr.eval
  rw [h.ty]
  exact h.eval.map fun _ _ hls => Lane.completes_fit (Lane.completes_pickLane hls _ mask) ty

/-- Indexing is completed through the base and the position. -/
theorem index (hm : c.Covers k m) {ty : Ty} {base base' position position' : Expr}
    (hbase : Completes k c m base base') (hposition : Completes k c m position position') :
    Completes k c m (.index ty base position) (.index ty base' position') := by
  refine ⟨rfl, ?_⟩
  obtain ⟨call, rfl⟩ := hm.machine
  unfold check Expr.eval
  simp only [bind_map_left]
  refine hbase.eval.bind fun ls ls' hls => hposition.eval.bind fun ps ps' hps => ?_
  exact refines_use_bind hps (.pure (Lane.completes_fit (Lane.completes_past hls _ _) ty))

/-- Constructors are completed through their arguments. -/
theorem construct (hm : c.Covers k m) {ty : Ty} (h : Forall₂ (Completes k c m) es es') :
    Completes k c m (.construct ty es) (.construct ty es') := by
  refine ⟨rfl, ?_⟩
  have hvalue := refines_result hm ty
  obtain ⟨call, rfl⟩ := hm.machine
  unfold check Expr.eval
  refine (refines_args h).bind fun vs vs' hvs => ?_
  obtain rfl := hvs
  exact hvalue _

/-- Groups are completed through what they hold. -/
theorem group (hm : c.Covers k m) {ty : Ty} (h : Completes k c m e e') :
    Completes k c m (.group ty e) (.group ty e') := by
  refine ⟨rfl, ?_⟩
  obtain ⟨call, rfl⟩ := hm.machine
  unfold check Expr.eval
  exact h.eval.map fun _ _ hls => Lane.completes_fit hls ty

end Completes

/-- A node completes another if its children do. -/
theorem completes_withChildren (hc : c.Keeps k) (hm : c.Covers k m) {cs : List Expr}
    (h : Forall₂ (Completes k c m) e.children cs) (hbuiltin : ∀ ty which, e ≠ .builtin ty which) :
    Completes k c m e (e.withChildren cs) := by
  -- One case for each node, each by the lemma above for it.
  cases e with
  | literal ty value =>
    cases h
    refine ⟨rfl, ?_⟩
    have hvalue := refines_result hm ty
    obtain ⟨call, rfl⟩ := hm.machine
    exact hvalue _
  | var ty name =>
    cases h
    exact completes_var ty name
  | builtin ty which => exact absurd rfl (hbuiltin ty which)
  -- A node with children: the list has as many, each completing its own.
  | unary ty op operand =>
    obtain _ | ⟨hoperand, _ | _⟩ := h
    exact hoperand.unary hc hm
  | binary ty op left right =>
    obtain _ | ⟨hleft, _ | ⟨hright, _ | _⟩⟩ := h
    exact hleft.binary hc hm hright
  | ternary ty cond ifTrue ifFalse =>
    obtain _ | ⟨hcond, _ | ⟨htrue, _ | ⟨hfalse, _ | _⟩⟩⟩ := h
    exact hcond.ternary hm htrue hfalse
  | call ty callee args => exact .call hm callee h
  | swizzle ty base mask =>
    obtain _ | ⟨hbase, _ | _⟩ := h
    exact hbase.swizzle hm mask
  | index ty base position =>
    obtain _ | ⟨hbase, _ | ⟨hposition, _ | _⟩⟩ := h
    exact hbase.index hm hposition
  | construct ty args => exact .construct hm h
  | group ty inner =>
    obtain _ | ⟨hinner, _ | _⟩ := h
    exact hinner.group hm

end Expr

end ShaderGen
