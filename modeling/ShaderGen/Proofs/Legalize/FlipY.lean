import ShaderGen.Legalize.FlipY
import ShaderGen.Proofs.Semantics.StmtCompletion

/-!
# Flipping the clip position

A vertex program is flipped on every way out of its entry function: the statement that negates the
clip `y` goes before every return and, unless the last statement is one, to the end. A run of what
comes out is a run of the original with the clip `y` negated once where it exits.

A geometry program is flipped before every vertex that it emits, in whichever function. As a vertex
leaves the clip position undefined, runs are compared that assign it anew before they use it: these
do not tell the negated `y` that a vertex left behind from the original one.

## Key results

- `legalize_vertex`, `legalize_geometry`: what becomes of programs of the two stages
- `legalize_negates_once`: the clip `y` is negated exactly once
-/

namespace ShaderGen.Legalize.FlipY

open Behaviour Stmt List

variable {α : Type}

/-! ### Negating the second component -/

/-- The second component of the clip position. -/
def clipY : Cell := ⟨.builtin .position, 1⟩

/-- A component negated. -/
def negated (m : Machine α) (v : α) : α := (m.unary .neg .float [v]).headD m.undefined

/-- Multiplying a component by minus one negates it. -/
def NegatesByMinusOne (m : Machine α) : Prop :=
  ∀ v, m.binary .mul .half [m.literal (.float .minusOne)] .float [v] = m.unary .neg .float [v]

/-- The state with the clip `y` negated. -/
def negateY (m : Machine α) (σ : State α) : State α :=
  σ.write clipY (negated m (σ.shared (.builtin .position) 1))

/-- The statement that is put in negates the height. -/
theorem behaviour_negatePosition {m : Machine α} (hm : NegatesByMinusOne m) :
    negatePosition.behaviour m = change (negateY m) := by
  -- One component is read and one is written, which is what the product makes of it.
  have hproduct : negatePosition.behaviour m = change fun σ => σ.write clipY
      ((m.binary .mul .half [m.literal (.float .minusOne)] .float
        [σ.shared (.builtin .position) 1]).headD m.undefined) := rfl
  rw [hproduct]
  exact congrArg change (funext fun σ => by rw [hm]; rfl)

/-! ### Vertex programs -/

/-- A body that ends in a return has no end that is reached. -/
theorem not_normal_of_endsInReturn (m : Machine α) {body : List Stmt}
    (h : endsInReturn body = true) (σ τ : State α) : ¬ listBehaviour m body σ .normal τ := by
  obtain ⟨last, hlast, hreturn⟩ := (Option.any_eq_true _ _).mp h
  obtain ⟨init, rfl⟩ := List.getLast?_eq_some_iff.mp hlast
  rw [listBehaviour_append, listBehaviour_singleton]
  -- The last statement is a return, so it cannot end normally.
  rintro (⟨ρ, -, hrun⟩ | ⟨ho, -⟩)
  · cases last with
    | returnWith value =>
      cases value with
      | none => exact absurd hrun.1 nofun
      | some e =>
        change after _ _ _ _ _ at hrun
        unfold Behaviour.after at hrun
        split at hrun
        · exact hrun
        · exact absurd hrun.1 nofun
        · exact absurd hrun.1 nofun
    | _ => cases hreturn
  · exact ho rfl

/-- A function that negates the clip `y` before every return, and at its end if that can be reached,
    does what it did before and negates the clip `y` once on every way out. -/
theorem listBehaviour_flipEntryBody {m : Machine α} (hm : NegatesByMinusOne m) {body : List Stmt}
    (hreturns : ∀ s ∈ body, s.Everywhere ReturnsNothing)
    (hstarts : ∀ s ∈ body, s.Everywhere StartsPlainly) :
    listBehaviour m (flipEntryBody body) = onExit (negateY m) (listBehaviour m body) := by
  -- Every return has the negation in front of it.
  have hreturn : listBehaviour m (expandList beforeReturn body) =
      onReturn (negateY m) (listBehaviour m body) := by
    refine (OnReturn.list fun s hs => ?_).2
    refine expand_onReturn (fun _ _ _ => rfl) rfl (behaviour_negatePosition hm) (fun _ => rfl)
      (fun s hs => ?_) s (hreturns s hs) (hstarts s hs)
    cases s with
    | returnWith value => cases hs
    | _ => rfl
  unfold flipEntryBody
  dsimp only
  split
  · -- If the body ends in a return, none is needed at the end.
    next hends =>
    refine hreturn.trans (onExit_eq_onReturn fun σ τ hrun => ?_).symm
    refine not_normal_of_endsInReturn m hends σ τ ?_
    rw [hreturn]
    exact ⟨τ, hrun, rfl⟩
  · rw [listBehaviour_append, listBehaviour_singleton, hreturn, behaviour_negatePosition hm,
      onExit_eq_seq]

/-! ### Geometry programs -/

/-- Whether a cell is a component of the clip position. -/
def isClip (cell : Cell) : Bool := cell.owner = .builtin .position && cell.lane < 4

/-- Runs that assign the clip position anew after each vertex, before they use it and before they
    emit the next one. All other variables are assigned from the start. -/
def renewing (m : Machine α) : Checker α where
  machine := m
  mayWrite _ := true
  vertex _ := true
  lost := isClip
  call _ _ _ := none

/-- A vertex with its clip `y` negated. -/
def flipVertex (m : Machine α) (shared : Variable → Nat → α) : Variable → Nat → α := fun v i =>
  if v = clipY.owner ∧ i = clipY.lane then negated m (shared v i) else shared v i

/-- An action with the clip `y` of an emitted vertex negated. -/
def flipAction (m : Machine α) : Action α → Action α
  | .emitVertex shared => .emitVertex (flipVertex m shared)
  | a => a

/-- Runs that emit the same vertices. -/
def emitsSame : Completion α where
  place := .builtin
  Shows shared shared' := shared = fun v i => some (shared' v i)
  Invariant _ := True

/-- Runs that emit the same vertices with the clip `y` negated. -/
def emitsFlipped (m : Machine α) : Completion α where
  place := .builtin
  Shows shared shared' := ∃ shown, (shared = fun v i => some (shown v i)) ∧
    shared' = flipVertex m shown
  Invariant _ := True

/-- What agrees with components that are all assigned is the same. -/
theorem eq_of_agrees {k : Completion α} (hplace : ∀ which, k.place which = .builtin which)
    {shared : Variable → Nat → Option α} {shared' : Variable → Nat → α}
    (h : k.Shared shared shared')
    (hassigned : ∀ cell : Cell, (shared cell.owner cell.lane).isSome) :
    shared = fun v i => some (shared' v i) := by
  funext v i
  obtain ⟨x, hx⟩ := Option.isSome_iff_exists.mp (hassigned ⟨v, i⟩)
  have hagrees := h.agrees v i x hx
  rw [Completion.home_of_place hplace] at hagrees
  rw [hx, hagrees]

/-- Negating the clip `y` first shows a vertex with the clip `y` negated. What is negated is lost in
    the run that is checked, so nothing tells it from what it was. -/
theorem emitVertex_completes {m m' : Machine α} (hm : NegatesByMinusOne m)
    {call} (hm' : ({ renewing m with call } : Checker α).Covers (emitsFlipped m) m') :
    Stmt.emitVertex.Completes (emitsFlipped m) { renewing m with call } m'
      (beforeEmit .emitVertex) := by
  obtain ⟨call', rfl⟩ := hm'.machine
  refine ⟨rfl, ?_⟩
  show Behaviour.Refines _ _ (seq (negatePosition.behaviour _) (seq (change _) skip))
  rw [seq_skip, behaviour_negatePosition (m := (renewing m).machine.withCalls call') hm]
  rintro σ τ hσ _ _ ⟨hassigned, rfl, rfl⟩
  have hshared := eq_of_agrees (fun _ => rfl) hσ.shared fun cell => hassigned cell rfl
  -- The run without checks first negates, then shows the vertex.
  refine ⟨.normal, _, .inl ⟨_, ⟨rfl, rfl⟩, rfl, rfl⟩, .normal, ⟨?_, trivial⟩, hσ.locals,
    hσ.free, ?_⟩
  · -- A cell other than the vertical position is as it was.
    intro v i x hx
    change (if isClip ⟨v, i⟩ then none else σ.shared v i) = some x at hx
    show (if (emitsFlipped m).home v = clipY.owner ∧ i = clipY.lane then _ else _) = x
    split at hx
    · cases hx
    · next hclip =>
      rw [if_neg]
      · exact hσ.shared.agrees v i x hx
      · rintro ⟨hv, rfl⟩
        cases v with
        | named name => cases hv
        | builtin which =>
          cases hv
          exact hclip rfl
  · -- The vertex that is shown is the one of the run that is checked, flipped.
    have hflipped : (negateY m τ).shared = flipVertex m τ.shared := by
      funext v i
      show (if v = clipY.owner ∧ i = clipY.lane then _ else _) = if _ then _ else _
      split
      · next h =>
        obtain ⟨rfl, rfl⟩ := h
        rfl
      · rfl
    show Forall₂ _ (emissions (σ.trace ++ [_])) (emissions ((τ.trace ++ [_]) ++ [_]))
    rw [emissions_append, emissions_append, emissions_append]
    show Forall₂ _ _ ((emissions τ.trace ++ []) ++ [.emitVertex (negateY m τ).shared])
    rw [append_nil]
    exact rel_append hσ.emitted (.cons (.vertex ⟨τ.shared, hshared, hflipped⟩) .nil)

/-- With functions that negate the clip `y` before each vertex, the functions of a program emit
    flipped vertices. -/
theorem expand_completes {m : Machine α} (hm : NegatesByMinusOne m) {f : Function}
    (hstarts : ∀ s ∈ f.body, s.Everywhere StartsPlainly) :
    f.Completes (emitsFlipped m) (renewing m) (f.mapBody (expandList beforeEmit)) where
  name := rfl
  params := rfl
  free _ _ := Completion.free_of_place (fun _ => rfl) _
  body call m' hm' := by
    have hkeeps : ({ renewing m with call } : Checker α).Keeps (emitsFlipped m) :=
      Checker.keeps_of_place (fun _ => rfl) fun _ => trivial
    refine .expand fun s hs => s.completes_expand (fun _ => rfl) hkeeps hm'
      (emitVertex_completes hm hm') (fun s hs => ?_) (hstarts s hs)
    -- Only an emission is put behind something new.
    cases s with
    | emitVertex => exact (hs rfl).elim
    | _ => rfl

/-- Without a change, they emit the same vertices. -/
theorem self_completes (m : Machine α) (f : Function) : f.Completes emitsSame (renewing m) f :=
  f.completes_self (fun _ => rfl) (fun _ => trivial) fun _ _ h hassigned =>
    eq_of_agrees (fun _ => rfl) h fun cell => hassigned cell rfl

/-- What shows the same vertices flipped shows what shows the same vertices, flipped. -/
theorem emissions_flipped {m : Machine α} {actions : List (Action (Option α))}
    {shown flipped : List (Action α)} (h : Forall₂ emitsSame.Emitted actions shown)
    (h' : Forall₂ (emitsFlipped m).Emitted actions flipped) :
    flipped = shown.map (flipAction m) := by
  induction h generalizing flipped with
  | nil =>
    cases h'
    rfl
  | cons hfirst _ ih =>
    obtain _ | ⟨hfirst', hrest'⟩ := h'
    refine congrArg₂ (· :: ·) ?_ (ih hrest')
    -- A vertex has the outputs that were checked, with the height negated on one side.
    cases hfirst with
    | primitive =>
      cases hfirst'
      rfl
    | vertex hshows =>
      obtain ⟨shown, hshown, rfl⟩ | _ := hfirst'
      obtain rfl : _ = shown := by
        funext v i
        exact Option.some.inj (congrFun (congrFun (hshows.symm.trans hshown) v) i)
      rfl

/-! ### The flipped program -/

/-- A vertex program that writes the clip position is flipped in its entry function only, which then
    does what it did before and negates the clip `y` once on every way out. -/
theorem legalize_vertex {p : Program} (hwrites : p.anyNode writesPosition = true)
    (hstage : p.stage = .vertex) {before after : List Element} {main : Function}
    (hp : p.elements = before ++ .function main :: after) (hmain : main.isEntry = true)
    (hbefore : ∀ f, .function f ∈ before → f.isEntry = false)
    (hreturns : ∀ s ∈ main.body, s.Everywhere ReturnsNothing)
    (hstarts : ∀ s ∈ main.body, s.Everywhere StartsPlainly) :
    (legalize p).elements = before ++ .function (main.mapBody flipEntryBody) :: after ∧
      ∀ m : Machine α, NegatesByMinusOne m →
        (main.mapBody flipEntryBody).Runs m = onExit (negateY m) (main.Runs m) := by
  constructor
  · simp only [legalize, hstage, hwrites, if_true, Program.mapEntry]
    rw [hp, Element.mapFirstEntry_append hbefore hmain]
  · exact fun m hm => listBehaviour_flipEntryBody hm hreturns hstarts

/-- In a geometry program that writes the clip position, vertices are flipped wherever they are
    emitted. -/
theorem legalize_geometry {p : Program} (hwrites : p.anyNode writesPosition = true)
    (hstage : p.stage = .geometry)
    (hstarts : ∀ f, .function f ∈ p.elements → ∀ s ∈ f.body, s.Everywhere StartsPlainly)
    {m : Machine α} (hm : NegatesByMinusOne m) {name : String} {args : List (Ty × List α)}
    {shared : Variable → Nat → α} {checked : Reply (Option α)}
    (hchecked : (p.checked (renewing m)).call name args (fun v i => some (shared v i)) =
      some checked) :
    ∃ reply reply', (p.known m).call name args shared = some reply ∧
      ((legalize p).known m).call name args shared = some reply' ∧
      reply'.result = reply.result ∧
      emissions reply'.actions = (emissions reply.actions).map (flipAction m) := by
  have hcovers {k : Completion α} : (renewing m).Covers k m := ⟨⟨m.call, rfl⟩, nofun⟩
  have hfunctions : (legalize p).functions =
      p.functions.map (Function.mapBody (expandList beforeEmit)) := by
    simp only [legalize, hstage, hwrites, if_true]
    exact Program.functions_mapFunctions _ p
  -- The source itself shows what the checked run shows.
  have hsame : (p.checked (renewing m)).Covers emitsSame (p.known m) :=
    hcovers.declareAll (forall₂_same.mpr fun f _ => self_completes m f)
  have hflipped : (p.checked (renewing m)).Covers (emitsFlipped m) ((legalize p).known m) := by
    unfold Program.known
    rw [hfunctions]
    refine hcovers.declareAll ?_
    rw [forall₂_map_right_iff, forall₂_same]
    refine fun f hf => expand_completes hm ?_
    obtain ⟨el, hel, hf⟩ := List.mem_filterMap.mp hf
    cases el with
    | function g =>
      cases hf
      exact hstarts _ hel
    | _ => cases hf
  -- Both programs complete one run that is checked, so they agree on what it knows.
  obtain ⟨reply, hreply, hcompletes⟩ :=
    hsame.call (Completion.shared_of_place (fun _ => rfl) (fun _ => trivial) shared) hchecked
  obtain ⟨reply', hreply', hcompletes'⟩ :=
    hflipped.call (Completion.shared_of_place (fun _ => rfl) (fun _ => trivial) shared) hchecked
  refine ⟨reply, reply', hreply, hreply', ?_,
    emissions_flipped hcompletes.emitted hcompletes'.emitted⟩
  -- The results agree with those of the checked run, where they are defined.
  have hresult := hcompletes'.result.symm.trans hcompletes.result
  exact Option.map_injective (map_injective_iff.mpr fun _ _ => Option.some.inj) hresult

/-- Flipping a program that writes the clip position negates its `y` exactly once. In a vertex
    program, the entry function ends as it did, from the same states, and in the same state with the
    clip `y` negated where it returns or comes to its end. In a geometry program, a run that assigns
    the clip position anew after each vertex, before it uses it and before it emits the next one,
    emits the same vertices in the same order with the clip `y` of each of them negated. All loops
    start as the syntax asks of them. -/
theorem legalize_negates_once (p : Program) (hwrites : p.anyNode writesPosition = true)
    (hstarts : ∀ f, .function f ∈ p.elements → ∀ s ∈ f.body, s.Everywhere StartsPlainly)
    (m : Machine α) (hm : NegatesByMinusOne m) :
    (p.stage = .vertex → ∀ before after main, p.elements = before ++ .function main :: after →
      main.isEntry = true → (∀ f, .function f ∈ before → f.isEntry = false) →
      (∀ s ∈ main.body, s.Everywhere ReturnsNothing) →
      ∃ body, (legalize p).elements = before ++ .function { main with body } :: after ∧
        ∀ σ o τ, ({ main with body } : Function).Runs m σ o τ ↔
          ∃ ρ, main.Runs m σ o ρ ∧ τ = if o.exits then negateY m ρ else ρ) ∧
    (p.stage = .geometry → ∀ name args shared checked,
      (p.checked (renewing m)).call name args (fun v i => some (shared v i)) = some checked →
      ∃ reply reply', (p.known m).call name args shared = some reply ∧
        ((legalize p).known m).call name args shared = some reply' ∧
        reply'.result = reply.result ∧
        emissions reply'.actions = (emissions reply.actions).map (flipAction m)) := by
  refine ⟨fun hstage before after main hp hmain hbefore hreturns => ?_,
    fun hstage name args shared checked => legalize_geometry hwrites hstage hstarts hm⟩
  obtain ⟨helements, hruns⟩ := legalize_vertex hwrites hstage hp hmain hbefore hreturns
    (hstarts main (by simp [hp]))
  refine ⟨flipEntryBody main.body, helements, fun σ o τ => ?_⟩
  exact iff_of_eq (congrFun (congrFun (congrFun (hruns m hm) σ) o) τ)

/-- Integers among which minus one can be written out. -/
def signedIntegers : Machine Int :=
  { Machine.integers with
    literal := fun l => if l = .float .minusOne then -1 else Machine.integers.literal l
    truth_literal := by decide }

/-- The signed integers negate by a product with minus one. -/
theorem negatesByMinusOne_signedIntegers : NegatesByMinusOne signedIntegers := by
  intro v
  show [-1 * v] = [-v]
  simp

/-- A state without locals in which everything but the clip position is assigned. -/
structure Between (σ : State (Option α)) : Prop where
  locals : σ.locals = fun _ => none
  assigned (cell : Cell) : isClip cell = false → (σ.shared cell.owner cell.lane).isSome

/-- The statement that assigns the whole clip position. -/
def moveToCorner : Stmt := .assign (.ofBuiltin .position) (.ofVar "corner" (.vec 4))

/-- A vertex is emitted after the clip position is assigned, and what comes next is run. -/
theorem listCheck_corner (m : Machine α) (call) {σ : State (Option α)} (hσ : Between σ) :
    ∃ ρ, Between ρ ∧ ∀ rest o τ, listCheck { renewing m with call } rest ρ o τ →
      listCheck { renewing m with call } (moveToCorner :: .emitVertex :: rest) σ o τ := by
  obtain ⟨ρ, hmove, hlocals, hshared⟩ := Stmt.check_assign (c := { renewing m with call })
    .position "corner" hσ.locals rfl fun i => hσ.assigned ⟨.named "corner", i⟩ rfl
  -- What is written by the helper is assigned, and what is not was so before.
  have hassigned (cell : Cell) : (ρ.shared cell.owner cell.lane).isSome := by
    rw [hshared]
    split
    · exact hσ.assigned ⟨.named "corner", cell.lane⟩ rfl
    · next hclip =>
      have hother : ¬ (cell.owner = .builtin .position ∧ cell.lane < 4) := hclip
      exact hσ.assigned cell (by simpa [isClip] using hother)
  refine ⟨(ρ.act (.emitVertex ρ.shared)).lose isClip,
    ⟨hlocals.trans hσ.locals, fun cell hcell => ?_⟩, fun rest o τ h => ?_⟩
  · show (if isClip cell then none else ρ.shared cell.owner cell.lane).isSome
    rw [if_neg (by simp [hcell])]
    exact hassigned cell
  · exact .inl ⟨ρ, hmove, .inl ⟨_, ⟨fun cell _ => hassigned cell, rfl, rfl⟩, h⟩⟩

/-- A function that emits a vertex, and the entry function that emits one itself before. -/
theorem checks_corners (m : Machine α) (shared : Variable → Nat → α) :
    let place : Function := ⟨"place", .void, [], [moveToCorner, .emitVertex]⟩
    let main : Function := .entry
      [moveToCorner, .emitVertex, .expr (.ofUserCall "place" [] .void), .endPrimitive]
    let c := (renewing m).declare place
    ∃ o τ, main.Checks c (main.checkStart c [] fun v i => some (shared v i)) o τ := by
  intro place main c
  -- The entry function up to the call, then the function that is called.
  obtain ⟨ρ, hρ, hmain⟩ := listCheck_corner m c.call
    (σ := main.checkStart c [] fun v i => some (shared v i)) ⟨rfl, fun _ _ => rfl⟩
  obtain ⟨ρ', -, hplace⟩ := listCheck_corner m (renewing m).call
    (σ := place.checkStart (renewing m) [] ρ.shared) ⟨rfl, hρ.assigned⟩
  have hreply : place.checkReply? (renewing m) [] ρ.shared = some (.ofRun .normal ρ') :=
    Function.checkReply?_of_checks (hplace [] .normal ρ' ⟨rfl, rfl⟩)
  let called : State (Option α) :=
    { ρ with shared := ρ'.shared, trace := ρ.trace ++ .call "place" [] :: ρ'.trace }
  -- The call goes through the one function that is known.
  have hinvoke : (c.invoke "place" []).run.run ρ = some (.ok [], called) := by
    show (place.checkReply? (renewing m) [] ρ.shared).map _ = _
    rw [hreply]
    rfl
  have hcall : ((Expr.ofUserCall "place" [] .void).check c).run.run ρ =
      some (.ok (c.temporaries .void []), called) := by
    change (StateT.run (ExceptT.run (c.invoke "place" [] >>= fun vs => _)) ρ) = _
    rw [ExceptT.run_bind, StateT.run_bind, hinvoke]
    rfl
  -- The call is a statement of the entry point, so its values are not used.
  have hplaced : (Stmt.expr (.ofUserCall "place" [] .void)).check c ρ .normal called := by
    show Behaviour.after _ _ ρ .normal _
    unfold Behaviour.after
    rw [hcall]
    exact ⟨rfl, rfl⟩
  exact ⟨.normal, called.act .endPrimitive,
    hmain _ _ _ (.inl ⟨called, hplaced, .inl ⟨_, ⟨rfl, rfl⟩, rfl, rfl⟩⟩)⟩

/-- A vertex program that returns from a branch, and a geometry program that emits a vertex itself
    and another one in a helper function. -/
theorem branches_and_helpers_negate_once :
    let entry : Function := .entry
      [moveToCorner, .ifElse (.ofVar "far" .bool) (.returnWith none) none, moveToCorner]
    let place : Function := ⟨"place", .void, [], [moveToCorner, .emitVertex]⟩
    let main : Function := .entry
      [moveToCorner, .emitVertex, .expr (.ofUserCall "place" [] .void), .endPrimitive]
    let p : Program := ⟨.vertex, [.function entry]⟩
    let q : Program := ⟨.geometry, [.function place, .function main]⟩
    let m := signedIntegers
    (p.anyNode writesPosition = true ∧
      (∀ f, .function f ∈ p.elements → ∀ s ∈ f.body, s.Everywhere StartsPlainly) ∧
      NegatesByMinusOne m ∧
      p.stage = .vertex ∧ entry.isEntry = true ∧ (∀ s ∈ entry.body, s.Everywhere ReturnsNothing) ∧
      ∃ body, (legalize p).elements = [.function { entry with body }] ∧
        ∀ σ o τ, ({ entry with body } : Function).Runs m σ o τ ↔
          ∃ ρ, entry.Runs m σ o ρ ∧ τ = if o.exits then negateY m ρ else ρ) ∧
    (q.anyNode writesPosition = true ∧
      (∀ f, .function f ∈ q.elements → ∀ s ∈ f.body, s.Everywhere StartsPlainly) ∧
      q.stage = .geometry ∧
      ∀ shared, ∃ checked, (q.checked (renewing m)).call Function.entryName []
          (fun v i => some (shared v i)) = some checked ∧
        ∃ reply reply', (q.known m).call Function.entryName [] shared = some reply ∧
          ((legalize q).known m).call Function.entryName [] shared = some reply' ∧
          reply'.result = reply.result ∧
          emissions reply'.actions = (emissions reply.actions).map (flipAction m)) := by
  intro entry place main p q m
  have hm : NegatesByMinusOne m := negatesByMinusOne_signedIntegers
  -- Of the entry point only the branch holds a return, of nothing.
  have hreturns : ∀ s ∈ entry.body, s.Everywhere ReturnsNothing := by
    have hleaf : ∀ {s : Stmt}, s.nested = [] → ReturnsNothing s → s.Everywhere ReturnsNothing :=
      fun h hs => .intro hs (by simp [h])
    refine List.forall_mem_cons.mpr ⟨hleaf rfl trivial, List.forall_mem_cons.mpr ⟨?_,
      List.forall_mem_singleton.mpr (hleaf rfl trivial)⟩⟩
    exact .intro trivial (List.forall_mem_singleton.mpr (hleaf rfl rfl))
  -- Both programs pass the check, which is what the statements start plainly from.
  have hp : p.defect? = none := by decide
  have hq : q.defect? = none := by decide
  have hstarts := fun f => Program.everywhere_startsPlainly hp (f := f)
  have hstarts' := fun f => Program.everywhere_startsPlainly hq (f := f)
  have hvertex := (legalize_negates_once p (by decide) hstarts m hm).1 rfl [] [] entry rfl rfl nofun
    hreturns
  refine ⟨⟨by decide, hstarts, hm, rfl, rfl, hreturns, hvertex⟩, by decide, hstarts', rfl,
    fun shared => ?_⟩
  -- The run with checks exists: it is built in the lemma before.
  obtain ⟨o, τ, hrun⟩ := checks_corners m shared
  have hchecked := Function.checkReply?_of_checks hrun
  exact ⟨_, hchecked,
    (legalize_negates_once q (by decide) hstarts' m hm).2 rfl _ [] shared _ hchecked⟩

end ShaderGen.Legalize.FlipY
