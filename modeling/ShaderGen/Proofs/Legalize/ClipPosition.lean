import ShaderGen.Proofs.Legalize.PositionWrites
import ShaderGen.Proofs.Semantics.Transition

/-!
# The clip position and what passes it on

A vertex program that passes on its clip position keeps two variables in step: whenever an
expression has written the position, the other variable holds the same, and nothing else changes
either of them. This is an invariant of runs through all functions of the program, in terms of what
a run leaves and of everything it does on the way (`InStep`).

The rule only knows plain and compound assignments of the whole position. A write of one component
leaves the other variable behind (`written_component_is_left_behind`).

## Key results

- `legalize_keeps_position_in_step`: where a program writes the position as a whole, the program
  that is written out keeps both variables in step
-/

namespace ShaderGen.Legalize.FragCoord

open ShaderGen.Expr Behaviour

variable {α : Type}

/-! ### Variables in step -/

/-- The clip position. -/
def position : Variable := .builtin .position

/-- The variable that passes on the clip position. -/
def varying : Variable := .named varyingName

/-- The action writes neither of the two variables. -/
def Spares (a : Action α) : Prop :=
  ∀ cell value, a = .write cell value → cell.owner ≠ position ∧ cell.owner ≠ varying

/-- Whenever the position is written, the same is written to the other variable at once, and
    nothing else writes either of them. -/
inductive PassedOn : List (Action α) → Prop
  | nil : PassedOn []
  | other {a : Action α} {rest : List (Action α)} (h : Spares a) (hrest : PassedOn rest) :
    PassedOn (a :: rest)
  | write {vs : List α} {rest : List (Action α)} (h : vs.length = 4) (hrest : PassedOn rest) :
    PassedOn (position.writes vs ++ varying.writes vs ++ rest)

/-- What is done between two contents of the shared variables keeps the two in step: after a write
    both hold the same, and without one they are left alone. -/
structure InStep (shared shared' : Variable → Nat → α) (actions : List (Action α)) : Prop where
  passed : PassedOn actions
  agrees : (∃ a ∈ actions, ¬ Spares a) → ∀ i < 4, shared' varying i = shared' position i
  kept : (∀ a ∈ actions, Spares a) →
    shared' position = shared position ∧ shared' varying = shared varying

/-- Every function that a machine knows keeps the two variables in step. -/
def KeepsInStep (m : Machine α) : Prop :=
  ∀ name args shared reply, m.call name args shared = some reply →
    InStep shared reply.shared reply.actions

/-- A run that has no local variable in the place of the shared one has none in the end, and keeps
    the two variables in step. -/
def Stays (σ τ : State α) : Prop :=
  σ.locals varyingName = none → τ.locals varyingName = none ∧
    ∃ actions, τ.trace = σ.trace ++ actions ∧ InStep σ.shared τ.shared actions

/-- Actions in a row are passed on if each part is. -/
theorem PassedOn.append {as bs : List (Action α)} (h : PassedOn as) (h' : PassedOn bs) :
    PassedOn (as ++ bs) := by
  induction h with
  | nil => exact h'
  | other hspares _ ih => exact .other hspares ih
  | write hlength _ ih =>
    rw [List.append_assoc]
    exact .write hlength ih

namespace InStep

variable {s s' s'' : Variable → Nat → α} {as bs : List (Action α)}

/-- Nothing is in step. -/
theorem refl (s : Variable → Nat → α) : InStep s s [] :=
  ⟨.nil, by simp, fun _ => ⟨rfl, rfl⟩⟩

/-- What is in step stays so in a row. -/
theorem trans (h : InStep s s' as) (h' : InStep s' s'' bs) : InStep s s'' (as ++ bs) where
  passed := h.passed.append h'.passed
  agrees hwrites := by
    by_cases hlast : ∃ a ∈ bs, ¬ Spares a
    · exact h'.agrees hlast
    · -- The last write came before, and what both hold since then is left alone.
      have hspares : ∀ a ∈ bs, Spares a := by
        simpa only [not_exists, not_and, not_not] using hlast
      obtain ⟨hposition, hvarying⟩ := h'.kept hspares
      have hfirst : ∃ a ∈ as, ¬ Spares a := by
        obtain ⟨a, ha, hwrite⟩ := hwrites
        rcases List.mem_append.mp ha with ha | ha
        · exact ⟨a, ha, hwrite⟩
        · exact absurd (hspares a ha) hwrite
      rw [hposition, hvarying]
      exact h.agrees hfirst
  kept hspares := by
    obtain ⟨has, hbs⟩ := List.forall_mem_append.mp hspares
    exact ⟨(h'.kept hbs).1.trans (h.kept has).1, (h'.kept hbs).2.trans (h.kept has).2⟩

/-- An action that spares the two variables and leaves them alone. -/
theorem other {a : Action α} (h : Spares a) (hposition : s' position = s position)
    (hvarying : s' varying = s varying) : InStep s s' [a] where
  passed := .other h .nil
  agrees hwrites := by
    obtain ⟨b, hb, hwrite⟩ := hwrites
    obtain rfl := List.mem_singleton.mp hb
    exact absurd h hwrite
  kept _ := ⟨hposition, hvarying⟩

/-- The position is written, and then the other variable. -/
theorem write {vs : List α} (h : vs.length = 4)
    (hagrees : ∀ i < 4, s' varying i = s' position i) :
    InStep s s' (position.writes vs ++ varying.writes vs) where
  passed := by simpa using PassedOn.write h .nil
  agrees _ := hagrees
  kept hspares := by
    obtain ⟨a, b, c, d, rfl⟩ : ∃ a b c d, vs = [a, b, c, d] := List.length_eq_four.mp h
    exact absurd rfl (hspares (.write ⟨position, 0⟩ a) List.mem_cons_self _ _ rfl).1

end InStep

/-! ### What runs do -/

/-- Staying in step is something that runs in a row do together. -/
theorem transition_stays : Transition (· ≠ varyingName) (Stays (α := α)) where
  refl σ hσ := ⟨hσ, [], (List.append_nil _).symm, .refl _⟩
  trans {σ ρ τ} h h' hσ := by
    obtain ⟨hρ, as, htrace, has⟩ := h hσ
    obtain ⟨hτ, bs, htrace', hbs⟩ := h' hρ
    exact ⟨hτ, as ++ bs, by rw [htrace', htrace, List.append_assoc], has.trans hbs⟩
  leave {σ ρ} names h hσ := by
    obtain ⟨hρ, as, htrace, has⟩ := h hσ
    refine ⟨?_, as, htrace, has⟩
    show (if _ then _ else _) = none
    -- A name that is given back on leaving is not the varying.
    split
    · exact hσ
    · exact hρ
  setLocal σ {name} hname content hσ :=
    ⟨(if_neg (Ne.symm hname)).trans hσ, [], (List.append_nil _).symm, .refl _⟩
  emitVertex σ hσ := ⟨hσ, _, rfl, .other nofun rfl rfl⟩
  endPrimitive σ hσ := ⟨hσ, _, rfl, .other nofun rfl rfl⟩

/-- Writes to other variables and calls of known functions keep the two variables in step. -/
theorem steps_stays {m : Machine α} (hm : KeepsInStep m) :
    Transition.Steps m (fun v => v ≠ position ∧ v ≠ varying) (Stays (α := α)) where
  -- A write to any other variable is passed over, and touches neither of the two.
  write σ {cell} hcell value hσ := by
    have hspares : Spares (Action.write cell value) := by
      rintro _ _ ⟨⟩
      exact hcell
    have hlocal : (σ.write cell value).locals varyingName = none :=
      (State.locals_write_of_ne hcell.2 value σ).trans hσ
    have htrace : (σ.write cell value).trace = σ.trace ++ [.write cell value] := by
      unfold State.write
      split
      · split <;> rfl
      · rfl
    exact ⟨hlocal, _, htrace, .other hspares (State.shared_write_of_ne hcell.1.symm value σ)
      (State.shared_write_of_ne hcell.2.symm value σ)⟩
  call σ {name args reply} hreply hσ := by
    refine ⟨hσ, _, rfl, ?_⟩
    have hcall : InStep σ.shared σ.shared [Action.call name args] := .other nofun rfl rfl
    exact hcall.trans (hm name args σ.shared reply hreply)

/-- Writing the position and then the other variable keeps them in step. -/
theorem stays_store {σ : State α} {positionTy varyingTy : Ty} (hposition : positionTy.laneCount = 4)
    (hvarying : varyingTy.laneCount = 4) (content content' : Nat → α) {vs : List α}
    (hvs : vs.length = 4) :
    Stays σ ((σ.store (position.lanes positionTy content) vs).store
      (varying.lanes varyingTy content') vs) := by
  intro hσ
  -- The first write is to the position alone, so the varying is still to be written.
  have hfirst := State.store_lanes (σ := σ) (v := position) nofun (hvs.trans hposition.symm) content
  rw [hfirst, State.store_lanes (by rintro _ ⟨⟩; exact hσ) (hvs.trans hvarying.symm)]
  have hne : position ≠ varying := by decide
  refine ⟨hσ, position.writes vs ++ varying.writes vs, List.append_assoc .., .write hvs ?_⟩
  intro i hi
  have hin : i < vs.length := hvs ▸ hi
  simp [hne, hin]

/-- What reaches the position or the varying reaches one of the two. -/
theorem reachesClip_of_reaches {e : Expr} {v : Variable} (h : e.Reaches v)
    (hv : v = position ∨ v = varying) : ReachesClip e := by
  obtain ⟨r, hr, howner⟩ := h
  refine ⟨r, hr, ?_⟩
  cases r with
  -- Only a variable of that name or the builtin itself owns one of the two.
  | var ty name =>
    rcases hv with rfl | rfl
    · cases howner
    · obtain rfl := Variable.named.inj (Option.some.inj howner)
      simp [isClip]
  | builtin ty which =>
    rcases hv with rfl | rfl
    · obtain rfl := Variable.builtin.inj (Option.some.inj howner)
      rfl
    · cases howner
  | _ => cases howner

/-- An expression that passes on the position keeps the two variables in step. -/
theorem follows_passing {m : Machine α} (hm : KeepsInStep m) {e : Expr} (he : PassesOn e) :
    Eval.Follows Stays (Lane.Owned e.Reaches) (e.eval m) := by
  have hT := transition_stays (α := α)
  induction he with
  | @forward ty varyingTy valueTy positionTy op value hop hvarying hvalue hposition _ ih =>
    have hload : ∀ (v : Variable) (ty : Ty), Eval.Follows Stays
        (fun ls => ∃ content, ls = v.lanes ty content) (Eval.load v ty : Eval α _) := by
      rintro v ty σ _ _ ⟨⟩
      exact ⟨hT.refl σ, by rintro _ ⟨⟩; exact ⟨_, rfl⟩⟩
    have hassign : BinaryOp.assign.isAssignment = true := rfl
    have hcopyTy : (Expr.var varyingTy varyingName).ty = varyingTy := rfl
    have htargetTy : (Expr.builtin positionTy .position).ty = positionTy := rfl
    have hwholeTy : (Expr.binary valueTy op (.builtin positionTy .position) value).ty = valueTy :=
      rfl
    -- Assigning to the one variable what the other is assigned reads both, computes the value once
    -- and stores it twice.
    simp only [eval, hop, hassign, if_true, hcopyTy, htargetTy, hwholeTy, map_bind, bind_assoc,
      map_pure, pure_bind]
    refine (hload varying varyingTy).bind hT ?_
    rintro _ ⟨content', rfl⟩
    refine (hload position positionTy).bind hT ?_
    rintro _ ⟨content, rfl⟩
    have hvalues : Eval.Follows Stays (fun _ => True) (Lane.values <$> value.eval m) :=
      ih.map hT fun _ _ => trivial
    refine hvalues.bind hT fun vs _ => ?_
    -- What is written to the position is written to the other variable next.
    generalize hnew : m.assigned op positionTy _ value.ty vs = new
    have hlength : new.length = 4 := hnew ▸ (List.takeD_length ..).trans hposition
    have hcopy : m.assigned .assign varyingTy (Lane.values (varying.lanes varyingTy content'))
        valueTy (Lane.values (m.temporaries valueTy new)) = new := by
      rw [Machine.values_temporaries, takeD_of_length _ (hlength.trans hvalue.symm)]
      exact takeD_of_length _ (hlength.trans hvarying.symm)
    rw [hcopy, ← bind_assoc]
    have hstore : Eval.Follows Stays (fun _ => True) (modify fun σ : State α =>
        (σ.store (position.lanes positionTy content) new).store
          (varying.lanes varyingTy content') new : Eval α Unit) :=
      .modify fun σ => stays_store hposition hvarying content content' hlength
    exact Eval.Follows.bind hT hstore fun _ _ => .pure hT (Lane.owned_temporaries ty new)
  -- Whatever else is written reaches neither variable.
  | other htarget _ ih =>
    refine follows_eval hT (steps_stays hm) (fun target ht v hv => ?_) ih
    have hnone : ¬ (v = position ∨ v = varying) :=
      fun hclip => htarget target ht (reachesClip_of_reaches hv hclip)
    exact not_or.mp hnone

/-- A function that passes on the position keeps the two variables in step. -/
theorem follows_runs {m : Machine α} (hm : KeepsInStep m) {fn : Function} (hfn : fn.Meets passing) :
    Behaviour.Follows Stays (fn.Runs m) :=
  Stmt.follows_listBehaviour transition_stays fun s hs =>
    s.follows_behaviour transition_stays
      (fun _ he => (follows_passing hm he).map transition_stays fun _ _ => trivial)
      ((Demand.body_iff_of_prologue_eq_nil rfl).mp hfn.body s hs)

/-- A machine that keeps the two variables in step may come to know a function that passes on the
    position. -/
theorem KeepsInStep.declare {m : Machine α} (hm : KeepsInStep m) {fn : Function}
    (hfn : fn.Meets passing) : KeepsInStep (m.declare fn) := by
  intro name args shared reply hreply
  change (if fn.isCalled args name then fn.reply? m args shared else m.call name args shared) =
    some reply at hreply
  split at hreply
  · -- The function is the one called: what it does is read off its run.
    obtain ⟨o, τ, hrun, rfl⟩ := Function.runs_of_reply? hreply
    obtain ⟨hshared, htrace, hlocals⟩ := fn.start_spec m args shared
    obtain ⟨-, actions, hactions, hstep⟩ :=
      follows_runs hm hfn hrun (hlocals varyingName hfn.params)
    rw [htrace, List.nil_append] at hactions
    rw [hshared, ← hactions] at hstep
    exact hstep
  · exact hm name args shared reply hreply

/-- Loading a program that passes on the position keeps the two variables in step, and so do the
    functions that are known in the end. -/
theorem follows_load {els : List Element} (hels : ∀ el ∈ els, el.Meets passing) {m : Machine α}
    (hm : KeepsInStep m) : Eval.Follows Stays KeepsInStep (els.foldlM Element.load m) := by
  have hT := transition_stays (α := α)
  induction els generalizing m with
  | nil => exact .pure hT hm
  | cons el els ih =>
    rw [List.foldlM_cons]
    have hrest := fun el hel => hels el (List.mem_cons_of_mem _ hel)
    refine Eval.Follows.bind hT (P := KeepsInStep) ?_ fun m hm => ih hrest hm
    have hel := hels el List.mem_cons_self
    -- A layout does nothing, and a function adds to what the machine knows.
    cases el with
    | layout l => exact .pure hT hm
    | function fn => exact .pure hT (hm.declare hel)
    | global d =>
      refine Eval.Follows.bind hT (P := fun _ => True) ?_ fun _ _ => .pure hT hm
      unfold Decl.load
      split
      · exact .pure hT trivial
      · next e he =>
        -- The global is none of the two variables, as it has another name.
        have hscope : ∀ σ : State α, Stays σ σ.atFileScope := fun σ _ =>
          ⟨rfl, [], (List.append_nil _).symm, .refl _⟩
        have howned : Variable.named d.name ≠ position ∧ Variable.named d.name ≠ varying :=
          ⟨nofun, fun h => hel.1 (Variable.named.inj h)⟩
        refine Eval.Follows.bind hT (P := fun _ => True) (.modify hscope) fun _ _ => ?_
        have hvalue := (follows_passing hm (hel.2 e he)).map hT (f := Lane.values)
          (Q := fun _ => True) fun _ _ => trivial
        refine hvalue.bind hT fun vs _ => .modify fun σ => hT.trans (hscope σ) ?_
        exact State.store_of_steps hT (steps_stays hm) _
          (Lane.owned_lanes (W := fun v => v ≠ position ∧ v ≠ varying) howned _ _) _

/-! ### The program that is written out -/

/-- Functions that a machine knows without the program leave the clip position alone. -/
def SparesPosition (m : Machine α) : Prop :=
  ∀ name args shared reply, m.call name args shared = some reply →
    (∀ a ∈ reply.actions, Spares a) ∧ reply.shared position = shared position ∧
      reply.shared varying = shared varying

/-- A machine that spares the position keeps the two in step. -/
theorem SparesPosition.keepsInStep {m : Machine α} (hm : SparesPosition m) : KeepsInStep m := by
  intro name args shared reply hreply
  obtain ⟨hspares, hposition, hvarying⟩ := hm name args shared reply hreply
  refine ⟨?_, fun ⟨a, ha, hwrites⟩ => absurd (hspares a ha) hwrites, fun _ => ⟨hposition, hvarying⟩⟩
  -- The induction is on the actions, with what they start from left open.
  generalize reply.actions = actions at hspares
  induction actions with
  | nil => exact .nil
  | cons a actions ih =>
    obtain ⟨ha, hrest⟩ := List.forall_mem_cons.mp hspares
    exact .other ha (ih hrest)

/-- Where a target cannot use fragment coordinates, and a vertex program writes the clip position as
    a whole wherever it writes it, the program that is written out keeps the position and the
    variable that passes it on in step: while it is loaded, in every call of its functions, and in
    every run of one of its expressions, whatever happened before. -/
theorem legalize_keeps_position_in_step (t : Target) (p p' : Program) (s' : Scratch)
    (hneeds : t.profile.needs .avoidFragCoord = true) (hflip : t.flipsY = false)
    (hstage : p.stage = .vertex) (hp : p.Meets passable)
    (hrun : (Legalize.legalize t p).run.run {} = (.ok p', s')) (m : Machine α)
    (hm : SparesPosition m) :
    (∀ shared r σ, (s'.withHelpers p').load m shared = some (r, σ) →
      InStep shared σ.shared σ.trace ∧ ∀ known, r = .ok known → KeepsInStep known) ∧
    ∀ known : Machine α, KeepsInStep known → (s'.withHelpers p').All fun e =>
      ∀ σ r τ, σ.locals varyingName = none → e.run known σ = some (r, τ) →
        ∃ actions, τ.trace = σ.trace ++ actions ∧ InStep σ.shared τ.shared actions := by
  have hpolicy : t.coordPolicy = .fromVarying := if_pos hneeds
  have hmeets : (s'.withHelpers p').Meets passing :=
    pipeline_passes_on hpolicy hflip ⟨hstage, hp⟩ hrun
  -- Loading starts with nothing local, and each later run with what the load left.
  refine ⟨fun shared r σ hload => ?_, fun known hknown => ?_⟩
  · obtain ⟨hstays, hend⟩ := follows_load hmeets hm.keepsInStep hload
    obtain ⟨-, actions, hactions, hstep⟩ := hstays rfl
    refine ⟨?_, hend⟩
    rw [hactions, List.nil_append]
    exact hstep
  · refine (hmeets.all rfl).mono fun e he σ r τ hlocal hvalue => ?_
    have hvalues := (follows_passing hknown he).map transition_stays (f := Lane.values)
      (Q := fun _ => True) fun _ _ => trivial
    exact ((hvalues hvalue).1 hlocal).2

/-- Writes in a branch of a helper function that the entry function calls in a loop. -/
theorem nested_writes_keep_in_step :
    let clip : Expr := .ofBuiltin .position
    let point : Expr := .ofVar "point" (.vec 4)
    let place : Function := ⟨"place", .void, [⟨"point", .vec 4⟩],
      [.ifElse (.ofVar "far" .bool) (.block [.expr (.ofBinary .mulAssign clip point)])
        (some (.block [.assign clip point]))]⟩
    let main : Function := .entry
      [.decl (.plain "p" (.vec 4) (some (.ofVar "corner" (.vec 4)))),
       .whileLoop (.ofVar "more" .bool)
        (.expr (.ofUserCall "place" [.ofVar "p" (.vec 4)] .void))]
    let p : Program := ⟨.vertex, [.function place, .function main]⟩
    let t : Target := { profile := { workarounds := .single .avoidFragCoord } }
    (t.profile.needs .avoidFragCoord = true ∧ t.flipsY = false ∧ p.stage = .vertex ∧
        p.Meets passable ∧ p.anyNode assignsPosition = true ∧ SparesPosition Machine.integers) ∧
      ∃ p' s', (Legalize.legalize t p).run.run {} = (.ok p', s') ∧
        ∀ shared r σ, (s'.withHelpers p').load .integers shared = some (r, σ) →
          InStep shared σ.shared σ.trace ∧ ∀ known, r = .ok known → KeepsInStep known := by
  intro clip point place main p t
  have hmachine : SparesPosition Machine.integers := by
    rintro name args shared _ ⟨rfl⟩
    exact ⟨nofun, rfl, rfl⟩
  have hname : ∀ x, decide (x ≠ varyingName) = true → passable.names x :=
    fun _ => of_decide_eq_true
  -- Neither function declares the varying, and each writes whole positions only.
  have hplace : place.Meets passable := by
    refine ⟨trivial, List.forall_mem_singleton.mpr (hname _ rfl),
      .inl (List.forall_mem_singleton.mpr ?_)⟩
    refine Stmt.fits_ifElse.mpr ⟨rfl, ?_, ?_⟩
    · exact Stmt.fits_block.mpr (List.forall_mem_singleton.mpr (Stmt.fits_expr.mpr rfl))
    · rintro _ ⟨rfl⟩
      exact Stmt.fits_block.mpr (List.forall_mem_singleton.mpr (Stmt.fits_expr.mpr rfl))
  have hmain : main.Meets passable := by
    refine ⟨trivial, nofun, .inl (List.forall_mem_cons.mpr ⟨?_, List.forall_mem_singleton.mpr ?_⟩)⟩
    · exact Stmt.fits_decl.mpr ⟨hname _ rfl, by rintro _ ⟨rfl⟩; rfl⟩
    · exact Stmt.fits_whileLoop.mpr ⟨rfl, Stmt.fits_expr.mpr rfl⟩
  have hp : p.Meets passable :=
    List.forall_mem_cons.mpr ⟨hplace, List.forall_mem_singleton.mpr hmain⟩
  -- That the pipeline succeeds is found by evaluation; the theorem tells the rest.
  obtain ⟨p', s', hrun, -⟩ := exists_ok_of_any (r := (Legalize.legalize t p).run.run {})
    (q := fun _ => true) (by decide)
  exact ⟨⟨by decide, rfl, rfl, hp, by decide, hmachine⟩, p', s', hrun,
    (legalize_keeps_position_in_step t p p' s' (by decide) rfl rfl hp hrun .integers hmachine).1⟩

/-- Where one component of the position is written, the other variable does not get it. -/
theorem written_component_is_left_behind :
    let x : Expr := .ofSwizzle (.ofBuiltin .position) [.x]
    let p : Program := ⟨.vertex, [.function (.entry [.assign x (.float .one)])]⟩
    let t : Target := { profile := { workarounds := .single .avoidFragCoord } }
    t.profile.needs .avoidFragCoord = true ∧ t.flipsY = false ∧
      ∃ p' s' known σ reply, (Legalize.legalize t p).run.run {} = (.ok p', s') ∧
        (s'.withHelpers p').load Machine.integers (fun _ _ => 0) = some (.ok known, σ) ∧
        known.call Function.entryName [] σ.shared = some reply ∧
        (∃ a ∈ reply.actions, ¬ Spares a) ∧
        reply.shared varying 0 ≠ reply.shared position 0 := by
  intro x p t
  have hok : ((Legalize.legalize t p).run.run {}).1 = .ok p := by with_unfolding_all rfl
  have hhelpers : ((Legalize.legalize t p).run.run {}).2.helpers = [] := by
    with_unfolding_all rfl
  -- The entry function writes one component of the position, and that is all it does.
  let main : Function := .entry [.assign x (.float .one)]
  let σ : State Int := ⟨fun _ _ => 0, fun _ => none, []⟩
  let τ : State Int := σ.write ⟨position, 0⟩ 1
  have hruns : main.Runs Machine.integers σ .normal τ :=
    .inl ⟨τ, ⟨rfl, rfl⟩, rfl, rfl⟩
  have hreply : main.reply? Machine.integers [] (fun _ _ => 0) = some (.ofRun .normal τ) :=
    Function.reply?_of_runs hruns
  refine ⟨by decide, rfl, p, ((Legalize.legalize t p).run.run {}).2,
    Machine.integers.declare main, σ, .ofRun .normal τ, Prod.ext hok rfl, ?_, hreply, ?_, ?_⟩
  · unfold Scratch.withHelpers
    rw [hhelpers]
    rfl
  · -- Its one action writes the position and no varying.
    exact ⟨_, List.mem_singleton_self _, fun hspares => (hspares _ _ rfl).1 rfl⟩
  · decide

end ShaderGen.Legalize.FragCoord
