import ShaderGen.Proofs.Semantics.Deterministic
import ShaderGen.Proofs.Semantics.Tracking

/-!
# What a program does

The elements of a program are taken in order. A global gets its initial value, and a function is
known from there on: whoever calls it gets the reply that its run gives. What is left in the end is
a machine that knows all functions of the program, and the state that the initial values leave, or
nothing if one of them is never computed. Two programs behave alike if these are alike, whatever
the machine, the arguments and the shared variables are (`Program.BehavesAs`).

## Main definitions

- `Function.reply?`: the reply to a call of a function
- `Program.load`: the functions of a program and its variables
- `Program.BehavesAs`: programs that differ in added names only
- `Element.SameOn`: elements that do the same

## Key results

- `Machine.Alike.declare`: functions that run alike give replies that are alike
- `Program.load_eq_of_same`: programs with elements that do the same do the same
- `Program.load_eq_of_mirrors`: so do programs over expressions that compute the same
-/

namespace ShaderGen

variable {α : Type}

/-- The reply of a run: what it returned, and nothing where it came to its end. -/
def Reply.ofRun (o : Outcome α) (τ : State α) : Reply α where
  result :=
    match o with
    | .returned (some vs) => some vs
    | .discarded => none
    | _ => some []
  shared := τ.shared
  actions := τ.trace

namespace Function

variable (m : Machine α) (f : Function) (args : List (Ty × List α)) (shared : Variable → Nat → α)

/-- The state in which a call of a function starts: its parameters have their values. -/
def start : State α :=
  (f.params.zip args).foldl
    (fun σ arg => σ.setLocal arg.1.name (some fun i => arg.2.2.getD i m.undefined))
    ⟨shared, fun _ => none, []⟩

open Classical in
/-- The reply to a call. There is none if the function does not return. -/
noncomputable def reply? : Option (Reply α) :=
  if h : ∃ run : Outcome α × State α, f.Runs m (f.start m args shared) run.1 run.2 then
    some (.ofRun h.choose.1 h.choose.2)
  else none

/-- Whether a call is meant for the function: functions with one name are told apart by the shapes
    of their arguments. -/
def isCalled (name : String) : Bool :=
  name == f.name && args.map (·.1.shape) == f.params.map (·.ty.shape)

variable {m f args shared}

/-- A call that runs to an end has that end as its reply. -/
theorem reply?_of_runs {o : Outcome α} {τ : State α}
    (h : f.Runs m (f.start m args shared) o τ) : f.reply? m args shared = some (.ofRun o τ) := by
  have hex : ∃ run : Outcome α × State α, f.Runs m (f.start m args shared) run.1 run.2 :=
    ⟨(o, τ), h⟩
  obtain ⟨ho, hτ⟩ := f.deterministic_runs m h hex.choose_spec
  rw [reply?, dif_pos hex, ho, hτ]

/-- A reply comes from a run. -/
theorem runs_of_reply? {reply : Reply α} (h : f.reply? m args shared = some reply) :
    ∃ o τ, f.Runs m (f.start m args shared) o τ ∧ reply = .ofRun o τ := by
  unfold reply? at h
  split at h
  · next hex => exact ⟨_, _, hex.choose_spec, (Option.some.inj h).symm⟩
  · cases h

variable (m f args shared) in
/-- A call starts with what functions share, with nothing done, and with its parameters as the only
    locals. -/
theorem start_spec : (f.start m args shared).shared = shared ∧ (f.start m args shared).trace = [] ∧
    ∀ x, (∀ p ∈ f.params, p.name ≠ x) → (f.start m args shared).locals x = none := by
  -- One argument bound to its parameter touches neither the globals nor the trace.
  have hfold : ∀ (bound : List (Param × Ty × List α)) (σ : State α),
      let τ := bound.foldl (fun σ arg =>
        σ.setLocal arg.1.name (some fun i => arg.2.2.getD i m.undefined)) σ
      τ.shared = σ.shared ∧ τ.trace = σ.trace ∧
        ∀ x, (∀ b ∈ bound, b.1.name ≠ x) → τ.locals x = σ.locals x := by
    intro bound
    induction bound with
    | nil => exact fun σ => ⟨rfl, rfl, fun _ _ => rfl⟩
    | cons b bound ih =>
      intro σ
      obtain ⟨hshared, htrace, hlocals⟩ :=
        ih (σ.setLocal b.1.name (some fun i => b.2.2.getD i m.undefined))
      refine ⟨hshared, htrace, fun x hx => ?_⟩
      obtain ⟨hb, hrest⟩ := List.forall_mem_cons.mp hx
      exact (hlocals x hrest).trans (if_neg (Ne.symm hb))
  obtain ⟨hshared, htrace, hlocals⟩ := hfold (f.params.zip args) ⟨shared, fun _ => none, []⟩
  refine ⟨hshared, htrace, fun x hx => hlocals x fun b hb => hx b.1 ?_⟩
  exact (List.of_mem_zip hb).1

/-- A call that never ends has no reply. -/
theorem reply?_eq_none (h : ∀ o τ, ¬ f.Runs m (f.start m args shared) o τ) :
    f.reply? m args shared = none :=
  dif_neg fun ⟨run, hrun⟩ => h run.1 run.2 hrun

end Function

/-- The machine that knows one more function of the program. A later function takes the place of an
    earlier one with the same name and arguments. -/
noncomputable def Machine.declare (m : Machine α) (f : Function) : Machine α :=
  m.withCalls fun name args shared =>
    if f.isCalled args name then f.reply? m args shared else m.call name args shared

/-- The state outside of all functions, where there are no locals. -/
def State.atFileScope (σ : State α) : State α := { σ with locals := fun _ => none }

/-- The state with the components of a global set. -/
def State.setGlobal (σ : State α) (d : Decl) (vs : List α) : State α :=
  σ.atFileScope.store ((Variable.named d.name).lanes d.ty (σ.shared (.named d.name))) vs

/-- Gives a global its initial value, if it has one. -/
def Decl.load (m : Machine α) (d : Decl) : Eval α Unit :=
  match d.init with
  | none => pure ()
  | some e => do
    modify State.atFileScope
    let vs ← e.values m
    modify fun σ => σ.setGlobal d (vs.takeD d.ty.laneCount m.undefined)

/-- Takes one element into account. -/
noncomputable def Element.load (m : Machine α) : Element → Eval α (Machine α)
  | .global d => do
    d.load m
    pure m
  | .function f => pure (m.declare f)
  | .layout _ => pure m

/-- The machine that knows the functions of a program, and the state in which its globals have
    their initial values. -/
noncomputable def Program.load (m : Machine α) (p : Program) (shared : Variable → Nat → α) :
    Option (Except Discarded (Machine α) × State α) :=
  (p.elements.foldlM Element.load m).run.run ⟨shared, fun _ => none, []⟩

/-- The same shared variables after the same actions, save for added names. -/
structure State.Alike (added : String → Bool) (σ σ' : State α) : Prop where
  shared : σ'.shared = σ.shared
  trace : seen added σ'.trace = seen added σ.trace

/-- Both programs are loaded alike, and then every call of a function without an added name gives
    replies that differ in added names only, if it gives one at all. -/
def Program.BehavesAs (added : String → Bool) (m : Machine α) (p p' : Program) : Prop :=
  ∀ shared, Option.Rel
    (Eval.Ends (State.Alike added) fun known known' τ τ' =>
      known.Alike added known' ∧ τ.Alike added τ')
    (p.load m shared) (p'.load m shared)

/-- A function that can stand for another on two machines: it is called alike, and it does the
    same, whatever was done before it started. -/
structure Function.RunsAs (added : String → Bool) (m m' : Machine α) (f f' : Function) : Prop where
  name_eq : f'.name = f.name
  params_eq : f'.params = f.params
  runs (before : List (Action α)) :
    Behaviour.Bisimilar (State.Shadows added before) (f.Runs m) (f'.Runs m')

variable {added : String → Bool} {m m' : Machine α}

/-! ### Functions -/

/-- A machine is like itself, whatever is added. -/
theorem Machine.Alike.refl (m : Machine α) : m.Alike added m := by
  refine ⟨m.call, rfl, fun name args shared _ => ?_⟩
  cases m.call name args shared with
  | none => exact .none
  | some reply => exact .some ⟨rfl, rfl, rfl⟩

/-- Calls that end alike, but for the added locals, have replies that are alike. -/
theorem Reply.alike_ofRun {o : Outcome α} {τ τ' : State α} (h : τ.Shadows added [] τ') :
    (Reply.ofRun o τ).Alike added (.ofRun o τ') :=
  ⟨rfl, h.shared, h.trace.symm⟩

namespace Function.RunsAs

variable {f f' : Function}

/-- Functions that do the same give replies that are alike. -/
theorem reply?_alike (hm : m.Alike added m') (h : RunsAs added m m' f f')
    (args : List (Ty × List α)) (shared : Variable → Nat → α) :
    Option.Rel (Reply.Alike added) (f.reply? m args shared) (f'.reply? m' args shared) := by
  have hstart : f'.start m' args shared = f.start m args shared := by
    obtain ⟨call, rfl, -⟩ := hm
    unfold Function.start
    rw [h.params_eq]
    rfl
  have hself : (f.start m args shared).Shadows added [] (f'.start m' args shared) :=
    hstart ▸ ⟨rfl, fun _ _ => rfl, rfl⟩
  -- If one of the functions returns, so does the other, whichever of the two it is.
  by_cases hex : ∃ o τ, f.Runs m (f.start m args shared) o τ
  · obtain ⟨o, τ, hrun⟩ := hex
    obtain ⟨τ', hrun', hτ⟩ := (h.runs []).forward hself hrun
    rw [reply?_of_runs hrun, reply?_of_runs hrun']
    exact .some (Reply.alike_ofRun hτ)
  · have hnone : ∀ o τ', ¬ f'.Runs m' (f'.start m' args shared) o τ' := by
      intro o τ' hrun'
      obtain ⟨τ, hrun, -⟩ := (h.runs []).backward hself hrun'
      exact hex ⟨o, τ, hrun⟩
    rw [reply?_eq_none hnone, reply?_eq_none fun o τ hrun => hex ⟨o, τ, hrun⟩]
    exact .none

/-- Machines stay alike when functions that do the same are declared. -/
theorem declare (hm : m.Alike added m') (h : RunsAs added m m' f f') :
    (m.declare f).Alike added (m'.declare f') := by
  have hreply := h.reply?_alike hm
  obtain ⟨call, rfl, hcall⟩ := hm
  refine ⟨((m.withCalls call).declare f').call, rfl, fun name args shared hname => ?_⟩
  -- The two functions answer the same calls.
  have hcalled : f'.isCalled args name = f.isCalled args name := by
    unfold isCalled
    rw [h.name_eq, h.params_eq]
  show Option.Rel _ (if _ then _ else _) (if _ then _ else _)
  rw [hcalled]
  split
  · exact hreply args shared
  · exact hcall name args shared hname

end Function.RunsAs

/-- A function with an added name makes no difference. -/
theorem Machine.Alike.declare_right (hm : m.Alike added m') {f : Function}
    (hname : added f.name = true) : m.Alike added (m'.declare f) := by
  obtain ⟨call, rfl, hcall⟩ := hm
  refine ⟨((m.withCalls call).declare f).call, rfl, fun name args shared hvisible => ?_⟩
  -- The function has an added name, so no visible call goes to it.
  have hcalled : f.isCalled args name = false := by
    have hne : (name == f.name) = false := by
      rw [beq_eq_false_iff_ne]
      rintro rfl
      simp [hname] at hvisible
    rw [Function.isCalled, hne, Bool.false_and]
  show Option.Rel _ _ (if f.isCalled args name then _ else _)
  rw [hcalled]
  exact hcall name args shared hvisible

/-! ### Globals -/

/-- Storing the same values at the same places keeps two states alike. -/
theorem State.Alike.store {σ σ' : State α} (ls : List (Lane α)) (vs : List α)
    (hlocals : σ.locals = fun _ => none) (hlocals' : σ'.locals = fun _ => none)
    (h : σ.Alike added σ') : (σ.store ls vs).Alike added (σ'.store ls vs) := by
  -- Without locals every component goes to a shared variable.
  have hwrite {σ : State α} (hlocals : σ.locals = fun _ => none) (cell : Cell) (v : α) :
      σ.write cell v = (σ.setShared cell v).act (.write cell v) := by
    unfold State.write
    cases cell.owner with
    | builtin which => rfl
    | named name =>
      dsimp only
      rw [hlocals]
  induction ls generalizing vs σ σ' with
  | nil => cases vs <;> exact h
  | cons l ls ih =>
    obtain ⟨value, cell?⟩ := l
    cases vs with
    | nil => cases cell? <;> exact h
    -- A lane without a place is dropped, in both states.
    | cons v vs =>
      cases cell? with
      | none => exact ih vs hlocals hlocals' h
      | some cell =>
        show ((σ.write cell v).store ls vs).Alike added ((σ'.write cell v).store ls vs)
        rw [hwrite hlocals, hwrite hlocals']
        -- The write changes both shared states alike and is seen alike.
        refine ih vs hlocals hlocals' ⟨?_, ?_⟩
        · funext x i
          show (if _ then v else σ'.shared x i) = if _ then v else σ.shared x i
          rw [h.shared]
        · show seen added (σ'.trace ++ _) = seen added (σ.trace ++ _)
          rw [seen_append, seen_append, h.trace]

/-- Setting the same global keeps two states alike. -/
theorem State.Alike.setGlobal {σ σ' : State α} (h : σ.Alike added σ') (d : Decl) (vs : List α) :
    (σ.setGlobal d vs).Alike added (σ'.setGlobal d vs) := by
  have hscope : σ.atFileScope.Alike added σ'.atFileScope := ⟨h.shared, h.trace⟩
  unfold State.setGlobal
  rw [h.shared]
  exact hscope.store _ vs rfl rfl

/-! ### Programs that do the same -/

/-- The same element on a machine, save for how it is spelled: an initial value computes what it
    computed, and from every state a function does what it did. -/
inductive Element.SameOn (m : Machine α) : Element → Element → Prop
  | global {d : Decl} {init : Option Expr}
    (h : Option.Rel (fun e e' => e'.values m = e.values m) d.init init) :
    SameOn m (.global d) (.global { d with init })
  | function {f : Function} {body : List Stmt} (h : Stmt.listBehaviour m body = f.Runs m) :
    SameOn m (.function f) (.function { f with body })
  | layout (l : Layout) : SameOn m (.layout l) (.layout l)

namespace Element.SameOn

variable {el el' el'' : Element}

/-- The relation of elements that mean the same on a machine is transitive. -/
theorem trans (h : el.SameOn m el') (h' : el'.SameOn m el'') : el.SameOn m el'' := by
  have hinits : ∀ {o o' o'' : Option Expr}, Option.Rel (fun e e' => e'.values m = e.values m) o o' →
      Option.Rel (fun e e' => e'.values m = e.values m) o' o'' →
      Option.Rel (fun e e' => e'.values m = e.values m) o o'' := by
    rintro _ _ _ (he | _) (he' | _)
    · exact .some (he'.trans he)
    · exact .none
  -- Only elements of one kind can mean the same.
  cases h with
  | global hinit =>
    obtain ⟨hinit'⟩ := h'
    exact .global (hinits hinit hinit')
  | function hbody =>
    obtain _ | ⟨hbody'⟩ := h'
    exact .function (hbody'.trans hbody)
  | layout l => exact h'

/-- What an element does to the machine and to the state. -/
theorem load_eq (h : el.SameOn m el') : el'.load m = el.load m := by
  cases h with
  | @global d init hinit =>
    obtain ⟨storage, name, ty, init₀⟩ := d
    cases hinit with
    | none => rfl
    | some he =>
      unfold Element.load Decl.load
      simp only [he]
      rfl
  -- The reply is read off the runs alone, and the two bodies have the same ones.
  | @function f body hbody =>
    have hreply : Function.reply? m { f with body } = f.reply? m := by
      have hruns : Function.Runs m { f with body } = f.Runs m := hbody
      funext args shared
      unfold Function.reply?
      rw [hruns]
      rfl
    show pure (m.declare { f with body }) = pure (m.declare f)
    unfold Machine.declare
    rw [hreply]
    rfl
  | layout l => rfl

end Element.SameOn

/-- What comes after an element is run on a machine as good as the one before. -/
theorem Element.load_bind_congr {K : Machine α → Prop} (hK : ∀ m f, K m → K (m.declare f))
    (el : Element) (hm : K m) {β : Type} {k k' : Machine α → Eval α β}
    (h : ∀ m, K m → k m = k' m) : el.load m >>= k = el.load m >>= k' := by
  cases el with
  | global d =>
    simp only [Element.load, bind_assoc, pure_bind]
    rw [h m hm]
  | function f => exact h _ (hK m f hm)
  | layout l => exact h m hm

/-- A program whose elements are the same on all machines of a kind, which declarations do not
    leave, is loaded with the same result: the same functions are known, and the same is done by the
    initial values of the globals. -/
theorem Program.load_eq_of_same {K : Machine α → Prop} (hK : ∀ m f, K m → K (m.declare f))
    {p p' : Program}
    (h : List.Forall₂ (fun el el' => ∀ m, K m → Element.SameOn m el el') p.elements p'.elements)
    (hm : K m) (shared : Variable → Nat → α) : p'.load m shared = p.load m shared := by
  -- The programs are loaded element by element.
  have hfold : p'.elements.foldlM Element.load m = p.elements.foldlM Element.load m := by
    generalize p.elements = els, p'.elements = els' at h
    induction h generalizing m with
    | nil => rfl
    | @cons el el' _ _ hel _ ih =>
      rw [List.foldlM_cons, List.foldlM_cons, (hel m hm).load_eq]
      exact el.load_bind_congr hK hm fun known hknown => ih hknown
  unfold Program.load
  rw [hfold]

/-- Elements over expressions that compute the same. -/
theorem Element.Mirrors.sameOn {el el' : Element}
    (h : el.Mirrors (fun e e' => e'.values m = e.values m) el') : el.SameOn m el' := by
  cases h with
  | global hinit => exact .global hinit
  | function hbody => exact .function (Stmt.Mirrors.listBehaviour_eq hbody)
  | layout l => exact .layout l

/-- A program over expressions that compute the same on all machines of a kind. -/
theorem Program.load_eq_of_mirrors_on {K : Machine α → Prop} (hK : ∀ m f, K m → K (m.declare f))
    {R : Expr → Expr → Prop} (hR : ∀ e e', R e e' → ∀ m, K m → e'.values m = e.values m)
    {p p' : Program} (h : List.Forall₂ (Element.Mirrors R) p.elements p'.elements) (hm : K m)
    (shared : Variable → Nat → α) : p'.load m shared = p.load m shared :=
  load_eq_of_same hK (h.imp fun _ _ hel m hm =>
    (hel.mono fun e e' he => hR e e' he m hm).sameOn) hm shared

/-- A program over expressions that compute the same. -/
theorem Program.load_eq_of_mirrors {R : Expr → Expr → Prop}
    (hR : ∀ e e', R e e' → ∀ m : Machine α, e'.values m = e.values m) {p p' : Program}
    (h : List.Forall₂ (Element.Mirrors R) p.elements p'.elements) (m : Machine α)
    (shared : Variable → Nat → α) : p'.load m shared = p.load m shared :=
  load_eq_of_mirrors_on (K := fun _ => True) (fun _ _ _ => trivial)
    (fun e e' he m _ => hR e e' he m) h trivial shared

end ShaderGen
