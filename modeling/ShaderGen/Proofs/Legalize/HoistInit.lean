import ShaderGen.Legalize.HoistInit
import ShaderGen.Proofs.Rewriting
import ShaderGen.Proofs.Legalize.Supply
import ShaderGen.Proofs.Semantics.Loading

/-!
# Initial values in functions of their own

A global gets the value that its initial value had, if the function that it has moved into is
declared right before and does the same. The function starts in a state of its own, without locals
and with an empty trace, so it is compared with the initial value as it runs after all that was done
before (`Function.RunsAs.continues_call`).

## Main definitions

- `Element.Redone`: the elements of a program and those with other expressions and with initial
  values in functions
- `Function.Becomes`: a function and one that does the same, whatever other functions there are
- `Element.Rebuilt`: elements over the same expressions, save for those in functions

## Key results

- `Element.Redone.continues`, `Element.Rebuilt.behavesAs`: the program does what it did
- `HoistInit.redone`, `HoistInit.rebuilt`: what hoisting leaves once each function has been replaced
-/

namespace ShaderGen

open Behaviour
open List (Forall₂)
open ShaderGen.Legalize

variable {α : Type} (added : String → Bool)

/-- A function and one that can stand for it, whatever functions of the program there are. -/
def Function.Becomes (m : Machine α) (f f' : Function) : Prop :=
  ∀ call m', (m.withCalls call).Alike added m' → f.RunsAs added (m.withCalls call) m' f'

/-- Elements before and after some initial values have moved into functions of their own. Each
    function was replaced by one that is related to it, and so was every other initial value. -/
inductive Element.Redone (F : Function → Function → Prop) (I : Expr → Expr → Prop) :
    List Element → List Element → Prop
  | nil : Redone F I [] []
  | layout (l : Layout) {es es' : List Element} (rest : Redone F I es es') :
    Redone F I (.layout l :: es) (.layout l :: es')
  | function {f f' : Function} (h : F f f') {es es' : List Element} (rest : Redone F I es es') :
    Redone F I (.function f :: es) (.function f' :: es')
  | global {d : Decl} {init : Option Expr} (h : Option.Rel I d.init init) {es es' : List Element}
    (rest : Redone F I es es') : Redone F I (.global d :: es) (.global { d with init } :: es')
  | hoisted {d : Decl} {e : Expr} {name : String} {f' : Function} (hinit : d.init = some e)
    (hname : added name = true) (h : F (HoistInit.initializer name d.ty e) f')
    {es es' : List Element} (rest : Redone F I es es') :
    Redone F I (.global d :: es)
      (.function f' :: .global { d with init := some (.ofUserCall name [] d.ty) } :: es')

/-- Elements before and after some initial values have moved into functions of their own, and each
    function was replaced by one that does the same. The other initial values stay as they are, and
    do not refer to added names. -/
abbrev Element.Rebuilt (m : Machine α) : List Element → List Element → Prop :=
  Element.Redone added (Function.Becomes added m) fun e e' =>
    e' = e ∧ e.any (Expr.refersTo added) = false

/-- States that are alike outside of all functions. -/
structure State.AlikeOutside (σ σ' : State α) : Prop extends State.Alike added σ σ' where
  locals : σ.locals = fun _ => none
  locals' : σ'.locals = fun _ => none

variable {added} {m m' : Machine α}

/-- Machines that are alike have one undefined value. -/
theorem Machine.Alike.undefined_eq (hm : m.Alike added m') : m'.undefined = m.undefined := by
  obtain ⟨call, rfl, -⟩ := hm
  rfl

/-! ### One global -/

/-- The function starts where the initial value would: what was done before is not in its trace. -/
theorem State.AlikeOutside.shadows_start {σ σ' : State α} (hσ : σ.AlikeOutside added σ')
    (f' : Function) :
    σ.Shadows added (seen added σ.trace) (f'.start m' [] σ'.shared) := by
  have hstart : f'.start m' [] σ'.shared = ⟨σ'.shared, fun _ => none, []⟩ := by
    show (f'.params.zip []).foldl _ _ = _
    rw [List.zip_nil_right]
    rfl
  rw [hstart]
  exact ⟨hσ.shared, fun x _ => (congrFun hσ.locals x).symm, (List.append_nil _).symm⟩

namespace Function.RunsAs

variable {e : Expr} {ty : Ty} {name : String} {f' : Function} {σ σ' : State α}

/-- The function for a moved value returns it. -/
theorem runs_initializer (m : Machine α) (name : String) (ty : Ty) (e : Expr) :
    (HoistInit.initializer name ty e).Runs m =
      after (e.values m) fun vs => exit (.returned (some vs)) :=
  Stmt.listBehaviour_singleton m (.returnWith (some e))

/-- Whatever the initial value does, the function does after it was called. -/
theorem exists_reply (hname : added name = true)
    (h : (HoistInit.initializer name ty e).RunsAs added m m' f') (hσ : σ.AlikeOutside added σ')
    {o : Outcome α} {τ : State α}
    (hrun : after (e.values m) (fun vs => exit (.returned (some vs))) σ o τ) :
    ∃ τ', f'.reply? m' [] σ'.shared = some (.ofRun o τ') ∧ τ.Alike added
      { σ' with shared := τ'.shared, trace := σ'.trace ++ .call name [] :: τ'.trace } := by
  rw [← runs_initializer m name ty e] at hrun
  obtain ⟨τ', hrun', hτ⟩ := (h.runs _).forward (hσ.shadows_start f') hrun
  refine ⟨τ', reply?_of_runs hrun', hτ.shared, ?_⟩
  -- The call is not seen, so the actions are those from before and those of the function.
  have hcall : seen added (Action.call name [] :: τ'.trace) = seen added τ'.trace := by
    simp [seen, Action.isAdded, hname]
  rw [seen_append, hcall, hτ.trace, hσ.trace]

/-- The function does not return if the initial value is never computed. -/
theorem reply?_eq_none (h : (HoistInit.initializer name ty e).RunsAs added m m' f')
    (hσ : σ.AlikeOutside added σ') (hvalue : (e.values m).run.run σ = none) :
    f'.reply? m' [] σ'.shared = none := by
  refine Function.reply?_eq_none fun o τ' hrun' => ?_
  obtain ⟨τ, hrun, -⟩ := (h.runs _).backward (hσ.shadows_start f') hrun'
  rw [runs_initializer] at hrun
  unfold after at hrun
  rwa [hvalue] at hrun

/-- The function that an initial value has moved into returns that value. -/
theorem continues_call (hname : added name = true)
    (h : (HoistInit.initializer name ty e).RunsAs added m m' f') :
    Eval.Relates (State.Alike added) (State.AlikeOutside added)
      (fun vs vs' τ τ' => vs' = vs ∧ τ.Alike added τ') (e.values m)
      (Eval.call (m'.declare f') name []) := by
  intro σ σ' hσ
  have hreply : (m'.declare f').call name [] σ'.shared = f'.reply? m' [] σ'.shared := by
    refine if_pos ?_
    rw [isCalled, h.name_eq, h.params_eq]
    exact Bool.and_eq_true_iff.mpr ⟨beq_self_eq_true name, rfl⟩
  have hexists {o : Outcome α} {τ : State α} := h.exists_reply hname hσ (o := o) (τ := τ)
  unfold after at hexists
  show Option.Rel _ ((e.values m).run.run σ) (((m'.declare f').call name [] σ'.shared).map _)
  rw [hreply]
  -- The initial value is never computed, discards the fragment, or has a value.
  rcases hvalue : (e.values m).run.run σ with _ | ⟨_ | vs, τ⟩
  · rw [h.reply?_eq_none hσ hvalue]
    exact .none
  · rw [hvalue] at hexists
    obtain ⟨τ', hreply, hτ⟩ := hexists ⟨rfl, rfl⟩
    rw [hreply]
    exact .some (.error hτ)
  · rw [hvalue] at hexists
    obtain ⟨τ', hreply, hτ⟩ := hexists ⟨rfl, rfl⟩
    rw [hreply]
    exact .some (.ok ⟨rfl, hτ⟩)

end Function.RunsAs

namespace Decl

variable {d : Decl} {e e' : Expr}

/-- A global gets its initial value, and what is known of two of them outside of all functions is
    known of the states after that. -/
theorem continues_load (hm : m'.undefined = m.undefined) (hinit : d.init = some e)
    (h : Eval.Relates (State.Alike added) (State.AlikeOutside added)
      (fun vs vs' τ τ' => vs'.takeD d.ty.laneCount m.undefined =
        vs.takeD d.ty.laneCount m.undefined ∧ τ.Alike added τ') (e.values m) (e'.values m')) :
    Continues (State.Alike added) (fun _ _ => True) (d.load m)
      (load m' { d with init := some e' }) := by
  -- A global is evaluated at file scope, and then all its lanes are set.
  have hload : d.load m = (do
      modify State.atFileScope
      let vs ← e.values m
      modify fun σ => σ.setGlobal d (vs.takeD d.ty.laneCount m.undefined)) := by
    unfold load
    rw [hinit]
  rw [hload]
  have hscope : Eval.Relates (State.Alike added (α := α)) (State.Alike added)
      (fun _ _ => State.AlikeOutside added) (modify State.atFileScope) (modify State.atFileScope) :=
    .modify fun σ σ' hσ => ⟨⟨hσ.shared, hσ.trace⟩, rfl, rfl⟩
  refine hscope.bind fun _ _ => h.bind fun vs vs' => .modify fun σ σ' hσ => ⟨trivial, ?_⟩
  obtain ⟨hvs, hσ⟩ := hσ
  rw [hm, hvs]
  exact hσ.setGlobal d _

/-- A global whose initial value, if it has one, was replaced by one that tracks it. -/
theorem continues_load_init {init : Option Expr} (hm : m'.undefined = m.undefined)
    (h : Option.Rel (fun e e' => e.Tracks added m m' [] e') d.init init) :
    Continues (State.Alike added) (fun _ _ => True) (d.load m) (load m' { d with init }) := by
  -- A global without an initial value is loaded without a change.
  have hload (m : Machine α) {d : Decl} (hd : d.init = none) : d.load m = pure () := by
    unfold load
    rw [hd]
  obtain ⟨storage, name, ty, init₀⟩ := d
  cases h with
  | none =>
    rw [hload m rfl, hload m' rfl]
    exact .pure fun σ σ' hσ => ⟨trivial, hσ⟩
  | @some e e' he =>
    refine continues_load hm rfl (((he.values.continues []).pre fun σ σ' hσ => ?_).mono ?_ ?_)
    · exact ⟨⟨hσ.shared, fun x _ => by rw [hσ.locals, hσ.locals'], hσ.trace.symm⟩, nofun⟩
    · exact fun τ τ' hτ => ⟨hτ.shared, hτ.trace.symm⟩
    · rintro vs _ τ τ' ⟨rfl, hτ⟩
      exact ⟨rfl, hτ.shared, hτ.trace.symm⟩

/-- A global whose initial value has moved into a function. -/
theorem continues_load_hoisted {name : String} {f' : Function} (hm : m'.undefined = m.undefined)
    (hinit : d.init = some e) (hname : added name = true)
    (h : (HoistInit.initializer name d.ty e).RunsAs added m m' f') :
    Continues (State.Alike added) (fun _ _ => True) (d.load m)
      (load (m'.declare f') { d with init := some (.ofUserCall name [] d.ty) }) := by
  -- The new initial value is a call of the function, and gives as many lanes as the type has.
  have hvalues : (Expr.ofUserCall name [] d.ty).values (m'.declare f') =
      (fun vs => vs.takeD d.ty.laneCount m.undefined) <$> Eval.call (m'.declare f') name [] := by
    have heval : (Expr.ofUserCall name [] d.ty).eval (m'.declare f') =
        (m'.declare f').temporaries d.ty <$> Eval.call (m'.declare f') name [] := pure_bind _ _
    rw [Expr.values, heval, Functor.map_map, ← hm]
    exact congrArg (· <$> _) (funext fun vs => (m'.declare f').values_temporaries d.ty vs)
  refine continues_load hm hinit ?_
  rw [hvalues, ← id_map (e.values m)]
  -- The function ends with the values of the old one, of which the type takes all.
  refine (h.continues_call hname).map fun vs vs' τ τ' hτ => ?_
  obtain ⟨rfl, hτ⟩ := hτ
  exact ⟨takeD_of_length _ (List.takeD_length ..), hτ⟩

end Decl

/-! ### All elements -/

namespace Element

variable {es es' : List Element}

/-- After a global the same functions are known as before. -/
theorem continues_global {d d' : Decl}
    (hd : Continues (State.Alike added) (fun _ _ => True) (d.load m) (d'.load m'))
    (hrest : Continues (State.Alike added) (Machine.Alike added) (es.foldlM Element.load m)
      (es'.foldlM Element.load m')) :
    Continues (State.Alike added) (Machine.Alike added)
      ((Element.global d :: es).foldlM Element.load m)
      ((Element.global d' :: es').foldlM Element.load m') := by
  have hload (m : Machine α) (d : Decl) (es : List Element) :
      (Element.global d :: es).foldlM Element.load m =
        d.load m >>= fun _ => es.foldlM Element.load m := by
    simp only [List.foldlM_cons, Element.load, bind_assoc, pure_bind]
  rw [hload, hload]
  exact hd.bind fun _ _ => hrest.pre fun _ _ hσ => hσ.2

/-- The elements are taken in order, and states and known functions stay alike, as long as the
    machine that the new elements are taken on is one of those on which they do the same. -/
theorem Redone.continues {F : Function → Function → Prop} {I : Expr → Expr → Prop}
    {K : Machine α → Prop} (h : Redone added F I es es')
    (hF : ∀ f f', F f f' → ∀ call m', (m.withCalls call).Alike added m' → K m' →
      f.RunsAs added (m.withCalls call) m' f' ∧ K (m'.declare f'))
    (hI : ∀ e e', I e e' → ∀ call m', (m.withCalls call).Alike added m' → K m' →
      e.Tracks added (m.withCalls call) m' [] e')
    {call : String → List (Ty × List α) → (Variable → Nat → α) → Option (Reply α)}
    (hm : (m.withCalls call).Alike added m') (hknown : K m') :
    Continues (State.Alike added) (Machine.Alike added)
      (es.foldlM Element.load (m.withCalls call)) (es'.foldlM Element.load m') := by
  -- The machines change from element to element, but all that changes in them is what functions of
  -- the program they know.
  induction h generalizing call m' with
  | nil => exact .pure fun σ σ' hσ => ⟨hm, hσ⟩
  | layout l rest ih => exact ih hm hknown
  | @function f f' h es es' rest ih =>
    obtain ⟨hruns, hknown⟩ := hF f f' h call m' hm hknown
    exact ih (hruns.declare hm) hknown
  | @global d init h es es' rest ih =>
    have hinit := Option.rel_mono h fun e e' he => hI e e' he call m' hm hknown
    exact continues_global (Decl.continues_load_init hm.undefined_eq hinit) (ih hm hknown)
  | @hoisted d e name f' hinit hname h es es' rest ih =>
    obtain ⟨hruns, hknown⟩ := hF _ f' h call m' hm hknown
    have hdeclared : (m.withCalls call).Alike added (m'.declare f') :=
      hm.declare_right (hruns.name_eq.symm ▸ hname)
    exact continues_global (d.continues_load_hoisted hm.undefined_eq hinit hname hruns)
      (ih hdeclared hknown)

/-- A program whose elements were rebuilt does what it did. -/
theorem Rebuilt.behavesAs {p p' : Program} (h : Rebuilt added m p.elements p'.elements) :
    p.BehavesAs added m p' :=
  fun shared => h.continues (K := fun _ => True)
    (fun _ _ h call m' hm _ => ⟨h call m' hm, trivial⟩)
    (by rintro e _ ⟨rfl, he⟩ call m' hm -; exact Expr.tracks_self hm he) (Machine.Alike.refl m)
    trivial (⟨rfl, rfl⟩ : State.Alike added ⟨shared, fun _ => none, []⟩ ⟨shared, fun _ => none, []⟩)

end Element

/-! ### What hoisting leaves -/

namespace Legalize.HoistInit

/-- An element, or what takes the place of a global whose initial value moves into a function. -/
inductive Split (added : String → Bool) (needsFunction : Expr → Bool) :
    Element → List Element → Prop
  | function (f : Function) : Split added needsFunction (.function f) [.function f]
  | layout (l : Layout) : Split added needsFunction (.layout l) [.layout l]
  | global {d : Decl} (h : ∀ e ∈ d.init, e.any needsFunction = false) :
    Split added needsFunction (.global d) [.global d]
  | hoisted {d : Decl} {e : Expr} {name : String} (hinit : d.init = some e)
    (hname : added name = true) : Split added needsFunction (.global d)
      [.function (initializer name d.ty e),
        .global { d with init := some (.ofUserCall name [] d.ty) }]

/-- An element, with another function if it is one, and with another initial value if it has one. -/
inductive Replaced (F : Function → Function → Prop) (I : Expr → Expr → Prop) :
    Element → Element → Prop
  | function {f f' : Function} (h : F f f') : Replaced F I (.function f) (.function f')
  | global {d : Decl} {init : Option Expr} (h : Option.Rel I d.init init) :
    Replaced F I (.global d) (.global { d with init })
  | layout (l : Layout) : Replaced F I (.layout l) (.layout l)

variable {Q : Expr → Prop} {stem : Stem} {needsFunction : Expr → Bool}

/-- An element stays as it is, or it is split in a function and a call. -/
theorem hoistElement_yields (hstem : ∀ n, added (stem.nth n) = true) (el : Element) :
    Yields (Split added needsFunction el) (hoistElement stem needsFunction el) := by
  -- An element is kept, hoisted under a fresh name, or refused.
  obtain ⟨heq, hnone⟩ | ⟨d, value, rfl, hinit, -, ⟨-, heq⟩ | ⟨-, heq⟩⟩ :=
    hoistElement_cases stem needsFunction el <;> rw [heq]
  · cases el with
    | function f => exact .pure (.function f)
    | layout l => exact .pure (.layout l)
    | global d => exact .pure (.global (hnone d rfl))
  · have hname : Yields (fun name => added name = true) (freshName stem) :=
      .of_forall_run fun sc => hstem _
    exact hname.lift.bind fun name hname => .pure (.hoisted hinit hname)
  · exact .fail _

section

variable {F F' : Function → Function → Prop} {I I' : Expr → Expr → Prop}

/-- Replacing what is in the pieces of all elements. The calls that took the place of initial values
    are left alone. -/
theorem redone_of_split (hF : ∀ f f', f.All Q → F' f f' → F f f')
    (hI : ∀ e e', Q e → e.any needsFunction = false → I' e e' → I e e')
    (hcall : ∀ name ty e', I' (.ofUserCall name [] ty) e' → e' = .ofUserCall name [] ty)
    {es es' : List Element} {pieces : List (List Element)}
    (hsplit : Forall₂ (fun el els => el.All Q ∧ Split added needsFunction el els) es pieces)
    (hreplaced : Forall₂ (Replaced F' I') pieces.flatten es') :
    Element.Redone added F I es es' := by
  -- By induction on the elements as they were. Each was left whole or became two, and what these
  -- became tells the constructor.
  induction hsplit generalizing es' with
  | nil =>
    cases hreplaced
    exact .nil
  | cons hel _ ih =>
    obtain ⟨hel, hsplit⟩ := hel
    cases hsplit with
    | function f =>
      obtain _ | ⟨⟨h⟩, hrest⟩ := hreplaced
      exact .function (hF _ _ hel h) (ih hrest)
    | layout l =>
      obtain _ | ⟨⟨⟩, hrest⟩ := hreplaced
      exact .layout l (ih hrest)
    | @global d hneeds =>
      obtain _ | ⟨hfirst, hrest⟩ := hreplaced
      obtain ⟨storage, name, ty, init⟩ := d
      obtain _ | ⟨hinit⟩ := hfirst
      refine .global ?_ (ih hrest)
      cases hinit with
      | none => exact .none
      | some he => exact .some (hI _ _ (hel _ rfl) (hneeds _ rfl) he)
    | @hoisted d e name hinit hname =>
      obtain _ | ⟨⟨h⟩, _ | ⟨hsecond, hrest⟩⟩ := hreplaced
      obtain _ | ⟨hvalue | _⟩ := hsecond
      obtain rfl := hcall _ _ _ hvalue
      have hreturn : (Stmt.returnWith (some e)).All Q :=
        Stmt.all_returnWith.mpr fun e' he' => Option.some.inj he' ▸ hel e hinit
      have hbody : (initializer name d.ty e).All Q :=
        fun s hs => List.mem_singleton.mp hs ▸ hreturn
      exact .hoisted hinit hname (hF _ _ hbody h) (ih hrest)

/-- Initial values move into functions, and then functions and initial values are replaced. -/
theorem redone (hstem : ∀ n, added (stem.nth n) = true) {replace : Program → GenM Program}
    (hreplace : ∀ p : Program, Yields (fun p' => p'.stage = p.stage ∧
      Forall₂ (Replaced F' I') p.elements p'.elements) (replace p))
    (hF : ∀ f f', f.All Q → F' f f' → F f f')
    (hI : ∀ e e', Q e → e.any needsFunction = false → I' e e' → I e e')
    (hcall : ∀ name ty e', I' (.ofUserCall name [] ty) e' → e' = .ofUserCall name [] ty)
    {p : Program} (hp : p.All Q) :
    Yields (fun p' => p'.stage = p.stage ∧ Element.Redone added F I p.elements p'.elements)
      (hoist stem needsFunction p >>= replace) := by
  have hsplit : Yields
      (Forall₂ (fun el els => el.All Q ∧ Split added needsFunction el els) p.elements)
      (p.elements.mapM (hoistElement stem needsFunction)) :=
    Judgement.yields.mapM fun el hel =>
      (hoistElement_yields hstem el).mono fun els h => ⟨hp el hel, h⟩
  -- The moved values are found first, and the replacement comes after.
  have hhoist : Yields (fun p₁ : Program => p₁.stage = p.stage ∧ ∃ pieces,
      Forall₂ (fun el els => el.All Q ∧ Split added needsFunction el els) p.elements pieces ∧
        p₁.elements = pieces.flatten) (hoist stem needsFunction p) :=
    hsplit.bind fun pieces hpieces => .pure ⟨rfl, pieces, hpieces, rfl⟩
  refine hhoist.bind fun p₁ hp₁ => ?_
  obtain ⟨hstage, pieces, hpieces, helements⟩ := hp₁
  refine (hreplace p₁).mono fun p' hp' => ⟨hp'.1.trans hstage, ?_⟩
  exact redone_of_split hF hI hcall hpieces (helements ▸ hp'.2)

end

/-- Initial values move into functions, and then every function is replaced by one that does the
    same. -/
theorem rebuilt (hstem : ∀ n, added (stem.nth n) = true) (needsFunction : Expr → Bool)
    {g : Function → GenM Function}
    (hg : ∀ f : Function, f.All Q → Yields (f.Becomes added m) (g f))
    (hQ : ∀ e, Q e → e.any (Expr.refersTo added) = false) {p : Program} (hp : p.All Q) :
    Yields (fun p' => p'.stage = p.stage ∧ Element.Rebuilt added m p.elements p'.elements)
      (hoist stem needsFunction p >>= fun p => p.mapFunctionsM g) := by
  -- Whether a function meets `Q` is part of what is said of its replacement: after the initial
  -- values have moved, it is known of every function.
  have hreplaced (el : Element) :
      Yields (Replaced (fun f f' => f.All Q → f.Becomes added m f') (fun e e' => e' = e) el)
        (el.mapFunctionM g) := by
    cases el with
    | function f =>
      have hfunction : Yields (fun f' => f.All Q → f.Becomes added m f') (g f) := by
        by_cases hf : f.All Q
        · exact (hg f hf).mono fun f' h _ => h
        · exact .of_forall (fun f' hall => absurd hall hf) _
      exact hfunction.bind fun f' h => .pure (.function h)
    | global d => exact .pure (.global (Option.rel_refl fun e _ => rfl))
    | layout l => exact .pure (.layout l)
  have hreplace (p : Program) : Yields (fun p' => p'.stage = p.stage ∧
      Forall₂ (Replaced (fun f f' => f.All Q → f.Becomes added m f') fun e e' => e' = e) p.elements
        p'.elements) (p.mapFunctionsM g) := by
    have hall : Yields (Forall₂ (Replaced (fun f f' => f.All Q → f.Becomes added m f')
        fun e e' => e' = e) p.elements) (p.elements.mapM (Element.mapFunctionM g)) :=
      Judgement.yields.mapM fun el _ => hreplaced el
    exact hall.bind fun es' hes' => .pure ⟨rfl, hes'⟩
  exact redone hstem hreplace (fun f f' hf h => h hf) (fun e e' he _ h => ⟨h, hQ e he⟩)
    (fun _ _ _ h => h) hp

end Legalize.HoistInit

end ShaderGen
