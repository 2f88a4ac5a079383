import ShaderGen.Proofs.Legalize.Guarded
import ShaderGen.Proofs.Legalize.ScalarForms
import ShaderGen.Proofs.Scopes.Emitted

/-!
# Calls of the helper for absolute values

A call of the helper gives the absolute value of its argument in every lane, writes nothing and
calls nothing, so all that is seen of it is its value. The helpers for different shapes share their
name but take different calls, and a program without a function of that name takes none of them.

## Key results

- `reply?_helper`: what a call of the helper gives
- `tracks_helperCall`: the call in the place of an absolute value
- `legalize_retraces`: the program does what it did once the helpers stand in front of it
-/

namespace ShaderGen.Legalize.IntAbs

open ShaderGen.Expr
open List (Forall₂)

variable {α : Type}

/-- Whether a name is that of the helpers. -/
def isAdded (name : String) : Bool := name == helperName

/-- The scalar identity behind the helper: `abs(x) = x * sign(x)`, of integers. -/
def Identity (ops : ScalarOps α) : Prop :=
  ∀ x, ops.function .abs .int x = ops.binary .mul .int x (ops.function .sign .int x)

variable {m m' : Machine α} {ops : ScalarOps α} {s ty : Ty} {x x' : Expr} {vs : List α}

/-! ### The helper -/

/-- The parameter of the helper holds the argument. -/
theorem contains_start (m : Machine α) (s ty : Ty) (hvs : vs.length = ty.laneCount)
    (shared : Variable → Nat → α) :
    ((helper ty).start m [(s, vs)] shared).Contains "x" ty vs := by
  refine ⟨fun i => vs.getD i m.undefined, rfl, ?_⟩
  rw [← hvs]
  refine List.ext_getElem (by simp) fun i hi hi' => ?_
  simp [hi']

/-- A call of the helper returns the absolute value of its argument and does nothing else. -/
theorem reply?_helper (hm : m.Lanewise ops) (h : Identity ops) (hty : ty.isLanes .int = true)
    (s : Ty) (hvs : vs.length = ty.laneCount) (shared : Variable → Nat → α) :
    (helper ty).reply? m [(s, vs)] shared =
      some ⟨some (vs.map (ops.function .abs .int)), shared, []⟩ := by
  -- Reading the parameter changes nothing, and neither does the product of it and its sign.
  have hread : Eval.IsReadOnly ((Expr.var ty "x").values m) := (Eval.isReadOnly_load _ _).map
  have hproduct := (Maps.self m (.var ty "x")).combine hm hty (.inr rfl) hread
    ((Maps.self m (.var ty "x")).ofCall hm hty (g := .sign) rfl)
  have habs : (fun a => ops.binary .mul .int (id a) (ops.function .sign .int (id a))) =
      ops.function .abs .int := funext fun a => (h a).symm
  rw [habs] at hproduct
  have hvalue : ((ofBinary .mul (.var ty "x") (.ofCall .sign [.var ty "x"])).values m).run.run
      ((helper ty).start m [(s, vs)] shared) =
        some (.ok (vs.map (ops.function .abs .int)), (helper ty).start m [(s, vs)] shared) :=
    hproduct.run_eq (reads_var (contains_start m s ty hvs shared))
  -- The body is a single return.
  have hruns : (helper ty).Runs m = Behaviour.after
      ((ofBinary .mul (.var ty "x") (.ofCall .sign [.var ty "x"])).values m)
      fun vs => Behaviour.exit (.returned (some vs)) :=
    Stmt.listBehaviour_singleton m (.returnWith _)
  refine Function.reply?_of_runs (o := .returned (some (vs.map (ops.function .abs .int))))
    (τ := (helper ty).start m [(s, vs)] shared) ?_
  rw [hruns]
  unfold Behaviour.after
  rw [hvalue]
  exact ⟨rfl, rfl⟩

/-- The helper replies without a call of another function. -/
theorem isSelfContained_helper (m : Machine α) (ty : Ty) : (helper ty).IsSelfContained m :=
  fun _ _ _ => rfl

/-- Helpers for different shapes take different calls. -/
theorem spares_helper {s t : Ty} (h : s.shape ≠ t.shape) :
    (helper s).Spares (α := α) [helper t] := by
  intro g hg args hcalled
  obtain rfl := List.mem_singleton.mp hg
  -- Calls are told apart by the shapes of their arguments.
  have hargs : args.map (·.1.shape) = [t.shape] := by
    simpa [Function.isCalled, helper] using hcalled
  have hother : (args.map (·.1.shape) == [s.shape]) = false := by
    rw [hargs, beq_eq_false_iff_ne]
    simpa using h.symm
  show (_ && args.map (·.1.shape) == [s.shape]) = false
  rw [hother, Bool.and_false]

/-- A function of another name takes no call of a helper. -/
theorem spares_of_name {f : Function} {helpers : List Function}
    (hhelpers : ∀ g ∈ helpers, g.name = helperName) (hf : f.name ≠ helperName) :
    f.Spares (α := α) helpers := by
  intro g hg args _
  have hne : (g.name == f.name) = false := by
    rw [hhelpers g hg, beq_eq_false_iff_ne]
    exact hf.symm
  rw [Function.isCalled, hne, Bool.false_and]

/-! ### One absolute value -/

/-- The call of a helper that is known has the value of the function, and is not seen. -/
theorem tracks_helperCall (hm : m.Lanewise ops) (h : Identity ops)
    (halike : m.Alike isAdded m') {helpers : List Function} (hknows : m'.Knows helpers)
    (hty : ty.isLanes .int = true) (hhelper : helper ty ∈ helpers) {result : Ty}
    (hresult : result.shape = ty.shape) (hx : x.ty.shape = ty.shape) {names : List String}
    (htracks : x.Tracks isAdded m m' names x') :
    (call result (.intrinsic .abs) [x]).Tracks isAdded m m' names
      (call result (.user helperName) [x']) := by
  obtain ⟨call', rfl, -⟩ := halike
  refine ⟨rfl, fun before start => ?_⟩
  have hlanes : x.ty.isLanes .int = true := Ty.isLanes_of_shape hty hx
  -- Both calls compute the value of `x` first; what they make of it is compared after that.
  have hleft : (call result (.intrinsic .abs) [x]).eval m = m.temporaries result <$>
      (x.values m >>= fun vs => pure (vs.map (ops.function .abs .int))) := by
    rw [← isBare_intrinsic m result .abs [x],
      values_function hm (f := .abs) rfl hlanes (hresult.trans hx.symm), bind_pure_comp]
    rfl
  have hright : (call result (.user helperName) [x']).eval (m.withCalls call') =
      m.temporaries result <$> (x'.values (m.withCalls call') >>= fun vs =>
        Eval.call (m.withCalls call') helperName [(x.ty, vs)]) := by
    rw [← htracks.ty_eq]
    simp [eval, evalArgs, values]
    rfl
  rw [hleft, hright]
  have hvalue := (htracks.values before start).of_left fun σ vs τ => length_of_run
  refine (hvalue.bind (R := fun vs ws τ τ' =>
    ws = vs ∧ State.Tracked isAdded before names start τ τ') fun vs ws => ?_).map ?_
  · -- The machine replies as the body of the helper does.
    rintro τ τ' ⟨hlength, rfl, hτ⟩
    have hcount : vs.length = ty.laneCount := hlength.trans (Ty.laneCount_of_shape hx)
    have hcalled : (helper ty).isCalled [(x.ty, vs)] helperName = true := by
      simp [Function.isCalled, helper, hx]
    have hreply : (m.withCalls call').call helperName [(x.ty, vs)] τ'.shared =
        some ⟨some (vs.map (ops.function .abs .int)), τ'.shared, []⟩ :=
      (hknows _ hhelper _ _ hcalled).trans
        (reply?_helper (hm.withCalls call') h hty x.ty hcount τ'.shared)
    have hrun : (Eval.call (m.withCalls call') helperName [(x.ty, vs)]).run.run τ' =
        some (.ok (vs.map (ops.function .abs .int)), τ'.act (.call helperName [(x.ty, vs)])) := by
      show ((m.withCalls call').call helperName [(x.ty, vs)] τ'.shared).map _ = _
      rw [hreply]
      rfl
    rw [hrun]
    exact .some (.ok ⟨rfl, ⟨⟨hτ.toShadows.act_right rfl, hτ.declares⟩, hτ.keeps⟩⟩)
  · -- The result of either call is taken for as many lanes as the call has.
    rintro vs ws τ τ' ⟨rfl, hτ⟩
    exact ⟨Lane.tracks_temporaries m result ws, hτ⟩

/-! ### Whole expressions -/

/-- There is a helper for each shape whose symbol was brought in. -/
def Supplied (helpers : List Function) (brought : List Symbol) : Prop :=
  ∀ shape, .helper shape ∈ brought → ∃ ty : Ty, ty.shape = shape ∧ helper ty ∈ helpers

/-- The absolute value of an integer has one operand, of the same shape. -/
theorem operand_of_isLaneTyped {args : List Expr}
    (htyped : (call ty (.intrinsic .abs) args).isLaneTyped = true)
    (hint : ty.scalarKind? = some .int) :
    ∃ x, args = [x] ∧ x.ty.isLanes .int = true ∧ ty.shape = x.ty.shape := by
  obtain _ | ⟨x, _ | _⟩ := args
  · cases htyped
  · obtain ⟨hlanes | hlanes, hx⟩ : (x.ty.isLanes .float = true ∨ x.ty.isLanes .int = true) ∧
        ty.shape = x.ty.shape := by
      simpa [isLaneTyped] using htyped
    · -- The type would be one of floats.
      rw [Ty.scalarKind?, hx] at hint
      obtain hfloat | ⟨n, -, -, hfloat⟩ := Ty.isLanes_iff.mp hlanes <;> rw [hfloat] at hint <;>
        cases hint
    · exact ⟨x, rfl, hlanes, hx⟩
  · cases htyped

section

variable {helpers : List Function} {brought : List Symbol} {e : Expr}

/-- A rewritten node runs like the one it replaces, once the helper is there. -/
theorem granting_emulateNode_traced (hm : m.Lanewise ops) (h : Identity ops)
    (hhelpers : Supplied helpers brought) (hnode : e.refersTo isAdded = false)
    (htyped : e.isLaneTyped = true) (cs : List Expr) :
    (granting brought).Holds (fun e' => Forall₂ (Traced isAdded helpers m []) e.children cs →
      e.Traced isAdded helpers m [] e') (emulateNode (e.withChildren cs)) := by
  unfold emulateNode
  split
  · next ty args heq =>
    split
    · next hint =>
      refine granting_addHelper ty.shape _ fun hmem hcs => ?_
      have hhead := head_withChildren hcs.length_eq.symm
      -- The callee and the number of arguments are those of the old node.
      rw [heq] at hhead
      obtain ⟨ty', args', rfl, hlength⟩ := eq_call_of_head hhead.symm
      obtain ⟨rfl, -, rfl⟩ := Expr.call.inj heq
      obtain ⟨ty, hty, hhelper⟩ := hhelpers _ hmem
      obtain ⟨x, rfl, hlanes, hx⟩ := operand_of_isLaneTyped htyped hint
      obtain _ | ⟨htraced, _ | _⟩ := hcs
      intro call m' halike hknows
      exact tracks_helperCall (hm.withCalls call) h halike hknows
        (Ty.isLanes_of_shape hlanes (hty.trans hx)) hhelper hty.symm (hx.symm.trans hty.symm)
        (htraced call m' halike hknows)
    · exact (granting brought).pure fun hcs => heq ▸ traced_withChildren hnode hcs
  · exact (granting brought).pure (traced_withChildren hnode)

/-- An expression with its integer `abs` emulated runs like the old one. -/
theorem granting_emulate (hm : m.Lanewise ops) (h : Identity ops)
    (hhelpers : Supplied helpers brought) (e : Expr) (hnames : e.any (refersTo isAdded) = false)
    (htyped : e.Every isLaneTyped) :
    (granting brought).Holds (e.Traced isAdded helpers m []) (e.bottomUpM emulateNode) := by
  induction e using induction_children with
  | h e ih =>
    obtain ⟨hnode, hchildren⟩ := any_eq_false_iff.mp hnames
    rw [bottomUpM_eq]
    exact (granting brought).bind
      ((granting brought).mapM fun c hc => ih c hc (hchildren c hc) (htyped.child hc))
      fun cs => granting_emulateNode_traced hm h hhelpers hnode htyped.node cs

end

/-! ### Programs -/

/-- The program whose absolute values of integers call helpers does what it did, once these stand in
    front of it. -/
theorem legalize_retraces (hm : m.Lanewise ops) (h : Identity ops) {p : Program}
    (hnames : p.anyNode (refersTo isAdded) = false)
    (hfunctions : ∀ f, .function f ∈ p.elements → f.name ≠ helperName)
    (htyped : p.All fun e => e.Every isLaneTyped) {sc : Scratch} (hsc : sc.Orderly) :
    p.Retraced isAdded (((legalize p).run sc).2.helpers.map Prod.snd) m
      ((legalize p).run sc).1 := by
  -- The rule leaves its helpers one for each shape.
  have horderly : ((legalize p).run sc).2.Orderly :=
    (mapNodesM_holds (steady Scratch.Orderly)
      Scratch.aboutPreamble_orderly.kept.toAdditions.emulate p sc hsc).2
  have hhelpers : ∀ f ∈ ((legalize p).run sc).2.helpers.map Prod.snd, ∃ ty, f = helper ty := by
    intro f hf
    obtain ⟨entry, hentry, rfl⟩ := List.mem_map.mp hf
    obtain ⟨ty, rfl⟩ := horderly.helpers entry hentry
    exact ⟨ty, rfl⟩
  -- Each helper that is called stands in front of the program, and no two share a type.
  have hsupplied : Supplied (((legalize p).run sc).2.helpers.map Prod.snd)
      ((legalize p).run sc).2.symbols := by
    intro shape hshape
    obtain ⟨entry, hentry, rfl⟩ := Scratch.helper_mem_symbols.mp hshape
    obtain ⟨ty, rfl⟩ := horderly.helpers entry hentry
    exact ⟨ty, rfl, List.mem_map.mpr ⟨_, hentry, rfl⟩⟩
  have hdistinct : (((legalize p).run sc).2.helpers.map Prod.snd).Pairwise
      fun f g => g.Spares (α := α) [f] := by
    have hshapes := horderly.symbols.of_append_right
    rw [List.Nodup, List.pairwise_map] at hshapes
    refine List.pairwise_map.mpr (hshapes.imp_of_mem fun hf hg hne => ?_)
    obtain ⟨s, rfl⟩ := horderly.helpers _ hf
    obtain ⟨t, rfl⟩ := horderly.helpers _ hg
    exact spares_helper fun hshape => hne (congrArg Symbol.helper hshape.symm)
  -- With this, the nodes are retraced one by one, and the program with them.
  have hp := (Program.anyNode_eq_false_iff.mp hnames).imp₂ htyped fun e h h' => And.intro h h'
  obtain ⟨-, -, hresult⟩ := Program.mapExprsM_mirrors
    (granting ((legalize p).run sc).2.symbols)
    (fun e he => granting_emulate hm h hsupplied e he.1 he.2) hp sc
  obtain ⟨hstage, hmirrors⟩ := hresult (List.Subset.refl _)
  -- What is left is about the helpers: they are added, they call nothing, and their calls are new.
  refine .of_redone hstage (fun f hf => ?_) (fun f hf => ?_) hdistinct
    (.of_mirrors hmirrors fun f body hf hbody => ⟨.of_mirrors hbody, ?_⟩)
  · obtain ⟨ty, rfl⟩ := hhelpers f hf
    rfl
  · obtain ⟨ty, rfl⟩ := hhelpers f hf
    exact isSelfContained_helper m ty
  · refine spares_of_name (fun g hg => ?_) (hfunctions f hf)
    obtain ⟨ty, rfl⟩ := hhelpers g hg
    rfl

end ShaderGen.Legalize.IntAbs
