import ShaderGen.Proofs.Legalize.FractSize
import ShaderGen.Proofs.Legalize.Guarded
import ShaderGen.Proofs.Legalize.ScalarForms

/-!
# Guarded fractions in a program

Where the fraction of a number is what the guarded fraction makes of it, a program with guarded
fractions does what it did. An operand without side effects is evaluated twice, which nobody sees;
every other operand is evaluated once, into a temporary. Fractions may stand in the operands of one
another, and in initial values that move into functions.

## Key results

- `tracks_captured`: an operand that is put into a temporary first
- `supplies_guard`: an expression with its fractions guarded tracks the expression
- `legalize_retraces`: the program does what it did
-/

namespace ShaderGen.Legalize.Fract

open ShaderGen.Expr
open List (Forall₂)

variable {α : Type}

/-- Whether a name starts as those of the temporaries and the functions that the rule adds. -/
def isAdded (name : String) : Bool := "fractHack".toList.isPrefixOf name.toList

/-- The scalar identity behind guarded fractions:
    `fract(x) = half - sign(x) * (half - fract(abs(x)))`. -/
def Identity (ops : ScalarOps α) (half : α) : Prop :=
  ∀ x, ops.function .fract .float x = ops.guard half x

/-- The temporaries of the guard are among the added variables. -/
theorem isAdded_fractTemp (n : Nat) : isAdded (Stem.fractTemp.nth n) = true := by
  rw [isAdded, List.isPrefixOf_iff_prefix, Stem.nth, String.toList_append]
  exact ⟨"Var".toList ++ (toString n).toList, rfl⟩

/-- So are the flags and values of the hoisted initializers. -/
theorem isAdded_fractInit (n : Nat) : isAdded (Stem.fractInit.nth n) = true := by
  rw [isAdded, List.isPrefixOf_iff_prefix, Stem.nth, String.toList_append]
  exact ⟨"Init".toList ++ (toString n).toList, rfl⟩

variable {added : String → Bool} {m m' : Machine α} {ops : ScalarOps α} {ty : Ty} {x x' : Expr}

/-! ### One fraction -/

/-- The guarded fraction calls nothing beyond its operand. -/
theorem isBare_guarded (m : Machine α) (x : Expr) (ty : Ty) : (guarded x ty).IsBare m :=
  .group (isBare_binary ..)

/-- An operand that only reads may be evaluated twice. -/
theorem alike_guarded (hm : m.Lanewise ops) (h : Identity ops (m.literal (.float .half)))
    (hx : x.ty.isLanes .float = true) (hty : ty.shape = x.ty.shape)
    (hread : Eval.IsReadOnly (x.values m)) :
    Alike m true (.call ty (.intrinsic .fract) [x]) (guarded x ty) := by
  refine .of_bare rfl (isBare_intrinsic ..) (isBare_guarded m x ty) ?_
  rw [(maps_guarded hm hx hty hread).values, values_function hm (f := .fract) rfl hx hty]
  exact congrArg (List.map · <$> x.values m) (funext fun a => (h a).symm)

/-- Every other operand is evaluated once, into a temporary, and the guarded fraction of that only
    reads it. -/
theorem tracks_captured (hm : m.Lanewise ops) (h : Identity ops (m.literal (.float .half)))
    (halike : m.Alike added m') (hx : x.ty.isLanes .float = true) (hty : ty.shape = x.ty.shape)
    {names big : List String} {temp : String} (htracks : x.Tracks added m m' names x')
    (hnames : ∀ y ∈ names, y ∈ big) (htemp : temp ∈ big) :
    (call ty (.intrinsic .fract) [x]).Tracks added m m' big
      (ofBinary .comma (assign (.var x.ty temp) x') (guarded (.var x.ty temp) ty)) := by
  obtain ⟨call', rfl, -⟩ := halike
  refine ⟨rfl, fun before start => ?_⟩
  -- Neither side stands for a variable, so it is enough to compare the values.
  have hcomma := isBare_binary (m.withCalls call') ty .comma (assign (.var x.ty temp) x')
    (guarded (.var x.ty temp) ty)
  rw [← isBare_intrinsic m ty .fract [x], ← show _ = (ofBinary .comma _ _).eval _ from hcomma]
  suffices hvalues : Eval.Relates (State.Tracked added before big start)
      (State.Tracked added before big start)
      (fun vs vs' τ τ' => vs' = vs ∧ State.Tracked added before big start τ τ')
      ((call ty (.intrinsic .fract) [x]).values m)
      ((ofBinary .comma (assign (.var x.ty temp) x') (guarded (.var x.ty temp) ty)).values
        (m.withCalls call')) from
    hvalues.map fun vs vs' τ τ' hvs => by
      obtain ⟨rfl, hτ⟩ := hvs
      exact ⟨Lane.tracks_temporaries m ty vs', hτ⟩
  -- First the operand is evaluated into the temporary.
  have hcaptured := relates_assign htracks hnames htemp (F := fun _ => True) (fun _ _ _ => id)
    before start
  rw [values_function hm (f := .fract) rfl hx hty, ← bind_pure_comp, values_comma]
  refine (hcaptured.pre fun _ _ hσ => ⟨hσ, trivial⟩).bind fun vs vs' => .assume ?_
  rintro - τ τ' ⟨hτ, -, hcontains⟩
  -- The guarded fraction then reads the temporary twice.
  have hfract : ops.function .fract .float = ops.guard (m.literal (.float .half)) := funext h
  have hreads : Reads (m.withCalls call') τ' (guarded (.var x.ty temp) ty)
      (vs.map (ops.function .fract .float)) :=
    hfract ▸ reads_guarded (hm.withCalls call') hx hty hcontains
  rw [hreads]
  exact .some (.ok ⟨rfl, hτ⟩)

/-! ### Whole expressions -/

/-- Guarding a node whose children were already rebuilt. -/
theorem supplies_guardNode (hm : m.Lanewise ops) (h : Identity ops (m.literal (.float .half)))
    {e : Expr} {cs : List Expr} {names : List String} (hnode : e.refersTo isAdded = false)
    (htyped : e.isLaneTyped = true)
    (hcs : Forall₂ (Traced isAdded [] m names) e.children cs) :
    Supplies .fractTemp (fun own e' => e.Traced isAdded [] m (names ++ own) e')
      (guardNode (e.withChildren cs)) := by
  have hrebuilt (own : List String) : e.Traced isAdded [] m (names ++ own) (e.withChildren cs) :=
    (traced_withChildren hnode hcs).mono fun x hx => List.mem_append_left _ hx
  unfold guardNode
  split
  · next x' hx' =>
    obtain ⟨ty, x, -, rfl, rfl⟩ := eq_of_operand?_withChildren hcs.length_eq.symm hx'
    obtain _ | ⟨htraced, _ | _⟩ := hcs
    obtain ⟨hx, hty⟩ : x.ty.isLanes .float = true ∧ ty.shape = x.ty.shape := by
      simpa [isLaneTyped] using htyped
    have hsame : x'.ty = x.ty := htraced.ty_eq
    split
    · -- The value is kept in a temporary.
      refine (supplies_freshTemp x'.ty).bind fun own temp htemp => .pure fun _ => ?_
      obtain ⟨n, rfl, rfl⟩ := htemp
      intro call m' halike hknows
      rw [hsame]
      exact tracks_captured (hm.withCalls call) h halike hx hty (htraced call m' halike hknows)
        (fun y hy => List.mem_append_left _ hy) (by simp)
    · -- The value is computed as often as it is used.
      next hquiet =>
      refine .pure ((hrebuilt []).trans_alike fun call => ?_)
      have hread := (isReadOnly_eval (m.withCalls call) x' (by simpa using hquiet)).map
        (f := Lane.values)
      exact alike_guarded (hm.withCalls call) h (hsame ▸ hx) (hsame ▸ hty) hread
  · exact .pure (hrebuilt [])

/-- Guarding the fractions of an expression asks for temporaries, and what comes out tracks the
    expression. -/
theorem supplies_guard (hm : m.Lanewise ops) (h : Identity ops (m.literal (.float .half)))
    (e : Expr) (hnames : e.any (refersTo isAdded) = false) (htyped : e.Every isLaneTyped) :
    Supplies .fractTemp (fun names => e.Traced isAdded [] m names) (e.bottomUpM guardNode) := by
  induction e using induction_children with
  | h e ih =>
    obtain ⟨hnode, hnames⟩ := any_eq_false_iff.mp hnames
    rw [bottomUpM_eq]
    -- The children are guarded first, with temporaries of their own.
    have hrebuilt : Supplies .fractTemp
        (fun names => Forall₂ (Traced isAdded [] m names) e.children)
        (e.children.mapM (bottomUpM guardNode)) :=
      (supplying _).mapM (fun h hsub => h.mono fun x hx => hsub.subset hx) fun c hc =>
        ih c hc (hnames c hc) (htyped.child hc)
    refine hrebuilt.bind fun names cs hcs => ?_
    exact (supplies_guardNode hm h hnode htyped.node hcs).mono fun own e' htraced _ => htraced

/-- Without an operand that needs a temporary there are none. -/
theorem traced_guardPure (hm : m.Lanewise ops) (h : Identity ops (m.literal (.float .half)))
    {e : Expr} (hnames : e.any (refersTo isAdded) = false) (htyped : e.Every isLaneTyped)
    (hpure : e.any needsTemporary = false) : e.Traced isAdded [] m [] (e.bottomUp guardPure) := by
  have hguard := supplies_guard hm h e hnames htyped
  rw [bottomUpM_guardNode_eq hpure] at hguard
  obtain ⟨new, b, count, hrun, -, -, htraced⟩ := hguard [] {}
  obtain ⟨hpair, -⟩ := Prod.mk.inj hrun
  obtain ⟨rfl, rfl⟩ := Prod.mk.inj hpair
  exact htraced

/-! ### Programs -/

/-- An element is guarded: an initializer in place, a function with temporaries. -/
theorem guardElement_yields (hm : m.Lanewise ops) (h : Identity ops (m.literal (.float .half)))
    (el : Element) :
    Yields (HoistInit.Replaced
      (fun f f' => f.All (fun e => e.any (refersTo isAdded) = false ∧ e.Every isLaneTyped) →
        f.Retraced isAdded [] m f') (fun e e' => e' = e.bottomUp guardPure) el)
      (guardElement el) := by
  cases el with
  -- The initializers were made pure before, so they need no temporary.
  | global d =>
    obtain ⟨storage, name, ty, init⟩ := d
    cases init with
    | none => exact .pure (.global .none)
    | some e => exact .pure (.global (.some rfl))
  | function f =>
    have hfunction : Yields (fun f' => f.All (fun e => e.any (refersTo isAdded) = false ∧
        e.Every isLaneTyped) → f.Retraced isAdded [] m f') (withTemporaries guardNode f) :=
      .of_forall_run fun sc hf => retraced_withTemporaries isAdded_fractTemp
        (fun e he => supplies_guard hm h e he.1 he.2) hf sc
    exact hfunction.bind fun f' hf' => .pure (.function hf')
  | layout l => exact .pure (.layout l)

/-- The program with its fractions guarded does what it did. -/
theorem legalize_retraces (hm : m.Lanewise ops) (h : Identity ops (m.literal (.float .half)))
    {p p' : Program} {sc sc' : Scratch} (hnames : p.anyNode (refersTo isAdded) = false)
    (htyped : p.All fun e => e.Every isLaneTyped)
    (hrun : (legalize p).run.run sc = (.ok p', sc')) : p.Retraced isAdded [] m p' := by
  have hp := (Program.anyNode_eq_false_iff.mp hnames).imp₂ htyped fun e h h' => And.intro h h'
  have hreplace (p : Program) : Yields (fun p' => p'.stage = p.stage ∧
      Forall₂ (HoistInit.Replaced
        (fun f f' => f.All (fun e => e.any (refersTo isAdded) = false ∧ e.Every isLaneTyped) →
          f.Retraced isAdded [] m f') fun e e' => e' = e.bottomUp guardPure) p.elements p'.elements)
      (do let elements ← liftM (p.elements.mapM guardElement)
          pure { p with elements } : GenM Program) := by
    have helement (el : Element) (_ : el ∈ p.elements) := guardElement_yields hm h el
    have hall := Judgement.yields.mapM helement
    exact (Yields.lift hall).bind fun es' hes' => .pure ⟨rfl, hes'⟩
  -- Initializers that need a statement are hoisted, the rest is rewritten in place.
  have hredone := HoistInit.redone isAdded_fractInit hreplace (fun f f' hf h => h hf)
    (fun e e' he hpure heq => heq ▸ traced_guardPure hm h he.1 he.2 hpure)
    (fun name ty e' heq => heq) hp
  obtain ⟨hstage, helements⟩ := hredone.of_run hrun
  exact .of_redone_nil hstage helements

end ShaderGen.Legalize.Fract
