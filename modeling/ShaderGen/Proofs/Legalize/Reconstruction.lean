import ShaderGen.Proofs.Legalize.CoordPrologue
import ShaderGen.Proofs.Legalize.FragCoord
import ShaderGen.Proofs.Semantics.Exchange
import ShaderGen.Proofs.Semantics.Steady

/-!
# Functions that compute the fragment coordinate

A function that refers to the fragment coordinate, at whatever depth, starts with a prologue and
refers to the local of the prologue instead; other functions are left alone. The local keeps the
components that the prologue gives it, because nothing in the rest of the body writes it or
declares another variable of its name, so it is of no account what would be done where it had
others (`Lookup.expecting`).

A parameter that is named like the uniform for the height hides that from the prologue, and a
function that writes the coordinate writes the local in the end
(`hidden_height_and_written_coord_are_read`).

## Main definitions

- `Replaces`: an expression with the local in place of the coordinate
- `Lookup.expecting`: a lookup that does something else where a variable has not some components
- `Reconstructed`: what becomes of a function that refers to the coordinate

## Key results

- `reads_bottomUp`: a body that writes no coordinate comes to read the local and not to write it
- `applyPolicy_reconstructs`: what becomes of a program
-/

namespace ShaderGen

variable {α : Type}

open Classical in
/-- Finds the components of a variable, as long as one of them, if it is the one that is looked up,
    has the components that are expected; if not, does something else. -/
noncomputable def Lookup.expecting (expected : Variable) (vs : List α)
    (otherwise : Eval α (List (Lane α))) : Lookup α := fun _ v ty => do
  let ls ← Eval.load v ty
  if v = expected ∧ Lane.values ls ≠ vs then otherwise else pure ls

open Classical in
/-- Where the variable has the components that are expected, they are found. -/
theorem Lookup.run_expecting {expected v : Variable} {vs : List α}
    {otherwise : Eval α (List (Lane α))} {ty : Ty} {σ : State α}
    (h : v = expected → Lane.values (v.lanes ty (σ.read v)) = vs) (reads : Bool) :
    (Lookup.expecting expected vs otherwise reads v ty).run.run σ =
      (Eval.load v ty).run.run σ := by
  have hfound : ¬ (v = expected ∧ Lane.values (v.lanes ty (σ.read v)) ≠ vs) :=
    fun hmissed => hmissed.2 (h hmissed.1)
  have hrun : (Lookup.expecting expected vs otherwise reads v ty).run.run σ =
      (if v = expected ∧ Lane.values (v.lanes ty (σ.read v)) ≠ vs then otherwise
        else pure (v.lanes ty (σ.read v))).run.run σ := rfl
  rw [hrun, if_neg hfound]
  rfl

namespace Legalize.FragCoord

open ShaderGen.Expr Behaviour

/-! ### What becomes of expressions -/

/-- An expression with a local in place of the coordinate. -/
inductive Replaces (holder : String) : Expr → Expr → Prop
  | reference (ty : Ty) : Replaces holder (.builtin ty .fragCoord) (.ofVar holder (.vec 4))
  | node {e : Expr} {cs : List Expr} (he : isFragCoord e = false)
    (hcs : List.Forall₂ (Replaces holder) e.children cs) :
    Replaces holder e (e.withChildren cs)

/-- A write to an expression may end up in the coordinate. -/
def ReachesCoord (e : Expr) : Prop := ∃ r ∈ e.reached, isFragCoord r = true

/-- Whether a node writes to the coordinate. -/
def writesCoord (e : Expr) : Bool := e.target?.any fun target => target.reached.any isFragCoord

/-- An expression writes the coordinate if one of its targets reaches it. -/
theorem writesCoord_eq_false_iff {e : Expr} :
    writesCoord e = false ↔ ∀ target ∈ e.target?, ¬ ReachesCoord target := by
  unfold writesCoord ReachesCoord
  cases e.target? <;> simp

/-- A node that does not refer to a variable and does not write the coordinate. -/
structure ReadsOnly (holder : String) (e : Expr) : Prop where
  refers : e.owner? ≠ some (.named holder)
  writes : ∀ target ∈ e.target?, ¬ ReachesCoord target

/-- A node that refers to a local as to a coordinate, if at all, and does not write it. -/
structure Reads (holder : String) (e : Expr) : Prop where
  refers (h : e.owner? = some (.named holder)) : e.ty = .vec 4
  writes : ∀ target ∈ e.target?, ¬ target.Reaches (.named holder)

/-- The variable of a node is told by the node. -/
theorem owner?_withChildren (e : Expr) (cs : List Expr) :
    (e.withChildren cs).owner? = e.owner? := by
  unfold withChildren
  split <;> rfl

/-- A coordinate is a built-in variable. -/
theorem eq_builtin_of_isFragCoord {e : Expr} (h : isFragCoord e = true) :
    ∃ ty, e = .builtin ty .fragCoord := by
  unfold isFragCoord at h
  split at h
  · exact ⟨_, rfl⟩
  · cases h

/-- A node that is the coordinate is replaced, any other one is not. -/
theorem readLocal_withChildren (prologue : Prologue) (e : Expr) (cs : List Expr) :
    readLocal prologue (e.withChildren cs) =
      if isFragCoord e then .ofVar prologue.holder (.vec 4) else e.withChildren cs := by
  rw [readLocal, isFragCoord_withChildren]

/-- Every read of the coordinate in a tree is replaced by the local. -/
theorem replaces_bottomUp (prologue : Prologue) (e : Expr) :
    Replaces prologue.holder e (e.bottomUp (readLocal prologue)) := by
  refine bottomUp_related (R := Replaces prologue.holder) (fun e cs hcs => ?_) e
  rw [readLocal_withChildren]
  split
  · next h =>
    obtain ⟨ty, rfl⟩ := eq_builtin_of_isFragCoord h
    exact .reference ty
  · next h => exact .node (eq_false_of_ne_true h) hcs

/-- What holds of every node of an expression holds of what it reaches. -/
theorem throughout_reached {P : Expr → Prop} (e : Expr) :
    e.Throughout P → ∀ r ∈ e.reached, P r := by
  -- The induction follows the path of a write, which ends in a variable or stops on the way.
  have hboth {a b : Expr} (ha : ∀ r ∈ a.reached, P r) (hb : ∀ r ∈ b.reached, P r) :
      ∀ r ∈ a.reached ++ b.reached, P r := List.forall_mem_append.mpr ⟨ha, hb⟩
  induction e with
  | var | builtin => exact fun he => List.forall_mem_singleton.mpr (throughout_iff.mp he).1
  | swizzle ty base mask ih | group ty base ih =>
    exact fun he => ih ((throughout_iff.mp he).2 base (List.mem_singleton_self _))
  | index ty base position ih =>
    exact fun he => ih ((throughout_iff.mp he).2 base List.mem_cons_self)
  | ternary ty cond ifTrue ifFalse _ iht ihf =>
    intro he
    have hchildren := (throughout_iff.mp he).2
    exact hboth (iht (hchildren ifTrue (by simp [children])))
      (ihf (hchildren ifFalse (by simp [children])))
  | binary ty op left right ihl ihr =>
    intro he
    have hchildren := (throughout_iff.mp he).2
    cases op with
    | logicalAnd | logicalOr =>
      exact hboth (ihl (hchildren left List.mem_cons_self))
        (ihr (hchildren right (by simp [children])))
    | _ => exact fun _ hr => absurd hr List.not_mem_nil
  | literal | unary | call | construct => exact fun _ _ hr => absurd hr List.not_mem_nil

/-- An expression that does not write the coordinate comes to read the local, and not to write
    it. -/
theorem reads_bottomUp (prologue : Prologue) {e : Expr}
    (he : e.Throughout (ReadsOnly prologue.holder)) :
    (e.bottomUp (readLocal prologue)).Throughout (Reads prologue.holder) := by
  -- Where a path from a target ends in the local or the coordinate, it did so before.
  let q (r : Expr) : Prop := r.owner? = some (.named prologue.holder) ∨ isFragCoord r = true
  let R (e e' : Expr) : Prop := ((∃ r ∈ e'.reached, q r) → ∃ r ∈ e.reached, q r) ∧
    (e.Throughout (ReadsOnly prologue.holder) → e'.Throughout (Reads prologue.holder))
  refine (bottomUp_related (R := R) (fun e cs hcs => ?_) e).2 he
  rw [readLocal_withChildren]
  split
  · next h =>
    obtain ⟨ty, rfl⟩ := eq_builtin_of_isFragCoord h
    refine ⟨fun _ => ⟨_, List.mem_singleton_self _, .inr rfl⟩, fun _ => throughout_iff.mpr ?_⟩
    exact ⟨⟨fun _ => rfl, fun _ h => by cases h⟩, fun _ h => by cases h⟩
  · refine ⟨reached_withChildren (hcs.imp fun _ _ h => h.1), fun he => ?_⟩
    obtain ⟨hnode, hchildren⟩ := throughout_iff.mp he
    refine throughout_iff.mpr ⟨⟨fun hrefers => ?_, ?_⟩, fun c' hc' => ?_⟩
    · rw [owner?_withChildren] at hrefers
      exact absurd hrefers hnode.refers
    · rintro target' ht' ⟨r, hr, howner⟩
      obtain ⟨target, ht, hall, hreached, -⟩ :=
        exists_related_target ((List.forall₂_and_left _ _).mpr ⟨hchildren, hcs⟩) target' ht'
      -- A target that reaches the local now reached it or the coordinate before.
      obtain ⟨r', hr', howner' | hcoord⟩ := hreached ⟨r, hr, .inl howner⟩
      · exact (throughout_reached _ hall r' hr').refers howner'
      · exact hnode.writes target ht ⟨r', hr', hcoord⟩
    · obtain ⟨c, hc, hrelated⟩ := exists_related_child hcs c' hc'
      exact hrelated.2 (hchildren c hc)

/-! ### What becomes of functions -/

/-- Whether a function has a parameter with one of several names, or declares a variable with one or
    refers to one. -/
def uses (names : String → Bool) (f : Function) : Bool :=
  f.params.any (fun param => names param.name) || Stmt.listMentions names f.body

/-- The function refers to the coordinate at some depth. -/
def RefersToCoord (f : Function) : Prop :=
  ∃ s ∈ f.body, ∃ levels e, (Node.stmt s).Holds levels (.expr e) ∧ isFragCoord e = true

/-- A function refers to the coordinate if one of its nodes is the coordinate. -/
theorem anyNode_iff_refersToCoord {f : Function} :
    f.anyNode isFragCoord = true ↔ RefersToCoord f := by
  rw [← not_iff_not, Bool.not_eq_true, Function.anyNode, Stmt.anyExprList_eq_any,
    List.any_eq_false]
  -- A statement refers to coordinates if one of the expressions in it does.
  have hstmt (s : Stmt) : ¬ s.anyExpr (Expr.any isFragCoord) = true ↔
      ∀ levels e, (Node.stmt s).Holds levels (.expr e) → isFragCoord e = false := by
    have hany : (fun e : Expr => e.any isFragCoord = false) =
        Throughout fun n => isFragCoord n = false := funext fun _ => propext throughout_iff_any.symm
    rw [Bool.not_eq_true, Stmt.anyExpr_eq_false_iff, ← Stmt.all_throughout_iff, hany]
  simp only [hstmt, RefersToCoord, not_exists, not_and, Bool.not_eq_true]

/-- What mentions none of several names has expressions that mention none of them, and declares
    none. -/
theorem fits_of_mentions {names : String → Bool} (s : Stmt) : s.mentions names = false →
    s.Fits (names · = false) fun e => e.mentions names = false := by
  have hoption {o : Option Expr} (h : o.any (Expr.mentions names) = false) :
      ∀ e ∈ o, e.mentions names = false := by
    rintro e rfl
    exact h
  -- The names a statement mentions are a disjunction over its parts, in the order of its fields.
  induction s with
  | block body ih =>
    exact fun h => Stmt.fits_block.mpr fun s hs =>
      ih s hs (Stmt.listMentions_eq_false_iff.mp h s hs)
  | decl d =>
    intro h
    obtain ⟨hname, hinit⟩ := Bool.or_eq_false_iff.mp h
    exact Stmt.fits_decl.mpr ⟨hname, hoption hinit⟩
  -- The last part is split off first.
  | ifElse cond thenBranch elseBranch iht ihe =>
    intro h
    obtain ⟨h, helse⟩ := Bool.or_eq_false_iff.mp h
    obtain ⟨hcond, hthen⟩ := Bool.or_eq_false_iff.mp h
    refine Stmt.fits_ifElse.mpr ⟨hcond, iht hthen, ?_⟩
    rintro s rfl
    exact ihe s rfl helse
  | forLoop init cond step body ihi ihb =>
    intro h
    obtain ⟨h, hbody⟩ := Bool.or_eq_false_iff.mp h
    obtain ⟨h, hstep⟩ := Bool.or_eq_false_iff.mp h
    obtain ⟨hinit, hcond⟩ := Bool.or_eq_false_iff.mp h
    refine Stmt.fits_forLoop.mpr ⟨?_, hoption hcond, hoption hstep, ihb hbody⟩
    rintro s rfl
    exact ihi s rfl hinit
  | whileLoop cond body ih =>
    intro h
    obtain ⟨hcond, hbody⟩ := Bool.or_eq_false_iff.mp h
    exact Stmt.fits_whileLoop.mpr ⟨hcond, ih hbody⟩
  | doWhile body cond ih =>
    intro h
    obtain ⟨hcond, hbody⟩ := Bool.or_eq_false_iff.mp h
    exact Stmt.fits_doWhile.mpr ⟨hcond, ih hbody⟩
  -- A statement of a case is mentioned through the list of its case.
  | switchOn value cases ih =>
    intro h
    obtain ⟨hvalue, hcases⟩ := Bool.or_eq_false_iff.mp h
    refine Stmt.fits_switchOn.mpr ⟨hvalue, fun c hc s hs => ?_⟩
    obtain ⟨label, body⟩ := c
    have hbody := Stmt.listMentions_of_mem hcases hc
    exact ih label body hc s hs (Stmt.listMentions_eq_false_iff.mp hbody s hs)
  | expr e => exact fun h => Stmt.fits_expr.mpr h
  | returnWith value => exact fun h => Stmt.fits_returnWith.mpr (hoption h)
  | breakOut | continueLoop | discard | emitVertex | endPrimitive =>
    exact fun _ => Stmt.fits_iff.mpr (by simp [Stmt.own, Stmt.nested])

/-- The statements of a body that does not write the coordinate, with the local in its place. -/
theorem fits_replaced {prologue : Prologue} (hholder : isCoordName prologue.holder = true)
    {f : Function} (hnames : uses isCoordName f = false) (hwrites : f.anyNode writesCoord = false) :
    ∀ s ∈ f.body.map (Stmt.mapExprs (bottomUp (readLocal prologue))),
      s.Fits (· ≠ prologue.holder) (Throughout (Reads prologue.holder)) := by
  -- The local is among the names that are left alone, so what does not mention them does not read
  -- it, and a write of the coordinate is excluded.
  have hreadsOnly (e : Expr) (h : e.mentions isCoordName = false ∧ e.any writesCoord = false) :
      e.Throughout (ReadsOnly prologue.holder) := by
    obtain ⟨hnames, hwrites⟩ := h
    rw [Expr.mentions, ← throughout_iff_any] at hnames
    rw [← throughout_iff_any] at hwrites
    refine fun levels n hn => ⟨fun howner => ?_, fun target ht hreaches => ?_⟩
    · have hname := hnames levels n hn
      cases n with
      | var ty name =>
        obtain rfl := Variable.named.inj (Option.some.inj howner)
        exact Bool.noConfusion (hname.symm.trans hholder)
      | builtin => exact nomatch howner
      | _ => cases howner
    · exact writesCoord_eq_false_iff.mp (hwrites levels n hn) target ht hreaches
  have hbody : ∀ s ∈ f.body, s.Fits (isCoordName · = false)
      fun e => e.mentions isCoordName = false ∧ e.any writesCoord = false := by
    intro s hs
    have hmentions := Stmt.listMentions_eq_false_iff.mp (Bool.or_eq_false_iff.mp hnames).2 s hs
    rw [Function.anyNode, Stmt.anyExprList_eq_any, List.any_eq_false] at hwrites
    exact (fits_of_mentions s hmentions).and
      (s.anyExpr_eq_false_iff.mp (eq_false_of_ne_true (hwrites s hs)))
  have hread : ∀ e : Expr, e.mentions isCoordName = false ∧ e.any writesCoord = false →
      Yields (Throughout (Reads prologue.holder))
        (pure (e.bottomUp (readLocal prologue)) : Id Expr) :=
    fun e he => .pure (reads_bottomUp prologue (hreadsOnly e he))
  have hmapped := Yields.of_id (Stmt.mapExprsListM_fits .yields hread hbody)
  rw [Stmt.mapExprsListM_pure] at hmapped
  refine fun s hs => (hmapped s hs).mono (fun x hx => ?_) fun _ => id
  exact ne_of_isCoordName hx hholder

/-! ### What runs read -/

section

variable {m : Machine α} {holder : String} {coords : List α}

/-- Statements that declare other names keep the components of the local. -/
theorem transition_holdsCoords :
    Transition (· ≠ holder) (State.Retains (HoldsCoords (α := α) holder coords)) where
  refl _ := id
  trans h h' hσ := h' (h hσ)
  leave {σ ρ} names h hσ := by
    obtain ⟨inner, hinner, hcoords⟩ := h hσ
    obtain ⟨outer, houter, hcoords'⟩ := hσ
    -- The local is given back as it was before, or it is not touched by leaving.
    by_cases hname : holder ∈ names
    · exact ⟨outer, (if_pos hname).trans houter, hcoords'⟩
    · exact ⟨inner, (if_neg hname).trans hinner, hcoords⟩
  setLocal σ {name} hname _ hσ := by
    obtain ⟨content, hlocal, hcoords⟩ := hσ
    exact ⟨content, (State.locals_setLocal_of_ne (Ne.symm hname) σ _).trans hlocal, hcoords⟩
  emitVertex _ := id
  endPrimitive _ := id

/-- So do writes to other variables, and calls. -/
theorem steps_holdsCoords (m : Machine α) :
    Transition.Steps m (· ≠ .named holder) (State.Retains (HoldsCoords holder coords)) where
  write σ {cell} hcell value hσ := by
    obtain ⟨content, hlocal, hcoords⟩ := hσ
    exact ⟨content, (State.locals_write_of_ne hcell value σ).trans hlocal, hcoords⟩
  call _ _ _ _ _ := id

/-- Where the local has the components that are expected, the lookup finds them. -/
theorem steady_expecting (otherwise : Eval α (List (Lane α))) {e : Expr} (he : Reads holder e) :
    Steady (HoldsCoords holder coords) (· ≠ .named holder)
      (Lookup.expecting (.named holder) coords otherwise) e where
  looks v hv reads σ hσ := by
    obtain ⟨content, hlocal, hcoords⟩ := hσ
    refine Lookup.run_expecting ?_ reads
    rintro rfl
    -- The local is in scope, so it is what is read.
    have hread : σ.read (.named holder) = content := by
      show (σ.locals holder).getD _ = _
      rw [hlocal]
      rfl
    rw [he.refers hv, hread]
    exact hcoords
  writes target ht v hreaches := by
    rintro rfl
    exact he.writes target ht hreaches

/-- After the prologue, a run is one by a lookup that expects the components of the coordinate. -/
theorem runs_expecting {prologue : Prologue} {f : Function} {rest : List Stmt}
    (hbody : f.body = prologue.statements ++ rest)
    (hrest : ∀ s ∈ rest, s.Fits (· ≠ prologue.holder) (Throughout (Reads prologue.holder)))
    {start ready : State α} (hready : prologue.Prepares m coords start ready)
    (otherwise : Eval α (List (Lane α))) (o : Outcome α) (τ : State α) :
    f.Runs m start o τ ↔ Stmt.listBehaviourBy
      (Expr.valuesBy (Lookup.expecting (.named prologue.holder) coords otherwise) m) m rest
      ready o τ := by
  have hruns : f.Runs m =
      seq (Stmt.listBehaviour m prologue.statements) (Stmt.listBehaviour m rest) := by
    show Stmt.listBehaviour m f.body = _
    rw [hbody, Stmt.listBehaviour_append]
  rw [hruns, hready.ends.seq_iff]
  -- From there on the local keeps its components, so every lookup finds what it expects.
  let lookup := Lookup.expecting (.named prologue.holder) coords otherwise
  have hsteady (e : Expr) (he : e.Throughout (Reads prologue.holder)) : e.Throughout
      (Steady (HoldsCoords prologue.holder coords) (· ≠ .named prologue.holder) lookup) :=
    fun levels n hn => steady_expecting otherwise (he levels n hn)
  have hvalues (e : Expr) (he : e.Throughout (Reads prologue.holder)) :=
    continues_valuesBy transition_holdsCoords (steps_holdsCoords m) (hsteady e he)
  have hbisimilar := Stmt.bisimilar_listBehaviourBy fun s hs =>
    Stmt.bisimilar_behaviourBy transition_holdsCoords hvalues s (hrest s hs)
  exact hbisimilar.iff_of_both hready.holds o τ

end

/-! ### What becomes of a program -/

/-- The prologue of a policy that computes the coordinate. -/
def prologueOf : CoordPolicy → Prologue
  | .fromVarying => resolved
  | _ => flipped

/-- The coordinate that such a policy computes from what functions share. -/
def coordsOf (m : Machine α) (ops : ScalarOps α) (shared : Variable → Nat → α) :
    CoordPolicy → List α
  | .fromVarying => resolvedCoords m ops shared
  | _ => flippedCoords ops shared

/-- No parameter hides the height of the render target where the policy needs it. -/
def SeesHeight (policy : CoordPolicy) (f : Function) : Prop :=
  policy = .fromHeight → ∀ param ∈ f.params, param.name ≠ TargetSize.heightName

/-- In every call of a function its prologue comes to its end first. Each time the rest of the body
    looks the local up after that, it finds the components of the coordinate: whatever were done
    where it found others, the runs would be the same. -/
def ReadsCoords (m : Machine α) (ops : ScalarOps α) (policy : CoordPolicy) (f : Function)
    (rest : List Stmt) : Prop :=
  ∀ args shared, ∃ ready,
    (prologueOf policy).Prepares m (coordsOf m ops shared policy) (f.start m args shared) ready ∧
    ∀ otherwise o τ, f.Runs m (f.start m args shared) o τ ↔ Stmt.listBehaviourBy
      (Expr.valuesBy (Lookup.expecting (.named (prologueOf policy).holder)
        (coordsOf m ops shared policy) otherwise) m) m rest ready o τ

/-- What becomes of an element. A function that refers to the coordinate gets one prologue, followed
    by its body with the local in place of the coordinate; if it does not write the coordinate, and
    the height is not hidden, all its runs read the coordinate that the policy computes. Everything
    else is left alone. -/
inductive Reconstructed (policy : CoordPolicy) : Element → Element → Prop
  | global (d : Decl) : Reconstructed policy (.global d) (.global d)
  | layout (l : Layout) : Reconstructed policy (.layout l) (.layout l)
  | untouched {f : Function} (h : ¬ RefersToCoord f) :
    Reconstructed policy (.function f) (.function f)
  | rebuilt {f f' : Function} (h : RefersToCoord f) (replace : Expr → Expr)
    (hreplace : ∀ e, Replaces (prologueOf policy).holder e (replace e))
    (hbody : f' = { f with
      body := (prologueOf policy).statements ++ f.body.map (Stmt.mapExprs replace) })
    (hruns : f.anyNode writesCoord = false → SeesHeight policy f →
      ∀ {α : Type} (m : Machine α) (ops : ScalarOps α), m.Floats ops →
        ReadsCoords m ops policy f' (f.body.map (Stmt.mapExprs replace))) :
    Reconstructed policy (.function f) (.function f')

/-- What becomes of the body of a function that refers to the coordinate. -/
theorem reconstruct_eq (prologue : Prologue) (f : Function) (h : f.anyNode isFragCoord = true) :
    let body := f.body.map (Stmt.mapExprs (bottomUp (readLocal prologue)))
    reconstruct prologue f = { f with body := prologue.statements ++ body } := by
  intro body
  rw [reconstruct, if_pos h]
  exact congrArg (fun body => { f with body := prologue.statements ++ body })
    (Stmt.mapExprsListM_pure (bottomUp (readLocal prologue)) f.body)

variable {policy : CoordPolicy}

/-- The prologue of either policy comes to its end where a function starts. -/
theorem prologueOf_prepares (hpolicy : policy = .fromHeight ∨ policy = .fromVarying)
    {m : Machine α} {ops : ScalarOps α} (hm : m.Floats ops) {f : Function}
    (hnames : uses isCoordName f = false) (hheight : SeesHeight policy f)
    (args : List (Ty × List α)) (shared : Variable → Nat → α) : ∃ ready,
      (prologueOf policy).Prepares m (coordsOf m ops shared policy) (f.start m args shared)
        ready := by
  obtain ⟨hshared, -, hlocals⟩ := f.start_spec m args shared
  -- The one policy reads a uniform, the other a varying, and no parameter hides either.
  obtain rfl | rfl := hpolicy
  · have hprepares := flipped_prepares hm (hlocals TargetSize.heightName (hheight rfl))
    rwa [hshared] at hprepares
  · have hparams : ∀ param ∈ f.params, param.name ≠ varyingName := by
      intro param hparam
      have hname := List.any_eq_false.mp (Bool.or_eq_false_iff.mp hnames).1 param hparam
      exact ne_of_isCoordName (eq_false_of_ne_true hname) (by decide)
    have hprepares := resolved_prepares hm (hlocals varyingName hparams)
    rwa [hshared] at hprepares

/-- A function that refers to the coordinate is reconstructed. -/
theorem reconstruct_reconstructed (hpolicy : policy = .fromHeight ∨ policy = .fromVarying)
    {f : Function} (hnames : uses isCoordName f = false) :
    Reconstructed policy (.function f) (.function (reconstruct (prologueOf policy) f)) := by
  have hholder : isCoordName (prologueOf policy).holder = true := by
    obtain rfl | rfl := hpolicy <;> decide
  -- Only functions that refer to coordinates are changed.
  by_cases h : f.anyNode isFragCoord = true
  · refine .rebuilt (anyNode_iff_refersToCoord.mp h) _ (replaces_bottomUp (prologueOf policy))
      (reconstruct_eq _ f h) fun hwrites hheight α m ops hm args shared => ?_
    rw [reconstruct_eq _ f h]
    obtain ⟨ready, hready⟩ := prologueOf_prepares hpolicy hm hnames hheight args shared
    exact ⟨ready, hready, runs_expecting rfl (fits_replaced hholder hnames hwrites) hready⟩
  · rw [reconstruct, if_neg h]
    exact .untouched (anyNode_iff_refersToCoord.not.mp h)

/-- A policy that computes the coordinate gives each function of a fragment program that refers to
    it, at whatever depth, a prologue of its own, and has the function read the local of that
    wherever it referred to the coordinate. In every run each such read finds `(x, h - y, z, w)`, or
    `(floor(x * i) + 0.5, floor(y * i) + 0.5, z * i, i)` with `i = 1.0 / w` for the clip position
    that is passed on. The names that this needs must be left to it; a parameter must not hide the
    height, nor may the function write the coordinate. -/
theorem applyPolicy_reconstructs (hpolicy : policy = .fromHeight ∨ policy = .fromVarying)
    {p : Program} (hstage : p.stage = .fragment)
    (hnames : p.functions.any (uses isCoordName) = false) (sc : Scratch) :
    let p' := ((applyPolicy policy (p.anyNode isFragCoord) p).run sc).1
    p'.stage = p.stage ∧ List.Forall₂ (Reconstructed policy) p.elements p'.elements := by
  have hfunction {f : Function} (hf : .function f ∈ p.elements) : uses isCoordName f = false := by
    rw [List.any_eq_false] at hnames
    exact eq_false_of_ne_true (hnames f (Element.mem_functions.mpr hf))
  have hrebuilt : List.Forall₂ (Reconstructed policy) p.elements
      (p.mapFunctions (reconstruct (prologueOf policy))).elements := by
    refine List.forall₂_map_right_iff.mpr (List.forall₂_same.mpr fun el hel => ?_)
    cases el with
    | global d => exact .global d
    | layout l => exact .layout l
    | function f => exact reconstruct_reconstructed hpolicy (hfunction hel)
  -- Where the program does not refer to the coordinate, no function does.
  have hunread (h : p.anyNode isFragCoord = false) :
      p.mapFunctions (reconstruct (prologueOf policy)) = p := by
    have hsame : ∀ el ∈ p.elements, el.mapFunction (reconstruct (prologueOf policy)) = el := by
      intro el hel
      cases el with
      | global d => rfl
      | layout l => rfl
      | function f =>
        have hf : f.anyNode isFragCoord ≠ true := List.any_eq_false.mp h _ hel
        exact congrArg Element.function (if_neg hf)
    have helements := (List.map_congr_left hsame).trans (List.map_id' p.elements)
    exact congrArg (fun elements => { p with elements }) helements
  -- Both policies rebuild every function, and the one from the varying does so in a fragment
  -- program.
  have hresult : ((applyPolicy policy (p.anyNode isFragCoord) p).run sc).1 =
      p.mapFunctions (reconstruct (prologueOf policy)) := by
    cases h : p.anyNode isFragCoord with
    | true =>
      obtain rfl | rfl := hpolicy
      · rfl
      · unfold applyPolicy
        rw [hstage]
        rfl
    | false =>
      rw [hunread h]
      obtain rfl | rfl := hpolicy
      · rfl
      · unfold applyPolicy
        rw [hstage]
        rfl
  intro p'
  rw [show p' = _ from hresult]
  exact ⟨rfl, hrebuilt⟩

/-- Integers with the arithmetic of floats. -/
def wholeOps : ScalarOps Int where
  negate _ a := -a
  binary op _ a b :=
    match op with
    | .add => a + b
    | .sub => a - b
    | .mul => a * b
    | _ => a / b
  function _ _ a := a
  power a _ := a

/-- References in the branches of a loop, and a function without any. -/
theorem loop_reads_resolved_coord :
    let plain : Function := ⟨"plain", .float, [], [.returnWith (some (.float .one))]⟩
    let x : Expr := .ofVar "x" .float
    let loop (coord : Expr) : List Stmt := [.whileLoop (.ofVar "more" .bool)
      (.ifElse (.ofVar "low" .bool) (.assign x (.ofSwizzle coord [.x]))
        (some (.block [.assign x (.ofSwizzle coord [.y])])))]
    let shade : Function := .entry (loop (.ofBuiltin .fragCoord))
    let rest : List Stmt := loop (.ofVar resolvedName (.vec 4))
    let shade' : Function := .entry (resolved.statements ++ rest)
    let p : Program := ⟨.fragment, [.function plain, .function shade]⟩
    (p.stage = .fragment ∧ p.functions.any (uses isCoordName) = false) ∧
      ((applyPolicy .fromVarying (p.anyNode isFragCoord) p).run {}).1.elements =
        [.function plain, .function shade'] ∧
      (¬ RefersToCoord plain ∧ RefersToCoord shade) ∧
      ReadsCoords (Machine.integers.withOps wholeOps) wholeOps .fromVarying shade' rest := by
  -- The names, the rebuilt program and which functions refer to the coordinate are decided.
  intro plain x loop shade rest shade' p
  have hnames : p.functions.any (uses isCoordName) = false := by decide
  have helements : ((applyPolicy .fromVarying (p.anyNode isFragCoord) p).run {}).1.elements =
      [.function plain, .function shade'] := rfl
  have hplain : ¬ RefersToCoord plain := anyNode_iff_refersToCoord.not.mp (by decide)
  have hshade : RefersToCoord shade := anyNode_iff_refersToCoord.mp (by decide)
  -- The second function is the rebuilt one: the prologue and then its body, with the local read.
  obtain ⟨-, hrebuilt⟩ := applyPolicy_reconstructs (.inr rfl) (show p.stage = .fragment from rfl)
    hnames {}
  rw [helements] at hrebuilt
  obtain ⟨-, hrebuilt⟩ := List.forall₂_cons.mp hrebuilt
  obtain ⟨hrebuilt, -⟩ := List.forall₂_cons.mp hrebuilt
  refine ⟨⟨rfl, hnames⟩, helements, ⟨hplain, hshade⟩, ?_⟩
  generalize helement : Element.function shade' = element at hrebuilt
  cases hrebuilt with
  | untouched h => exact absurd hshade h
  | rebuilt _ replace _ hbody hruns =>
    obtain rfl := Element.function.inj helement
    have hrest : rest = _ := List.append_cancel_left (congrArg Function.body hbody)
    have hreads := hruns (by decide) nofun (Machine.integers.withOps wholeOps) wholeOps
      (Machine.integers.floats_withOps wholeOps)
    rwa [← hrest] at hreads

/-- Without these conditions other components can be read. Where a parameter is named like the
    uniform for the height, the coordinate is measured from that. Where a function writes the
    coordinate, it reads what it wrote. -/
theorem hidden_height_and_written_coord_are_read :
    let coord : Expr := .ofBuiltin .fragCoord
    let answer : Stmt := .returnWith (some (.ofSwizzle coord [.y]))
    let hidden : Function := ⟨"shade", .float, [⟨TargetSize.heightName, .float⟩], [answer]⟩
    let written : Function :=
      ⟨"shade", .float, [], [.assign coord (.ofConstruct (.vec 4) [.float .one]), answer]⟩
    let p (f : Function) : Program := ⟨.fragment, [.function f]⟩
    let m := Machine.integers.withOps wholeOps
    let shared (v : Variable) (_ : Nat) : Int := if v = .builtin .fragCoord then 7 else 100
    (m.Floats wholeOps ∧ (flippedCoords wholeOps shared).getD 1 0 = 93) ∧
      (∀ f ∈ [hidden, written], uses isCoordName f = false ∧ RefersToCoord f ∧
        ((applyPolicy .fromHeight ((p f).anyNode isFragCoord) (p f)).run {}).1 =
          p (reconstruct flipped f)) ∧
      (∃ τ, (reconstruct flipped hidden).Runs m (hidden.start m [(.float, [10])] shared)
        (.returned (some [3])) τ) ∧
      ∃ τ, (reconstruct flipped written).Runs m (written.start m [] shared)
        (.returned (some [1])) τ := by
  intro coord answer hidden written p m shared
  -- Neither function uses a name of the prologue, so the rule rebuilds both.
  have hrules : ∀ f ∈ [hidden, written], uses isCoordName f = false ∧ RefersToCoord f ∧
      ((applyPolicy .fromHeight ((p f).anyNode isFragCoord) (p f)).run {}).1 =
        p (reconstruct flipped f) := by
    refine List.forall_mem_cons.mpr ⟨⟨?_, anyNode_iff_refersToCoord.mp ?_, rfl⟩,
      List.forall_mem_singleton.mpr ⟨?_, anyNode_iff_refersToCoord.mp ?_, rfl⟩⟩ <;> decide
  let component (s : Selector) : Expr := .ofSwizzle coord [s]
  let flip : Expr := .ofConstruct (.vec 4) [component .x,
    .ofBinary .sub TargetSize.height (component .y), component .z, component .w]
  have hhidden : ∃ τ, (reconstruct flipped hidden).Runs m
      (hidden.start m [(.float, [10])] shared) (.returned (some [3])) τ := by
    -- The height is the parameter, which is 10.
    have hflip : (flip.values m).run.run (hidden.start m [(.float, [10])] shared) =
      some (.ok [7, 3, 7, 7], hidden.start m [(.float, [10])] shared) := rfl
    have hready := endsIn_declare flippedName (.vec 4) hflip
    exact ⟨_, hready.followed (.inr ⟨nofun, rfl, rfl⟩)⟩
  have hwritten : ∃ τ, (reconstruct flipped written).Runs m (written.start m [] shared)
      (.returned (some [1])) τ := by
    -- All components of the local are overwritten before one is read.
    have hflip : (flip.values m).run.run (written.start m [] shared) =
      some (.ok [7, 93, 7, 7], written.start m [] shared) := rfl
    have hready := endsIn_declare flippedName (.vec 4) hflip
    let ready := (written.start m [] shared).setLocal flippedName
      (some fun i => [7, 93, 7, 7].getD i m.undefined)
    let components := (Variable.named flippedName).lanes (.vec 4) (ready.read (.named flippedName))
    have hones : ((Expr.assign (.ofVar flippedName (.vec 4))
        (.ofConstruct (.vec 4) [.float .one])).values m).run.run ready =
      some (.ok [1, 1, 1, 1], ready.store components [1, 1, 1, 1]) := rfl
    exact ⟨_, hready.followed ((endsIn_expr hones).followed (.inr ⟨nofun, rfl, rfl⟩))⟩
  exact ⟨⟨Machine.integers.floats_withOps wholeOps, rfl⟩, hrules, hhidden, hwritten⟩

end Legalize.FragCoord

end ShaderGen
