import ShaderGen.Proofs.Legalize.Confined
import ShaderGen.Proofs.Legalize.Helpers
import ShaderGen.Proofs.Legalize.Idle
import ShaderGen.Proofs.Replacement
import ShaderGen.Proofs.Scopes.Emitted
import ShaderGen.Proofs.Typing.Derived

/-!
# One helper for each shape of integers

Absolute values of integers become calls that all have the same name, and it is the shape of the
argument that tells which helper is called. The helpers are asked for by the shape of the call, as
the walk meets it; since the builders give an absolute value the shape of its argument, there is
one helper for each call, and only one.

## Key results

- `legalize_replaces`: what the walk does to the program and to the helpers
- `helper_of_isIntAbs`: no absolute value of integers is missed
- `legalize_overloads`: the helpers there are in the end, and the calls of them
-/

namespace ShaderGen.Legalize.IntAbs

open ShaderGen.Expr
open List (Forall₂)

variable {p : Program} {s : Scratch} {e e' : Expr} {shape : Shape} {fs : List Function}

/-- Whether a function takes one argument, of some shape. -/
def takes (shape : Shape) (f : Function) : Bool := f.params.map (fun x => x.ty.shape) == [shape]

/-- A helper for absolute values of some shape. -/
structure IsOverload (shape : Shape) (f : Function) : Prop where
  name : f.name = helperName
  takes : takes shape f = true
  gives : f.result.shape = shape

/-- What becomes of an expression among some helpers: every absolute value of integers in it calls
    one of them, the only one that takes its argument, and everything else stays as it is. -/
inductive Redirects (fs : List Function) : Expr → Expr → Prop where
  | intAbs {ty : Ty} {x x' : Expr} (hx : Redirects fs x x') (hint : ty.scalarKind? = some .int)
    (hone : fs.countP (takes x'.ty.shape) = 1) :
    Redirects fs (.call ty (.intrinsic .abs) [x]) (.call ty (.user helperName) [x'])
  | other {e : Expr} {cs : List Expr} (hcs : Forall₂ (Redirects fs) e.children cs)
    (he : isIntAbs e = false) : Redirects fs e (e.withChildren cs)

/-! ### One node -/

/-- The shape of an integer absolute value. -/
theorem isIntAbs_iff :
    isIntAbs e = true ↔
      ∃ ty args, e = .call ty (.intrinsic .abs) args ∧ ty.scalarKind? = some .int := by
  constructor
  · -- Only an `abs` of integers passes the test.
    intro h
    unfold isIntAbs at h
    split at h
    · exact ⟨_, _, rfl, beq_iff_eq.mp h⟩
    · exact absurd h nofun
  · rintro ⟨ty, args, rfl, h⟩
    exact beq_iff_eq.mpr h

/-- What takes the place of a node. -/
def redirect (e : Expr) : Expr :=
  match e with
  | .call ty _ args => if isIntAbs e then .call ty (.user helperName) args else e
  | _ => e

/-- Other nodes are not redirected. -/
theorem redirect_of_not_isIntAbs (h : isIntAbs e = false) : redirect e = e := by
  unfold redirect
  split
  · rw [h]
    rfl
  · rfl

/-- An integer absolute value adds the helper for its shape, and is redirected to it. -/
theorem emulateNode_of_isIntAbs (h : isIntAbs e = true) :
    emulateNode e = (do
      modify (Scratch.addHelper e.ty.shape (helper (e.ty.withPrecision .full)))
      pure (redirect e)) := by
  obtain ⟨ty, args, rfl, hint⟩ := isIntAbs_iff.mp h
  have hredirect : redirect (.call ty (.intrinsic .abs) args) = .call ty (.user helperName) args :=
    if_pos h
  rw [emulateNode, if_pos hint, hredirect]
  rfl

/-- Any other node adds nothing. -/
theorem emulateNode_of_not_isIntAbs (h : isIntAbs e = false) :
    emulateNode e = pure (redirect e) := by
  rw [redirect_of_not_isIntAbs h]
  unfold emulateNode
  split
  · rw [if_neg]
    exact fun hint => absurd ((isIntAbs_iff.mpr ⟨_, _, rfl, hint⟩).symm.trans h) nofun
  · rfl

/-- The shape of an absolute value of integers. -/
theorem shape_of_isIntAbs (h : isIntAbs e = true) :
    e.ty.shape = .scalar .int ∨ ∃ size, e.ty.shape = .vector .int size := by
  obtain ⟨ty, args, rfl, hint⟩ := isIntAbs_iff.mp h
  unfold Ty.scalarKind? at hint
  show ty.shape = _ ∨ ∃ size, ty.shape = _
  cases hshape : ty.shape with
  | scalar kind | vector kind size => simpa [hshape, Shape.scalarKind?] using hint
  | matrix | void | sampler => exact absurd (hshape ▸ hint) nofun

/-! ### The helpers -/

/-- Some absolute value of integers in a program has the shape. -/
def Occurs (p : Program) (shape : Shape) : Prop :=
  ∃ depth e, p.HoldsAt depth (.expr e) ∧ isIntAbs e = true ∧ e.ty.shape = shape

/-- The helpers are for different shapes, all of which occur. -/
structure OneEach (p : Program) (s : Scratch) : Prop where
  nodup : (s.helpers.map Prod.fst).Nodup
  occurs : ∀ entry ∈ s.helpers, Occurs p entry.1
  helper : ∀ entry ∈ s.helpers, ∃ ty : Ty, entry = (ty.shape, helper ty)

/-- Adding a helper for a shape that occurs leaves one helper for each shape. -/
theorem OneEach.addHelper (h : OneEach p s) {ty : Ty} (hty : Occurs p ty.shape) :
    OneEach p (s.addHelper ty.shape (IntAbs.helper ty)) := by
  unfold Scratch.addHelper
  split
  · exact h
  · next hnew =>
    -- The shape was looked for before, so it is not there twice.
    have hfresh : ty.shape ∉ s.helpers.map Prod.fst := by simpa using hnew
    have hhelpers : ∀ Q : Shape × Function → Prop, (∀ entry ∈ s.helpers, Q entry) →
        Q (ty.shape, IntAbs.helper ty) →
          ∀ entry ∈ s.helpers ++ [(ty.shape, IntAbs.helper ty)], Q entry :=
      fun Q hold hadded => List.forall_mem_append.mpr ⟨hold, List.forall_mem_singleton.mpr hadded⟩
    refine ⟨?_, hhelpers _ h.occurs hty, hhelpers _ h.helper ⟨ty, rfl⟩⟩
    rw [List.map_append, List.nodup_append_comm]
    exact List.nodup_cons.mpr ⟨hfresh, h.nodup⟩

/-- Each node is redirected, while the helpers stay one for each shape. -/
theorem emulateNode_replaces (he : isIntAbs e = true → Occurs p e.ty.shape) :
    (steady (OneEach p)).Holds (· = redirect e) (emulateNode e) := by
  cases h : isIntAbs e with
  | false =>
    rw [emulateNode_of_not_isIntAbs h]
    exact (steady _).pure rfl
  | true =>
    rw [emulateNode_of_isIntAbs h]
    -- The shape that is asked for occurs in the program, so its helper may be there.
    have hoccurs : Occurs p (e.ty.withPrecision .full).shape := he h
    exact fun s hs => ⟨rfl, hs.addHelper hoccurs⟩

/-- All absolute values of integers are redirected, and each of the helpers is for one of them. -/
theorem legalize_replaces (p : Program) (hs : OneEach p s) :
    ((legalize p).run s).1 = p.mapExprs (bottomUp redirect) ∧
      OneEach p ((legalize p).run s).2 := by
  have hoccurs : p.All (Expr.Throughout fun n => isIntAbs n = true → Occurs p n.ty.shape) :=
    Program.all_throughout_iff.mpr fun depth n hn h => ⟨depth, n, hn, h, rfl⟩
  have hwalk := Program.mapExprsM_replaces (steady (OneEach p)) (p := p) (g := bottomUp redirect)
    (f := bottomUpM emulateNode) (hoccurs.mono fun e he => ?_)
  · exact hwalk s hs
  · -- A node is asked about over children that have been redirected, but its type has not changed.
    refine bottomUpM_replaces _ fun levels n hn cs => emulateNode_replaces fun h => ?_
    rw [ty_withChildren]
    exact he levels n hn (isIntAbs_withChildren n cs ▸ h)

/-- What a node asks for is there in the end. -/
theorem granting_emulateNode_shape {brought : List Symbol} (cs : List Expr) :
    (granting brought).Holds (fun _ => isIntAbs e = true → .helper e.ty.shape ∈ brought)
      (emulateNode (e.withChildren cs)) := by
  -- Whether a node is such a call, and of which type, is settled by the node alone.
  have hnode := isIntAbs_withChildren e cs
  cases h : isIntAbs e with
  | false =>
    rw [emulateNode_of_not_isIntAbs (hnode.trans h)]
    exact (granting brought).pure nofun
  | true =>
    rw [emulateNode_of_isIntAbs (hnode.trans h), ty_withChildren]
    exact granting_addHelper _ _ fun hmem _ => hmem

/-- After a tree is redirected there is a helper for each integer absolute value in it. -/
theorem granting_bottomUpM_shape {brought : List Symbol} (e : Expr) :
    (granting brought).Holds (fun _ => e.Throughout fun n => isIntAbs n = true →
      .helper n.ty.shape ∈ brought) (e.bottomUpM emulateNode) := by
  induction e using induction_children with
  | h e ih =>
    rw [bottomUpM_eq]
    refine (granting brought).bind ((granting brought).mapM ih) fun cs => ?_
    -- The helper is asked for by the node, and the children have asked for theirs.
    refine (granting brought).mono (granting_emulateNode_shape cs) fun _ hnode hcs => ?_
    refine throughout_iff.mpr ⟨hnode, fun c hc => ?_⟩
    obtain ⟨_, -, hbelow⟩ := exists_right_of_forall₂ hcs c hc
    exact hbelow

/-- Whatever shape an absolute value of integers has, there is a helper for it in the end. -/
theorem helper_of_isIntAbs (s : Scratch) (h : Occurs p shape) :
    shape ∈ ((legalize p).run s).2.helpers.map Prod.fst := by
  obtain ⟨depth, e, he, hint, rfl⟩ := h
  -- Helpers are only ever added, so that each node is judged by those there are in the end.
  obtain ⟨-, -, hall⟩ := Program.mapExprsM_tells (granting ((legalize p).run s).2.symbols)
    granting_bottomUpM_shape p s
  have hmem := Program.all_throughout_iff.mp (hall (List.Subset.refl _)) depth e he hint
  obtain ⟨entry, hentry, hshape⟩ := Scratch.helper_mem_symbols.mp hmem
  exact List.mem_map.mpr ⟨entry, hentry, hshape⟩

/-! ### Calls of the helpers -/

/-- Among helpers for different shapes, one takes an argument of a shape that there is a helper
    for. -/
theorem OneEach.countP_takes (h : OneEach p s) (hshape : shape ∈ s.helpers.map Prod.fst) :
    (s.helpers.map Prod.snd).countP (takes shape) = 1 := by
  -- A helper takes the shape that it is filed under, and no other.
  have htakes : ∀ entry ∈ s.helpers, (takes shape ∘ Prod.snd) entry = (entry.1 == shape) := by
    intro entry hentry
    obtain ⟨ty, rfl⟩ := h.helper entry hentry
    simp [takes, IntAbs.helper]
  calc (s.helpers.map Prod.snd).countP (takes shape)
      = s.helpers.countP (takes shape ∘ Prod.snd) := List.countP_map
    _ = s.helpers.countP fun entry => entry.1 == shape :=
        List.countP_congr fun entry hentry => by rw [htakes entry hentry]
    _ = (s.helpers.map Prod.fst).count shape := by rw [List.count, List.countP_map]; rfl
    _ = 1 := List.count_eq_one_of_mem h.nodup hshape

/-- A redirected expression has its type. -/
theorem Redirects.ty_eq (h : Redirects fs e e') : e'.ty = e.ty := by
  cases h with
  | intAbs => rfl
  | other => exact ty_withChildren _ _

/-- What comes from the builders does so throughout. -/
theorem throughout_built (h : e.Built) : e.Throughout Built := by
  induction e using induction_children with
  | h e ih => exact throughout_iff.mpr ⟨h, fun c hc => ih c hc (h.children c hc)⟩

/-- An absolute value that comes from the builders has the shape of its argument. -/
theorem shape_of_built {ty : Ty} {x : Expr} (h : Built (.call ty (.intrinsic .abs) [x])) :
    x.ty.shape = ty.shape := by
  cases h with
  | call f hx => rfl

/-- If each integer absolute value has one fitting helper, the whole tree is redirected. -/
theorem redirects_bottomUp (he : e.Throughout fun n => isIntAbs n = true →
    ∃ ty x, n = .call ty (.intrinsic .abs) [x] ∧ x.ty.shape = ty.shape ∧
      fs.countP (takes ty.shape) = 1) : Redirects fs e (e.bottomUp redirect) := by
  induction e using induction_children with
  | h e ih =>
    obtain ⟨hnode, hbelow⟩ := throughout_iff.mp he
    have hcs : Forall₂ (Redirects fs) e.children (e.children.map (bottomUp redirect)) :=
      List.forall₂_map_right_iff.mpr (List.forall₂_same.mpr fun c hc => ih c hc (hbelow c hc))
    rw [bottomUp_eq]
    cases h : isIntAbs e with
    | false =>
      rw [redirect_of_not_isIntAbs ((isIntAbs_withChildren e _).trans h)]
      exact .other hcs h
    | true =>
      -- The call was asked for by its own shape, which its argument keeps on the way.
      obtain ⟨ty, x, rfl, hshape, hone⟩ := hnode h
      obtain ⟨hx, -⟩ := List.forall₂_cons.mp hcs
      have hint : ty.scalarKind? = some .int := beq_iff_eq.mp h
      have hredirect : redirect (.call ty (.intrinsic .abs) [x.bottomUp redirect]) =
          .call ty (.user helperName) [x.bottomUp redirect] := if_pos h
      show Redirects fs _ (redirect (.call ty (.intrinsic .abs) [x.bottomUp redirect]))
      rw [hredirect]
      refine .intAbs hx hint ?_
      rw [hx.ty_eq, hshape, hone]

/-! ### Programs -/

/-- There is one helper for each shape of integers that an absolute value in the program has, and
    each absolute value of integers calls the only helper that takes its argument. -/
theorem legalize_overloads (hbuilt : p.All Built)
    (htyped : ∀ depth ty args, p.HoldsAt depth (.expr (.call ty (.intrinsic .abs) args)) →
      args.length = 1) (hs : s.helpers = []) :
    let helpers := ((legalize p).run s).2.helpers.map Prod.snd
    (∃ shapes : List Shape, shapes.Nodup ∧
      (∀ shape, shape ∈ shapes ↔ ∃ depth e, p.HoldsAt depth (.expr e) ∧ isIntAbs e = true ∧
        e.ty.shape = shape) ∧
      (∀ shape ∈ shapes, shape = .scalar .int ∨ ∃ size, shape = .vector .int size) ∧
      Forall₂ IsOverload shapes helpers) ∧
    ∃ g, ((legalize p).run s).1 = p.mapExprs g ∧ p.All fun e => Redirects helpers e (g e) := by
  -- The shapes with a helper are those of the calls that occur.
  intro helpers
  obtain ⟨hreplaces, hone⟩ := legalize_replaces p (s := s) (by constructor <;> simp [hs])
  have hshapes (shape : Shape) :
      shape ∈ ((legalize p).run s).2.helpers.map Prod.fst ↔ Occurs p shape := by
    refine ⟨fun h => ?_, helper_of_isIntAbs s⟩
    obtain ⟨entry, hentry, rfl⟩ := List.mem_map.mp h
    exact hone.occurs entry hentry
  refine ⟨⟨_, hone.nodup, hshapes, fun shape h => ?_, ?_⟩, bottomUp redirect, hreplaces, ?_⟩
  · obtain ⟨depth, e, -, hint, rfl⟩ := (hshapes shape).mp h
    exact shape_of_isIntAbs hint
  · refine List.forall₂_map_left_iff.mpr (List.forall₂_map_right_iff.mpr ?_)
    refine List.forall₂_same.mpr fun entry hentry => ?_
    obtain ⟨ty, rfl⟩ := hone.helper entry hentry
    exact ⟨rfl, beq_iff_eq.mpr rfl, rfl⟩
  · -- It is left that each of the calls finds its one helper.
    have hcalls : p.All (Throughout fun n => isIntAbs n = true → ∃ ty x,
        n = .call ty (.intrinsic .abs) [x] ∧ x.ty.shape = ty.shape ∧
          helpers.countP (takes ty.shape) = 1) := by
      -- The check gives the call one argument, and the builders give it the shape of that.
      refine Program.all_throughout_iff.mpr fun depth n hn hint => ?_
      obtain ⟨ty, args, rfl, -⟩ := isIntAbs_iff.mp hint
      obtain ⟨x, rfl⟩ := List.length_eq_one_iff.mp (htyped depth ty args hn)
      have hx := Program.all_throughout_iff.mp (hbuilt.mono fun e => throughout_built) depth _ hn
      exact ⟨ty, x, rfl, shape_of_built hx,
        hone.countP_takes ((hshapes _).mpr ⟨depth, _, hn, hint, rfl⟩)⟩
    exact hcalls.mono fun e => redirects_bottomUp

/-- A vector in an initial value, one integer inside another, and a float, which is left alone. -/
theorem two_shapes_have_two_helpers :
    let v := ofVar "v" (.vector .int 2 .full)
    let nested := ofCall .abs [ofCall .abs [ofVar "i" .int]]
    let p : Program := ⟨.fragment,
      [.global (.plain "g" (.vector .int 2 .full) (some (ofCall .abs [v]))),
        .function (.entry [.expr nested, .expr (ofCall .abs [ofVar "x" .float])])]⟩
    let helpers := ((legalize p).run {}).2.helpers.map Prod.snd
    helpers.map (fun f => f.result.shape) = [.vector .int 2, .scalar .int] ∧
      ∃ g, ((legalize p).run {}).1 = p.mapExprs g ∧ p.All fun e => Redirects helpers e (g e) := by
  intro v nested p helpers
  -- All expressions are made by the builders.
  have habs {x : Expr} (hx : x.Built) : Built (ofCall .abs [x]) :=
    .call _ (List.forall_mem_singleton.mpr hx)
  have hbuilt : p.All Built := by
    refine List.forall_mem_cons.mpr ⟨?_, List.forall_mem_singleton.mpr fun s hs => ?_⟩
    · rintro _ ⟨⟩
      exact habs (.var _ _)
    · obtain rfl | rfl := by simpa [Function.entry] using hs
      · exact Stmt.all_expr.mpr (habs (habs (.var _ _)))
      · exact Stmt.all_expr.mpr (habs (.var _ _))
  -- All of them have one argument, which is checked by looking for one that does not.
  let other (e : Expr) : Bool := e.calls .abs (fun _ => true) && e.children.length != 1
  have hall : p.All (Throughout fun n => other n = false) :=
    (Program.anyNode_eq_false_iff.mp rfl).mono fun _ => throughout_iff_any.mpr
  have htyped : ∀ depth ty args, p.HoldsAt depth (.expr (.call ty (.intrinsic .abs) args)) →
      args.length = 1 := fun depth ty args he => by
    simpa [other, calls, children] using Program.all_throughout_iff.mp hall depth _ he
  exact ⟨rfl, (legalize_overloads hbuilt htyped rfl).2⟩

end ShaderGen.Legalize.IntAbs
