import ShaderGen.Proofs.Legalize.Idle
import ShaderGen.Proofs.Replacement

/-!
# Which lookups are resolved, and to what

Whether a `sample` call can be resolved is seen from the types of its arguments: a sampler has to
come first, and after it a coordinate with as many components as the sampler has dimensions, or
with one more, which the others are divided by (`Sampled`). Anything else is malformed
(`Unsampled`). Lookups nest, but a resolved lookup keeps its type, so that it does not matter to a
lookup what has become of those inside its arguments.

## Key results

- `classify_holds`: what the arguments of a lookup are found to be
- `bottomUpM_resolves`: what becomes of an expression, or what it fails for
- `legalize_resolves`: what becomes of a program
-/

namespace ShaderGen

open List (Forall₂)

namespace Intrinsic

/-- Whether a lookup divides its coordinate by a component of its own. -/
def isProjective : Intrinsic → Bool
  | .textureProj | .texture1DProj | .texture2DProj | .texture2DRectProj => true
  | _ => false

/-- Dimensionality that the name of a lookup tells. -/
def dim? : Intrinsic → Option SamplerDim
  | .texture1D | .texture1DProj => some .d1
  | .texture2D | .texture2DProj => some .d2
  | .texture2DRect | .texture2DRectProj => some .rect
  | _ => none

end Intrinsic

/-- Whether an expression is a lookup that is still to be resolved. -/
def Expr.isSample (e : Expr) : Bool := e.calls .sample fun _ => true

/-- A call of `sample` stays one when its arguments change. -/
theorem Expr.isSample_withChildren (e : Expr) (cs : List Expr) :
    (e.withChildren cs).isSample = e.isSample :=
  calls_withChildren .sample _ e cs

/-- What samples is a call of `sample`. -/
theorem Expr.isSample_iff {e : Expr} :
    e.isSample = true ↔ ∃ ty args, e = .call ty (.intrinsic .sample) args := by
  constructor
  · intro h
    unfold isSample calls at h
    split at h
    · -- Only one function samples.
      next ty f args =>
      obtain rfl : f = .sample := by simpa using h
      exact ⟨ty, args, rfl⟩
    · exact absurd h nofun
  · rintro ⟨ty, args, rfl⟩
    rfl

namespace Legalize.TextureLookup

variable {profile : Profile} {dim : SamplerDim} {width : Nat} {tys : List Ty}
  {cause : Malformation} {e e' : Expr} {p p' : Program}

/-- Types of the arguments of a lookup in a texture of some dimensionality, at a coordinate of some
    width. -/
inductive Sampled : List Ty → SamplerDim → Nat → Prop where
  | intro {sampler coord : Ty} {rest : List Ty} {dim : SamplerDim} {width : Nat}
    (hdim : sampler.shape = .sampler dim) (hwidth : coord.swizzleWidth? = some width)
    (hfits : width = dim.coordinateCount ∨ width = dim.coordinateCount + 1) :
    Sampled (sampler :: coord :: rest) dim width

/-- What is wrong with the types of the arguments of a lookup. -/
inductive Unsampled : List Ty → Malformation → Prop where
  | arguments {tys : List Ty} (h : tys.length < 2) : Unsampled tys .lookupArguments
  | sampler {sampler coord : Ty} {rest : List Ty} (h : ∀ dim, sampler.shape ≠ .sampler dim) :
    Unsampled (sampler :: coord :: rest) .lookupSampler
  | coordinate {sampler coord : Ty} {rest : List Ty} {dim : SamplerDim}
    (hdim : sampler.shape = .sampler dim)
    (hdirect : coord.swizzleWidth? ≠ some dim.coordinateCount)
    (hprojective : coord.swizzleWidth? ≠ some (dim.coordinateCount + 1)) :
    Unsampled (sampler :: coord :: rest) (.lookupCoordinate (coord.swizzleWidth?.getD 0) dim)

/-- A function that a dialect has for a lookup: it is projective if the coordinate has a component
    too many, and it has the dimensionality in its name in legacy generations. -/
structure IsEntry (profile : Profile) (dim : SamplerDim) (width : Nat) (f : Intrinsic) : Prop where
  lookup : f.isLookup = true
  resolved : f ≠ .sample
  projective : f.isProjective = true ↔ width = dim.coordinateCount + 1
  named : f.dim? = if profile.isLegacy then some dim else none

/-- Arguments that are added to so many of a lookup. -/
def addedBias (profile : Profile) (dim : SamplerDim) (count : Nat) : List Expr :=
  if profile.sharpensMipmaps = true ∧ dim ≠ .rect ∧ count = 2 then [.float .minusHalf] else []

/-- What an expression is resolved to: every lookup in it becomes a call of a function that the
    dialect has, and everything else stays as it is. -/
inductive Resolves (profile : Profile) : Expr → Expr → Prop where
  | lookup {ty : Ty} {args args' : List Expr} {dim : SamplerDim} {width : Nat} {f : Intrinsic}
    (hargs : Forall₂ (Resolves profile) args args') (h : Sampled (args.map Expr.ty) dim width)
    (hf : IsEntry profile dim width f) :
    Resolves profile (.call ty (.intrinsic .sample) args)
      (.call ty (.intrinsic f) (args' ++ addedBias profile dim args.length))
  | other {e : Expr} {cs : List Expr} (hcs : Forall₂ (Resolves profile) e.children cs)
    (he : e.isSample = false) : Resolves profile e (e.withChildren cs)

/-! ### One lookup -/

/-- Arguments that can be sampled are not blocked. -/
theorem Sampled.not_unsampled (h : Sampled tys dim width) : ¬ Unsampled tys cause := by
  obtain ⟨hdim, hwidth, hfits⟩ := h
  -- What is wrong would be the count, the sampler or the coordinate, and all three are right.
  intro hnot
  cases hnot with
  | arguments hlength => exact absurd hlength (by simp)
  | sampler hsampler => exact hsampler _ hdim
  | coordinate hdim' hdirect hprojective =>
    obtain rfl := Shape.sampler.inj (hdim.symm.trans hdim')
    rcases hfits with rfl | rfl
    · exact hdirect hwidth
    · exact hprojective hwidth

/-- The entry point that the rule writes is the one of the profile, of its dimension and form. -/
theorem isEntry_entryPoint (profile : Profile) (dim : SamplerDim) (projective : Bool) :
    IsEntry profile dim (dim.coordinateCount + projective.toNat)
      (entryPoint profile.isLegacy dim projective) := by
  cases h : profile.isLegacy <;> cases dim <;> cases projective <;>
    exact ⟨rfl, nofun, by decide, by rw [h]; rfl⟩

/-- The rule adds the bias that the profile asks for. -/
theorem biased_eq (profile : Profile) (dim : SamplerDim) (args : List Expr) :
    biased profile.sharpensMipmaps dim args = args ++ addedBias profile dim args.length := by
  unfold biased addedBias sharpenBias
  by_cases h : profile.sharpensMipmaps = true ∧ dim ≠ .rect ∧ args.length = 2
  · rw [if_pos h, if_pos (by simpa [and_assoc] using h)]
  · rw [if_neg h, if_neg (by simpa [and_assoc] using h), List.append_nil]

/-- What the arguments of a lookup are found to be, and what is wrong with them otherwise. -/
theorem classify_holds (args : List Expr) :
    (Judgement.blaming (Unsampled (args.map Expr.ty))).Holds
      (fun r => Sampled (args.map Expr.ty) r.1 (r.1.coordinateCount + r.2.toNat))
      (classify args) := by
  match args with
  | [] | [_] => exact ⟨nofun, fun _ h => Except.error.inj h ▸ .arguments (by simp)⟩
  | sampler :: coord :: rest =>
    rw [classify]
    split
    · next dim hdim =>
      dsimp only
      -- A coordinate without components has the width zero, which no sampler has.
      have hwidth (n : Nat) (hn : 0 < n) :
          coord.ty.swizzleWidth?.getD 0 = n ↔ coord.ty.swizzleWidth? = some n := by
        cases coord.ty.swizzleWidth? with
        | none => simp [Nat.ne_of_lt hn]
        | some width => simp
      have hpos : 0 < dim.coordinateCount := by cases dim <;> decide
      have hdirect := hwidth _ hpos
      have hprojective := hwidth _ (Nat.succ_pos dim.coordinateCount)
      split_ifs with h h'
      · exact ⟨fun _ hr => Except.ok.inj hr ▸ .intro hdim (hdirect.mp h) (.inl rfl), nofun⟩
      · exact ⟨fun _ hr => Except.ok.inj hr ▸ .intro hdim (hprojective.mp h') (.inr rfl), nofun⟩
      · refine ⟨nofun, fun _ hr => Except.error.inj hr ▸ ?_⟩
        exact .coordinate hdim (mt hdirect.mpr h) (mt hprojective.mpr h')
    · next hshape => exact ⟨nofun, fun _ h => Except.error.inj h ▸ .sampler hshape⟩

/-! ### Expressions -/

/-- A resolved expression keeps its type. -/
theorem Resolves.ty_eq (h : Resolves profile e e') : e'.ty = e.ty := by
  cases h with
  | lookup => rfl
  | other => exact Expr.ty_withChildren _ _

/-- So do resolved arguments. -/
theorem map_ty_of_resolves {es es' : List Expr} (h : Forall₂ (Resolves profile) es es') :
    es'.map Expr.ty = es.map Expr.ty := by
  induction h with
  | nil => rfl
  | cons h _ ih => rw [List.map_cons, List.map_cons, h.ty_eq, ih]

/-- What is wrong with a lookup, if the expression is one. -/
def Blocked (cause : Malformation) (e : Expr) : Prop :=
  ∃ ty args, e = .call ty (.intrinsic .sample) args ∧ Unsampled (args.map Expr.ty) cause

/-- A node that does not sample is left. -/
theorem resolveNode_eq_pure (h : e.isSample = false) : resolveNode profile e = pure e := by
  unfold resolveNode
  split
  · exact absurd h nofun
  · rfl

/-- A node over children that have been resolved is resolved itself, or it is a lookup with
    something wrong. -/
theorem resolveNode_holds {B : Malformation → Prop} {cs : List Expr}
    (he : ∀ cause, Blocked cause e → B cause) (hcs : Forall₂ (Resolves profile) e.children cs) :
    (Judgement.blaming B).Holds (Resolves profile e) (resolveNode profile (e.withChildren cs)) := by
  cases h : e.isSample with
  | false =>
    rw [resolveNode_eq_pure (by rw [Expr.isSample_withChildren, h])]
    exact (Judgement.blaming B).pure (.other hcs h)
  | true =>
    obtain ⟨ty, args, rfl⟩ := Expr.isSample_iff.mp h
    -- The lookups inside the arguments may have become other calls, but of the same types.
    have hclassify := classify_holds cs
    rw [map_ty_of_resolves hcs] at hclassify
    refine (Judgement.blaming B).bind ⟨hclassify.1, fun cause hcause => ?_⟩ fun r hr => ?_
    · exact he cause ⟨ty, args, rfl, hclassify.2 cause hcause⟩
    · refine (Judgement.blaming B).pure ?_
      rw [biased_eq, ← hcs.length_eq]
      exact .lookup hcs hr (isEntry_entryPoint _ _ _)

/-- What an expression is resolved to. If it is not, something is wrong with a lookup in it. -/
theorem bottomUpM_resolves {B : Malformation → Prop}
    (he : e.Throughout fun n => ∀ cause, Blocked cause n → B cause) :
    (Judgement.blaming B).Holds (Resolves profile e) (e.bottomUpM (resolveNode profile)) :=
  Expr.bottomUpM_holds_throughout _ fun levels n hn _ => resolveNode_holds (he levels n hn)

/-- Nothing is wrong with the lookups of an expression that could be resolved. -/
theorem Resolves.not_blocked (h : Resolves profile e e') :
    e.Throughout fun n => ∀ cause, ¬ Blocked cause n := by
  induction e using Expr.induction_children generalizing e' with
  | h e ih =>
    -- A child of a resolved node is resolved, whichever way the node was.
    have hbelow {cs : List Expr} (hcs : Forall₂ (Resolves profile) e.children cs) :
        ∀ c ∈ e.children, c.Throughout fun n => ∀ cause, ¬ Blocked cause n := by
      intro c hc
      obtain ⟨c', -, hc'⟩ := exists_right_of_forall₂ hcs c hc
      exact ih c hc hc'
    cases h with
    | lookup hargs hsampled =>
      refine Expr.throughout_iff.mpr ⟨?_, hbelow hargs⟩
      rintro cause ⟨_, _, heq, hnot⟩
      cases heq
      exact hsampled.not_unsampled hnot
    | other hcs he =>
      refine Expr.throughout_iff.mpr ⟨?_, hbelow hcs⟩
      rintro cause ⟨_, _, rfl, -⟩
      exact absurd he nofun

/-- No lookup is left to be resolved. -/
theorem Resolves.any_isSample (h : Resolves profile e e') : e'.any Expr.isSample = false := by
  induction e using Expr.induction_children generalizing e' with
  | h e ih =>
    have hbelow {cs : List Expr} (hcs : Forall₂ (Resolves profile) e.children cs) :
        ∀ c ∈ cs, c.any Expr.isSample = false := by
      intro c' hc'
      obtain ⟨c, hc, h⟩ := Stmt.exists_of_forall₂ hcs c' hc'
      exact ih c hc h
    rw [Expr.any_eq_false_iff]
    cases h with
    | lookup hargs _ hf =>
      refine ⟨?_, fun c hc => ?_⟩
      · -- The function of the lookup is another one.
        rw [Bool.eq_false_iff, ne_eq, Expr.isSample_iff]
        rintro ⟨_, _, heq⟩
        cases heq
        exact hf.resolved rfl
      · -- An argument that is added is a number, not another lookup.
        rcases List.mem_append.mp hc with hc | hc
        · exact hbelow hargs c hc
        · unfold addedBias at hc
          split at hc
          · rw [List.mem_singleton.mp hc]
            rfl
          · exact absurd hc List.not_mem_nil
    | other hcs he =>
      rw [Expr.isSample_withChildren, Expr.children_withChildren hcs.length_eq.symm]
      exact ⟨he, hbelow hcs⟩

/-! ### Programs -/

/-- Every expression of a program is resolved, or its first blocked call is the one to blame. -/
theorem all_bottomUpM_resolves (profile : Profile) (p : Program) :
    p.All fun e => (Judgement.blaming fun cause => ∃ depth n, p.HoldsAt depth (.expr n) ∧
      Blocked cause n).Holds (Resolves profile e) (e.bottomUpM (resolveNode profile)) := by
  have hall : p.All (Expr.Throughout fun n => ∀ cause, Blocked cause n →
      ∃ depth n, p.HoldsAt depth (.expr n) ∧ Blocked cause n) :=
    Program.all_throughout_iff.mpr fun depth e he cause hcause => ⟨depth, e, he, hcause⟩
  exact hall.mono fun e => bottomUpM_resolves

/-- No lookup of a program is left to be resolved. -/
theorem all_any_isSample (h : legalize profile p = .ok p') :
    p'.All fun e => e.any Expr.isSample = false := by
  have hwalk (e : Expr) :
      Yields (fun e' => e'.any Expr.isSample = false) (e.bottomUpM (resolveNode profile)) := by
    have hresolves : (Judgement.blaming fun _ => True).Holds (Resolves profile e)
        (e.bottomUpM (resolveNode profile)) := bottomUpM_resolves fun _ _ _ _ _ => trivial
    exact .of_forall_ok fun e' he' => (hresolves.1 e' he').any_isSample
  exact (Program.mapExprsM_yields (fun e _ => hwalk e) (p.meets_anything.all rfl)).of_ok h

/-- The lookups of a program are all resolved, and nothing else of it is changed, unless something
    is wrong with one of them. The causes of failure are those of malformed programs. -/
theorem legalize_resolves (profile : Profile) (p : Program) :
    ((∃ cause, legalize profile p = .error cause) ↔
      ∃ depth e cause, p.HoldsAt depth (.expr e) ∧ Blocked cause e) ∧
    (∀ cause, legalize profile p = .error cause →
      ∃ depth e, p.HoldsAt depth (.expr e) ∧ Blocked cause e) ∧
    ∀ p', legalize profile p = .ok p' →
      (∀ depth e, p'.HoldsAt depth (.expr e) → e.isSample = false) ∧
      (∃ g, p' = p.mapExprs g ∧ p.All fun e => Resolves profile e (g e)) ∧
      ∀ profile', legalize profile' p' = .ok p' := by
  have hnodes := all_bottomUpM_resolves profile p
  have hblames (cause : Malformation) (h : legalize profile p = .error cause) :
      ∃ depth e, p.HoldsAt depth (.expr e) ∧ Blocked cause e :=
    Program.mapExprsM_blames (hnodes.mono fun _ he => he.2) h
  have hresolves {p' : Program} (h : legalize profile p = .ok p') :
      ∃ g, p' = p.mapExprs g ∧ p.All fun e => Resolves profile e (g e) := by
    obtain ⟨g, hg, hall⟩ := Program.mapExprsM_eq_ok_iff.mp h
    exact ⟨g, hg, hnodes.imp₂ hall fun e he => he.1 (g e)⟩
  refine ⟨⟨?_, ?_⟩, hblames, fun p' h => ⟨?_, hresolves h, fun profile' => ?_⟩⟩
  · rintro ⟨cause, h⟩
    obtain ⟨depth, e, he, hcause⟩ := hblames cause h
    exact ⟨depth, e, cause, he, hcause⟩
  · rintro ⟨depth, e, cause, he, hcause⟩
    cases h : legalize profile p with
    | error cause => exact ⟨cause, rfl⟩
    | ok p' =>
      -- The walk got to the end, so every lookup was resolved, this one too.
      obtain ⟨g, -, hall⟩ := hresolves h
      have hfree := Program.all_throughout_iff.mp (hall.mono fun _ he => he.not_blocked)
      exact absurd hcause (hfree depth e he cause)
  · exact Program.all_throughout_iff.mp
      ((all_any_isSample h).mono fun _ => Expr.throughout_iff_any.mpr)
  · -- Without lookups there is nothing to do, whatever the profile.
    exact Program.mapExprsM_eq_pure
      ((all_any_isSample h).mono fun _ => Expr.bottomUpM_eq_pure fun _ => resolveNode_eq_pure)

/-- A lookup inside the coordinate of a projective one. -/
example :
    let coord := Expr.ofVar "x" .float
    let row := Expr.ofVar "row" (.sampler .d1)
    let map := Expr.ofVar "map" (.sampler .d2)
    let lookup (f : Intrinsic) (args : List Expr) := Expr.call (.vec 4) (.intrinsic f) args
    let program (e : Expr) : Program := ⟨.fragment, [.function (.entry [.returnWith (some e)])]⟩
    legalize { generation := .v110, sharpensMipmaps := true }
        (program (lookup .sample [map, .ofSwizzle (lookup .sample [row, coord]) [.x, .y, .z]])) =
      .ok (program (lookup .texture2DProj
        [map, .ofSwizzle (lookup .texture1D [row, coord, .float .minusHalf]) [.x, .y, .z],
          .float .minusHalf])) :=
  rfl

end Legalize.TextureLookup

end ShaderGen
