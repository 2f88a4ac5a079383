import ShaderGen.Proofs.Semantics.Evaluation
import ShaderGen.Swizzle.Normalize

/-!
# What swizzle masks pick

A mask picks from any list, of values as well as of lanes: `Selector.pick` says what one selector
picks. Picking twice is picking once with the composed mask (`Mask.map_pick_compose?`), an identity
mask picks what is there (`Mask.map_pick_of_isIdentity`), and the mask that `Mask.restoring` makes
undoes the sorting of lanes and constants (`Mask.map_pick_restoring`). `Mask.Fits` says when a mask
can be applied to a value of some type.
-/

namespace ShaderGen

variable {β : Type}

namespace Ty

/-- Whether the type is a scalar or a vector of two to four components. -/
def isScalarOrVector (ty : Ty) : Bool :=
  match ty.shape with
  | .scalar _ => true
  | .vector _ size => 2 ≤ size && size ≤ 4
  | _ => false

/-- Type of what a mask of some length selects from a value of the type. -/
def selected (ty : Ty) (count : Nat) : Ty := .withComponents ty.componentKind count ty.precision

/-- Types are built with the kind that was asked for. -/
@[simp] theorem componentKind_withComponents (kind : ScalarKind) (n : Nat) (p : Precision) :
    (withComponents kind n p).componentKind = kind := by
  unfold withComponents
  split <;> rfl

/-- They are built with the precision that was asked for. -/
@[simp] theorem precision_withComponents (kind : ScalarKind) (n : Nat) (p : Precision) :
    (withComponents kind n p).precision = p := by
  unfold withComponents
  split <;> rfl

/-- Only the last selection counts. -/
@[simp] theorem selected_selected (ty : Ty) (m n : Nat) :
    (ty.selected m).selected n = ty.selected n := by
  simp [selected]

/-- A selection has as many lanes as selectors. -/
theorem laneCount_selected (ty : Ty) {n : Nat} (h : 1 ≤ n) (h4 : n ≤ 4) :
    (ty.selected n).laneCount = n := by
  unfold selected withComponents
  split
  · exact (show 1 = n by omega)
  · exact Nat.mod_eq_of_lt (by omega)

/-- A selection is a scalar or a vector. -/
theorem isScalarOrVector_selected (ty : Ty) {n : Nat} (h4 : n ≤ 4) :
    (ty.selected n).isScalarOrVector = true := by
  unfold selected withComponents
  split
  · rfl
  · simp only [isScalarOrVector, vector, Bool.and_eq_true, decide_eq_true_eq]
    omega

variable {ty : Ty}

/-- A scalar or a short vector is what its own components make. -/
theorem selected_laneCount (h : ty.isScalarOrVector = true) : ty.selected ty.laneCount = ty := by
  obtain ⟨shape, p⟩ := ty
  cases shape with
  | scalar kind => rfl
  | vector kind size =>
    -- The size of a vector fits the byte that counts components.
    simp only [isScalarOrVector, Bool.and_eq_true, decide_eq_true_eq] at h
    show withComponents kind size p = _
    rw [withComponents, if_neg (by omega), Nat.mod_eq_of_lt (by omega), vector]
  | _ => simp [isScalarOrVector] at h

/-- Scalars and vectors can be swizzled up to their width. -/
theorem swizzleWidth?_eq (h : ty.isScalarOrVector = true) :
    ty.swizzleWidth? = some ty.laneCount := by
  obtain ⟨shape, p⟩ := ty
  cases shape <;> first | rfl | simp [isScalarOrVector] at h

/-- A scalar has one lane. -/
theorem laneCount_of_isScalar (h : ty.isScalar = true) : ty.laneCount = 1 := by
  obtain ⟨shape, p⟩ := ty
  cases shape <;> first | rfl | simp [isScalar] at h

/-- No scalar or vector has more than four lanes. -/
theorem laneCount_le (h : ty.isScalarOrVector = true) : ty.laneCount ≤ 4 := by
  obtain ⟨shape, p⟩ := ty
  cases shape with
  | scalar kind => exact (show 1 ≤ 4 by omega)
  | vector kind size =>
    simp only [isScalarOrVector, Bool.and_eq_true, decide_eq_true_eq] at h
    exact h.2
  | _ => simp [isScalarOrVector] at h

end Ty

/-- The mask can be applied to a value of type `base`, giving one of type `ty`: it has one to four
    selectors, none past the end of the value. What is written to takes lanes only, each once. -/
structure Mask.Fits (mask : Mask) (target : Bool) (base ty : Ty) : Prop where
  derived : ty = base.selected mask.length
  base_ok : base.isScalarOrVector = true
  nonempty : 1 ≤ mask.length
  short : mask.length ≤ 4
  inRange : ∀ s ∈ mask, s.reachesPast base.laneCount = false
  writable : target = true → mask.Nodup ∧ ∀ s ∈ mask, s.isLiteral = false

instance (mask : Mask) (target : Bool) (base ty : Ty) : Decidable (mask.Fits target base ty) :=
  decidable_of_iff
    (ty = base.selected mask.length ∧ base.isScalarOrVector = true ∧ 1 ≤ mask.length ∧
      mask.length ≤ 4 ∧ (∀ s ∈ mask, s.reachesPast base.laneCount = false) ∧
      (target = true → mask.Nodup ∧ ∀ s ∈ mask, s.isLiteral = false))
    ⟨fun ⟨h₁, h₂, h₃, h₄, h₅, h₆⟩ => ⟨h₁, h₂, h₃, h₄, h₅, h₆⟩,
      fun ⟨h₁, h₂, h₃, h₄, h₅, h₆⟩ => ⟨h₁, h₂, h₃, h₄, h₅, h₆⟩⟩

namespace Mask.Fits

variable {mask : Mask} {t : Bool} {base ty : Ty}

/-- The result of a fitting swizzle is a scalar or a vector. -/
theorem result_ok (h : mask.Fits t base ty) : ty.isScalarOrVector = true :=
  h.derived ▸ Ty.isScalarOrVector_selected base h.short

/-- It has a lane for each selector. -/
theorem length_eq (h : mask.Fits t base ty) : mask.length = ty.laneCount :=
  h.derived ▸ (base.laneCount_selected h.nonempty h.short).symm

/-- It has the kind of the base. -/
theorem kind_eq (h : mask.Fits t base ty) : ty.componentKind = base.componentKind := by
  simp [h.derived, Ty.selected]

/-- What can be written through can be read through. -/
theorem read (h : mask.Fits t base ty) : mask.Fits false base ty := { h with writable := nofun }

end Mask.Fits

/-! ### What masks pick -/

namespace Selector

variable {s : Selector} {n : Nat}

/-- A selector is no literal if it selects a lane. -/
theorem isLiteral_eq_false : s.isLiteral = false ↔ ∃ lane, s.lane? = some lane := by
  cases s <;> simp [isLiteral, lane?]

/-- A selected lane is not past the end. -/
theorem lane_lt {lane : Nat} (h : s.reachesPast n = false) (hs : s.lane? = some lane) :
    lane < n := by
  simpa [reachesPast, hs] using h

/-- A literal reaches no lane. -/
theorem reachesPast_of_isLiteral (h : s.isLiteral = true) : s.reachesPast n = false := by
  cases s <;> simp [isLiteral, lane?, reachesPast] at h ⊢

end Selector

/-- The selectors of a mask that pick lanes, in order. -/
def Mask.lanes (mask : Mask) : Mask := mask.filter fun s => !s.isLiteral

/-- The selectors of a mask that stand for constants, in order. -/
def Mask.literals (mask : Mask) : Mask := mask.filter Selector.isLiteral

/-- What a selector over a masked value selects from the value itself. -/
def Selector.through? (inner : Mask) (s : Selector) : Option Selector :=
  match s.lane? with
  | some lane => inner[lane]?
  | none => some s

namespace Mask

variable (d : β) (literal : Bool → β) (xs : List β)

section

variable {s : Selector} {mask : Mask}

/-- A lane is kept among the lanes. -/
theorem lanes_cons (hs : s.isLiteral = false) : lanes (s :: mask) = s :: mask.lanes := by
  simp [lanes, hs]

/-- A literal is not. -/
theorem lanes_cons_of_isLiteral (hs : s.isLiteral = true) : lanes (s :: mask) = mask.lanes := by
  simp [lanes, hs]

/-- A lane is not among the literals. -/
theorem literals_cons (hs : s.isLiteral = false) : literals (s :: mask) = mask.literals := by
  simp [literals, hs]

/-- A literal is kept among them. -/
theorem literals_cons_of_isLiteral (hs : s.isLiteral = true) :
    literals (s :: mask) = s :: mask.literals := by
  simp [literals, hs]

/-- A mask sorted into lanes and constants has all its selectors. -/
theorem length_lanes_add_literals (mask : Mask) :
    mask.lanes.length + mask.literals.length = mask.length := by
  induction mask with
  | nil => rfl
  | cons s mask ih =>
    -- The selector is counted among the literals or among the lanes.
    cases hs : s.isLiteral with
    | true =>
      rw [lanes_cons_of_isLiteral hs, literals_cons_of_isLiteral hs, List.length_cons,
        List.length_cons]
      omega
    | false =>
      rw [lanes_cons hs, literals_cons hs, List.length_cons, List.length_cons]
      omega

end

/-- Composed masks send each selector through the inner mask. -/
theorem compose?_eq_mapM (inner outer : Mask) :
    inner.compose? outer = outer.mapM (Selector.through? inner) := rfl

/-- Picking through the inner mask is picking twice. -/
theorem pick_through? {inner : Mask} {s c : Selector} (h : s.through? inner = some c) :
    s.pick d literal (inner.map (Selector.pick d literal xs)) = c.pick d literal xs := by
  unfold Selector.through? at h
  -- A constant picks itself, and a lane what the inner mask picks there.
  cases hs : s.lane? with
  | none =>
    rw [hs] at h
    cases h
    simp [Selector.pick, hs]
  | some lane =>
    rw [hs] at h
    simp [Selector.pick, hs, List.getD_eq_getElem?_getD, h]

/-- Picking twice is picking once with the composed mask. -/
theorem map_pick_compose? {inner outer composed : Mask} (h : inner.compose? outer = some composed) :
    outer.map (Selector.pick d literal (inner.map (Selector.pick d literal xs))) =
      composed.map (Selector.pick d literal xs) := by
  rw [compose?_eq_mapM] at h
  induction outer generalizing composed with
  | nil =>
    cases h
    rfl
  | cons s outer ih =>
    simp only [List.mapM_cons, Option.bind_eq_bind, Option.bind_eq_some_iff, Option.pure_def,
      Option.some.injEq] at h
    -- The composed mask is composed selector by selector.
    obtain ⟨c, hc, rest, hrest, rfl⟩ := h
    rw [List.map_cons, List.map_cons, ih hrest, pick_through? d literal xs hc]

/-- A selector that is not past the inner mask goes through it. -/
theorem exists_through? {inner : Mask} {s : Selector} (h : s.reachesPast inner.length = false) :
    ∃ c, s.through? inner = some c ∧ (c ∈ inner ∨ c = s ∧ c.isLiteral = true) := by
  unfold Selector.through?
  cases hs : s.lane? with
  | none => exact ⟨s, rfl, .inr ⟨rfl, by simp [Selector.isLiteral, hs]⟩⟩
  | some lane =>
    have hlt := Selector.lane_lt h hs
    exact ⟨inner[lane], List.getElem?_eq_getElem hlt, .inl (List.getElem_mem hlt)⟩

/-- A mask that does not reach past the inner one composes with it. -/
theorem exists_compose? {inner outer : Mask}
    (h : ∀ s ∈ outer, s.reachesPast inner.length = false) :
    ∃ composed, inner.compose? outer = some composed ∧ composed.length = outer.length ∧
      ∀ c ∈ composed, c ∈ inner ∨ c ∈ outer ∧ c.isLiteral = true := by
  simp only [compose?_eq_mapM]
  induction outer with
  | nil => exact ⟨[], rfl, rfl, by simp⟩
  | cons s outer ih =>
    obtain ⟨rest, hrest, hlen, hmem⟩ := ih fun s' hs' => h s' (List.mem_cons_of_mem s hs')
    obtain ⟨c, hc, hfrom⟩ := exists_through? (h s List.mem_cons_self)
    refine ⟨c :: rest, by rw [List.mapM_cons, hc, hrest]; rfl, by simp [hlen], ?_⟩
    intro c' hc'
    -- A composed selector comes from the inner mask, unless it is a constant of the outer one.
    rcases List.mem_cons.mp hc' with rfl | hc'
    · exact hfrom.imp_right fun ⟨heq, hlit⟩ => ⟨heq ▸ List.mem_cons_self, hlit⟩
    · exact (hmem c' hc').imp_right fun ⟨ho, hlit⟩ => ⟨List.mem_cons_of_mem s ho, hlit⟩

/-- A mask over a mask of lanes becomes one of the same length, with constants where there were
    some. -/
theorem shape_of_compose? {inner mask composed : Mask}
    (hinner : inner.any Selector.isLiteral = false) (h : inner.compose? mask = some composed) :
    composed.length = mask.length ∧
      composed.any Selector.isLiteral = mask.any Selector.isLiteral := by
  rw [compose?_eq_mapM] at h
  induction mask generalizing composed with
  | nil =>
    cases h
    exact ⟨rfl, rfl⟩
  | cons s mask ih =>
    simp only [List.mapM_cons, Option.bind_eq_bind, Option.bind_eq_some_iff, Option.pure_def,
      Option.some.injEq] at h
    obtain ⟨c, hc, rest, hrest, rfl⟩ := h
    obtain ⟨hlen, hany⟩ := ih hrest
    -- A lane goes to what the inner mask selects there, which is no literal.
    have hfirst : c.isLiteral = s.isLiteral := by
      unfold Selector.through? at hc
      -- The selector is a literal, which stays itself, or a lane of the inner mask.
      cases hlane : s.lane? with
      | none =>
        rw [hlane] at hc
        cases hc
        rfl
      | some lane =>
        rw [hlane] at hc
        have hmem : c ∈ inner := List.mem_of_getElem? hc
        have hno : c.isLiteral = false := by simpa using List.any_eq_false.mp hinner c hmem
        rw [hno]
        simp [Selector.isLiteral, hlane]
    rw [List.length_cons, List.length_cons, List.any_cons, List.any_cons, hlen, hany, hfirst]
    exact ⟨rfl, rfl⟩

/-- Only a mask of that length is the identity. -/
theorem length_of_isIdentity {mask : Mask} {n : Nat} (h : mask.isIdentity n = true) :
    mask.length = n := by
  rw [isIdentity, beq_iff_eq] at h
  simpa using congrArg List.length h

/-- An identity mask picks what is there. -/
theorem map_pick_of_isIdentity {mask : Mask} {n : Nat} (h : mask.isIdentity n = true)
    (hxs : xs.length = n) : mask.map (Selector.pick d literal xs) = xs := by
  have hlen := length_of_isIdentity h
  rw [isIdentity, beq_iff_eq] at h
  refine List.ext_getElem (by simp [hlen, hxs]) fun i hi hi' => ?_
  have hmask : i < mask.length := by omega
  -- The identity selects at each place the lane of that place.
  have hlane : mask[i].lane? = some i := by
    have hget := List.getElem_of_eq h (i := i) (by simpa using hmask)
    simpa using hget
  simp [Selector.pick, hlane, List.getD_eq_getElem?_getD, hi']

/-- The lane after those gone past is the next of a list of lanes. -/
theorem pick_ofLane {all rest : List β} {v : β} {n : Nat} (h : v :: rest <+: all.drop n)
    (h4 : all.length ≤ 4) :
    (Selector.ofLane n).pick d literal all = v ∧ rest <+: all.drop (n + 1) := by
  obtain ⟨tail, htail⟩ := h
  -- The value stands at the place, so the place is within the list.
  have hn : n < all.length := by
    by_contra hge
    rw [List.drop_eq_nil_of_le (by omega)] at htail
    simp at htail
  rw [List.drop_eq_getElem_cons hn, List.cons_append, List.cons.injEq] at htail
  obtain ⟨hv, hrest⟩ := htail
  refine ⟨?_, tail, hrest⟩
  unfold Selector.pick
  rw [Selector.lane?_ofLane (by omega)]
  simp [List.getD_eq_getElem?_getD, hn, hv]

/-- The restoring mask puts selected lanes and constants back into the order of the mask, wherever
    in a value of up to four components the two stand. -/
theorem map_pick_restoring {mask : Mask} {all : List β} (lanes literals : Nat)
    (hlanes : mask.lanes.map (Selector.pick d literal xs) <+: all.drop lanes)
    (hliterals : mask.literals.map (Selector.pick d literal xs) <+:
      all.drop literals) (h4 : all.length ≤ 4) :
    (mask.restoring lanes literals).map (Selector.pick d literal all) =
      mask.map (Selector.pick d literal xs) := by
  induction mask generalizing lanes literals with
  | nil => rfl
  -- Lanes and literals are taken from their own places, each counted on its own.
  | cons s mask ih =>
    cases hs : s.isLiteral with
    | true =>
      rw [lanes_cons_of_isLiteral hs] at hlanes
      rw [literals_cons_of_isLiteral hs, List.map_cons] at hliterals
      obtain ⟨hv, hrest⟩ := pick_ofLane d literal hliterals h4
      simp only [restoring, hs, if_true, List.map_cons, hv]
      rw [ih lanes (literals + 1) hlanes hrest]
    | false =>
      rw [lanes_cons hs, List.map_cons] at hlanes
      rw [literals_cons hs] at hliterals
      obtain ⟨hv, hrest⟩ := pick_ofLane d literal hlanes h4
      simp only [restoring, hs, Bool.false_eq_true, if_false, List.map_cons, hv]
      rw [ih (lanes + 1) literals hrest hliterals]

/-- Restoring the order takes one selector for each. -/
@[simp] theorem length_restoring (mask : Mask) (lanes literals : Nat) :
    (mask.restoring lanes literals).length = mask.length := by
  induction mask generalizing lanes literals with
  | nil => rfl
  | cons s mask ih =>
    unfold restoring
    split <;> simp [ih]

/-- The restoring mask has lanes only, and none past the last that it counts. -/
theorem lane_of_mem_restoring {mask : Mask} {lanes literals n : Nat} {c : Selector}
    (hc : c ∈ mask.restoring lanes literals)
    (hlanes : lanes + mask.lanes.length ≤ n)
    (hliterals : literals + mask.literals.length ≤ n) :
    ∃ i < n, c = .ofLane i := by
  induction mask generalizing lanes literals with
  | nil => simp [restoring] at hc
  | cons s mask ih =>
    -- A restored literal is numbered by the literals so far, a restored lane by the lanes so far.
    cases hs : s.isLiteral with
    | true =>
      rw [lanes_cons_of_isLiteral hs] at hlanes
      rw [literals_cons_of_isLiteral hs, List.length_cons] at hliterals
      simp only [restoring, hs, if_true, List.mem_cons] at hc
      rcases hc with rfl | hc
      · exact ⟨literals, by omega, rfl⟩
      · exact ih hc hlanes (by omega)
    | false =>
      rw [lanes_cons hs, List.length_cons] at hlanes
      rw [literals_cons hs] at hliterals
      simp only [restoring, hs, Bool.false_eq_true, if_false, List.mem_cons] at hc
      rcases hc with rfl | hc
      · exact ⟨lanes, by omega, rfl⟩
      · exact ih hc (by omega) hliterals

end Mask

end ShaderGen
