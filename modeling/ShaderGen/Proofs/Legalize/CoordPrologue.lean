import ShaderGen.Legalize.FragCoord
import ShaderGen.Proofs.Semantics.Lanewise

/-!
# What prologues compute

The prologue of a function puts the fragment coordinate into a local variable: measured from the
other side of the render target, or computed from the clip position that the vertex stage passes
on. Its statements read variables that functions share, as long as no parameter hides them, so that
the local comes to hold what the machine's arithmetic makes of these.

## Main definitions

- `Machine.Floats`: a machine with the arithmetic of floats that prologues use
- `flippedCoords`, `resolvedCoords`: what the two prologues compute
- `Prologue.Prepares`: how a prologue ends

## Key results

- `flipped_prepares`, `resolved_prepares`
-/

namespace ShaderGen

variable {α : Type}

/-- A machine that computes with floats lane by lane, whatever the precision. A scalar that a vector
    is multiplied by goes with every lane. -/
structure Machine.Floats (m : Machine α) (ops : ScalarOps α) : Prop where
  lanes {op : BinaryOp} (hop : op ∈ [BinaryOp.add, .sub, .mul, .div]) {s t : Ty}
    (hs : s.isLanes .float = true) (hshape : t.shape = s.shape) {as bs : List α}
    (has : as.length = s.laneCount) (hbs : bs.length = s.laneCount) :
    m.binary op s as t bs = List.zipWith (ops.binary op .float) as bs
  scaled {s t : Ty} (hs : s.isLanes .float = true) (ht : t.shape = .scalar .float) {as : List α}
    (has : as.length = s.laneCount) (b : α) :
    m.binary .mul s as t [b] = as.map fun a => ops.binary .mul .float a b
  floor {ty : Ty} (h : ty.isLanes .float = true) {vs : List α} (hvs : vs.length = ty.laneCount) :
    m.intrinsic .floor [(ty, vs)] = vs.map (ops.function .floor .float)

/-- Pairing each of a list with one value is a map. -/
theorem zipWith_replicate_right {β γ δ : Type} (f : β → γ → δ) (bs : List β) (c : γ) :
    List.zipWith f bs (List.replicate bs.length c) = bs.map fun b => f b c := by
  rw [List.zipWith_comm, zipWith_replicate_left]

/-- A machine that is given operations has them on floats. -/
theorem Machine.floats_withOps (m : Machine α) (ops : ScalarOps α) :
    (m.withOps ops).Floats ops where
  lanes := by
    intro op hop s t hs hshape as bs has hbs
    have hlength : max as.length bs.length = s.laneCount := by rw [has, hbs, Nat.max_self]
    show List.zipWith (ops.binary op t.componentKind) (spread _ as) (spread _ bs) = _
    rw [hlength, spread_of_length has, spread_of_length hbs,
      Ty.componentKind_of_isLanes (Ty.isLanes_of_shape hs hshape)]
  scaled := by
    intro s t hs ht as has b
    -- The scalar is spread to as many lanes as the vector has.
    have hpos : 1 ≤ as.length := by
      rw [has, Ty.laneCount]
      obtain hs | ⟨n, hlow, -, hs⟩ := Ty.isLanes_iff.mp hs <;> rw [hs]
      · exact Nat.le_refl 1
      · exact Nat.le_of_succ_le hlow
    have ht : t.isLanes .float = true := Ty.isLanes_iff.mpr (.inl ht)
    show List.zipWith (ops.binary .mul t.componentKind) (spread (max as.length 1) as)
      (spread (max as.length 1) [b]) = _
    rw [Nat.max_eq_left hpos, spread_of_length rfl, spread, zipWith_replicate_right,
      Ty.componentKind_of_isLanes ht]
  floor := by
    intro ty h vs hvs
    show vs.map (ops.function .floor ty.componentKind) = _
    rw [Ty.componentKind_of_isLanes h]

/-! ### Behaviours that end in one way -/

namespace Behaviour

variable {β : Type} {A B : Behaviour α} {σ ρ τ : State α}

/-- From a state a behaviour ends normally in another state, and in no other way. -/
def EndsIn (A : Behaviour α) (σ ρ : State α) : Prop := ∀ o τ, A σ o τ ↔ o = .normal ∧ τ = ρ

/-- Doing nothing ends in the state itself. -/
theorem EndsIn.skip (σ : State α) : EndsIn Behaviour.skip σ σ := fun _ _ => Iff.rfl

/-- What comes after such a behaviour starts where that ends. -/
theorem EndsIn.seq_iff (h : EndsIn A σ ρ) (o : Outcome α) (τ : State α) :
    Behaviour.seq A B σ o τ ↔ B ρ o τ := by
  constructor
  · rintro (⟨ρ', ha, hb⟩ | ⟨ho, ha⟩)
    · obtain ⟨-, rfl⟩ := (h _ _).mp ha
      exact hb
    · exact absurd ((h _ _).mp ha).1 ho
  · exact fun hb => .inl ⟨ρ, (h _ _).mpr ⟨rfl, rfl⟩, hb⟩

/-- What follows starts where the first part ends. -/
theorem EndsIn.followed {o : Outcome α} (h : EndsIn A σ ρ) (hb : B ρ o τ) :
    Behaviour.seq A B σ o τ := (h.seq_iff o τ).mpr hb

/-- Behaviours in a row end where the second one does. -/
theorem EndsIn.seq (h : EndsIn A σ ρ) (h' : EndsIn B ρ τ) : EndsIn (Behaviour.seq A B) σ τ :=
  fun o ρ' => (h.seq_iff o ρ').trans (h' o ρ')

/-- A declaration with an initial value. -/
theorem endsIn_declare {m : Machine α} (name : String) (ty : Ty) {e : Expr} {vs : List α}
    (h : (e.values m).run.run σ = some (.ok vs, σ)) :
    EndsIn ((Stmt.decl (.plain name ty (some e))).behaviour m) σ
      (σ.setLocal name (some fun i => vs.getD i m.undefined)) := by
  intro o τ
  show after (e.values m) _ σ o τ ↔ _
  unfold after
  rw [h]
  exact Iff.rfl

/-- An expression that is computed for what it does. -/
theorem endsIn_expr {m : Machine α} {e : Expr} {vs : List α}
    (h : (e.values m).run.run σ = some (.ok vs, ρ)) : EndsIn ((Stmt.expr e).behaviour m) σ ρ := by
  intro o τ
  show after (e.eval m) _ σ o τ ↔ _
  rw [after_eval]
  unfold after
  rw [h]
  exact Iff.rfl

end Behaviour

/-- A local that is set holds what it was set to. -/
theorem State.locals_setLocal_self (σ : State α) (name : String) (content : Option (Nat → α)) :
    (σ.setLocal name content).locals name = content := if_pos rfl

/-- Any other local holds what it held. -/
theorem State.locals_setLocal_of_ne {x name : String} (h : x ≠ name) (σ : State α)
    (content : Option (Nat → α)) : (σ.setLocal name content).locals x = σ.locals x := if_neg h

/-- A component of a local variable is written. -/
theorem State.write_local {σ : State α} {name : String} {content : Nat → α}
    (h : σ.locals name = some content) (lane : Nat) (value : α) :
    let τ := σ.write ⟨.named name, lane⟩ value
    τ.locals name = some (fun i => if i = lane then value else content i) ∧
      (∀ x, x ≠ name → τ.locals x = σ.locals x) ∧ τ.shared = σ.shared ∧
      τ.trace = σ.trace ++ [.write ⟨.named name, lane⟩ value] := by
  -- The name is a local one, so the write goes to the locals and is noted in the trace.
  have hwrite : σ.write ⟨.named name, lane⟩ value =
      (σ.setLocal name (some fun i => if i = lane then value else content i)).act
        (.write ⟨.named name, lane⟩ value) := by
    unfold State.write
    simp only [h]
  intro τ
  rw [show τ = _ from hwrite]
  exact ⟨locals_setLocal_self σ name _, fun x hx => locals_setLocal_of_ne hx σ _, rfl, rfl⟩

namespace Legalize.FragCoord

open Behaviour

variable {m : Machine α} {ops : ScalarOps α} {σ : State α}

/-- Names that start like those that coordinates are computed with. -/
def isCoordName (name : String) : Bool := flippedName.toList.isPrefixOf name.toList

/-- `(x, h - y, z, w)` for the built-in coordinate and the height of the render target. -/
def flippedCoords (ops : ScalarOps α) (shared : Variable → Nat → α) : List α :=
  let coord := shared (.builtin .fragCoord)
  [coord 0, ops.binary .sub .float (shared (.named TargetSize.heightName) 0) (coord 1), coord 2,
    coord 3]

/-- `floor(v) + 0.5` -/
def center (m : Machine α) (ops : ScalarOps α) (v : α) : α :=
  ops.binary .add .float (ops.function .floor .float v) (m.literal (.float .half))

/-- `(floor(x * i) + 0.5, floor(y * i) + 0.5, z * i, i)` with `i = 1.0 / w`, for the clip position
    that is passed on. -/
def resolvedCoords (m : Machine α) (ops : ScalarOps α) (shared : Variable → Nat → α) : List α :=
  let clip := shared (.named varyingName)
  let inverse := ops.binary .div .float (m.literal (.float .one)) (clip 3)
  let scaled (lane : Nat) := ops.binary .mul .float (clip lane) inverse
  [center m ops (scaled 0), center m ops (scaled 1), scaled 2, inverse]

/-- A local variable has the components of a coordinate. -/
def HoldsCoords (name : String) (coords : List α) (σ : State α) : Prop :=
  ∃ content, σ.locals name = some content ∧ (List.range 4).map content = coords

/-- A prologue comes to its end in a state in which its local has the components of a coordinate. It
    declares no variables but its own and writes nothing but the local. -/
structure Prologue.Prepares (prologue : Prologue) (m : Machine α) (coords : List α)
    (σ ρ : State α) : Prop where
  ends : EndsIn (Stmt.listBehaviour m prologue.statements) σ ρ
  shared : ρ.shared = σ.shared
  locals (x : String) (hx : isCoordName x = false) : ρ.locals x = σ.locals x
  trace : ∃ actions, ρ.trace = σ.trace ++ actions ∧
    ∀ a ∈ actions, ∃ lane value, a = .write ⟨.named prologue.holder, lane⟩ value
  holds : HoldsCoords prologue.holder coords ρ

/-- The names for the coordinate are none of the others. -/
theorem ne_of_isCoordName {x name : String} (hx : isCoordName x = false)
    (hname : isCoordName name = true) : x ≠ name := by
  rintro rfl
  rw [hx] at hname
  cases hname

/-- A name that is no local is read from what is shared. -/
theorem read_of_locals_none {name : String} (h : σ.locals name = none) :
    σ.read (.named name) = σ.shared (.named name) := by
  show (σ.locals name).getD _ = _
  rw [h]
  rfl

/-- A local that is set is read. -/
theorem read_setLocal (σ : State α) (name : String) (content : Nat → α) :
    (σ.setLocal name (some content)).read (.named name) = content := by
  show ((σ.setLocal name (some content)).locals name).getD _ = _
  rw [State.locals_setLocal_self]
  rfl

/-- The prologue for the other side of the render target. -/
theorem flipped_prepares (hm : m.Floats ops) (hheight : σ.locals TargetSize.heightName = none) :
    ∃ ρ, flipped.Prepares m (flippedCoords ops σ.shared) σ ρ := by
  let coord (s : Selector) : Expr := .ofSwizzle (.ofBuiltin .fragCoord) [s]
  let c := σ.shared (.builtin .fragCoord)
  let fromOther := m.binary .sub .float [σ.read (.named TargetSize.heightName) 0] .float [c 1]
  have hvalues : ((Expr.ofConstruct (.vec 4) [coord .x,
      .ofBinary .sub TargetSize.height (coord .y), coord .z, coord .w]).values m).run.run σ =
        some (.ok ([c 0] ++ fromOther.takeD 1 m.undefined ++ [c 2, c 3]), σ) := rfl
  -- The height is shared, so it is the uniform that is read.
  have hsub : fromOther =
      [ops.binary .sub .float (σ.shared (.named TargetSize.heightName) 0) (c 1)] := by
    show m.binary .sub .float [σ.read (.named TargetSize.heightName) 0] .float [c 1] = _
    rw [read_of_locals_none hheight]
    exact hm.lanes (by simp) rfl rfl rfl rfl
  rw [hsub] at hvalues
  have hdeclare := endsIn_declare flippedName (.vec 4) hvalues
  refine ⟨_, hdeclare.seq (.skip _), rfl, fun x hx => ?_, ⟨[], by simp [State.setLocal], by simp⟩,
    _, State.locals_setLocal_self σ flippedName _, rfl⟩
  exact State.locals_setLocal_of_ne (ne_of_isCoordName hx (by decide)) σ _

/-- The first two components of the local that holds a coordinate computed from a clip position. -/
def pixel : Expr := .ofSwizzle (.ofVar resolvedName (.vec 4)) [.x, .y]

/-- The last statement of the other prologue moves the pixel to its center. -/
theorem endsIn_center (hm : m.Floats ops) {content : Nat → α}
    (h : σ.locals resolvedName = some content) :
    EndsIn ((Stmt.assign pixel (.ofBinary .add (.ofCall .floor [pixel])
        (.ofConstruct (.vec 2) [.float .half]))).behaviour m) σ
      ((σ.write ⟨.named resolvedName, 0⟩ (center m ops (content 0))).write
        ⟨.named resolvedName, 1⟩ (center m ops (content 1))) := by
  have hread : σ.read (.named resolvedName) = content := by
    show (σ.locals resolvedName).getD _ = _
    rw [h]
    rfl
  let old (lane : Nat) : Lane α :=
    ⟨σ.read (.named resolvedName) lane, some ⟨.named resolvedName, lane⟩⟩
  let floored : List α := m.intrinsic .floor [(.vec 2, [(old 0).value, (old 1).value])]
  let half : α := m.literal (.float .half)
  let centers : List α :=
    m.binary .add (.vec 2) (floored.takeD 2 m.undefined) (.vec 2) [half, half]
  -- What is added up in each component is computed from what the local held before.
  have hcenters : centers = [center m ops (content 0), center m ops (content 1)] := by
    have hfloor : floored = [ops.function .floor .float (content 0),
        ops.function .floor .float (content 1)] := hread ▸ hm.floor rfl rfl
    show m.binary .add (.vec 2) (floored.takeD 2 m.undefined) (.vec 2) [half, half] = _
    rw [hfloor]
    exact hm.lanes (by simp) rfl rfl rfl rfl
  have hvalues : ((Expr.assign pixel (.ofBinary .add (.ofCall .floor [pixel])
      (.ofConstruct (.vec 2) [.float .half]))).values m).run.run σ =
        some (.ok (centers.takeD 2 m.undefined),
          σ.store [old 0, old 1] (centers.takeD 2 m.undefined)) := rfl
  rw [hcenters] at hvalues
  exact endsIn_expr hvalues

/-- The prologue for the clip position that is passed on. -/
theorem resolved_prepares (hm : m.Floats ops) (hvarying : σ.locals varyingName = none) :
    ∃ ρ, resolved.Prepares m (resolvedCoords m ops σ.shared) σ ρ := by
  let clip := σ.shared (.named varyingName)
  let inverse := ops.binary .div .float (m.literal (.float .one)) (clip 3)
  let scaled := [ops.binary .mul .float (clip 0) inverse, ops.binary .mul .float (clip 1) inverse,
    ops.binary .mul .float (clip 2) inverse, inverse]
  have hclip : σ.read (.named varyingName) = clip := read_of_locals_none hvarying
  -- The inverse is declared first, and read by the second statement.
  have hinverse : m.binary .div .half [m.literal (.float .one)] .float [clip 3] = [inverse] :=
    hm.lanes (s := .half) (t := .float) (by simp) rfl rfl rfl rfl
  have hvalues : ((Expr.ofBinary .div (.float .one)
      (.ofSwizzle (.ofVar varyingName (.vec 4)) [.w])).values m).run.run σ =
        some (.ok ((m.binary .div .half [m.literal (.float .one)] .float
          [σ.read (.named varyingName) 3]).takeD 1 m.undefined), σ) := rfl
  rw [hclip, hinverse] at hvalues
  have hfirst := endsIn_declare inverseWName .float hvalues
  -- From here on the second statement is evaluated in the state with the inverse.
  let inner := σ.setLocal inverseWName (some fun i => [inverse].getD i m.undefined)
  have hclip' : inner.read (.named varyingName) = clip :=
    read_of_locals_none ((State.locals_setLocal_of_ne (by decide) σ _).trans hvarying)
  have hinverse' : inner.read (.named inverseWName) = fun i => [inverse].getD i m.undefined :=
    read_setLocal σ inverseWName _
  have hscaled : (m.binary .mul (.vec 3) [inner.read (.named varyingName) 0,
      inner.read (.named varyingName) 1, inner.read (.named varyingName) 2] .float
        [inner.read (.named inverseWName) 0]).takeD 3 m.undefined ++
      [inner.read (.named inverseWName) 0] = scaled := by
    rw [hclip', hinverse', hm.scaled rfl rfl rfl]
    rfl
  -- The constructor takes the three scaled lanes and the inverse behind them.
  have hvalues' : ((Expr.ofConstruct (.vec 4) [.ofBinary .mul
      (.ofSwizzle (.ofVar varyingName (.vec 4)) [.x, .y, .z]) (.ofVar inverseWName .float),
      .ofVar inverseWName .float]).values m).run.run inner = some (.ok scaled, inner) :=
    hscaled ▸ rfl
  have hsecond := endsIn_declare resolvedName (.vec 4) hvalues'
  -- The third statement writes two components of the variable that the second declares.
  let outer := inner.setLocal resolvedName (some fun i => scaled.getD i m.undefined)
  have hlocal : outer.locals resolvedName = some fun i => scaled.getD i m.undefined :=
    State.locals_setLocal_self inner resolvedName _
  have hthird := endsIn_center hm hlocal
  obtain ⟨hmiddle, hothers, hshared, htrace⟩ :=
    State.write_local hlocal 0 (center m ops (scaled.getD 0 m.undefined))
  obtain ⟨hend, hothers', hshared', htrace'⟩ :=
    State.write_local hmiddle 1 (center m ops (scaled.getD 1 m.undefined))
  rw [htrace, List.append_assoc] at htrace'
  refine ⟨_, hfirst.seq (hsecond.seq (hthird.seq (.skip _))), hshared'.trans hshared,
    fun x hx => ?_, ⟨_, htrace', by simp [resolved]⟩, _, hend, rfl⟩
  have hinner : x ≠ inverseWName := ne_of_isCoordName hx (by decide)
  have houter : x ≠ resolvedName := ne_of_isCoordName hx (by decide)
  rw [hothers' x houter, hothers x houter, State.locals_setLocal_of_ne houter,
    State.locals_setLocal_of_ne hinner]

end Legalize.FragCoord

end ShaderGen
