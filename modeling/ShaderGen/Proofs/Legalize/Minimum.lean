import ShaderGen.Legalize.MinAbs
import ShaderGen.Proofs.Semantics.Alike
import ShaderGen.Proofs.Semantics.Ordered
import ShaderGen.Proofs.Semantics.Tracking

/-!
# A minimum over two temporaries

Both operands are put into temporaries of their own, the second operand leaves the first temporary
alone, and so the comparison that follows finds there what the operands came to.

## Key results

- `tracks_compareTemps`: comparing the temporaries gives the minimum of the operands
-/

namespace ShaderGen

open List (Forall₂)
open ShaderGen.Legalize (MinAbs.lane MinAbs.lesser MinAbs.compareTemps)

variable {α : Type} {added : String → Bool}

/-! ### What a local holds -/

/-- A local holds the components of a value of the type. -/
def State.Contains (σ : State α) (x : String) (ty : Ty) (vs : List α) : Prop :=
  ∃ content, σ.locals x = some content ∧ (List.range ty.laneCount).map content = vs

namespace State

variable {σ τ : State α} {x : String} {ty : Ty} {vs : List α}

/-- A temporary that is not written keeps its content. -/
theorem Contains.keep {names : List String} (h : σ.Contains x ty vs) (hadded : added x = true)
    (hkeeps : σ.Keeps added names τ) (hx : x ∉ names) : τ.Contains x ty vs := by
  obtain ⟨content, hlocal, hcontent⟩ := h
  exact ⟨content, (hkeeps x hadded hx).trans hlocal, hcontent⟩

/-- Components that have no cell are not stored. -/
theorem store_of_no_cell {ls : List (Lane α)} (h : ∀ l ∈ ls, l.cell? = none) (vs : List α)
    (σ : State α) : σ.store ls vs = σ := by
  induction ls generalizing vs with
  | nil => cases vs <;> rfl
  | cons l ls ih =>
    obtain ⟨value, cell?⟩ := l
    obtain rfl : cell? = none := h _ List.mem_cons_self
    -- Without a cell the value is dropped.
    cases vs with
    | nil => rfl
    | cons v vs => exact ih (fun l hl => h l (List.mem_cons_of_mem _ hl)) vs

/-- Storing lanes of a local from a position on sets those. -/
theorem locals_store_lanes (content : Nat → α) {old : Nat → α} (hlocal : σ.locals x = some old)
    (vs : List α) (k : Nat) :
    (σ.store ((List.range' k vs.length).map fun i => ⟨content i, some ⟨.named x, i⟩⟩) vs).locals x =
      some fun i => if k ≤ i then vs.getD (i - k) (old i) else old i := by
  -- By induction on the values, from any position on and over any contents before.
  induction vs generalizing σ old k with
  | nil =>
    show σ.locals x = _
    simpa using hlocal
  | cons v vs ih =>
    have hwrite : (σ.write ⟨.named x, k⟩ v).locals x =
        some fun i => if i = k then v else old i := by
      unfold State.write
      dsimp only
      rw [hlocal]
      exact if_pos rfl
    show ((σ.write ⟨.named x, k⟩ v).store _ vs).locals x = _
    rw [ih hwrite (k + 1)]
    congr 1
    funext i
    -- The lane just written, a lane before it, or one after it.
    rcases Nat.lt_trichotomy i k with hi | rfl | hi
    · have hne : i ≠ k := by omega
      simp only [if_neg (show ¬ k + 1 ≤ i by omega), if_neg (show ¬ k ≤ i by omega), if_neg hne]
    · simp only [if_neg (show ¬ i + 1 ≤ i by omega), if_true, Nat.le_refl, Nat.sub_self,
        List.getD_cons_zero]
    · obtain ⟨j, rfl⟩ := Nat.exists_eq_add_of_lt hi
      have hne : k + j + 1 ≠ k := by omega
      have hsub : k + j + 1 - (k + 1) = j := by omega
      have hsub' : k + j + 1 - k = j + 1 := by omega
      simp only [if_pos (show k + 1 ≤ k + j + 1 by omega), if_pos (show k ≤ k + j + 1 by omega),
        if_neg hne, hsub, hsub', List.getD_cons_succ]

/-- After a store to it, a local has the values stored. -/
theorem contains_store (content : Nat → α) (hlocal : (σ.locals x).isSome = true)
    (hvs : vs.length = ty.laneCount) :
    (σ.store ((Variable.named x).lanes ty content) vs).Contains x ty vs := by
  obtain ⟨old, hold⟩ := Option.isSome_iff_exists.mp hlocal
  refine ⟨fun i => vs.getD i (old i), ?_, ?_⟩
  · have hstore := locals_store_lanes content hold vs 0
    simpa [Variable.lanes, List.range_eq_range', hvs] using hstore
  · rw [← hvs]
    refine List.ext_getElem (by simp) fun i hi hi' => ?_
    simp [hi']

end State

/-! ### Putting a value into a temporary -/

namespace Eval

/-- A variable that is only asked for its cells need not be read. -/
theorem load_bind {β : Type} {v : Variable} {ty : Ty} {k : List (Lane α) → Eval α β}
    (h : ∀ c c', k (v.lanes ty c) = k (v.lanes ty c')) (content : Nat → α) :
    (load v ty >>= k) = k (v.lanes ty content) := by
  refine ExceptT.ext (StateT.ext fun σ => ?_)
  show (k (v.lanes ty (σ.read v))).run.run σ = _
  rw [h (σ.read v) content]

/-- A store to all lanes does not depend on what was in them. -/
theorem store_lanes_congr (v : Variable) (ty : Ty) (c c' : Nat → α) (vs : List α) :
    store (v.lanes ty c) vs = store (v.lanes ty c') vs := by
  -- A store looks at the places of the lanes only.
  have hstate (is : List Nat) (σ : State α) :
      σ.store (is.map fun i => ⟨c i, some ⟨v, i⟩⟩) vs =
        σ.store (is.map fun i => ⟨c' i, some ⟨v, i⟩⟩) vs := by
    induction is generalizing vs σ with
    | nil => rfl
    | cons i is ih =>
      cases vs with
      | nil => rfl
      | cons w ws => exact ih ws _
  unfold store
  congr 1
  funext σ
  exact hstate _ σ

end Eval

namespace Expr

open Eval

/-- A value has the components that its type asks for. -/
theorem takeD_values (m : Machine α) (e : Expr) :
    (fun vs => vs.takeD e.ty.laneCount m.undefined) <$> e.values m = e.values m := by
  conv_rhs => rw [values, ← e.fit_eval m]
  simp [values]

/-- A value has as many lanes as its type. -/
theorem length_of_run {m : Machine α} {e : Expr} {σ τ : State α} {vs : List α}
    (h : (e.values m).run.run σ = some (.ok vs, τ)) : vs.length = e.ty.laneCount := by
  -- The values are cut or filled up to the count of the type.
  rw [← takeD_values, ExceptT.run_map, StateT.run_map] at h
  generalize (e.values m).run.run σ = r at h
  match r with
  | none => cases h
  | some (.error _, _) => cases h
  | some (.ok ws, _) =>
    cases h
    exact List.takeD_length ..

/-- An assignment to a variable as a whole stores a value there and has that value. -/
theorem values_assign_var (m : Machine α) (x : String) (e : Expr) (content : Nat → α) :
    (assign (.var e.ty x) e).values m = e.values m >>= fun vs =>
      store ((Variable.named x).lanes e.ty content) vs >>= fun _ => pure vs := by
  have heval : (assign (.var e.ty x) e).eval m =
      load (.named x) e.ty >>= fun target => e.values m >>= fun vs =>
        store target (vs.takeD e.ty.laneCount m.undefined) >>= fun _ =>
          pure (m.temporaries e.ty (vs.takeD e.ty.laneCount m.undefined)) := rfl
  -- Cutting to the count of the type twice is the same as once.
  have htwice (vs : List α) :
      (vs.takeD e.ty.laneCount m.undefined).takeD e.ty.laneCount m.undefined =
        vs.takeD e.ty.laneCount m.undefined := takeD_of_length _ (List.takeD_length ..)
  -- What the target holds before the write does not matter.
  rw [values, heval, load_bind _ content, ← takeD_values m e]
  · simp [map_bind, htwice]
  · intro c c'
    simp only [store_lanes_congr _ _ c c']

end Expr

/-- Storing a value in an added local is not seen. -/
theorem State.Tracked.store_local {before : List (Action α)} {names : List String}
    {start σ σ' : State α} {x : String} (h : State.Tracked added before names start σ σ')
    (hx : x ∈ names) (ty : Ty) (content : Nat → α) (vs : List α) :
    State.Tracked added before names start σ
      (σ'.store ((Variable.named x).lanes ty content) vs) := by
  let bare := ((Variable.named x).lanes ty content).map fun l => (⟨l.value, none⟩ : Lane α)
  have hlanes : Forall₂ (Lane.Tracks added names) bare ((Variable.named x).lanes ty content) := by
    rw [List.forall₂_map_left_iff]
    refine List.forall₂_same.mpr fun l hl => ?_
    obtain ⟨i, -, rfl⟩ := List.mem_map.mp hl
    exact .lost _ _ fun cell hcell => ⟨x, hx, by rw [← Option.some.inj hcell]⟩
  -- On the left nothing is stored, as a value without a place has nowhere to go.
  have hbare : ∀ l ∈ bare, l.cell? = none := by
    intro l hl
    obtain ⟨l', -, rfl⟩ := List.mem_map.mp hl
    rfl
  have hstore := h.store hlanes vs
  rwa [State.store_of_no_cell hbare] at hstore

namespace Expr

open Eval

variable {m m' : Machine α} {names big : List String} {x : String} {e e' : Expr}

/-- Putting a value into a temporary is like computing it; what does not depend on the temporaries
    that are written stays true. -/
theorem relates_assign (h : e.Tracks added m m' names e') (hnames : ∀ y ∈ names, y ∈ big)
    (hx : x ∈ big) {F : State α → Prop}
    (hF : ∀ ρ τ : State α, ρ.Keeps added (x :: names) τ → F ρ → F τ) (before : List (Action α))
    (start : State α) :
    Relates (State.Tracked added before big start)
      (fun σ σ' => State.Tracked added before big start σ σ' ∧ F σ')
      (fun vs vs' τ τ' => (vs' = vs ∧ vs.length = e.ty.laneCount) ∧
        State.Tracked added before big start τ τ' ∧ F τ' ∧ τ'.Contains x e.ty vs)
      (e.values m) ((assign (.var e.ty x) e').values m') := by
  have hvalues := (h.values.frame hnames (F := F)
    (fun ρ τ hkeeps => hF ρ τ (hkeeps.mono fun y => List.mem_cons_of_mem x)) before start).of_left
    fun σ vs τ => length_of_run
  rw [← bind_pure (e.values m), ← h.ty_eq, values_assign_var m' x e' fun _ => m.undefined, h.ty_eq]
  refine hvalues.bind fun vs vs' => ?_
  -- What is left is to store the value. No other variable changes by that.
  rintro τ τ' ⟨hlength, rfl, hτ, hFτ⟩
  have hself : State.Tracked added before [x] τ' τ τ' :=
    ⟨⟨hτ.toShadows, fun y hy => hτ.declares y (List.mem_singleton.mp hy ▸ hx)⟩, .refl⟩
  have hkeeps := (hself.store_local List.mem_cons_self e.ty (fun _ => m.undefined) vs).keeps
  have hstored := hτ.store_local hx e.ty (fun _ => m.undefined) vs
  refine .some (.ok ⟨⟨rfl, hlength⟩, hstored, hF _ _ (hkeeps.mono ?_) hFτ, ?_⟩)
  · exact fun y hy => List.mem_singleton.mp hy ▸ List.mem_cons_self
  · exact State.contains_store _ (hτ.declares x hx).2 hlength

/-! ### Reading temporaries -/

/-- The expression only reads, and has a value in a state. -/
def Reads (m : Machine α) (τ : State α) (e : Expr) (vs : List α) : Prop :=
  (e.values m).run.run τ = some (.ok vs, τ)

variable {τ : State α} {ty : Ty} {vs ws : List α} {a b : Expr}

/-- A variable reads its content. -/
theorem reads_var (h : τ.Contains x ty vs) : Reads m τ (.var ty x) vs := by
  obtain ⟨content, hlocal, rfl⟩ := h
  show some (Except.ok (Lane.values ((Variable.named x).lanes ty (τ.read (.named x)))), τ) = _
  rw [State.read, hlocal]
  simp [Lane.values, Variable.lanes, Function.comp_def]

/-- An expression that maps another one reads what the map gives. -/
theorem reads_map {e : Expr} {f : List α → List α} (he : Reads m τ e vs)
    {e' : Expr} (h : e'.values m = f <$> e.values m) : Reads m τ e' (f vs) := by
  rw [Reads, h, ExceptT.run_map, StateT.run_map, he]
  rfl

/-- An expression that goes on from another one reads what it goes on to. -/
theorem reads_bind {e : Expr} {f : List α → Eval α (List α)} {e' : Expr} (he : Reads m τ e vs)
    (h : e'.values m = e.values m >>= f) (hf : (f vs).run.run τ = some (.ok ws, τ)) :
    Reads m τ e' ws := by
  rw [Reads, h, ExceptT.run_bind, StateT.run_bind, he]
  exact hf

/-- A lane of a temporary: that of the value, or the value if it is a scalar. -/
theorem reads_lane {kind : ScalarKind} {n i : Nat} (hty : ty.Fits kind n) (hi : i < n) (hn : n ≤ 4)
    (h : τ.Contains x ty vs) (hvs : vs.length = ty.laneCount) :
    Reads m τ (MinAbs.lane (.var ty x) i) [(Machine.spread n vs).getD i m.undefined] := by
  have hvar : Reads m τ (.var ty x) vs := reads_var h
  cases hty with
  -- A scalar is spread to every lane, a vector has its own.
  | scalar p =>
    obtain ⟨v, rfl⟩ := List.length_eq_one_iff.mp hvs
    have hspread : (Machine.spread n [v]).getD i m.undefined = v := by
      simp [Machine.spread, List.getD_eq_getElem?_getD, hi]
    rw [hspread]
    exact hvar
  | vector p =>
    have hlane : Selector.lane? (.ofLane i) = some i := Selector.lane?_ofLane (by omega)
    rw [Machine.spread_of_length (n := n) hvs]
    refine (reads_map hvar (Alike.values_swizzle m _ _ _)).trans ?_
    simp only [List.map_cons, List.map_nil, Machine.pick, Selector.pick, hlane]
    rfl

/-- A lane is a scalar of the kind. -/
theorem ty_lane {kind : ScalarKind} {n : Nat} (hty : ty.Fits kind n) (i : Nat) :
    (MinAbs.lane (.var ty x) i).ty = .scalar kind ty.precision := by
  cases hty <;> rfl

/-- The value of a comparison, which skips no operand. -/
theorem values_less (m : Machine α) (a b : Expr) :
    (ofBinary .lt a b).values m = a.values m >>= fun ls => b.values m >>= fun rs =>
      pure ((m.binary .lt a.ty ls b.ty rs).takeD 1 m.undefined) := by
  have heval : (ofBinary .lt a b).eval m = a.values m >>= fun ls => b.values m >>= fun rs =>
      pure (m.temporaries .bool (m.binary .lt a.ty ls b.ty rs)) := rfl
  rw [values, heval]
  simp only [map_bind, map_pure, Machine.values_temporaries]
  rfl

section

variable [LinearOrder α] {kind : ScalarKind} {p q : Precision} {v w : α}

/-- The comparison of two scalars is that of their values. -/
theorem holds_less (ho : m.Ordered) (kind : ScalarKind) (p q : Precision) (v w : α) :
    m.holds ((m.binary .lt (.scalar kind p) [v] (.scalar kind q) [w]).takeD 1 m.undefined) =
      decide (v < w) := by
  rw [← ho.less kind p q v w, Machine.holds, Machine.holds]
  cases m.binary .lt (.scalar kind p) [v] (.scalar kind q) [w] <;> rfl

/-- The lesser of two numbers. -/
theorem reads_lesser (ho : m.Ordered) (ha : Reads m τ a [v]) (hb : Reads m τ b [w])
    (hatype : a.ty = .scalar kind p) (hbtype : b.ty = .scalar kind q) :
    Reads m τ (MinAbs.lesser a b) [min v w] := by
  have hcond : Reads m τ (ofBinary .lt a b)
      -- The lesser of the two is chosen by the comparison, which is read first.
      ((m.binary .lt a.ty [v] b.ty [w]).takeD 1 m.undefined) := by
    refine reads_bind ha (values_less m a b) ?_
    rw [ExceptT.run_bind, StateT.run_bind, hb]
    rfl
  refine reads_bind hcond (Alike.values_ternary m _ _ _ _) ?_
  rw [hatype, hbtype, holds_less ho]
  by_cases hlt : v < w
  · rw [if_pos (by simpa using hlt), min_eq_left (le_of_lt hlt), ExceptT.run_map,
      StateT.run_map, ha]
    rfl
  · rw [if_neg (by simpa using hlt), min_eq_right (le_of_not_gt hlt), ExceptT.run_map,
      StateT.run_map, hb]
    rfl

end

/-- Arguments that read their values are evaluated to these. -/
theorem run_evalArgs {es : List Expr} {args : List (Ty × List α)}
    (h : Forall₂ (fun e arg => e.ty = arg.1 ∧ Reads m τ e arg.2) es args) :
    (evalArgs m es).run.run τ = some (.ok args, τ) := by
  induction h with
  | nil => rfl
  | @cons e arg es args he _ ih =>
    -- The first argument is evaluated, and leaves the state as it was for the others.
    show (values m e >>= fun vs => _).run.run τ = _
    rw [ExceptT.run_bind, StateT.run_bind, he.2]
    show (evalArgs m es >>= fun rest => _).run.run τ = _
    rw [ExceptT.run_bind, StateT.run_bind, ih, he.1]
    rfl

/-- The value of a minimum, its operands from left to right. -/
theorem eval_min (m : Machine α) (ty : Ty) (a b : Expr) :
    (Expr.call ty (.intrinsic .min) [a, b]).eval m =
      a.values m >>= fun vs => b.values m >>= fun ws =>
        pure (m.temporaries ty (m.intrinsic .min [(a.ty, vs), (b.ty, ws)])) := by
  have heval : (Expr.call ty (.intrinsic .min) [a, b]).eval m =
      (a.values m >>= fun vs => (b.values m >>= fun ws => pure [(b.ty, ws)]) >>= fun rest =>
        pure ((a.ty, vs) :: rest)) >>= fun args =>
          pure (m.temporaries ty (m.intrinsic .min args)) := by
    rfl
  rw [heval]
  simp only [bind_assoc, pure_bind]

/-! ### Comparing temporaries -/

variable {names₁ names₂ : List String} {y : String} {a' b' : Expr}

/-- What compares the temporaries has the type of the minimum. -/
theorem ty_compareTemps {ty : Ty} (hty : Ty.Broadcasts a.ty b.ty ty) (a' b' : Expr) :
    (MinAbs.compareTemps ty (.var a.ty x) (.var b.ty y) a' b').ty = ty := by
  generalize a.ty = s, b.ty = t at hty
  cases hty <;> rfl

/-- Where the operands of a minimum are put into temporaries, in their order, and what comes after
    that only reads the temporaries and finds the minimum, the minimum is tracked. The second
    operand may change all added variables but the first temporary. -/
theorem tracks_min {ty : Ty} (ha : a.Tracks added m m' names₁ a')
    (hb : b.Tracks added m m' names₂ b')
    (hnames₁ : ∀ z ∈ names₁, z ∈ big) (hnames₂ : ∀ z ∈ names₂, z ∈ big) (hx : x ∈ big)
    (hy : y ∈ big) (hadded : added x = true) (hfresh : x ∉ y :: names₂)
    {rest : List α → List α → Eval α (List (Lane α))}
    (hrest : ∀ vs ws τ, vs.length = a.ty.laneCount → ws.length = b.ty.laneCount →
      τ.Contains x a.ty vs → τ.Contains y b.ty ws →
      ∃ ls, (rest vs ws).run.run τ = some (.ok ls, τ) ∧
        Forall₂ (Lane.Tracks added big)
          (m.temporaries ty (m.intrinsic .min [(a.ty, vs), (b.ty, ws)])) ls) :
    Eval.Tracks added big (Forall₂ (Lane.Tracks added big))
      ((Expr.call ty (.intrinsic .min) [a, b]).eval m)
      ((assign (.var a.ty x) a').values m' >>= fun vs =>
        (assign (.var b.ty y) b').values m' >>= fun ws => rest vs ws) := by
  intro before start
  have hfirst := relates_assign ha hnames₁ hx (F := fun _ => True) (fun _ _ _ => id) before start
  -- While the second operand is computed, the first temporary keeps what it holds.
  have hsecond (vs : List α) := relates_assign hb hnames₂ hy
    (F := fun τ' => τ'.Contains x a.ty vs)
    (fun ρ τ hkeeps hcontains => hcontains.keep hadded hkeeps hfresh) before start
  rw [eval_min]
  refine (hfirst.pre fun _ _ hσ => ⟨hσ, trivial⟩).bind fun vs vs' => .assume ?_
  rintro ⟨rfl, hvs⟩
  refine ((hsecond vs').pre fun _ _ hσ => ⟨hσ.1, hσ.2.2⟩).bind fun ws ws' => .assume ?_
  rintro ⟨rfl, hws⟩
  rintro τ τ' ⟨hτ, hcontains, hcontains'⟩
  obtain ⟨ls, hrun, hls⟩ := hrest vs' ws' τ' hvs hws hcontains hcontains'
  rw [hrun]
  exact .some (.ok ⟨hls, hτ⟩)

variable [LinearOrder α]

/-- Of two temporaries that hold scalars, the comparison chooses the lesser. -/
theorem run_lesserTemp {kind : ScalarKind} {p q : Precision} (ho : m.Ordered) (hx : x ∈ big)
    (hy : y ∈ big) (hvs : vs.length = 1) (hws : ws.length = 1)
    (hfirst : τ.Contains x (.scalar kind p) vs) (hsecond : τ.Contains y (.scalar kind q) ws) :
    ∃ ls, ((if m.holds ((m.binary .lt (.scalar kind p) vs (.scalar kind q) ws).takeD 1 m.undefined)
        then (var (.scalar kind p) x).eval m else (var (.scalar kind q) y).eval m).run.run τ =
          some (.ok ls, τ)) ∧
      Forall₂ (Lane.Tracks added big)
        (m.temporaries (.scalar kind p) (List.zipWith min vs ws)) ls := by
  obtain ⟨v, rfl⟩ := List.length_eq_one_iff.mp hvs
  obtain ⟨w, rfl⟩ := List.length_eq_one_iff.mp hws
  -- Either temporary is loaded from its local, and its cell is one of the two.
  have hload {z : String} {r : Precision} {u : α} (hz : z ∈ big)
      (h : τ.Contains z (.scalar kind r) [u]) :
      ∃ ls, ((var (.scalar kind r) z).eval m).run.run τ = some (.ok ls, τ) ∧
        Forall₂ (Lane.Tracks added big) (m.temporaries (.scalar kind p) [u]) ls := by
    obtain ⟨content, hlocal, hcontent⟩ := h
    obtain rfl : content 0 = u := List.head_eq_of_cons_eq hcontent
    refine ⟨(Variable.named z).lanes (.scalar kind r) (τ.read (.named z)), rfl, ?_⟩
    rw [State.read, hlocal]
    exact .cons (.lost _ _ fun cell hcell => ⟨z, hz, by rw [← Option.some.inj hcell]⟩) .nil
  rw [holds_less ho]
  by_cases hlt : v < w
  · simpa [hlt, min_eq_left (le_of_lt hlt)] using hload hx hfirst
  · simpa [hlt, min_eq_right (le_of_not_gt hlt)] using hload hy hsecond

omit [LinearOrder α] in
/-- A value is spread to as many lanes as asked for. -/
theorem length_spread {kind : ScalarKind} {n : Nat} (hty : ty.Fits kind n)
    (hvs : vs.length = ty.laneCount) : (Machine.spread n vs).length = n := by
  cases hty with
  | scalar p =>
    obtain ⟨v, rfl⟩ := List.length_eq_one_iff.mp hvs
    exact List.length_replicate
  | vector p => rwa [Machine.spread_of_length (n := n) hvs]

omit [LinearOrder α] in
/-- A vector is constructed of as many scalars of its kind. -/
theorem construct_scalars (m : Machine α) (kind : ScalarKind) (n : Nat) (p q : Precision)
    (f : Nat → α) :
    m.construct (.vector kind n p) ((List.range n).map fun i => (.scalar kind q, [f i])) =
      (List.range n).map f := by
  have hcast (v : α) :
      m.cast (Ty.scalar kind q).componentKind (Ty.vector kind n p).componentKind v = v :=
    if_pos rfl
  show Machine.spread n (List.flatMap _ (List.map _ _)) = _
  simp only [List.flatMap_map, List.map_cons, List.map_nil, hcast]
  rw [← List.map_eq_flatMap, Machine.spread_of_length (by simp)]

/-- Pairing two lists of one length is a map over the positions. -/
theorem zipWith_eq_map_getD {β γ : Type} (f : β → β → γ) {xs ys : List β} {n : Nat}
    (hxs : xs.length = n) (hys : ys.length = n) (d : β) :
    List.zipWith f xs ys = (List.range n).map fun i => f (xs.getD i d) (ys.getD i d) := by
  refine List.ext_getElem (by simp [hxs, hys]) fun i hi _ => ?_
  have hi : i < n := by simpa [hxs, hys] using hi
  simp [hxs, hys, hi]

/-- Lane by lane, the temporaries give the minimum of what they hold. -/
theorem reads_leastLanes {kind : ScalarKind} {n : Nat} {s t : Ty} (ho : m.Ordered)
    (hs : s.Fits kind n) (ht : t.Fits kind n) (hhigh : n ≤ 4)
    (hvs : vs.length = s.laneCount) (hws : ws.length = t.laneCount) (hfirst : τ.Contains x s vs)
    (hsecond : τ.Contains y t ws) (p : Precision) :
    Reads m τ (.construct (.vector kind n p) ((List.range n).map fun i =>
        MinAbs.lesser (MinAbs.lane (.var s x) i) (MinAbs.lane (.var t y) i)))
      (List.zipWith min (Machine.spread n vs) (Machine.spread n ws)) := by
  -- Each lane is read from both temporaries and gives a scalar, the minimum of what they hold
  -- there.
  have hlanes : Forall₂ (fun e (arg : Ty × List α) => e.ty = arg.1 ∧ Reads m τ e arg.2)
      ((List.range n).map fun i =>
        MinAbs.lesser (MinAbs.lane (.var s x) i) (MinAbs.lane (.var t y) i))
      ((List.range n).map fun i => (.scalar kind (s.precision.join t.precision),
        [min ((Machine.spread n vs).getD i m.undefined)
          ((Machine.spread n ws).getD i m.undefined)])) := by
    rw [List.forall₂_map_left_iff, List.forall₂_map_right_iff]
    refine List.forall₂_same.mpr fun i hi => ⟨?_, ?_⟩
    · show (MinAbs.lane (.var s x) i).ty.withPrecision _ = _
      rw [ty_lane hs, ty_lane ht]
      rfl
    · have hi' := List.mem_range.mp hi
      exact reads_lesser ho (reads_lane hs hi' hhigh hfirst hvs)
        (reads_lane ht hi' hhigh hsecond hws) (ty_lane hs i) (ty_lane ht i)
  -- A constructor of as many scalars takes them as its lanes, with nothing cut off.
  have hvalues (args : List Expr) : (Expr.construct (.vector kind n p) args).values m =
      evalArgs m args >>= fun vs =>
        pure ((m.construct (.vector kind n p) vs).takeD n m.undefined) := by
    simp only [values, eval, map_bind, map_pure, Machine.values_temporaries]
    rfl
  rw [Reads, hvalues, ExceptT.run_bind, StateT.run_bind, run_evalArgs hlanes,
    zipWith_eq_map_getD min (length_spread hs hvs) (length_spread ht hws) m.undefined]
  show some (Except.ok ((m.construct _ _).takeD n m.undefined), τ) = _
  rw [construct_scalars, takeD_of_length _ (by simp)]

omit [LinearOrder α] in
/-- Scalars are compared where they are put into the temporaries. -/
theorem eval_compareTemps_scalar (m : Machine α) (kind : ScalarKind) (p q r : Precision)
    (x y : String) (a b : Expr) :
    (MinAbs.compareTemps (.scalar kind r) (.var (.scalar kind p) x) (.var (.scalar kind q) y) a
        b).eval m =
      (assign (.var (.scalar kind p) x) a).values m >>= fun vs =>
        (assign (.var (.scalar kind q) y) b).values m >>= fun ws =>
          if m.holds ((m.binary .lt (.scalar kind p) vs (.scalar kind q) ws).takeD 1 m.undefined)
          then (var (.scalar kind p) x).eval m else (var (.scalar kind q) y).eval m := by
  -- Both temporaries are fitted to their own types, which changes nothing.
  have hfit (e : Expr) : m.fit e.ty <$> m.fit e.ty <$> e.eval m = e.eval m := by
    rw [fit_eval, fit_eval]
  have hnode : (MinAbs.compareTemps (.scalar kind r) (.var (.scalar kind p) x)
      (.var (.scalar kind q) y) a b).eval m =
        m.fit (.scalar kind p) <$> ((ofBinary .lt (assign (.var (.scalar kind p) x) a)
          (assign (.var (.scalar kind q) y) b)).values m >>= fun vs =>
            if m.holds vs then m.fit (.scalar kind p) <$> (var (.scalar kind p) x).eval m
            else m.fit (.scalar kind p) <$> (var (.scalar kind q) y).eval m) := rfl
  have hfirst : (assign (.var (.scalar kind p) x) a).ty = .scalar kind p := rfl
  have hsecond : (assign (.var (.scalar kind q) y) b).ty = .scalar kind q := rfl
  rw [hnode, values_less]
  simp only [bind_assoc, pure_bind, map_bind, hfirst, hsecond]
  refine bind_congr fun vs => bind_congr fun ws => ?_
  split
  · exact hfit (var (.scalar kind p) x)
  · exact hfit (var (.scalar kind q) y)

omit [LinearOrder α] in
/-- Vectors are compared lane by lane, after both are in their temporaries. -/
theorem eval_compareTemps_vector (m : Machine α) (kind : ScalarKind) (n : Nat) (p : Precision)
    (s t : Ty) (x y : String) (a b : Expr) :
    (MinAbs.compareTemps (.vector kind n p) (.var s x) (.var t y) a b).eval m =
      (assign (.var s x) a).values m >>= fun _ => (assign (.var t y) b).values m >>= fun _ =>
        m.temporaries (.vector kind n p) <$> (Expr.construct (.vector kind n p)
          ((List.range n).map fun i =>
            MinAbs.lesser (MinAbs.lane (.var s x) i) (MinAbs.lane (.var t y) i))).values m := by
  -- A comma evaluates both of its operands, and has the value of the second.
  have hcomma (e e' : Expr) : (ofBinary .comma e e').eval m = e.values m >>= fun _ =>
      m.temporaries e'.ty <$> e'.values m := by
    simp only [← bind_pure_comp]
    rfl
  have hnode : (MinAbs.compareTemps (.vector kind n p) (.var s x) (.var t y) a b).eval m =
      m.fit (.vector kind n p) <$> (ofBinary .comma (ofBinary .comma (assign (.var s x) a)
        (assign (.var t y) b)) (.construct (.vector kind n p) ((List.range n).map fun i =>
          MinAbs.lesser (MinAbs.lane (.var s x) i) (MinAbs.lane (.var t y) i)))).eval m := rfl
  have hinner : (ofBinary .comma (assign (.var s x) a) (assign (.var t y) b)).values m =
      (assign (.var s x) a).values m >>= fun _ =>
        (assign (.var t y) b).values m := by
    rw [values, hcomma, map_bind]
    refine bind_congr fun _ => ?_
    rw [Functor.map_map]
    simp only [Machine.values_temporaries]
    exact takeD_values m _
  rw [hnode, hcomma, hinner]
  simp only [bind_assoc, map_bind, Functor.map_map]
  refine bind_congr fun _ => bind_congr fun _ => ?_
  exact congrArg (· <$> _) (funext fun zs => m.fit_temporaries (.vector kind n p) zs)

/-- Comparing two temporaries into which the operands of a minimum are put gives the minimum. -/
theorem tracks_compareTemps {ty : Ty} (ho : m.Ordered) (hm : m.Alike added m')
    (hty : a.ty.broadcasts b.ty = true) (hresult : ty = Intrinsic.min.resultTy [a.ty, b.ty])
    (ha : a.Tracks added m m' names₁ a') (hb : b.Tracks added m m' names₂ b')
    (hnames₁ : ∀ z ∈ names₁, z ∈ big) (hnames₂ : ∀ z ∈ names₂, z ∈ big) (hx : x ∈ big)
    (hy : y ∈ big) (hadded : added x = true) (hfresh : x ∉ y :: names₂) :
    (Expr.call ty (.intrinsic .min) [a, b]).Tracks added m m' big
      (MinAbs.compareTemps ty (.var a.ty x) (.var b.ty y) a' b') := by
  obtain ⟨call, rfl, -⟩ := hm
  have hshape := Ty.broadcasts_resultTy hty
  rw [← hresult] at hshape
  refine ⟨ty_compareTemps hshape a' b', ?_⟩
  have hleast {vs ws : List α} (hvs : vs.length = a.ty.laneCount)
      (hws : ws.length = b.ty.laneCount) :=
    ho.least hty hvs hws
  rw [← hresult] at hleast
  -- The two operands are captured first; then the temporaries are compared.
  have hmin {rest} := @tracks_min α added m (m.withCalls call) big x a b names₁ names₂ y a' b' ty
    ha hb hnames₁ hnames₂ hx hy hadded hfresh rest
  -- Scalars and vectors are compared by different expressions, so the types are told apart first.
  generalize haty : a.ty = s, hbty : b.ty = t at hshape hmin hleast ⊢
  cases hshape with
  | scalar kind p q =>
    rw [eval_compareTemps_scalar]
    refine hmin fun vs ws τ hvs hws hfirst hsecond => ?_
    rw [hleast hvs hws, Machine.spread_of_length (n := (Ty.scalar kind (p.join q)).laneCount) hvs,
      Machine.spread_of_length (n := (Ty.scalar kind (p.join q)).laneCount) hws]
    exact run_lesserTemp (ho.withCalls call) hx hy hvs hws hfirst hsecond
  | vector kind n p hs ht hlow hhigh =>
    rw [eval_compareTemps_vector]
    refine hmin fun vs ws τ hvs hws hfirst hsecond => ?_
    rw [hleast hvs hws]
    have hreads := reads_leastLanes (ho.withCalls call) hs ht hhigh hvs hws hfirst hsecond p
    refine ⟨_, ?_, Lane.tracks_temporaries m _ _⟩
    rw [ExceptT.run_map, StateT.run_map, hreads]
    rfl

end Expr

end ShaderGen
