import Mathlib.Algebra.GroupWithZero.Nat
import ShaderGen.Proofs.Legalize.Calm
import ShaderGen.Proofs.Legalize.Idle

/-!
# How large guarded fractions become

A `fract` whose operand has no side effects is replaced by an expression in which the operand stands
twice, so fractions in the operands of fractions double with every level. A `fract` whose operand
has side effects grows by a constant, since the operand goes into a temporary.

## Main definitions

- `Expr.size`: number of nodes of an expression
- `Expr.nesting`: how many nodes of some kind stand below one another
- `Fract.copies`: nodes of which the operand is written twice

## Key results

- `Fract.guarded_size_le`: an expression grows by at most a factor that doubles with each level of
  copied operands; it is at most quadratic while the levels are few
- `Fract.size_guarded_tower`: the exact size for fractions directly in one another
-/

namespace ShaderGen

open List (Forall₂)

namespace Expr

/-! ### Number of nodes -/

/-- Number of nodes of an expression. -/
def size (e : Expr) : Nat := e.fold fun _ sizes => sizes.sum + 1

/-- A tree is as large as its subtrees together, and one more. -/
theorem size_eq (e : Expr) : e.size = (e.children.map size).sum + 1 := fold_eq _ e

@[simp] theorem size_ofVar (name : String) (ty : Ty) : (ofVar name ty).size = 1 := rfl

@[simp] theorem size_float (value : Binary64) : (Expr.float value).size = 1 := rfl

@[simp] theorem size_withTy (ty : Ty) (e : Expr) : (e.withTy ty).size = e.size := by
  rw [size_eq, size_eq, children_withTy]

@[simp] theorem size_ofGroup (e : Expr) : (ofGroup e).size = e.size + 1 := by
  simp [ofGroup, size_eq, children]

@[simp] theorem size_ofBinary (op : BinaryOp) (left right : Expr) :
    (ofBinary op left right).size = left.size + right.size + 1 := by
  rw [ofBinary, size_eq]
  simp [children]

/-- A call is as large as its arguments, and one more. -/
theorem size_call (ty : Ty) (callee : Callee) (args : List Expr) :
    (call ty callee args).size = (args.map size).sum + 1 := by
  rw [size_eq, children]

@[simp] theorem size_ofCall (f : Intrinsic) (args : List Expr) :
    (ofCall f args).size = (args.map size).sum + 1 :=
  size_call _ _ args

/-- A node whose children grow by at most a factor grows by at most that factor. -/
theorem size_withChildren_le {w : Nat} {e : Expr} {cs : List Expr} (hw : 0 < w)
    (hcs : Forall₂ (fun c c' => c'.size ≤ w * c.size) e.children cs) :
    (e.withChildren cs).size ≤ w * e.size := by
  -- What holds for each child holds for their sum.
  have hsum : (cs.map size).sum ≤ w * (e.children.map size).sum := by
    generalize e.children = bs at hcs
    induction hcs with
    | nil => simp
    | cons h _ ih =>
      simp only [List.map_cons, List.sum_cons, Nat.mul_add]
      omega
  rw [size_eq, size_eq e, children_withChildren hcs.length_eq.symm, Nat.mul_add]
  omega

/-! ### Nodes below one another -/

section

variable (p : Expr → Bool)

mutual
/-- The greatest number of nodes that satisfy a predicate and stand below one another. -/
def nesting : Expr → Nat
  | e@(.literal _ _) | e@(.var _ _) | e@(.builtin _ _) => (p e).toNat
  | e@(.unary _ _ x) | e@(.swizzle _ x _) | e@(.group _ x) => (p e).toNat + x.nesting
  | e@(.binary _ _ x y) | e@(.index _ x y) => (p e).toNat + max x.nesting y.nesting
  | e@(.ternary _ x y z) => (p e).toNat + max x.nesting (max y.nesting z.nesting)
  | e@(.call _ _ args) | e@(.construct _ args) => (p e).toNat + nestingList args

/-- The greatest nesting of several expressions. -/
def nestingList : List Expr → Nat
  | [] => 0
  | e :: es => max e.nesting (nestingList es)
end

end

variable {p : Expr → Bool}

/-- No member is nested more deeply than the list. -/
theorem nesting_le_nestingList {es : List Expr} : ∀ e ∈ es, e.nesting p ≤ nestingList p es := by
  induction es with
  | nil => simp
  | cons e es ih =>
    refine List.forall_mem_cons.mpr ⟨Nat.le_max_left _ _, fun c hc => ?_⟩
    exact Nat.le_trans (ih c hc) (Nat.le_max_right _ _)

/-- A node that counts stands one level above its children. -/
theorem nesting_child {e c : Expr} (hc : c ∈ e.children) :
    (p e).toNat + c.nesting p ≤ e.nesting p := by
  cases e with
  | literal | var | builtin => cases hc
  | call | construct => exact Nat.add_le_add_left (nesting_le_nestingList c hc) _
  | _ =>
    simp only [children, List.mem_cons, List.not_mem_nil, or_false] at hc
    rcases hc with rfl | rfl | rfl <;> simp only [nesting] <;> omega

/-! ### Side effects, node by node -/

/-- A node over children that have side effects where the old ones have some. -/
theorem hasSideEffects_withChildren {e : Expr} {cs : List Expr}
    (hcs : Forall₂ (fun c c' => c'.hasSideEffects = c.hasSideEffects) e.children cs) :
    (e.withChildren cs).hasSideEffects = e.hasSideEffects := by
  simp only [hasSideEffects_eq_any] at hcs ⊢
  rw [any_eq, any_eq acts e, acts_withChildren, children_withChildren hcs.length_eq.symm]
  congr 1
  generalize e.children = bs at hcs
  induction hcs with
  | nil => rfl
  | cons h _ ih => rw [List.any_cons, List.any_cons, h, ih]

end Expr

namespace Legalize.Fract

open ShaderGen.Expr

/-- A `fract` whose operand is written twice: it has no side effects. -/
def copies (e : Expr) : Bool := (operand? e).any fun x => !x.hasSideEffects

/-! ### One node -/

/-- A node over other children is a `fract` if it was one. -/
theorem eq_of_operand?_withChildren {e x' : Expr} {cs : List Expr}
    (hcs : cs.length = e.children.length) (h : operand? (e.withChildren cs) = some x') :
    ∃ ty x, ty.isFloat = true ∧ e = .call ty (.intrinsic .fract) [x] ∧ cs = [x'] := by
  obtain ⟨ty, hfloat, hfract⟩ := eq_of_operand? h
  have hhead := head_withChildren hcs
  rw [hfract] at hhead
  obtain ⟨ty', args, rfl, hlength⟩ := eq_call_of_head hhead.symm
  obtain ⟨x, rfl⟩ := List.length_eq_one_iff.mp hlength
  obtain ⟨rfl, -, rfl⟩ := Expr.call.inj hfract
  exact ⟨ty', x, hfloat, rfl, rfl⟩

/-- A guarded fraction holds its operand twice. -/
@[simp] theorem size_guarded (x : Expr) (ty : Ty) : (guarded x ty).size = 2 * x.size + 9 := by
  simp only [guarded, size_ofGroup, size_withTy, size_ofBinary, size_float, size_ofCall,
    List.map_cons, List.map_nil, List.sum_cons, List.sum_nil]
  omega

/-- A guarded fraction has the side effects of its operand. -/
theorem hasSideEffects_guarded (x : Expr) (ty : Ty) :
    (guarded x ty).hasSideEffects = x.hasSideEffects := by
  simp [guarded, ofGroup, ofBinary, ofCall, withTy, Expr.float, hasSideEffects, anySideEffects,
    BinaryOp.isAssignment]

/-- So has a fraction. -/
theorem hasSideEffects_fract (ty : Ty) (x : Expr) :
    (call ty (.intrinsic .fract) [x]).hasSideEffects = x.hasSideEffects := by
  simp [hasSideEffects, anySideEffects]

/-- The most nodes that an expression of `n` nodes can grow to where `k` copies are nested. -/
def bound (k n : Nat) : Nat := 14 * 2 ^ k * n

/-- More nesting allows for more nodes. -/
theorem bound_le_bound {k l : Nat} (h : k ≤ l) (n : Nat) : bound k n ≤ bound l n :=
  Nat.mul_le_mul_right n (Nat.mul_le_mul_left 14 (Nat.pow_le_pow_right Nat.two_pos h))

/-- One more level of nesting doubles what is allowed. -/
theorem bound_succ (k n : Nat) : bound (k + 1) n = 2 * bound k n := by
  rw [bound, bound, Nat.pow_succ, ← Nat.mul_assoc, Nat.mul_right_comm, Nat.mul_comm _ 2]

/-- One more node makes room for all that is written around an operand. -/
theorem bound_add_le (k n : Nat) : bound k n + 14 ≤ bound k (n + 1) := by
  have hpow := Nat.two_pow_pos k
  rw [bound, bound, Nat.mul_add]
  omega

/-- What a walk makes of an expression has side effects where the expression has some, and it has at
    most as many nodes as the nesting of copied operands allows for. -/
structure Grows (e e' : Expr) : Prop where
  effects : e'.hasSideEffects = e.hasSideEffects
  size_le : e'.size ≤ bound (e.nesting copies) e.size

section

variable {e : Expr} {cs : List Expr}

/-- A node grows as its children do. -/
theorem Grows.withChildren (hcs : Forall₂ Grows e.children cs) : Grows e (e.withChildren cs) := by
  refine ⟨hasSideEffects_withChildren (hcs.imp fun _ _ h => h.effects), ?_⟩
  apply size_withChildren_le (by have := Nat.two_pow_pos (e.nesting copies); omega)
  -- No child has more levels than the node, so the factor of the node is enough for each of them.
  have hlevel (c : Expr) (hc : c ∈ e.children) :
      bound (c.nesting copies) c.size ≤ bound (e.nesting copies) c.size :=
    bound_le_bound (Nat.le_trans (Nat.le_add_left _ _) (nesting_child hc)) _
  generalize e.children = bs at hcs hlevel
  induction hcs with
  | nil => exact .nil
  | cons h _ ih =>
    obtain ⟨hb, hbs⟩ := List.forall_mem_cons.mp hlevel
    exact .cons (Nat.le_trans h.size_le hb) (ih hbs)

variable {ty : Ty} {x x' : Expr}

/-- A fraction is larger than its operand by one. -/
theorem size_fract (ty : Ty) (x : Expr) : (call ty (.intrinsic .fract) [x]).size = x.size + 1 := by
  simp [size_call]

/-- A fraction that is copied is nested one deeper than its operand. -/
theorem nesting_fract (ty : Ty) (x : Expr) :
    (copies (call ty (.intrinsic .fract) [x])).toNat + x.nesting copies ≤
      (call ty (.intrinsic .fract) [x]).nesting copies :=
  nesting_child (List.mem_singleton_self x)

/-- Writing an operand twice is paid for by one more level of nesting. -/
theorem Grows.guarded (hfloat : ty.isFloat = true) (hx : Grows x x')
    (hquiet : x'.hasSideEffects = false) :
    Grows (call ty (.intrinsic .fract) [x]) (guarded x' ty) := by
  refine ⟨by rw [hasSideEffects_guarded, hasSideEffects_fract, hx.effects], ?_⟩
  -- The operand occurs more than once in what replaces the call, which doubles the bound.
  have hcopies : copies (call ty (.intrinsic .fract) [x]) = true := by
    simp [copies, operand?, hfloat, ← hx.effects, hquiet]
  have hlevel := nesting_fract ty x
  rw [hcopies, Bool.toNat_true, Nat.add_comm] at hlevel
  have htwice := bound_le_bound hlevel x.size
  rw [bound_succ] at htwice
  have hroom := bound_add_le ((call ty (.intrinsic .fract) [x]).nesting copies) x.size
  -- The bound has room for the nodes around the operand.
  have hsize := hx.size_le
  rw [size_guarded, size_fract]
  omega

/-- An operand that goes into a temporary is written once. -/
theorem Grows.captured (hx : Grows x x') (hacts : x'.hasSideEffects = true) (temp : String) :
    Grows (call ty (.intrinsic .fract) [x])
      (.ofBinary .comma (.assign (.ofVar temp x'.ty) x')
        (Fract.guarded (.ofVar temp x'.ty) ty)) := by
  constructor
  · rw [hasSideEffects_fract, ← hx.effects, hacts]
    simp [ofBinary, assign, hasSideEffects, BinaryOp.isAssignment]
  · -- The operand occurs once, in the assignment to the temporary.
    have hlevel := Nat.le_trans (Nat.le_add_left _ _) (nesting_fract ty x)
    have honce := bound_le_bound hlevel x.size
    have hroom := bound_add_le ((call ty (.intrinsic .fract) [x]).nesting copies) x.size
    have hsize := hx.size_le
    simp only [assign, size_ofBinary, size_ofVar, size_guarded, size_fract]
    omega

/-- A fresh temporary is a variable. -/
theorem yields_freshTemp (stem : Stem) (ty : Ty) :
    Yields (fun e => ∃ name, e = .ofVar name ty) (freshTemp stem ty) :=
  .after fun name => .after fun _ => .pure ⟨name, rfl⟩

/-- Guarding a node over children that grew already. -/
theorem grows_guardNode (hcs : Forall₂ Grows e.children cs) :
    Yields (Grows e) (guardNode (e.withChildren cs)) := by
  unfold guardNode
  split
  · next x' hx' =>
    obtain ⟨ty, x, hfloat, rfl, rfl⟩ := eq_of_operand?_withChildren hcs.length_eq.symm hx'
    -- The operand has grown before, and it is copied once or captured.
    obtain _ | ⟨hx, _ | _⟩ := hcs
    split
    · next hacts =>
      refine Yields.bind (yields_freshTemp _ _) ?_
      rintro _ ⟨temp, rfl⟩
      exact .pure (hx.captured hacts _)
    · next hquiet => exact .pure (hx.guarded hfloat (by simpa using hquiet))
  · exact .pure (.withChildren hcs)

end

/-! ### Whole expressions -/

/-- What a walk puts in the place of an expression, from the temporaries and the state before it. -/
def guardedFrom (temps : List Decl) (sc : Scratch) (e : Expr) : Expr :=
  (((e.bottomUpM guardNode).run temps).run sc).1.1

/-- What the guard makes of a tree is within the bound. -/
theorem grows_guardedFrom (temps : List Decl) (sc : Scratch) (e : Expr) :
    Grows e (guardedFrom temps sc e) := by
  obtain ⟨walk, hwalk⟩ := bottomUpM_yields (fun _ _ hcs => grows_guardNode hcs) e
  have hresult : guardedFrom temps sc e = ((walk.run temps).run sc).1.1.val := by
    rw [guardedFrom, ← hwalk]
    rfl
  rw [hresult]
  exact ((walk.run temps).run sc).1.1.property

/-- Without temporaries an expression has side effects afterwards where it had some. -/
theorem hasSideEffects_bottomUp_guardPure (e : Expr) :
    (e.bottomUp guardPure).hasSideEffects = e.hasSideEffects := by
  induction e using induction_children with
  -- The guard keeps the effects of a node, and a node has those of its children.
  | h e ih =>
    have hnode : (guardPure (e.withChildren (e.children.map (bottomUp guardPure)))).hasSideEffects =
        (e.withChildren (e.children.map (bottomUp guardPure))).hasSideEffects := by
      unfold guardPure
      split
      · next x hx =>
        obtain ⟨ty, -, hfract⟩ := eq_of_operand? hx
        rw [hasSideEffects_guarded, hfract, hasSideEffects_fract]
      · rfl
    rw [bottomUp_eq, hnode]
    refine hasSideEffects_withChildren ?_
    rw [List.forall₂_map_right_iff, List.forall₂_same]
    exact ih

/-- Without side effects in its operand a node asks for no temporary. -/
theorem guardNode_eq_guardPure {e : Expr} (h : needsTemporary e = false) :
    guardNode e = pure (guardPure e) := by
  unfold guardNode guardPure
  rw [needsTemporary] at h
  split
  · next x hx =>
    rw [hx, Option.any_some] at h
    simp [h]
  · rfl

/-- Where no operand needs a temporary, as in initial values, both walks do the same. -/
theorem bottomUpM_guardNode_eq {e : Expr} (h : e.any needsTemporary = false) :
    e.bottomUpM guardNode = pure (e.bottomUp guardPure) := by
  induction e using induction_children with
  | h e ih =>
    obtain ⟨hnode, hchildren⟩ := any_eq_false_iff.mp h
    have hwalk := mapM_eq_pure fun c hc => ih c hc (hchildren c hc)
    -- The operand was rebuilt before the node asks whether it has side effects.
    have hrebuilt :
        needsTemporary (e.withChildren (e.children.map (bottomUp guardPure))) = false := by
      rw [needsTemporary]
      cases hx' : operand? (e.withChildren (e.children.map (bottomUp guardPure))) with
      | none => rfl
      | some x' =>
        obtain ⟨ty, x, hfloat, rfl, hx⟩ :=
          eq_of_operand?_withChildren (List.length_map (bottomUp guardPure)) hx'
        obtain rfl : x.bottomUp guardPure = x' := List.singleton_inj.mp hx
        rw [Option.any_some, hasSideEffects_bottomUp_guardPure]
        simpa [needsTemporary, operand?, hfloat] using hnode
    rw [bottomUpM_eq, hwalk, pure_bind, bottomUp_eq, guardNode_eq_guardPure hrebuilt]

/-- Guarding the fractions of an expression multiplies its size by at most a factor that doubles
    with each level of copied operands. The result is at most quadratic in the expression as long as
    the levels grow no faster than the logarithm of its size. Initial values of globals, which are
    guarded without temporaries, become the same. -/
theorem guarded_size_le (e : Expr) (temps : List Decl) (sc : Scratch) :
    (guardedFrom temps sc e).size ≤ 14 * 2 ^ e.nesting copies * e.size ∧
      (2 ^ e.nesting copies ≤ 4 * e.size → (guardedFrom temps sc e).size ≤ 64 * e.size * e.size) ∧
      (e.any needsTemporary = false → e.bottomUp guardPure = guardedFrom temps sc e) := by
  have hsize := (grows_guardedFrom temps sc e).size_le
  refine ⟨hsize, fun hlevels => ?_, fun hpure => ?_⟩
  · -- With few enough levels the factor is linear in the size.
    have hfactor : 14 * 2 ^ e.nesting copies * e.size ≤ 14 * (4 * e.size) * e.size :=
      Nat.mul_le_mul_right _ (Nat.mul_le_mul_left _ hlevels)
    have hconstant : 14 * (4 * e.size) * e.size ≤ 64 * e.size * e.size :=
      Nat.mul_le_mul_right _ (by omega)
    exact Nat.le_trans hsize (Nat.le_trans hfactor hconstant)
  · rw [guardedFrom, bottomUpM_guardNode_eq hpure]
    rfl

/-! ### Fractions of fractions -/

/-- Fractions directly in one another, of a variable. -/
def tower : Nat → Expr
  | 0 => .ofVar "x" .float
  | k + 1 => .ofCall .fract [tower k]

/-- A tower of fractions is a float. -/
theorem ty_tower (k : Nat) : (tower k).ty = .float := by
  induction k with
  | zero => rfl
  | succ k ih =>
    show Intrinsic.fract.resultTy [(tower k).ty] = .float
    rw [ih]
    rfl

/-- A tower is as large as it is high. -/
theorem size_tower (k : Nat) : (tower k).size = k + 1 := by
  induction k with
  | zero => rfl
  | succ k ih => simp [tower, ih]

/-- A tower is a fraction of the one below. -/
theorem tower_succ (k : Nat) : tower (k + 1) = call .float (.intrinsic .fract) [tower k] := by
  rw [tower, ofCall, List.map_singleton, ty_tower]
  rfl

/-- The towers have no side effects, so no fraction in them is stored. -/
theorem tower_needs_no_temporary (k : Nat) :
    (tower k).hasSideEffects = false ∧ (tower k).any needsTemporary = false := by
  induction k with
  | zero => exact ⟨rfl, rfl⟩
  | succ k ih =>
    obtain ⟨hquiet, hneeds⟩ := ih
    refine ⟨by rw [tower_succ, hasSideEffects_fract, hquiet], ?_⟩
    rw [any_eq_false_iff, tower_succ]
    -- Each level is a bare call on a quiet operand, so it is guarded without a temporary.
    have hfloat : Ty.float.isFloat = true := rfl
    exact ⟨by simp [needsTemporary, operand?, hfloat, hquiet], by simpa [children] using hneeds⟩

/-- Each fraction around an expression doubles what is generated for it. -/
theorem size_guarded_tower (k : Nat) (temps : List Decl) (sc : Scratch) :
    (guardedFrom temps sc (tower k)).size = 10 * 2 ^ k - 9 := by
  rw [guardedFrom, bottomUpM_guardNode_eq (tower_needs_no_temporary k).2]
  -- Without effects no temporary is used, so the pure rewrite is the same.
  show ((tower k).bottomUp guardPure).size = _
  induction k with
  | zero => rfl
  | succ k ih =>
    have hguard : (tower (k + 1)).bottomUp guardPure =
        guarded ((tower k).bottomUp guardPure) .float := by
      rw [tower_succ, bottomUp_call]
      rfl
    have hpow := Nat.two_pow_pos k
    rw [hguard, size_guarded, ih, Nat.pow_succ]
    omega

/-- No polynomial in the size of an expression bounds the size of what is generated for it. -/
theorem guarded_size_exceeds (factor degree : Nat) (temps : List Decl) (sc : Scratch) :
    ∃ e, factor * e.size ^ degree < (guardedFrom temps sc e).size := by
  -- A tower of `2 ^ (2 * n) - 1` fractions has `2 ^ (2 * n)` nodes.
  obtain ⟨n, hn⟩ : ∃ n, n = factor + 2 * degree := ⟨_, rfl⟩
  have hsquare : (n + 1) * (n + 1) ≤ 2 ^ (2 * n) := by
    have hpow : n + 1 ≤ 2 ^ n := Nat.lt_two_pow_self
    rw [Nat.two_mul, Nat.pow_add]
    exact Nat.mul_le_mul hpow hpow
  -- The exponent outgrows the degree, as a square outgrows a multiple.
  have hexponent : factor + 2 * n * degree ≤ 2 ^ (2 * n) - 1 := by
    have hdegree : n * (2 * degree) ≤ n * n := Nat.mul_le_mul_left n (by omega)
    have hexpand : (n + 1) * (n + 1) = n * n + 2 * n + 1 := by
      rw [Nat.add_mul, Nat.mul_add]
      omega
    have hcomm : 2 * n * degree = n * (2 * degree) := by
      rw [Nat.mul_comm 2 n, Nat.mul_assoc]
    omega
  refine ⟨tower (2 ^ (2 * n) - 1), ?_⟩
  have hpos : 0 < 2 ^ (2 * n) := Nat.two_pow_pos _
  rw [size_guarded_tower, size_tower, Nat.sub_add_cancel hpos]
  -- The size grows with two to the number of fractions, the bound with a power of that number.
  calc factor * (2 ^ (2 * n)) ^ degree
      < 2 ^ factor * (2 ^ (2 * n)) ^ degree :=
        Nat.mul_lt_mul_of_pos_right Nat.lt_two_pow_self (Nat.pow_pos hpos)
    _ = 2 ^ (factor + 2 * n * degree) := by rw [← Nat.pow_mul, ← Nat.pow_add]
    _ ≤ 2 ^ (2 ^ (2 * n) - 1) := Nat.pow_le_pow_right Nat.two_pos hexponent
    _ ≤ 10 * 2 ^ (2 ^ (2 * n) - 1) - 9 := by
      have := Nat.two_pow_pos (2 ^ (2 * n) - 1)
      omega

/-- Ten fractions in one another have eleven nodes, and become far more than quadratically many. -/
theorem ten_fractions_outgrow_square :
    (tower 10).size = 11 ∧ 64 * (tower 10).size * (tower 10).size <
      (guardedFrom [] {} (tower 10)).size := by
  rw [size_tower, size_guarded_tower]
  decide

/-- A fraction in an operand that has to be captured because of a counter. -/
theorem captured_fraction_stays_small :
    let e : Expr := .ofCall .fract [.ofBinary .add (.ofCall .fract [.ofVar "y" .float])
      (.ofUnary .postIncrement (.ofVar "x" .float))]
    e.nesting copies = 1 ∧ e.size = 6 ∧ (guardedFrom [] {} e).size = 28 ∧
      (guardedFrom [] {} e).size ≤ 64 * e.size * e.size := by
  intro e
  have hlevels : 2 ^ e.nesting copies ≤ 4 * e.size := by decide
  exact ⟨by decide, by decide, by decide +kernel, (guarded_size_le e [] {}).2.1 hlevels⟩

end Legalize.Fract

end ShaderGen
