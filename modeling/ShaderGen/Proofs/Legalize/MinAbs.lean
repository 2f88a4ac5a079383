import ShaderGen.Legalize.MinAbs
import ShaderGen.Proofs.Legalize.HoistInit
import ShaderGen.Proofs.Legalize.Minimum

/-!
# Programs without minima of absolute values

The program in which minima of absolute values are split behaves as before, save for the names that
the rule adds, if numbers are exact and ordered. The minima can be anywhere in the program and in
one another. It is enough that no expression refers to an added name, and that the minima of two
operands have the operands and the type that the language asks for.

## Key results

- `supplies_split`: an expression with its minima split tracks the expression, and the temporaries
  of different minima are different
- `legalize_behavesAs`: the program behaves as before
-/

namespace ShaderGen.Legalize.MinAbs

open ShaderGen.Expr
open List (Forall₂)

/-- Whether a name starts as those of the temporaries and the functions that the rule adds. -/
def isAdded (name : String) : Bool := "minAbsHack".toList.isPrefixOf name.toList

/-- Whether a node is a minimum of two operands that do not go together, or has another type than
    the minimum of them. -/
def isMistyped : Expr → Bool
  | .call ty (.intrinsic .min) [a, b] =>
    !(ty == Intrinsic.min.resultTy [a.ty, b.ty] && a.ty.broadcasts b.ty)
  | _ => false

/-- The temporaries of the rule are among the added names. -/
theorem isAdded_minAbsTemp (n : Nat) : isAdded (Stem.minAbsTemp.nth n) = true := by
  rw [isAdded, List.isPrefixOf_iff_prefix, Stem.nth, String.toList_append]
  exact ⟨"Var".toList ++ (toString n).toList, rfl⟩

/-- So are the functions for moved initial values. -/
theorem isAdded_minAbsInit (n : Nat) : isAdded (Stem.minAbsInit.nth n) = true := by
  rw [isAdded, List.isPrefixOf_iff_prefix, Stem.nth, String.toList_append]
  exact ⟨"Init".toList ++ (toString n).toList, rfl⟩

/-- Only a minimum of two operands is split. -/
theorem splitNode_withChildren {e : Expr} {cs : List Expr} (hcs : cs.length = e.children.length)
    (hmin : ∀ ty a b, e ≠ .call ty (.intrinsic .min) [a, b]) :
    splitNode (e.withChildren cs) = pure (e.withChildren cs) := by
  unfold splitNode
  split
  · next heq =>
    -- Put together from other children, the node has the same head.
    have hhead := head_withChildren hcs
    rw [heq] at hhead
    obtain ⟨ty, args, rfl, hlength⟩ := eq_call_of_head hhead.symm
    obtain ⟨a, b, rfl⟩ := List.length_eq_two.mp hlength
    exact absurd rfl (hmin ty a b)
  · rfl

variable {α : Type} [LinearOrder α] {m m' : Machine α}

/-- Splitting a minimum whose operands were already rebuilt. -/
theorem supplies_splitNode {ty : Ty} {a b a' b' : Expr} {names₁ names₂ : List String}
    (ho : m.Ordered) (hm : m.Alike isAdded m')
    (htyped : isMistyped (.call ty (.intrinsic .min) [a, b]) = false)
    (ha : a.Tracks isAdded m m' names₁ a') (hb : b.Tracks isAdded m m' names₂ b') :
    Supplies .minAbsTemp (fun third e' => (∀ y ∈ third, y ∉ names₂) →
        (call ty (.intrinsic .min) [a, b]).Tracks isAdded m m' (names₁ ++ (names₂ ++ third)) e')
      (splitNode (.call ty (.intrinsic .min) [a', b'])) := by
  obtain ⟨hresult, hty⟩ : ty = Intrinsic.min.resultTy [a.ty, b.ty] ∧
      a.ty.broadcasts b.ty = true := by
    simpa [isMistyped] using htyped
  have hleft (third : List String) : ∀ z ∈ names₁, z ∈ names₁ ++ (names₂ ++ third) :=
    fun z hz => List.mem_append_left _ hz
  have hright (third : List String) : ∀ z ∈ names₂, z ∈ names₁ ++ (names₂ ++ third) :=
    fun z hz => List.mem_append_right _ (List.mem_append_left _ hz)
  unfold splitNode
  split
  · next ty' absTy args other heq =>
    obtain ⟨rfl, -, rfl, rfl⟩ : ty = ty' ∧ True ∧ a' = .call absTy (.intrinsic .abs) args ∧
      b' = other := by simpa using heq
    refine (supplies_freshTemp absTy).bind fun first x hx => ?_
    refine (supplies_freshTemp b'.ty).bind fun second y hy => .pure ?_
    obtain ⟨i, rfl, rfl⟩ := hx
    obtain ⟨j, rfl, rfl⟩ := hy
    obtain rfl : absTy = a.ty := ha.ty_eq
    rw [hb.ty_eq]
    intro _ hdistinct hother
    -- The second operand must not overwrite the first temporary: its own names were asked for
    -- before, and the second temporary has another number.
    have hfresh : Stem.minAbsTemp.nth i ∉ Stem.minAbsTemp.nth j :: names₂ := by
      refine List.not_mem_cons_of_ne_of_not_mem (fun heq => ?_) (hother _ (by simp))
      exact hdistinct _ (by simp) (List.mem_singleton.mpr heq.symm)
    exact tracks_compareTemps ho hm hty hresult ha hb (hleft _) (hright _) (by simp) (by simp)
      (isAdded_minAbsTemp i) hfresh
  · refine .pure fun _ => ?_
    exact tracks_withChildren hm rfl (.cons (ha.mono (hleft _)) (.cons (hb.mono (hright _)) .nil))

/-- Splitting the minima of an expression asks for temporaries of which no two have one name, and
    what comes out tracks the expression. -/
theorem supplies_split (ho : m.Ordered) (hm : m.Alike isAdded m') (e : Expr)
    (hnames : e.any (refersTo isAdded) = false) (htyped : e.any isMistyped = false) :
    Supplies .minAbsTemp (fun names => e.Tracks isAdded m m' names) (e.bottomUpM splitNode) := by
  induction e using induction_children with
  | h e ih =>
    obtain ⟨hnode, hnames⟩ := any_eq_false_iff.mp hnames
    obtain ⟨htypedNode, htyped⟩ := any_eq_false_iff.mp htyped
    have hchildren (c : Expr) (hc : c ∈ e.children) := ih c hc (hnames c hc) (htyped c hc)
    rw [bottomUpM_eq]
    -- In a minimum of two operands it matters which of them asked for which names. In every other
    -- node the children are taken together.
    by_cases hmin : ∃ ty a b, e = .call ty (.intrinsic .min) [a, b]
    · obtain ⟨ty, a, b, rfl⟩ := hmin
      have hwalk : ([a, b].mapM (bottomUpM splitNode) >>= fun cs =>
          splitNode ((call ty (.intrinsic .min) [a, b]).withChildren cs)) =
            a.bottomUpM splitNode >>= fun a' => b.bottomUpM splitNode >>= fun b' =>
              splitNode (.call ty (.intrinsic .min) [a', b']) := by
        simp [withChildren]
      have hb := hchildren b (List.mem_cons_of_mem a List.mem_cons_self)
      show Supplies _ _ ([a, b].mapM (bottomUpM splitNode) >>= fun cs => splitNode _)
      rw [hwalk]
      refine (hchildren a List.mem_cons_self).bind fun names₁ a' ha' => ?_
      refine hb.bind fun names₂ b' hb' => ?_
      exact (supplies_splitNode ho hm htypedNode ha' hb').mono fun third e' h hthird _ => h hthird
    · have hrebuilt : Supplies .minAbsTemp
          (fun names => List.Forall₂ (Tracks isAdded m m' names) e.children)
          (e.children.mapM (bottomUpM splitNode)) :=
        (supplying _).mapM (fun h hsub => h.mono fun x hx => hsub.subset hx) hchildren
      refine hrebuilt.bind fun names cs hcs => ?_
      rw [splitNode_withChildren hcs.length_eq.symm fun ty a b h => hmin ⟨ty, a, b, h⟩]
      refine .pure fun _ => ?_
      rw [List.append_nil]
      exact tracks_withChildren hm hnode hcs

/-- The program with its minima of absolute values split behaves as before. -/
theorem legalize_behavesAs (ho : m.Ordered) {p p' : Program} {sc sc' : Scratch}
    (hnames : p.anyNode (refersTo isAdded) = false) (htyped : p.anyNode isMistyped = false)
    (hrun : (legalize p).run.run sc = (.ok p', sc')) :
    p'.stage = p.stage ∧ p.BehavesAs isAdded m p' := by
  have hp := (Program.anyNode_eq_false_iff.mp hnames).imp₂ (Program.anyNode_eq_false_iff.mp htyped)
    fun e h h' => And.intro h h'
  -- Functions are split one by one, whatever their calls do.
  have hsplit (f : Function) (hf : f.All fun e => e.any (refersTo isAdded) = false ∧
      e.any isMistyped = false) :
      Yields (f.Becomes isAdded m) (liftM (withTemporaries splitNode f) : GenM Function) := by
    refine (Yields.of_forall_run fun sc call m' hm => ?_).lift
    exact runsAs_withTemporaries hm isAdded_minAbsTemp
      (fun e he => supplies_split (ho.withCalls call) hm e he.1 he.2) hf sc
  obtain ⟨hstage, hrebuilt⟩ :=
    (HoistInit.rebuilt isAdded_minAbsInit isMinAbs hsplit (fun e he => he.1) hp).of_run hrun
  exact ⟨hstage, hrebuilt.behavesAs⟩

/-- Minima of vectors in one another, with a scalar among their operands, and the initial value of a
    global. -/
theorem nested_minima_behaveAs :
    let m := Machine.orderedIntegers
    let s : Expr := .ofVar "s" .float
    let v : Expr := .ofVar "v" (.vec 2)
    let inner : Expr := .ofCall .min [.ofCall .abs [v], s]
    let outer : Expr := .ofCall .min [.ofCall .abs [inner], .ofUnary .preIncrement v]
    let value : Expr := .ofCall .min [.ofCall .abs [.float .one], .float .half]
    let p : Program := ⟨.fragment,
      [.global (.plain "s" .float (some value)), .global (.plain "v" (.vec 2) none),
        .function (.entry [.assign v outer])]⟩
    m.Ordered ∧ p.anyNode (refersTo isAdded) = false ∧ p.anyNode isMistyped = false ∧
      ∃ p' sc', (legalize p).run.run {} = (.ok p', sc') ∧ p'.anyNode isMinAbs = false ∧
        p'.stage = p.stage ∧ p.BehavesAs isAdded m p' := by
  intro m s v inner outer value p
  have hnames : p.anyNode (refersTo isAdded) = false := by decide
  have htyped : p.anyNode isMistyped = false := by decide
  obtain ⟨p', sc', hrun, hsplit⟩ := exists_ok_of_any (r := (legalize p).run.run {})
    (q := fun p' => !p'.anyNode isMinAbs) (by decide +kernel)
  -- The types and the names of the example are as the general statement demands.
  rw [Bool.not_eq_true'] at hsplit
  exact ⟨Machine.ordered_orderedIntegers, hnames, htyped, p', sc', hrun, hsplit,
    legalize_behavesAs Machine.ordered_orderedIntegers hnames htyped hrun⟩

end ShaderGen.Legalize.MinAbs
