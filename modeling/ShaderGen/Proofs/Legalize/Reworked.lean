import ShaderGen.Proofs.Legalize.Carried

/-!
# What rules do to expressions

Whatever a rule after fragment coordinates makes of a node is put together of what stands below it,
of plain nodes, and of assignments to temporaries; what such nodes refer to has a name that rules
make up (`IsCoined`). `Reworks R` says that a relation allows that; the relation then holds between
an expression and what any of these rules makes of it. Nothing here is about a certain rule that is
not also about a change to it, as long as it moves plain nodes around.

No rule brings in a short-circuit operator, and the rules that run after the one for conditions of
loops replace calls and swizzles only. `Refits` says that a relation allows certain nodes to be
replaced, and whether calls may be brought in.

A rule may also change which variable a write ends up in, by what it does on the path to it. No rule
puts anything else in the place of a variable or of a write itself (`Expr.staysPut`).

## Key results

- `Reworks.carried`: demands on expressions that such a relation keeps are carried on
-/

namespace ShaderGen

/-- A name that rules make up: a stem gives it out, or the helper functions have it. -/
def IsCoined (name : String) : Prop :=
  (∃ stem n, name = Stem.nth stem n) ∨ name = Legalize.IntAbs.helperName

/-- A numbered name is coined. -/
theorem isCoined_nth (stem : Stem) (n : Nat) : IsCoined (stem.nth n) := .inl ⟨stem, n, rfl⟩

namespace Expr

/-- The name that a node refers to. -/
def name? : Expr → Option String
  | .var _ name | .call _ (.user name) _ => some name
  | _ => none

/-- A node refers to the same over other children. -/
theorem name?_withChildren (e : Expr) (cs : List Expr) : (e.withChildren cs).name? = e.name? := by
  cases e with
  | call ty callee args => cases callee <;> rfl
  | _ => unfold withChildren; split <;> simp_all [name?]

/-- A type does not change a name. -/
theorem name?_withTy (e : Expr) (ty : Ty) : (e.withTy ty).name? = e.name? := by
  cases e with
  | call _ callee _ => cases callee <;> rfl
  | _ => rfl

/-- A node that is no built-in variable and writes nothing. -/
def isPlain : Expr → Bool
  | .builtin _ _ => false
  | .unary _ op _ => !op.writesOperand
  | .binary _ op _ _ => !op.isAssignment
  | _ => true

/-- A plain expression is no target. -/
theorem target?_of_isPlain {e : Expr} (h : e.isPlain = true) : e.target? = none := by
  cases e with
  | unary ty op operand => simpa [isPlain, target?] using h
  | binary ty op left right => simpa [isPlain, target?] using h
  | _ => rfl

/-- An expression is another or stands below it, with only plain nodes above it. -/
inductive Inside (e : Expr) : Expr → Prop where
  | self : Inside e e
  | child {d c : Expr} (h : Inside e d) (plain : d.isPlain = true) (mem : c ∈ d.children) :
      Inside e c

/-- A short-circuit operator. -/
def isShortCircuit : Expr → Bool
  | .binary _ .logicalAnd _ _ | .binary _ .logicalOr _ _ => true
  | _ => false

/-- A call of an intrinsic function or of a function of the program. -/
def isCall : Expr → Bool
  | .call _ _ _ => true
  | _ => false

/-- A plain node that is no short-circuit operator, and no call if there are to be none. -/
def isFiller (calls : Bool) (e : Expr) : Bool :=
  e.isPlain && !e.isShortCircuit && (!e.isCall || calls)

/-- An expression is put together of certain parts with plain nodes, none of them a short-circuit
    operator, and with assignments to temporaries. There may be calls among the nodes, or not. -/
inductive MadeOf (calls : Bool) (P : Expr → Prop) : Expr → Prop where
  | part {e : Expr} (h : P e) : MadeOf calls P e
  | node {e : Expr} (filler : e.isFiller calls = true) (named : ∀ name ∈ e.name?, IsCoined name)
      (children : ∀ c ∈ e.children, MadeOf calls P c) : MadeOf calls P e
  | temp {ty tempTy : Ty} {stem : Stem} {n : Nat} {value : Expr} (h : MadeOf calls P value) :
      MadeOf calls P (.binary ty .assign (.var tempTy (stem.nth n)) value)

/-- A variable or a node that writes. -/
def staysPut : Expr → Bool
  | .var _ _ | .builtin _ _ => true
  | e => e.target?.isSome

/-- A node that a rule after the one for conditions of loops may replace. -/
def isRefitted : Expr → Bool
  | .call _ _ _ | .swizzle _ _ _ => true
  | _ => false

/-- What is refitted does not stay in its place. -/
theorem staysPut_of_isRefitted {e : Expr} (h : e.isRefitted = true) : e.staysPut = false := by
  cases e with
  | call | swizzle => rfl
  | _ => exact absurd h (by simp [isRefitted])

/-- What fills a tree is plain. -/
theorem isPlain_of_isFiller {calls : Bool} {e : Expr} (h : e.isFiller calls = true) :
    e.isPlain = true :=
  (Bool.and_eq_true_iff.mp (Bool.and_eq_true_iff.mp h).1).1

/-- A variable is a temporary. -/
def IsTemp (e : Expr) : Prop := ∃ ty stem n, e = .var ty (Stem.nth stem n)

namespace MadeOf

variable {calls : Bool} {P : Expr → Prop} {ty : Ty} {e : Expr}

/-- Literals may be made. -/
theorem literal (value : Literal) : MadeOf calls P (.literal ty value) :=
  .node rfl nofun (by simp [children])

/-- Variables for temporaries may be made. -/
theorem temporary (stem : Stem) (n : Nat) : MadeOf calls P (.var ty (stem.nth n)) :=
  .node rfl (fun _ hname => Option.mem_some.mp hname ▸ isCoined_nth stem n) (by simp [children])

/-- Calls of functions of the language may be made. -/
theorem intrinsic {f : Intrinsic} {args : List Expr} (h : ∀ a ∈ args, MadeOf true P a) :
    MadeOf true P (.call ty (.intrinsic f) args) :=
  .node rfl nofun h

/-- Calls of coined functions may be made. -/
theorem userCall {name : String} {args : List Expr} (hname : IsCoined name)
    (h : ∀ a ∈ args, MadeOf true P a) : MadeOf true P (.call ty (.user name) args) :=
  .node rfl (fun _ hsame => Option.mem_some.mp hsame ▸ hname) h

/-- Constructors may be made. -/
theorem construct {args : List Expr} (h : ∀ a ∈ args, MadeOf calls P a) :
    MadeOf calls P (.construct ty args) :=
  .node rfl nofun h

/-- Swizzles may be made. -/
theorem swizzle {mask : Mask} (h : MadeOf calls P e) : MadeOf calls P (.swizzle ty e mask) :=
  .node rfl nofun (by simpa [children] using h)

/-- Groups may be made. -/
theorem group (h : MadeOf calls P e) : MadeOf calls P (.group ty e) :=
  .node rfl nofun (by simpa [children] using h)

/-- Operators that fill may be made. -/
theorem binary {op : BinaryOp} {right : Expr}
    (filler : (binary ty op e right).isFiller calls = true) (hl : MadeOf calls P e)
    (hr : MadeOf calls P right) : MadeOf calls P (.binary ty op e right) :=
  .node filler nofun (by simpa [children] using ⟨hl, hr⟩)

/-- Choices may be made. -/
theorem ternary {a b : Expr} (hcond : MadeOf calls P e) (ha : MadeOf calls P a)
    (hb : MadeOf calls P b) : MadeOf calls P (.ternary ty e a b) :=
  .node rfl nofun (by simpa [children] using ⟨hcond, ha, hb⟩)

/-- The type of what is made may be another one. -/
theorem withTy (filler : e.isFiller calls = true) (named : ∀ name ∈ e.name?, IsCoined name)
    (h : ∀ c ∈ e.children, MadeOf calls P c) : MadeOf calls P (e.withTy ty) := by
  refine .node ?_ (name?_withTy e ty ▸ named) (by simpa using h)
  cases e with
  | binary _ op => cases op <;> exact filler
  | _ => exact filler

end MadeOf

/-! ### Nodes that are not brought in -/

section

variable {q : Expr → Bool} {calls : Bool} {e : Expr}

/-- What stands inside an expression without certain nodes has none of them either. -/
theorem Inside.any_eq_false {d : Expr} (h : Inside e d) (he : e.any q = false) :
    d.any q = false := by
  induction h with
  | self => exact he
  | child _ _ hmem ih => exact (any_eq_false_iff.mp ih).2 _ hmem

/-- Nor has what is put together without them, of parts that have none. -/
theorem MadeOf.any_eq_false {P : Expr → Prop} (h : MadeOf calls P e)
    (hfiller : ∀ n, n.isFiller calls = true → q n = false)
    (hassign : ∀ ty target value, q (.binary ty .assign target value) = false)
    (hP : ∀ d, P d → d.any q = false) : e.any q = false := by
  induction h with
  | part hd => exact hP _ hd
  | node filler _ _ ih => exact any_eq_false_iff.mpr ⟨hfiller _ filler, ih⟩
  | temp _ ih =>
    refine any_eq_false_iff.mpr ⟨hassign _ _ _, List.forall_mem_cons.mpr ⟨?_, ?_⟩⟩
    · exact any_eq_false_iff.mpr ⟨hfiller _ rfl, nofun⟩
    · exact List.forall_mem_singleton.mpr ih

/-- Putting other children without certain nodes below a node brings in none, if they are told by
    what a node is without its children. -/
theorem isCongruence_avoids (hq : ∀ (e : Expr) cs, q (e.withChildren cs) = q e) :
    IsCongruence fun e e' => e.any q = false → e'.any q = false where
  trans h h' := h' ∘ h
  congr {e cs} hcs he := by
    obtain ⟨hnode, hchildren⟩ := any_eq_false_iff.mp he
    refine any_eq_false_iff.mpr ⟨(hq e cs).trans hnode, fun c' hc' => ?_⟩
    obtain ⟨c, hc, hrelated⟩ := exists_related_child hcs c' hc'
    exact hrelated (hchildren c hc)

end

end Expr

namespace Legalize

open ShaderGen.Expr

/-- A relation between expressions that allows certain nodes to be replaced, by calls or not. -/
structure Refits (calls : Bool) (replaced : Expr → Bool) (R : Expr → Expr → Prop) : Prop extends
    IsCongruence R where
  refl : ∀ e, R e e
  remake : ∀ {e e'}, replaced e = true → e'.MadeOf calls e.Inside →
    (∀ v ∈ e'.reached, v ∈ e.reached ∨ v.IsTemp) → R e e'

/-- A relation between expressions that allows what rules do to a node. -/
structure Reworks (R : Expr → Expr → Prop) : Prop extends IsCongruence R where
  refl : ∀ e, R e e
  remake : ∀ {e e'}, e.staysPut = false → e'.MadeOf true e.Inside →
    (∀ v ∈ e'.reached, v ∈ e.reached ∨ v.IsTemp) → R e e'
  counter : ∀ ty, R (.builtin ty .invocationId) Invocations.counter

/-- Rules bring in no nodes of a kind that is no filler. -/
theorem refits_avoids {q : Expr → Bool} {calls : Bool} (replaced : Expr → Bool)
    (hq : ∀ (e : Expr) cs, q (e.withChildren cs) = q e)
    (hfiller : ∀ n, n.isFiller calls = true → q n = false)
    (hassign : ∀ ty target value, q (.binary ty .assign target value) = false) :
    Refits calls replaced fun e e' => e.any q = false → e'.any q = false where
  trans := (isCongruence_avoids hq).trans
  congr := (isCongruence_avoids hq).congr
  refl _ := id
  remake _ hmade _ he := hmade.any_eq_false hfiller hassign fun _ hd => hd.any_eq_false he

namespace Refits

variable {calls : Bool} {replaced : Expr → Bool} {R : Expr → Expr → Prop}

/-- What is put in the place of a node is no way to a variable. -/
theorem remake_unreached (hR : Refits calls replaced R) {e e' : Expr} (he : replaced e = true)
    (h : e'.MadeOf calls e.Inside) (hreached : e'.reached = []) : R e e' :=
  hR.remake he h (by simp [hreached])

/-- A resolved lookup is made of the arguments of the lookup. -/
theorem resolve (hR : Refits true isRefitted R) (profile : Profile) (e : Expr) :
    Yields (R e) (TextureLookup.resolveNode profile e) := by
  unfold TextureLookup.resolveNode
  split
  · next ty args =>
    refine .after fun r => .pure (hR.remake_unreached rfl (.intrinsic fun a ha => ?_) rfl)
    -- The arguments are parts of the call, and the bias that may be added is a literal.
    have hargs : ∀ a ∈ args, MadeOf true (Inside (.call ty (.intrinsic .sample) args)) a :=
      fun a ha => .part (.child .self rfl ha)
    unfold TextureLookup.biased at ha
    split at ha
    · rcases List.mem_append.mp ha with ha | ha
      · exact hargs a ha
      · rw [List.mem_singleton.mp ha]
        exact .literal _
    · exact hargs a ha
  · exact .pure (hR.refl _)

/-- An expanded power is made of its base and exponent. -/
theorem expand (hR : Refits true isRefitted R) (e : Expr) :
    Yields (R e) (ConstantPow.expandNode e) := by
  unfold ConstantPow.expandNode
  split
  · next ty base exponent =>
    split
    · -- Base and exponent are parts of the power.
      have hbase : MadeOf true (Inside (.call ty (.intrinsic .pow) [base, exponent])) base :=
        .part (.child .self rfl (by simp [children]))
      have hexponent : MadeOf true (Inside (.call ty (.intrinsic .pow) [base, exponent]))
          exponent :=
        .part (.child .self rfl (by simp [children]))
      have hlog : MadeOf true (Inside (.call ty (.intrinsic .pow) [base, exponent]))
          (.ofCall .log2 [base]) :=
        .intrinsic (List.forall_mem_singleton.mpr hbase)
      refine .pure (hR.remake_unreached rfl (.intrinsic (List.forall_mem_singleton.mpr ?_)) rfl)
      exact .binary rfl hexponent hlog
    · exact .pure (hR.refl _)
  · exact .error _
  · exact .pure (hR.refl _)

/-- The call of a helper is made of the operand. -/
theorem emulate (hR : Refits true isRefitted R) (e : Expr) :
    Yields (R e) (IntAbs.emulateNode e) := by
  refine IntAbs.emulateNode_holds (P := Yields (R e)) (.pure (hR.refl e)) ?_
  rintro ty args rfl -
  -- The new node is a call of a helper with the operands of the old one.
  refine .after fun _ => .pure (hR.remake_unreached rfl ?_ rfl)
  exact .userCall (.inr rfl) fun a ha => .part (.child .self rfl ha)

/-- Comparing two temporaries, each assigned first. -/
theorem compareTemps (hR : Refits calls replaced R) {e a b : Expr} (he : replaced e = true)
    (ty firstTy secondTy : Ty) (stem : Stem) (n k : Nat) (ha : MadeOf calls e.Inside a)
    (hb : MadeOf calls e.Inside b) :
    R e (MinAbs.compareTemps ty (.ofVar (stem.nth n) firstTy) (.ofVar (stem.nth k) secondTy)
      a b) := by
  -- A temporary is picked from by lane, unless it is a scalar.
  have hlane : ∀ n varTy i,
      MadeOf calls e.Inside (MinAbs.lane (.ofVar (stem.nth n) varTy) i) := by
    intro n varTy i
    unfold MinAbs.lane
    split
    · exact .temporary stem n
    · exact .swizzle (.temporary stem n)
  unfold MinAbs.compareTemps
  -- Scalars are compared in one choice, vectors lane by lane in a constructor.
  split
  · refine hR.remake he (.group (.ternary (.binary rfl (.temp ha) (.temp hb)) (.temporary _ _)
      (.temporary _ _)))
      fun v hv => .inr ?_
    have hv : v = .var firstTy (stem.nth n) ∨ v = .var secondTy (stem.nth k) := by
      simpa [reached, ofGroup, ofTernary, ofVar] using hv
    rcases hv with rfl | rfl
    · exact ⟨_, _, _, rfl⟩
    · exact ⟨_, _, _, rfl⟩
  · refine hR.remake_unreached he (.group (.binary rfl (.binary rfl (.temp ha) (.temp hb))
      (.construct fun d hd => ?_))) rfl
    obtain ⟨i, -, rfl⟩ := List.mem_map.mp hd
    exact .ternary (.binary rfl (hlane _ _ i) (hlane _ _ i)) (hlane _ _ i) (hlane _ _ i)

/-- A split minimum is made of its two operands, each stored in a temporary. -/
theorem split (hR : Refits calls replaced R)
    (hmin : ∀ ty args, replaced (.call ty (.intrinsic .min) args) = true) {N : String → Prop}
    (hN : ∀ stem n, N (Stem.nth stem n)) (e : Expr) :
    (declaring N).Holds (R e) (MinAbs.splitNode e) := by
  unfold MinAbs.splitNode
  split
  · next ty absTy args other =>
    -- Two temporaries are drawn, for the two operands.
    refine (declaring N).bind (declaring_freshTemp (hN _) _) ?_
    rintro _ ⟨n, rfl⟩
    refine (declaring N).bind (declaring_freshTemp (hN _) _) ?_
    rintro _ ⟨k, rfl⟩
    refine (declaring N).pure (hR.compareTemps (hmin _ _) _ _ _ _ _ _ ?_ ?_)
    · exact .part (.child .self rfl (by simp [children]))
    · exact .part (.child .self rfl (by simp [children]))
  · exact (declaring N).pure (hR.refl _)

/-- What guards an operand is made of its sign and of the fraction of its absolute value. -/
theorem madeOf_guarded {P : Expr → Prop} {x : Expr} (ty : Ty)
    (hsign : MadeOf calls P (.ofCall .sign [x]))
    (hfract : MadeOf calls P (.ofCall .fract [.ofCall .abs [x]])) :
    MadeOf calls P (Fract.guarded x ty) :=
  .group (.binary rfl (.literal _) (.binary rfl hsign (.binary rfl (.literal _) hfract)))

/-- A guarded fraction is made of its operand. -/
theorem madeOf_guarded_operand {P : Expr → Prop} {x : Expr} (ty : Ty) (h : MadeOf true P x) :
    MadeOf true P (Fract.guarded x ty) := by
  have hcall : ∀ f {y : Expr}, MadeOf true P y → MadeOf true P (.ofCall f [y]) :=
    fun f y hy => .intrinsic (List.forall_mem_singleton.mpr hy)
  exact madeOf_guarded ty (hcall _ h) (hcall _ (hcall _ h))

/-- The operand of a fraction is inside of the fraction. -/
theorem operand_inside {e x : Expr} (h : Fract.operand? e = some x) :
    e.isRefitted = true ∧ Inside e x := by
  obtain ⟨ty, -, rfl⟩ := Fract.eq_of_operand? h
  exact ⟨rfl, .child .self rfl List.mem_cons_self⟩

/-- So is one whose operand is stored first. -/
theorem guard (hR : Refits true isRefitted R) {N : String → Prop}
    (hN : ∀ stem n, N (Stem.nth stem n)) (e : Expr) :
    (declaring N).Holds (R e) (Fract.guardNode e) := by
  unfold Fract.guardNode
  split
  · next x hx =>
    obtain ⟨he, hinside⟩ := operand_inside hx
    have hx : MadeOf true e.Inside x := .part hinside
    -- With effects the operand goes into the temporary, without them it is copied.
    split
    · refine (declaring N).bind (declaring_freshTemp (hN _) _) ?_
      rintro _ ⟨n, rfl⟩
      refine (declaring N).pure (hR.remake_unreached he ?_ rfl)
      exact .binary rfl (.temp hx) (madeOf_guarded_operand _ (.temporary _ _))
    · exact (declaring N).pure (hR.remake_unreached he (madeOf_guarded_operand _ hx) rfl)
  · exact (declaring N).pure (hR.refl e)

/-- The same without temporaries. -/
theorem guardPure (hR : Refits true isRefitted R) (e : Expr) : R e (Fract.guardPure e) := by
  unfold Fract.guardPure
  split
  · next x hx =>
    obtain ⟨he, hinside⟩ := operand_inside hx
    exact hR.remake_unreached he (madeOf_guarded_operand _ (.part hinside)) rfl
  · exact hR.refl e

/-- The product is made of what was negated. -/
theorem multiply (hR : Refits true isRefitted R) (e : Expr) : R e (AtanOperand.multiplyNode e) := by
  refine AtanOperand.multiplyNode_holds (P := R e) (hR.refl e) ?_
  rintro ty y xTy x rfl -
  -- The second operand is the inside of the negation.
  have hy : Inside (.call ty (.intrinsic .atan) [y, .unary xTy .neg x]) y :=
    .child .self rfl (by simp [children])
  have hneg : Inside (.call ty (.intrinsic .atan) [y, .unary xTy .neg x]) (.unary xTy .neg x) :=
    .child .self rfl (by simp [children])
  have hx := hneg.child rfl (by simp [children] : x ∈ (Expr.unary xTy .neg x).children)
  refine hR.remake_unreached rfl (.intrinsic ?_) rfl
  refine List.forall_mem_cons.mpr ⟨.part hy, List.forall_mem_singleton.mpr ?_⟩
  exact .binary rfl (.literal _) (.part hx)

/-! ### Swizzles -/

/-- The literals of a mask may be made. -/
theorem madeOf_literalArgs {P : Expr → Prop} (kind : ScalarKind) (mask : Mask) :
    ∀ e ∈ literalArgs kind mask, MadeOf calls P e := by
  intro e he
  obtain ⟨s, -, rfl⟩ := List.mem_map.mp he
  unfold Expr.unit
  split <;> exact .literal _

/-- A selection is made of its base. -/
theorem madeOf_select {P : Expr → Prop} {base : Expr} (mask : Mask) (h : MadeOf calls P base) :
    MadeOf calls P (base.select mask) :=
  select_holds h (fun _ => .construct (by simpa using h)) (.swizzle h)

/-- A selection reaches what its base reaches. -/
theorem reached_select (base : Expr) (mask : Mask) :
    ∀ v ∈ (base.select mask).reached, v ∈ base.reached :=
  select_holds (P := fun e => ∀ v ∈ e.reached, v ∈ base.reached) (fun _ => id)
    (fun ty => by simp [ofConstruct, reached]) (by simp [ofSwizzle, reached])

/-- A selection from a constructor reaches nothing. -/
theorem select_withTy {P : Expr → Prop} {args : List Expr} (consTy ty : Ty) (mask : Mask)
    (h : ∀ e ∈ args, MadeOf calls P e) :
    MadeOf calls P (((ofConstruct consTy args).select mask).withTy ty) ∧
      (((ofConstruct consTy args).select mask).withTy ty).reached = [] := by
  -- Whatever is selected, the type is put on the outermost node.
  have hinside : ∀ e ∈ [ofConstruct consTy args], MadeOf calls P e :=
    List.forall_mem_singleton.mpr (.construct h)
  exact select_holds (P := fun e => MadeOf calls P (e.withTy ty) ∧ (e.withTy ty).reached = [])
    ⟨.withTy rfl nofun h, rfl⟩ (fun _ => ⟨.withTy rfl nofun hinside, rfl⟩)
    ⟨.withTy rfl nofun hinside, rfl⟩

/-- What a swizzle with constants becomes is made of its base, and reaches no more. -/
theorem madeOf_selectWithLiterals {P : Expr → Prop} {base : Expr} (mask : Mask) (ty : Ty)
    (hbase : MadeOf calls P base) :
    MadeOf calls P (base.selectWithLiterals mask ty) ∧
      ∀ v ∈ (base.selectWithLiterals mask ty).reached, v ∈ base.reached := by
  have hconstants : ∀ d ∈ literalArgs base.ty.componentKind mask, MadeOf calls P d :=
    madeOf_literalArgs _ mask
  unfold Expr.selectWithLiterals
  split
  · exact ⟨madeOf_select mask hbase, reached_select base mask⟩
  · -- With literals the result is a constructor, or a selection from one, so it reaches nothing.
    dsimp only
    split
    · split
      · exact ⟨.binary rfl hbase (.construct hconstants), nofun⟩
      · exact ⟨.construct hconstants, nofun⟩
    · obtain ⟨hmade, hnone⟩ := select_withTy ty ty _
        (List.forall_mem_cons.mpr ⟨madeOf_select _ hbase, hconstants⟩)
      exact ⟨hmade, by simp [hnone]⟩

/-- A normalized swizzle is made of the base under all swizzles. -/
theorem normalize (hR : Refits calls replaced R)
    (hswizzle : ∀ ty base mask, replaced (.swizzle ty base mask) = true) (e : Expr) :
    Yields (R e) (Expr.normalizeSwizzle e) := by
  refine .of_forall_ok fun e' he' => ?_
  unfold Expr.normalizeSwizzle at he'
  split at he'
  · next ty base mask =>
    have hbase : Inside (.swizzle ty base mask) base := .child .self rfl (by simp [children])
    -- One swizzle of another goes down to the base of the inner one.
    have hflat : Inside (.swizzle ty base mask) (flattenSwizzle base mask).1 ∧
        ∀ v ∈ (flattenSwizzle base mask).1.reached, v ∈ base.reached := by
      unfold flattenSwizzle
      split
      · split
        · exact ⟨hbase.child rfl (by simp [children]), fun v hv => hv⟩
        · exact ⟨hbase, fun _ => id⟩
      · exact ⟨hbase, fun _ => id⟩
    dsimp only at he'
    split at he'
    · exact absurd he' (by simp)
    · obtain rfl := Except.ok.inj he'
      obtain ⟨hmade, hreached⟩ := madeOf_selectWithLiterals _ ty (.part hflat.1)
      exact hR.remake (hswizzle _ _ _) hmade fun v hv => .inl (hflat.2 v (hreached v hv))
  · obtain rfl := Except.ok.inj he'
    exact hR.refl _

end Refits

namespace Reworks

variable {R : Expr → Expr → Prop}

/-- A relation for reworked nodes is one for refitted nodes. -/
theorem refits (hR : Reworks R) : Refits true isRefitted R where
  trans := hR.trans
  congr := hR.congr
  refl := hR.refl
  remake he := hR.remake (staysPut_of_isRefitted he)

/-! ### Rules before the one for conditions of loops -/

/-- The counter stands in for a built-in variable. -/
theorem readCounter (hR : Reworks R) (e : Expr) : R e (Invocations.readCounter e) := by
  unfold Invocations.readCounter
  split
  · exact hR.counter _
  · exact hR.refl _

/-- The arm that a choice collapses to stands inside the choice. -/
theorem collapse_inside {e d : Expr} (h : Inside e d) :
    Inside e (TernaryTarget.collapse d) ∧
      ∀ v ∈ (TernaryTarget.collapse d).reached, v ∈ d.reached := by
  refine TernaryTarget.collapse_holds
    (P := fun d' => Inside e d' ∧ ∀ v ∈ d'.reached, v ∈ d.reached) ⟨h, fun _ => id⟩ ?_ ?_
  -- A choice reaches what its arms reach.
  · rintro ty cond a b ⟨hin, hreached⟩
    exact ⟨.child hin rfl (by simp [children]), fun v hv =>
      hreached v (List.mem_append_left _ hv)⟩
  · rintro ty cond a b ⟨hin, hreached⟩
    exact ⟨.child hin rfl (by simp [children]), fun v hv =>
      hreached v (List.mem_append_right _ hv)⟩

/-- A collapsed target is one of the arms of the target, which was inside of it. -/
theorem collapse (hR : Reworks R) (e : Expr) : R e (TernaryTarget.collapseNode e) := by
  -- Collapsing gives an arm or the expression itself, and what is reached was reached.
  have harm : ∀ e, R e (TernaryTarget.collapse e) := by
    intro e
    cases e with
    | ternary ty cond a b =>
      have h := collapse_inside (d := .ternary ty cond a b) .self
      exact hR.remake rfl (.part h.1) fun v hv => .inl (h.2 v hv)
    | _ => exact hR.refl _
  refine TernaryTarget.collapseNode_holds (P := R e) (hR.refl e) ?_ ?_
  · rintro ty op left right rfl -
    exact hR.congr (e := .binary ty op left right)
      (.cons (harm left) (.cons (hR.refl right) .nil))
  · rintro ty op operand rfl -
    exact hR.congr (e := .unary ty op operand) (.cons (harm operand) .nil)

/-- The choice is made of the operands and a literal. -/
theorem unfold (hR : Reworks R) (e : Expr) : R e (ShortCircuit.unfoldNode e) := by
  unfold ShortCircuit.unfoldNode
  split
  · -- A conjunction: the right operand is what can still be reached.
    refine hR.remake rfl (.ternary ?_ ?_ (.literal _)) fun v hv => .inl ?_
    · exact .part (.child .self rfl (by simp [children]))
    · exact .part (.child .self rfl (by simp [children]))
    · simp only [ofTernary, Expr.bool, reached, List.append_nil] at hv
      exact List.mem_append_right _ hv
  · -- A disjunction: the same on the other side.
    refine hR.remake rfl (.ternary ?_ (.literal _) ?_) fun v hv => .inl ?_
    · exact .part (.child .self rfl (by simp [children]))
    · exact .part (.child .self rfl (by simp [children]))
    · simp only [ofTernary, Expr.bool, reached, List.nil_append] at hv
      exact List.mem_append_right _ hv
  · exact hR.refl _

/-! ### All rules -/

/-- Demands on expressions that such a relation keeps are carried on, if what rules bring in is as
    asked and the prologue is left alone. -/
theorem carried (hR : Reworks R) {c : Demand} (hkeeps : ∀ {e e'}, R e e' → c.exprs e → c.exprs e')
    (hprologue : ∀ s ∈ c.prologue, ∃ d, s = .decl d ∧ ∀ e ∈ d.init, Inert e)
    (hfresh : ∀ stem n, c.names (Stem.nth stem n))
    (harms : ∀ ty choiceTy op cond a b value, op.isAssignment = true →
      c.exprs (.binary ty op (.ternary choiceTy cond a b) value) →
        c.exprs cond ∧ ∀ ty, c.exprs (.binary ty op a value) ∧ c.exprs (.binary ty op b value))
    (hnegated : ∀ ty e, c.exprs (.unary ty .not e) ↔ c.exprs e)
    (handTrue : ∀ e, c.exprs e → c.exprs (LoopCondition.andTrue e))
    (hmade : ∀ e, e.MadeOf true (fun _ => False) → c.exprs e)
    (hrunAll : ∀ count, ∀ s ∈ (Invocations.runAll count).body, s.Fits c.names c.exprs)
    (hfunctions : ∀ stem n, c.functions (Stem.nth stem n) := by intros; trivial)
    (hinvoked : c.functions Invocations.invokeName := by trivial)
    (hentry : c.functions Function.entryName := by trivial) :
    Carried c where
  prologue := hprologue
  fresh := hfresh
  freshFunction := hfunctions
  invoked := hinvoked
  entry := hentry
  -- Each rewrite is lifted from nodes to trees, and then the demand goes over.
  resolve profile e he :=
    (hR.bottomUpM_holds .yields (hR.refits.resolve profile) e).mono fun _ h => hkeeps h he
  readCounter e := hkeeps (hR.bottomUp hR.readCounter e)
  collapse e := hkeeps (hR.bottomUp hR.collapse e)
  unfold e := hkeeps (hR.bottomUp hR.unfold e)
  expand e he := (hR.bottomUpM_holds .yields hR.refits.expand e).mono fun _ h => hkeeps h he
  emulate e he := (hR.bottomUpM_holds .yields hR.refits.emulate e).mono fun _ h => hkeeps h he
  split e he := (declaring c.names).mono
    (hR.bottomUpM_holds (declaring c.names) (hR.refits.split (fun _ _ => rfl) hfresh) e)
    fun _ h => hkeeps h he
  guard e he := (declaring c.names).mono
    (hR.bottomUpM_holds (declaring c.names) (hR.refits.guard hfresh) e) fun _ h => hkeeps h he
  guardPure e := hkeeps (hR.bottomUp hR.refits.guardPure e)
  multiply e := hkeeps (hR.bottomUp hR.refits.multiply e)
  normalize e he := (hR.bottomUpM_holds .yields (hR.refits.normalize fun _ _ _ => rfl) e).mono
    fun _ h => hkeeps h he
  arms := harms
  negated := hnegated
  andTrue := handTrue
  bool value := hmade _ (.literal _)
  flag n := ⟨hmade _ (.temporary _ _), hmade _ (.temp (.literal _))⟩
  userCall stem n ty := hmade _ (.userCall (isCoined_nth stem n) (by simp))
  runAll := hrunAll

end Reworks

end Legalize

end ShaderGen
