import ShaderGen.Proofs.Checked
import ShaderGen.Proofs.Legalize.Kept
import ShaderGen.Proofs.Typing.Swizzles

/-!
# Checked programs become sound

A program without a defect has masks in range, and if its nodes are typed as well, the rules up to
the one for fragment coordinates make it sound. These rules see nodes that are not sound yet: sizes
of the render target, which become uniforms of their shape, and assignments to clip positions, which
are forwarded and therefore have to have the shape of what they assign to (`Expr.isSettled`). The
rules after them keep the program sound, up to the rule for swizzles.

## Key results

- `Program.all_masksInRange`: what the check says about masks
- `Legalize.carried_sound`: what the rules after fragment coordinates carry on
- `Legalize.yields_sound`: what comes before the rule for swizzles makes a checked program sound
-/

namespace ShaderGen

/-! ### What the check says about masks -/

/-- The check of the input covers what the pass demands of a mask. -/
theorem Mask.maskDefect?_of_defect? {mask : Mask} {base : Ty} {target : Bool}
    (h : mask.defect? base target = none) : Expr.maskDefect? base mask = none := by
  unfold Mask.defect? at h
  unfold Expr.maskDefect?
  split at h
  · exact absurd h nofun
  · next hlength =>
    split at h
    · exact absurd h nofun
    · -- Both checks look at the width of the base, one of them before the length of the mask.
      cases hwidth : base.swizzleWidth? with
      | none =>
        rw [hwidth] at h
        exact absurd h nofun
      | some width =>
        rw [hwidth] at h
        dsimp only at h ⊢
        rw [if_neg hlength]
        split at h
        · exact absurd h nofun
        · next hpast => rw [hpast]; rfl

namespace Expr

/-- Arguments without a defect have none each. -/
theorem listDefect?_eq_none {depth : Nat} {es : List Expr} (h : listDefect? depth es = none) :
    ∀ e ∈ es, e.defect? depth false = none := by
  induction es with
  | nil => exact fun e he => absurd he List.not_mem_nil
  | cons e es ih =>
    obtain ⟨he, hes⟩ := (Option.orElse_eq_none _ _).mp h
    exact List.forall_mem_cons.mpr ⟨he, ih hes⟩

/-- An expression without a defect has masks in range. -/
theorem every_masksInRange {e : Expr} {depth : Nat} {target : Bool}
    (h : e.defect? depth target = none) : e.Every masksInRange := by
  induction e generalizing depth target with
  | literal | var | builtin => exact every_iff.mpr ⟨rfl, by simp [children]⟩
  -- The check goes down from the root and says what is wrong first, so no defect means none below.
  | unary ty op operand ih =>
    simp only [defect?, Option.orElse_eq_none] at h
    exact every_iff.mpr ⟨rfl, by simpa [children] using ih h.2⟩
  | binary ty op left right ihl ihr =>
    simp only [defect?, Option.orElse_eq_none] at h
    exact every_iff.mpr ⟨rfl, by simpa [children] using ⟨ihl h.2.1, ihr h.2.2⟩⟩
  | ternary ty cond a b ihc iha ihb =>
    simp only [defect?, Option.orElse_eq_none] at h
    exact every_iff.mpr ⟨rfl, by simpa [children] using ⟨ihc h.2.1, iha h.2.2.1, ihb h.2.2.2⟩⟩
  -- Of a list the check gives the first defect, so no argument has one.
  | call ty callee args ih | construct ty args ih =>
    simp only [defect?, Option.orElse_eq_none] at h
    exact every_iff.mpr ⟨rfl, fun arg harg => ih arg harg (listDefect?_eq_none h.2 arg harg)⟩
  | swizzle ty base mask ih =>
    simp only [defect?, Option.orElse_eq_none] at h
    refine every_iff.mpr ⟨?_, by simpa [children] using ih h.2.2⟩
    simp [masksInRange, Mask.maskDefect?_of_defect? h.2.1]
  | index ty base position ihb ihp =>
    simp only [defect?, Option.orElse_eq_none] at h
    exact every_iff.mpr ⟨rfl, by simpa [children] using ⟨ihb h.2.1, ihp h.2.2⟩⟩
  | group ty inner ih =>
    simp only [defect?, Option.orElse_eq_none] at h
    exact every_iff.mpr ⟨rfl, by simpa [children] using ih h.2⟩

end Expr

/-- In a program without a defect every mask fits its base. -/
theorem Program.all_masksInRange {p : Program} (h : p.defect? = none) :
    p.All (Expr.Every Expr.masksInRange) :=
  (Program.all_checked h).mono fun _ ⟨_, he⟩ => Expr.every_masksInRange he

/-! ### Before the size of the render target is settled -/

namespace Expr

/-- Whether a node is typed, and its mask is in range. -/
def isReady (e : Expr) : Bool := e.agrees && (e.masksInRange && e.assignsInShape)

/-- Whether a node is sound, and has the shape of what it assigns to. -/
def isSettled (e : Expr) : Bool := e.isSound && e.assignsInShape

/-- Being ready is read off a node and the types of its children. -/
theorem isLocal_isReady : IsLocal isReady :=
  isLocal_agrees.and (isLocal_masksInRange.and isLocal_assignsInShape)

/-- So is being settled. -/
theorem isLocal_isSettled : IsLocal isSettled := isLocal_isSound.and isLocal_assignsInShape

/-- A node looks at the shape of its type alone. -/
theorem isReady_withTy {e : Expr} {ty : Ty} (h : e.ty.Twin ty) :
    (e.withTy ty).isReady = e.isReady := by
  have hshape : e.ty.shape = ty.shape := h
  have hkind := h.componentKind
  have hok := h.isScalarOrVector
  -- Only a minimum and the nodes below look at the type they are given.
  cases e with
  | call t callee args =>
    cases callee with
    | user name => rfl
    | intrinsic f =>
      cases f with
      | min =>
        have hargs : args.all (spreadsTo ty) = args.all (spreadsTo t) := by
          refine List.all_congr rfl fun arg => ?_
          simp only [spreadsTo, ← hkind, ← hshape, Expr.ty]
        simp only [withTy, isReady, agrees, ← hok, hargs, Expr.ty]
        rfl
      | _ => rfl
  | builtin | swizzle =>
    simp only [withTy, isReady, agrees, masksInRange, assignsInShape, ← hshape, Expr.ty]
  | binary t op left right =>
    cases op <;>
      simp only [withTy, isReady, agrees, masksInRange, assignsInShape, ← hshape, Expr.ty]
  | _ => rfl

end Expr

namespace Legalize

open ShaderGen.Expr

variable {e : Expr}

/-- A raised precision leaves the shapes as they are. -/
theorem raiseNode_becomes (hnode : e.isReady = true)
    (hchildren : ∀ c ∈ e.children, c.Every isReady) :
    e.Becomes isReady (HighPrecision.raiseNode e) := by
  have hshape : e.ty.Twin (HighPrecision.raiseTy e.ty) := rfl
  refine ⟨every_iff.mpr ⟨(isReady_withTy hshape).trans hnode, ?_⟩, ?_⟩
  · simpa [HighPrecision.raiseNode] using hchildren
  · rw [HighPrecision.raiseNode, ty_withTy]
    exact hshape

/-- The uniforms have the shape of the sizes that they stand for. -/
theorem substituteNode_becomes (hnode : e.isReady = true)
    (hchildren : ∀ c ∈ e.children, c.Every isSettled) :
    e.Becomes isSettled (TargetSize.substituteNode e) := by
  have hleaf : ∀ name, (Expr.ofVar name .float).Every isSettled :=
    fun _ => every_iff.mpr ⟨rfl, fun _ hc => absurd hc List.not_mem_nil⟩
  simp only [isReady, Bool.and_eq_true] at hnode
  unfold TargetSize.substituteNode
  split
  · next hwidth =>
    -- The uniform has the type of the size it replaces, up to precision.
    obtain ⟨ty, rfl⟩ : ∃ ty, e = .builtin ty .width := by
      unfold TargetSize.isWidth at hwidth
      split at hwidth
      · exact ⟨_, rfl⟩
      · exact absurd hwidth nofun
    have hshape : ty.shape = Builtin.width.ty.shape := by simpa [agrees] using hnode.1
    exact ⟨hleaf _, hshape⟩
  · next hwidth =>
    split
    · next hheight =>
      obtain ⟨ty, rfl⟩ : ∃ ty, e = .builtin ty .height := by
        unfold TargetSize.isHeight at hheight
        split at hheight
        · exact ⟨_, rfl⟩
        · exact absurd hheight nofun
      have hshape : ty.shape = Builtin.height.ty.shape := by simpa [agrees] using hnode.1
      exact ⟨hleaf _, hshape⟩
    · next hheight =>
      refine .same ?_ hchildren
      -- A node that is no size is settled if it is ready.
      have hsize : e.isSize = false := by
        unfold isSize
        split
        · exact absurd rfl hwidth
        · exact absurd rfl hheight
        · rfl
      simp [isSettled, isSound, hnode, hsize]

/-- The local variable has the shape of the coordinate. -/
theorem readLocal_becomes (prologue : FragCoord.Prologue) (hnode : e.isSettled = true)
    (hchildren : ∀ c ∈ e.children, c.Sound) :
    e.Becomes isSound (FragCoord.readLocal prologue e) := by
  rw [isSettled, Bool.and_eq_true] at hnode
  unfold FragCoord.readLocal
  split
  · next hcoord =>
    unfold FragCoord.isFragCoord at hcoord
    split at hcoord
    · next ty =>
      -- The local has the type of the read, which is the shape the coordinate has.
      have hshape : ty.shape = Builtin.fragCoord.ty.shape := by
        simpa [isSound, agrees, masksInRange, isSize] using hnode.1
      exact ⟨sound_var _, hshape⟩
    · cases hcoord
  · exact .same hnode.1 hchildren

/-- An assignment to the clip position has its shape, and so has the assignment that forwards it. -/
theorem forwardNode_becomes (hnode : e.isSettled = true) (hchildren : ∀ c ∈ e.children, c.Sound) :
    e.Becomes isSound (FragCoord.forwardNode e) := by
  rw [isSettled, Bool.and_eq_true] at hnode
  unfold FragCoord.forwardNode
  split
  · next hassigns =>
    unfold FragCoord.assignsPosition at hassigns
    split at hassigns
    · -- The varying takes the place of the position, so both must have one shape.
      next ty op positionTy right =>
      refine ⟨(sound_binary (by decide)).mpr ⟨sound_var _, sound_of_node hnode.1 hchildren⟩, ?_⟩
      have hposition : positionTy.shape = Builtin.position.ty.shape := by
        simpa [isSound, agrees, masksInRange, isSize] using
          (hchildren (.builtin positionTy .position) (by simp [children])).node
      have hwritten : ty.shape = (Expr.builtin positionTy .position).ty.shape := by
        simpa [assignsInShape, hassigns] using hnode.2
      exact hwritten.trans hposition
    · cases hassigns
  · exact .same hnode.1 hchildren

/-! ### Programs -/

section

variable {t : Target} {p : Program}

/-- Raised precisions leave a ready program. -/
theorem ready_highPrecision (h : p.All (Every isReady)) :
    (HighPrecision.legalize p).All (Every isReady) :=
  Program.all_iff_meets.mpr (meets_highPrecision rfl (fun _ he => (bottomUp_becomes
    isLocal_isReady (fun _ => raiseNode_becomes) he).every) (Program.all_iff_meets.mp h))

/-- What is settled is sound. -/
theorem sound_of_settled {e : Expr} (h : e.Every isSettled) : e.Sound := (every_and.mp h).1

/-- What the rules after fragment coordinates carry on. -/
theorem carried_sound : Carried { exprs := Sound } where
  prologue := by simp
  fresh _ _ := trivial
  resolve profile e he := (bottomUpM_becomes .yields isLocal_isSound
    (fun _ => resolveNode_becomes profile) he).mono fun _ h => h.every
  readCounter e he := (bottomUp_becomes isLocal_isSound (fun _ => readCounter_becomes) he).every
  collapse e he := (bottomUp_becomes isLocal_isSound (fun _ => collapseNode_becomes) he).every
  unfold e he := (bottomUp_becomes isLocal_isSound (fun _ => unfoldNode_becomes) he).every
  expand e he := (bottomUpM_becomes .yields isLocal_isSound (fun _ => expandNode_becomes) he).mono
    fun _ h => h.every
  emulate e he := (bottomUpM_becomes .yields isLocal_isSound (fun _ => emulateNode_becomes) he).mono
    fun _ h => h.every
  split e he := (declaring _).mono (bottomUpM_becomes _ isLocal_isSound
    (fun _ => splitNode_becomes fun _ => trivial) he) fun _ h => h.every
  guard e he := (declaring _).mono (bottomUpM_becomes _ isLocal_isSound
    (fun _ => guardNode_becomes fun _ => trivial) he) fun _ h => h.every
  guardPure e he := (bottomUp_becomes isLocal_isSound (fun _ => guardPure_becomes) he).every
  multiply e he := (bottomUp_becomes isLocal_isSound (fun _ => multiplyNode_becomes) he).every
  normalize e he := by
    obtain ⟨e', he', hclean⟩ := normalizeSwizzles_succeeds he
    -- The swizzles are the last to be changed, and the pass leaves them clean.
    exact .of_forall_ok fun a ha =>
      (clean_iff.mp (Except.ok.inj (he'.symm.trans ha) ▸ hclean)).1
  -- An operator that assigns is not a logical one, so only the shapes of its sides matter.
  arms ty choiceTy op cond a b value hop h := by
    have hlogical : op ≠ .logicalAnd ∧ op ≠ .logicalOr :=
      ⟨fun h => absurd hop (h ▸ nofun), fun h => absurd hop (h ▸ nofun)⟩
    simp only [sound_binary hlogical, sound_ternary] at h ⊢
    exact ⟨h.1.1, fun _ => ⟨⟨h.1.2.1, h.2⟩, h.1.2.2, h.2⟩⟩
  negated ty e := sound_unary _
  andTrue e he := every_iff.mpr ⟨rfl, List.forall_mem_cons.mpr
    ⟨he, List.forall_mem_singleton.mpr (sound_literal _)⟩⟩
  bool value := sound_literal _
  flag n := ⟨sound_var _, (sound_binary (by decide)).mpr ⟨sound_var _, sound_literal _⟩⟩
  userCall stem n ty := (sound_userCall (stem.nth n)).mpr (by simp)
  runAll count := List.forall_mem_singleton.mpr
    (Stmt.all_iff_fits.mp ((Stmt.anyExpr_eq_false_iff _).mp rfl))

/-- Flipping keeps a program sound. -/
theorem sound_flip (h : p.All Sound) : (FlipY.legalize p).All Sound := by
  have hflip : ∀ e : Expr, e.Sound → (e.bottomUp FlipY.negateDerivative).Sound := fun e he =>
    (bottomUp_becomes isLocal_isSound (fun _ => negateDerivative_becomes) he).every
  have hnegate : FlipY.negatePosition.All Sound := (Stmt.anyExpr_eq_false_iff _).mp (by decide)
  exact Program.all_iff_meets.mpr (carried_sound.flip (fun _ => id) hflip
    (Stmt.all_iff_fits.mp hnegate) carried_sound (Program.all_iff_meets.mp h))

/-- A ready program is sound after the rule about the fragment coordinate. -/
theorem sound_fragCoord (h : p.All (Every isReady)) :
    Yields (Program.All Sound) (FragCoord.legalize t p) := by
  have hsize : (p.mapNodes TargetSize.substituteNode).All (Every isSettled) :=
    Program.mapNodes_all (fun e he => (bottomUp_becomes isLocal_isReady
      (fun _ => substituteNode_becomes) he).every) h
  -- Both prologues are fixed texts, so they are sound by evaluation.
  have hclosed : ∀ {ss : List Stmt}, Stmt.anyExprList (·.any fun n => !n.isSound) ss = false →
      ∀ s ∈ ss, s.All Sound := by
    intro ss h s hs
    rw [Stmt.anyExprList_eq_any] at h
    exact (Stmt.anyExpr_eq_false_iff s).mp (by simpa using List.any_eq_false.mp h s hs)
  have hflipped : ∀ s ∈ FragCoord.flipped.statements, s.All Sound := hclosed (by decide)
  have hresolved : ∀ s ∈ FragCoord.resolved.statements, s.All Sound := hclosed (by decide)
  have hread : ∀ prologue (e : Expr), e.Every isSettled →
      (e.bottomUp (FragCoord.readLocal prologue)).Sound := fun prologue e he =>
    (bottomUp_becomes isLocal_isSettled (fun _ => readLocal_becomes prologue) he).every
  have hforward : ∀ e : Expr, e.Every isSettled → (e.bottomUp FragCoord.forwardNode).Sound :=
    fun e he => (bottomUp_becomes isLocal_isSettled (fun _ => forwardNode_becomes) he).every
  refine FragCoord.yields_legalize hsize (fun p hp _ => all_applyPolicy
    (fun _ => sound_of_settled) hflipped hresolved hread hforward hp _ _) fun q hq => ?_
  split
  · exact sound_flip hq
  · exact hq

/-- A checked program of typed nodes is sound when the rule for swizzles comes to it. -/
theorem yields_sound (htyped : p.anyNode (fun e => !e.isTyped) = false) (hp : p.defect? = none)
    {rs : List Rule} (hrs : ∀ r ∈ rs, r ∈ rulesAfter "frag_coord") :
    Yields (Program.All Sound) ((opening ++ rs).foldlM (Rule.step t) p) := by
  -- What the rules rely on: types that agree, masks within range, and assignments of one shape.
  have hready : p.All (Every isReady) := by
    refine (Program.anyNode_eq_false_iff.mp htyped).imp₂ (Program.all_masksInRange hp)
      fun e he hmasks => ?_
    obtain ⟨hagrees, hassigns⟩ := every_and.mp he
    exact every_and.mpr ⟨hagrees, every_and.mpr ⟨hmasks, hassigns⟩⟩
  have hsound := carried_sound.fromOpening (t := t) (P := Program.All (Every isReady))
    (fun p hp => ready_highPrecision hp)
    (fun p hp => (sound_fragCoord hp).mono fun _ => Program.all_iff_meets.mp) hready hrs
  exact hsound.mono fun _ => Program.all_iff_meets.mpr

end

end Legalize

end ShaderGen
