import ShaderGen.Proofs.Generation
import ShaderGen.Proofs.Legalize.Helpers
import ShaderGen.Proofs.Typing.Headers
import ShaderGen.Proofs.Typing.Opening

/-!
# Checked programs are not found malformed late

A checked program of typed nodes that gets past the rules before the one for swizzles gets past that
one as well, and the printer finds nothing malformed in it: its masks select no constants, the size
of the render target is gone, and its loops start with declarations or expressions. So whatever is
malformed is found by the rules before.

## Key results

- `Program.unblamed`: what the printer refuses of a clean program is only unsupported
- `malformed_only_before_swizzles`: what a generation can report
-/

namespace ShaderGen

open Glsl

/-- The printer does not take offence at a malformation. -/
def Unblamed (obstacle : Option Fault) : Prop := ∀ cause, obstacle ≠ some (.malformed cause)

/-- Nothing that stops the printer blames nobody. -/
theorem unblamed_none : Unblamed none := fun _ => nofun

/-- The first of two faults blames nobody if both do. -/
theorem Unblamed.orElse {a b : Option Fault} (ha : Unblamed a) (hb : Unblamed b) :
    Unblamed (a <|> b) := by
  cases a with
  | none => exact hb
  | some _ => exact ha

/-- A fault of an optional part blames nobody if the part does. -/
theorem unblamed_bind {α : Type} {o : Option α} {f : α → Option Fault}
    (h : ∀ a ∈ o, Unblamed (f a)) : Unblamed (o.bind f) := by
  cases o with
  | none => exact unblamed_none
  | some a => exact h a rfl

/-- The first fault in a list blames nobody if each does. -/
theorem unblamed_findSome? {α : Type} {as : List α} {f : α → Option Fault}
    (h : ∀ a ∈ as, Unblamed (f a)) : Unblamed (as.findSome? f) := by
  intro cause hcause
  obtain ⟨a, ha, hfa⟩ := List.exists_of_findSome?_eq_some hcause
  exact h a ha cause hfa

/-- No type is to be blamed on the program. -/
theorem Ty.unblamed (legacy : Bool) (ty : Ty) : Unblamed (ty.obstacle? legacy) := by
  unfold Ty.obstacle?
  split
  · split <;> exact fun _ => nofun
  · split <;> exact fun _ => nofun
  · exact unblamed_none

namespace Expr

variable {legacy : Bool}

/-- Arguments blame nobody if each does. -/
theorem unblamed_list {es : List Expr} (h : ∀ e ∈ es, Unblamed (e.obstacle? legacy)) :
    Unblamed (listObstacle? legacy es) := by
  induction es with
  | nil => exact unblamed_none
  | cons e es ih =>
    exact .orElse (h e List.mem_cons_self) (ih fun e he => h e (List.mem_cons_of_mem _ he))

/-- Only sizes and constant selectors are malformed. -/
theorem unblamed {e : Expr} (he : e.Clean) : Unblamed (e.obstacle? legacy) := by
  induction e with
  | literal ty value =>
    cases value with
    | float v => show Unblamed (if v.isFinite then none else _); split <;> exact fun _ => nofun
    | uint n => show Unblamed (if legacy then _ else none); split <;> exact fun _ => nofun
    | int | bool => exact unblamed_none
  | var ty name => exact unblamed_none
  | builtin ty which =>
    -- The sizes would be blamed, but a clean expression has none.
    have hsize : (builtin ty which).isSize = false := by
      have hnode := he.node
      simp only [isClean, isSound, Bool.and_eq_true, Bool.not_eq_true'] at hnode
      exact hnode.1.2.2
    cases which <;> first | exact unblamed_none | cases hsize
  | unary ty op operand ih => exact ih (he.child (by simp [children]))
  | binary ty op left right ihl ihr =>
    exact .orElse (ihl (he.child (by simp [children]))) (ihr (he.child (by simp [children])))
  | ternary ty cond a b ihc iha ihb =>
    exact .orElse (ihc (he.child (by simp [children])))
      (.orElse (iha (he.child (by simp [children]))) (ihb (he.child (by simp [children]))))
  | call ty callee args ih => exact unblamed_list fun arg harg => ih arg harg (he.child harg)
  | construct ty args ih =>
    exact .orElse (ty.unblamed legacy)
      (unblamed_list fun arg harg => ih arg harg (he.child harg))
  | swizzle ty base mask ih =>
    -- Only literals in a mask would be blamed, and a clean swizzle selects lanes.
    obtain ⟨-, -, -, hlanes, hbase⟩ := clean_swizzle.mp he
    refine .orElse (ih hbase) ?_
    rw [Mask.obstacle?, hlanes]
    exact unblamed_none
  | index ty base position ihb ihp =>
    exact .orElse (ihb (he.child (by simp [children]))) (ihp (he.child (by simp [children])))
  | group ty inner ih => exact ih (he.child (by simp [children]))

end Expr

/-- A declaration blames nobody if its initial value is clean. -/
theorem Decl.unblamed {d : Dialect} {decl : Decl} (h : ∀ e ∈ decl.init, e.Clean) :
    Unblamed (decl.obstacle? d) := by
  have hstorage : Unblamed
      (if d.hasStorage decl.storage then none else some (.unsupported .fragmentOutput)) := by
    split <;> exact fun _ => nofun
  have hvalue : Unblamed (decl.init.bind (Expr.obstacle? d.legacy)) :=
    unblamed_bind fun e he => Expr.unblamed (h e he)
  exact .orElse hstorage (.orElse (Ty.unblamed _ _) hvalue)

namespace Stmt

variable {d : Dialect}

/-- A list blames nobody if each of its statements does. -/
theorem unblamed_list {ss : List Stmt} (h : ∀ s ∈ ss, Unblamed (s.obstacle? d)) :
    Unblamed (listObstacle? d ss) := by
  induction ss with
  | nil => exact unblamed_none
  | cons s ss ih =>
    exact .orElse (h s List.mem_cons_self) (ih fun s hs => h s (List.mem_cons_of_mem _ hs))

/-- Apart from expressions, only what loops start with is malformed. -/
theorem unblamed {s : Stmt} (hs : s.All Expr.Clean) (hplain : s.Plain) :
    Unblamed (s.obstacle? d) := by
  have hnested := hplain.nested
  -- The first obstacle of a statement is the first among its parts, and none of these is to be
  -- blamed on the program.
  induction s with
  | block body ih =>
    have hbody := all_block.mp hs
    exact unblamed_list fun s h => ih s h (hbody s h) (hnested s h) (hnested s h).nested
  | decl decl => exact Decl.unblamed (all_decl.mp hs)
  | ifElse cond s o ihs iho =>
    obtain ⟨hcond, hthen, helse⟩ := all_ifElse.mp hs
    obtain ⟨hthen', helse'⟩ := List.forall_mem_cons.mp hnested
    refine .orElse (Expr.unblamed hcond) (.orElse (ihs hthen hthen' hthen'.nested) ?_)
    cases o with
    | none => exact unblamed_none
    | some s =>
      have hplain' := helse' s (by simp)
      exact iho s rfl (helse s rfl) hplain' hplain'.nested
  | forLoop init cond step s ihi ihs =>
    obtain ⟨hinit, hcond, hstep, hbody⟩ := all_forLoop.mp hs
    have hbody' := hnested s (by simp [Stmt.nested])
    -- A loop may start with a declaration or an expression only, as was checked.
    have hfirst : Unblamed (initObstacle? d init) := by
      have hstart := hplain.here
      cases init with
      | none => exact unblamed_none
      | some first =>
        cases first with
        | decl decl => exact Decl.unblamed (all_decl.mp (hinit _ rfl))
        | expr e => exact Expr.unblamed (all_expr.mp (hinit _ rfl))
        | _ => cases hstart
    exact .orElse hfirst (.orElse (unblamed_bind fun e he => Expr.unblamed (hcond e he))
      (.orElse (unblamed_bind fun e he => Expr.unblamed (hstep e he))
        (ihs hbody hbody' hbody'.nested)))
  | whileLoop cond s ih =>
    obtain ⟨hcond, hbody⟩ := all_whileLoop.mp hs
    have hbody' := hnested s List.mem_cons_self
    exact .orElse (Expr.unblamed hcond) (ih hbody hbody' hbody'.nested)
  | doWhile s cond ih =>
    obtain ⟨hcond, hbody⟩ := all_doWhile.mp hs
    have hbody' := hnested s List.mem_cons_self
    exact .orElse (ih hbody hbody' hbody'.nested) (Expr.unblamed hcond)
  | switchOn value cs ih =>
    obtain ⟨hvalue, hcases⟩ := all_switchOn.mp hs
    refine .orElse (Expr.unblamed hvalue) ?_
    replace hnested := List.forall_mem_flatMap.mp hnested
    clear hs hplain
    -- The cases are checked one after another, each with all its statements.
    induction cs with
    | nil => exact unblamed_none
    | cons c cs ihcs =>
      obtain ⟨label, body⟩ := c
      refine .orElse (unblamed_list fun s h => ?_) ?_
      · have hplain' := hnested _ List.mem_cons_self s h
        exact ih label body List.mem_cons_self s h (hcases _ List.mem_cons_self s h) hplain'
          hplain'.nested
      · exact ihcs (fun label body hmem => ih label body (List.mem_cons_of_mem _ hmem))
          (fun c hc => hcases c (List.mem_cons_of_mem _ hc))
          fun c hc => hnested c (List.mem_cons_of_mem _ hc)
  | expr e => exact Expr.unblamed (all_expr.mp hs)
  | returnWith value =>
    exact unblamed_bind fun e he => Expr.unblamed (all_returnWith.mp hs e he)
  | _ => exact unblamed_none

end Stmt

/-- A function blames nobody if its body is clean. -/
theorem Function.unblamed {d : Dialect} {fn : Function} (h : fn.All Expr.Clean)
    (hplain : fn.Plain) : Unblamed (fn.obstacle? d) :=
  .orElse (Ty.unblamed _ _) (.orElse (unblamed_findSome? fun _ _ => Ty.unblamed _ _)
    (Stmt.unblamed_list fun s hs => Stmt.unblamed (h s hs) (hplain s hs)))

/-- The helper functions are clean. -/
theorem Legalize.IntAbs.unblamed_helper (d : Dialect) (ty : Ty) :
    Unblamed ((helper ty).obstacle? d) := by
  have hx : (Expr.ofVar "x" ty).Clean := Expr.every_iff.mpr ⟨rfl, fun _ h => nomatch h⟩
  have hsign : (Expr.ofCall .sign [.ofVar "x" ty]).Clean :=
    Expr.every_iff.mpr ⟨rfl, List.forall_mem_singleton.mpr hx⟩
  -- The helper returns the product of its parameter and the sign of it.
  have hvalue : (Expr.ofBinary .mul (.ofVar "x" ty) (.ofCall .sign [.ofVar "x" ty])).Clean :=
    Expr.every_iff.mpr ⟨rfl, List.forall_mem_cons.mpr ⟨hx, List.forall_mem_singleton.mpr hsign⟩⟩
  refine Function.unblamed (List.forall_mem_singleton.mpr ?_)
    (List.forall_mem_singleton.mpr (Stmt.plain_of_leaf rfl))
  exact Stmt.all_returnWith.mpr fun e he => Option.some.inj he ▸ hvalue

/-- What the printer refuses of a clean program is only unsupported. -/
theorem Program.unblamed (profile : Profile) {p : Program} {s : Scratch} (h : p.All Expr.Clean)
    (hplain : p.Plain) (hglobals : ∀ g ∈ s.globals, ∀ d, g = .declared d → d.init = none)
    (hhelpers : ∀ h ∈ s.helpers, ∃ ty, h.2 = Legalize.IntAbs.helper ty) :
    Unblamed (programObstacle? profile s p) := by
  refine .orElse (unblamed_findSome? fun g hg => ?_) (.orElse (unblamed_findSome? fun f hf => ?_)
    (unblamed_findSome? fun el hel => ?_))
  · -- What the rules add has no initial value, and their helpers are all of one form.
    cases g with
    | declared d =>
      have hinit := hglobals _ hg d rfl
      exact Decl.unblamed fun e he => absurd (hinit.symm.trans he) nofun
    | upperLeftOrigin => exact unblamed_none
  · obtain ⟨ty, hty⟩ := hhelpers f hf
    rw [hty]
    exact Legalize.IntAbs.unblamed_helper _ ty
  · have hall := h el hel
    have hstarts := hplain el hel
    cases el with
    | global d => exact Decl.unblamed hall
    | function fn => exact Function.unblamed hall hstarts
    | layout l => exact unblamed_none

/-- What the printer does not find malformed, it does not report as malformed. -/
theorem Unblamed.run_printM {profile : Profile} {p : Program} {s : Scratch}
    (h : Unblamed (programObstacle? profile s p)) (cause : Malformation) :
    ((printM profile p).run.run s).1 ≠ .error (.malformed cause) := by
  rw [ShaderGen.run_printM]
  cases hobstacle : programObstacle? profile s p with
  | none => nofun
  | some fault => exact fun heq => h cause (hobstacle.trans (congrArg some (Except.error.inj heq)))

/-- Only a malformation is reported as one. -/
theorem Fault.eq_malformed {profile : Profile} {fault : Fault} {cause : Malformation}
    (h : fault.toError profile = .malformed cause) : fault = .malformed cause := by
  cases fault with
  | malformed cause' => exact congrArg Fault.malformed (GenError.malformed.inj h)
  | unsupported cause' => exact absurd h nofun

namespace Legalize

variable {t : Target} {p : Program}

/-- The rules before the one for swizzles. -/
def beforeSwizzles : List Rule := rulesBefore "swizzle"

/-- A run of all rules is a run of those before the one for swizzles, and of that one. -/
theorem legalize_eq : legalize t p = (do
    let q ← beforeSwizzles.foldlM (Rule.step t) p
    modify (Scratch.report (.ruleStarts "swizzle"))
    liftMalformed (q.mapNodesM Expr.normalizeSwizzle)) := by
  have hpipeline : pipeline = beforeSwizzles ++
      [.always "swizzle" fun _ p => liftMalformed (p.mapNodesM Expr.normalizeSwizzle)] := rfl
  rw [legalize, hpipeline, List.foldlM_append]
  refine bind_congr fun q => ?_
  rw [List.foldlM_cons]
  simp only [List.foldlM_nil, bind_pure]
  rfl

/-- Where the rules before the one for swizzles refuse a program, so do all of them. -/
theorem run_legalize_of_fault {fault : Fault} {s s' : Scratch}
    (h : (beforeSwizzles.foldlM (Rule.step t) p).run.run s = (.error fault, s')) :
    (legalize t p).run.run s = (.error fault, s') := by
  rw [legalize_eq, ExceptT.run_bind, StateT.run_bind, h]
  rfl

/-- A checked program of typed nodes that gets past the rules before the one for swizzles gets past
    that one, and nothing in it is malformed. -/
theorem legalize_succeeds (htyped : p.anyNode (fun e => !e.isTyped) = false)
    (hp : p.defect? = none) {p₁ : Program} {s₁ : Scratch}
    (hrun : (beforeSwizzles.foldlM (Rule.step t) p).run.run {} = (.ok p₁, s₁)) :
    ∃ p₂ s₂, (legalize t p).run.run {} = (.ok p₂, s₂) ∧
      Unblamed (programObstacle? t.profile s₂ p₂) := by
  have hrest : ∀ r ∈ rulesBetween "frag_coord" "swizzle", r ∈ rulesAfter "frag_coord" :=
    fun r hr => (List.takeWhile_sublist _).subset hr
  have hsound : p₁.All Expr.Sound := (yields_sound htyped hp hrest).of_run hrun
  obtain ⟨p₂, hp₂, hclean⟩ := exists_normal_program hsound
  -- The rule for swizzles is the last, and it succeeds.
  have hall : (legalize t p).run.run {} = (.ok p₂, s₁.report (.ruleStarts "swizzle")) := by
    have hlast : (liftMalformed (p₁.mapNodesM Expr.normalizeSwizzle) : GenM Program) = pure p₂ := by
      rw [hp₂]
      rfl
    rw [legalize_eq, ExceptT.run_bind, StateT.run_bind, hrun]
    show (do
      modify (Scratch.report (.ruleStarts "swizzle"))
      liftMalformed (p₁.mapNodesM Expr.normalizeSwizzle) : GenM Program).run.run s₁ = _
    rw [hlast]
    rfl
  have hplain : p₂.Plain := (plain_rules (fun _ => id) (plain_of_defect? hp)).of_run hall
  refine ⟨p₂, _, hall, Program.unblamed _ hclean hplain ?_ ?_⟩
  · exact fun g hg d hd =>
      ((legalize_adds_globals hall g hg).resolve_left List.not_mem_nil d hd).init
  · exact fun h hh => (legalize_adds_helpers hall h hh).resolve_left List.not_mem_nil

end Legalize

/-- Of a checked program of typed nodes, the rule for swizzles and the printer find nothing
    malformed: if the rules before the one for swizzles succeed, so does that one, and the printer
    reports at most what the target cannot express; and a generation reports that the program is
    malformed only if one of these rules does. -/
theorem malformed_only_before_swizzles (t : Target) (p : Program)
    (htyped : p.anyNode (fun e => !e.isTyped) = false) (hp : p.defect? = none) :
    (∀ p₁ s₁, (Legalize.beforeSwizzles.foldlM (Legalize.Rule.step t) p).run.run {} = (.ok p₁, s₁) →
      ∃ p₂ s₂, (Legalize.legalize t p).run.run {} = (.ok p₂, s₂) ∧
        ∀ cause, ((printM t.profile p₂).run.run s₂).1 ≠ .error (.malformed cause)) ∧
    ∀ cause, generate t p = .error (.malformed cause) →
      ((Legalize.beforeSwizzles.foldlM (Legalize.Rule.step t) p).run.run {}).1 =
        .error (.malformed cause) := by
  refine ⟨fun p₁ s₁ hrun => ?_, fun cause hcause => ?_⟩
  · obtain ⟨p₂, s₂, hall, hunblamed⟩ := Legalize.legalize_succeeds htyped hp hrun
    exact ⟨p₂, s₂, hall, hunblamed.run_printM⟩
  · cases hrun : (Legalize.beforeSwizzles.foldlM (Legalize.Rule.step t) p).run.run {} with
    | mk result s₁ =>
    cases result with
    | error fault =>
      have hfault := run_piecesM_of_fault hp (Legalize.run_legalize_of_fault hrun)
      rw [generate_of_fault hfault] at hcause
      rw [Fault.eq_malformed (Except.error.inj hcause)]
    | ok p₁ =>
      -- The program is printed or refused, but not for a malformation.
      obtain ⟨p₂, s₂, hall, hunblamed⟩ := Legalize.legalize_succeeds htyped hp hrun
      have hpieces := run_piecesM hp hall
      cases hprint : (printM t.profile p₂).run.run s₂ with
      | mk pieces s₃ =>
      rw [hprint] at hpieces
      cases pieces with
      | ok ps => exact absurd ((generate_of_run hpieces).symm.trans hcause) nofun
      | error fault =>
        rw [generate_of_fault hpieces] at hcause
        obtain rfl := Fault.eq_malformed (Except.error.inj hcause)
        exact absurd (congrArg Prod.fst hprint) (hunblamed.run_printM cause)

/-- The size of the render target in the header of a loop, and a swizzle of a swizzle of the
    fragment coordinate with a constant in it, under a minimum whose operands become lanes. -/
theorem swizzled_coordinate_is_printed :
    let height : Expr := .ofBuiltin .height
    let i : Expr := .ofVar "i" .float
    let v : Expr := .ofVar "v" (.vec 2)
    let coord : Expr := .ofSwizzle (.ofSwizzle (.ofBuiltin .fragCoord) [.y, .x]) [.y, .zero]
    let least : Expr := .ofCall .min [.ofCall .abs [coord], v]
    let loop : Stmt := .forLoop (some (.decl (.plain "i" .float (some (.float .zero)))))
      (some (.ofBinary .lt i height)) (some (.ofUnary .postIncrement i)) (.block [.assign v least])
    let p : Program := ⟨.fragment, [.function (.entry [loop])]⟩
    let t : Target := { profile := { workarounds := .single .splitMinAbs }, flipsY := true }
    p.anyNode (fun e => !e.isTyped) = false ∧ p.defect? = none ∧
      ∃ p₁ s₁,
        (Legalize.beforeSwizzles.foldlM (Legalize.Rule.step t) p).run.run {} = (.ok p₁, s₁) ∧
        p₁.anyNode Expr.selectsLiterals = true ∧
        ∃ p₂ s₂, (Legalize.legalize t p).run.run {} = (.ok p₂, s₂) ∧
          ∀ cause, ((printM t.profile p₂).run.run s₂).1 ≠ .error (.malformed cause) := by
  intro height i v coord least loop p t
  have htyped : p.anyNode (fun e => !e.isTyped) = false := by decide
  have hp : p.defect? = none := by decide
  obtain ⟨p₁, s₁, hrun, hselects⟩ := exists_ok_of_any
    (r := (Legalize.beforeSwizzles.foldlM (Legalize.Rule.step t) p).run.run {})
    (q := fun p₁ => p₁.anyNode Expr.selectsLiterals) (by decide +kernel)
  -- The program is typed and checked, so this is the general statement at it.
  exact ⟨htyped, hp, p₁, s₁, hrun, hselects,
    (malformed_only_before_swizzles t p htyped hp).1 p₁ s₁ hrun⟩

end ShaderGen
