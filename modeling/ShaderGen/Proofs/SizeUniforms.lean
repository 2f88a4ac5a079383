import ShaderGen.Proofs.Events
import ShaderGen.Proofs.Glsl.Words
import ShaderGen.Proofs.Legalize.TargetSize
import ShaderGen.Proofs.Scopes.Emitted

/-!
# Uniforms that come with a text

A generated text comes with a note of the uniforms that its user has to set. A uniform is declared
by the text just if it is noted; its name is then declared once, and nothing uses it otherwise
(`Announces`). This is so if the program that is given does not use the names of these uniforms
itself. The line that declares one is written out here (`sizeLine`), and declarations are counted in
the text.

## Key results

- `Program.avoids_iff`: what it means that a program does not use a name
- `size_uniforms_are_noted`: of every program for which text is generated
-/

namespace ShaderGen

open Glsl
open Legalize.TargetSize
open Legalize (sizeInputs)

/-! ### Names that are declared -/

section

variable {x : String} {granted : Bool} {p : Program}

/-- A demand on names is one on the names that are declared in a statement. -/
theorem Stmt.fits_iff_locals {N : String → Prop} {s : Stmt} :
    s.Fits N (fun _ => True) ↔ ∀ y ∈ s.locals, N y := by
  -- Lists and optional parts have the locals of their members.
  have hlist : ∀ {ss : List Stmt}, (∀ s ∈ ss, s.Fits N (fun _ => True) ↔ ∀ y ∈ s.locals, N y) →
      ((∀ s ∈ ss, s.Fits N fun _ => True) ↔ ∀ y ∈ listLocals ss, N y) := by
    intro ss ih
    induction ss with
    | nil => simp
    | cons s ss ihss =>
      rw [List.forall_mem_cons, listLocals_cons, List.forall_mem_append, ih s List.mem_cons_self,
        ihss fun t ht => ih t (List.mem_cons_of_mem _ ht)]
  have hoption : ∀ {o : Option Stmt}, (∀ s ∈ o, s.Fits N (fun _ => True) ↔ ∀ y ∈ s.locals, N y) →
      ((∀ s ∈ o, s.Fits N fun _ => True) ↔ ∀ y ∈ optionLocals o, N y) := by
    intro o ih
    cases o with
    | none => simp [optionLocals]
    | some s => simpa [optionLocals] using ih s rfl
  induction s with
  | block body ih => exact fits_block.trans (hlist ih)
  | decl d => simp [fits_decl, locals]
  | ifElse cond thenBranch elseBranch iht ihe =>
    have hbranches := and_congr iht (hoption ihe)
    rw [fits_ifElse, locals, List.forall_mem_append, true_and]
    exact hbranches
  | forLoop init cond step body ihi ihb =>
    have hparts := and_congr (hoption ihi) ihb
    rw [fits_forLoop, locals, List.forall_mem_append]
    simpa using hparts
  | whileLoop cond body ih => exact fits_whileLoop.trans ((and_iff_right trivial).trans ih)
  | doWhile body cond ih => exact fits_doWhile.trans ((and_iff_right trivial).trans ih)
  -- In a `switch` these are the locals of its cases.
  | switchOn value cases ih =>
    have hcases : (∀ c ∈ cases, ∀ s ∈ c.body, s.Fits N fun _ => True) ↔
        ∀ y ∈ casesLocals cases, N y := by
      induction cases with
      | nil => simp [casesLocals]
      | cons c cs ihcs =>
        obtain ⟨label, body⟩ := c
        have hbody := hlist (ih label body List.mem_cons_self)
        have hrest := ihcs fun label body hmem => ih label body (List.mem_cons_of_mem _ hmem)
        rw [List.forall_mem_cons, casesLocals, List.forall_mem_append]
        exact and_congr hbody hrest
    exact fits_switchOn.trans ((and_iff_right trivial).trans hcases)
  -- The other statements declare nothing and hold no statements.
  | expr | returnWith | breakOut | continueLoop | discard | emitVertex | endPrimitive =>
    rw [fits_iff]
    simp [nested, locals]

/-- Demands on names and on expressions are met apart. -/
theorem Stmt.fits_iff_locals_all {N : String → Prop} {Q : Expr → Prop} {s : Stmt} :
    s.Fits N Q ↔ (∀ y ∈ s.locals, N y) ∧ s.All Q := by
  constructor
  · exact fun h => ⟨fits_iff_locals.mp (h.mono (fun _ => id) fun _ _ => trivial),
      all_iff_fits.mpr (h.mono (fun _ _ => trivial) fun _ => id)⟩
  · exact fun h => ((fits_iff_locals.mpr h.1).and h.2).mono (fun _ => id) fun _ he => he.2

/-- An element spares a name if it declares nothing of it and no expression in it refers to it. -/
theorem Element.meets_sparing_iff {el : Element} : el.Meets (.sparing x granted) ↔
    x ∉ el.names ∧ el.All (Demand.sparing x granted).exprs := by
  cases el with
  | global d =>
    have hname : x ∉ (global d).names ↔ d.name ≠ x := by
      simp [names, globals, functions, locals, eq_comm]
    exact and_congr_left fun _ => hname.symm
  | function fn =>
    -- A function declares its own name, its parameters and its locals.
    have hnames : x ∉ (function fn).names ↔
        fn.name ≠ x ∧ (∀ y ∈ fn.params, y.name ≠ x) ∧ ∀ y ∈ Stmt.listLocals fn.body, y ≠ x := by
      simp only [names, globals, functions, locals, Function.locals, List.nil_append,
        List.singleton_append, List.mem_cons, List.mem_append, List.mem_map, not_or, not_exists,
        not_and, List.forall_mem_ne, eq_comm, ne_eq]
    have hbody : (∀ s ∈ fn.body, s.Fits (Demand.sparing x granted).names
        (Demand.sparing x granted).exprs) ↔ (∀ y ∈ Stmt.listLocals fn.body, y ≠ x) ∧
          fn.All (Demand.sparing x granted).exprs := by
      rw [← Stmt.fits_block, Stmt.fits_iff_locals_all]
      exact and_congr Iff.rfl Stmt.all_block
    -- Names and expressions are met apart, in the body as well as in the function.
    constructor
    · intro h
      have hparts := hbody.mp (Legalize.body_sparing.mp h.body)
      exact ⟨hnames.mpr ⟨h.name, h.params, hparts.1⟩, hparts.2⟩
    · rintro ⟨hnone, hall⟩
      obtain ⟨hname, hparams, hlocals⟩ := hnames.mp hnone
      exact ⟨hname, hparams, Legalize.body_sparing.mpr (hbody.mpr ⟨hlocals, hall⟩)⟩
  | layout l => simp [Meets, All, names, globals, functions, locals]

/-- The same for a program. -/
theorem Program.meets_sparing_iff : p.Meets (.sparing x granted) ↔
    x ∉ p.names ∧ p.All (Demand.sparing x granted).exprs := by
  have hnames : x ∉ p.names ↔ ∀ el ∈ p.elements, x ∉ el.names := by simp [names]
  rw [hnames]
  exact (forall₂_congr fun el _ => Element.meets_sparing_iff).trans forall₂_and

/-- A program does not use a name if it declares nothing of the name and no node refers to it. -/
theorem Program.avoids_iff : p.Avoids x ↔ x ∉ p.names ∧ p.anyNode (Expr.usesName x) = false := by
  rw [Program.anyNode_eq_false_iff]
  have hexprs : p.All (Demand.sparing x false).exprs ↔
      p.All fun e => e.any (Expr.usesName x) = false :=
    ⟨fun h => h.mono fun _ he => he.resolve_left Bool.false_ne_true, fun h => h.mono fun _ => .inr⟩
  exact meets_sparing_iff.trans (and_congr_right fun _ => hexprs)

end

/-! ### The note and the text -/

/-- Line of a text that declares the uniform for a size. It has a precision qualifier if the profile
    asks for them. -/
def sizeLine (profile : Profile) (x : String) : List Piece :=
  [.word "uniform", .blank] ++ (if profile.usesPrecision then [.qualifier .full] else []) ++
    [.word "float", .blank, .word x, .mark ";", .lineBreak]

example : Piece.render (sizeLine {} "u_skRTHeight") = "uniform float u_skRTHeight;\n" := by decide

/-- A program with what rules put in front of it agrees with the note on a uniform. -/
structure Announces (t : Target) (s : Scratch) (p : Program) (x : String) (noted : Bool) :
    Prop where
  /-- the text has the line that declares the uniform just if it is noted -/
  declared : noted = true ↔ sizeLine t.profile x <:+: programPieces t.profile s p
  /-- the text declares nothing else of its name, at the top or inside -/
  once : (Piece.declaredNames (programPieces t.profile s p)).count x = if noted then 1 else 0
  /-- neither do the elements that are printed -/
  alone : ((s.preamble ++ p.elements).flatMap Element.names).count x = if noted then 1 else 0
  /-- its name is used only if it is noted -/
  used : .word x ∈ programPieces t.profile s p → noted = true

section

open Legalize

variable {t : Target} {s : Scratch} {p p' : Program} {x : String} {noted : Bool} {out : Output}

/-- The line is how the declaration of a uniform is printed, whichever stage the program is for. -/
theorem line_size (profile : Profile) (stage : Stage) (x : String) :
    (Decl.uninitialized .uniform x .float).line (.ofProfile profile stage) =
      sizeLine profile x := by
  simp only [Decl.line, Decl.pieces, sizeLine, Dialect.ofProfile, Qualifying.ofProfile]
  cases profile.usesPrecision <;> cases profile.forcesHighPrecision <;> rfl

/-- Names of the globals in front of a program. Moving the origin is no element, so it has none. -/
theorem names_globals (gs : List AddedGlobal) :
    (gs.filterMap AddedGlobal.element?).flatMap Element.names =
      gs.filterMap AddedGlobal.name? := by
  induction gs with
  | nil => rfl
  | cons g gs ih =>
    cases g with
    | declared d => exact congrArg (d.name :: ·) ih
    | upperLeftOrigin => exact ih

/-- A name stands among them as often as it is declared. -/
theorem count_globals (gs : List AddedGlobal) (x : String) :
    (gs.filterMap AddedGlobal.name?).count x = (gs.filter (AddedGlobal.declares x)).length := by
  induction gs with
  | nil => rfl
  | cons g gs ih =>
    cases g with
    | declared d =>
      have hcons : (AddedGlobal.declared d :: gs).filterMap AddedGlobal.name? =
          d.name :: gs.filterMap AddedGlobal.name? := rfl
      rw [hcons, List.count_cons, ih, List.filter_cons, AddedGlobal.declares]
      split <;> rfl
    | upperLeftOrigin => exact ih

/-- So a name that is declared just when it is noted stands among them once, or not at all. -/
theorem count_globalNames (hdeclares : Declares s x noted) :
    s.globalNames.count x = if noted then 1 else 0 := by
  rw [Scratch.globalNames, count_globals, show s.globals.filter _ = _ from hdeclares]
  cases noted <;> rfl

/-- The text declares a name as often as it is declared by the globals in front of it, if neither
    helpers nor the program declare it. -/
theorem count_declaredNames (hx : IsUnmistakable x) (hp : p.defect? = none)
    (hrun : (legalize t p).run.run {} = (.ok p', s))
    (hhelpers : x ∉ s.helperNames.flatMap fun name => [name, "x"]) (hnames : x ∉ p'.names) :
    (Piece.declaredNames (programPieces t.profile s p')).count x = s.globalNames.count x := by
  obtain ⟨globals, hglobals, hdeclared⟩ := declaredNames_legalize hp hrun
  -- The fragment color and its coordinate are declared under names that mean something else.
  have hcolor : x ∉ if s.declaresFragOutput then ["sk_FragColor"] else [] := by
    have hne : x ≠ "sk_FragColor" := hx.ne_builtin (by decide)
    split <;> simp [hne]
  have hcoord : (x != "gl_FragCoord") = true := bne_iff_ne.mpr (hx.ne_builtin (by decide))
  have hfiltered : x ∉ p'.names.filter isDeclarable := fun hmem =>
    hnames (List.mem_of_mem_filter hmem)
  rw [hdeclared, List.count_append, List.count_append, List.count_append,
    List.count_eq_zero.mpr hcolor, List.count_eq_zero.mpr hhelpers,
    List.count_eq_zero.mpr hfiltered, ← hglobals,
    List.count_filter (p := fun y => y != "gl_FragCoord") hcoord]
  simp only [Nat.zero_add, Nat.add_zero]

/-- If a name is declared just when it is noted, and spared otherwise, then the text agrees with the
    note. -/
theorem announces (hx : IsUnmistakable x) (hp : p.defect? = none)
    (hrun : (legalize t p).run.run {} = (.ok p', s)) (hdeclares : Declares s x noted)
    (hspares : p'.Meets (.sparing x noted))
    (hhelpers : ∀ h ∈ s.helpers, h.2.Meets (.sparing x false)) : Announces t s p' x noted := by
  -- What rules declare has no initial value.
  have hglobals : ∀ d, .declared d ∈ s.globals → d.init = none := fun d hd =>
    ((legalize_adds_globals hrun _ hd).resolve_left List.not_mem_nil d rfl).init
  -- The name can only be printed if it is noted: it is declared nowhere, and the program does not
  -- use it.
  have hused : .word x ∈ programPieces t.profile s p' → noted = true := by
    intro hword
    cases noted with
    | true => rfl
    | false =>
      refine absurd hword (word_notMem_programPieces hx hspares (fun d hd => ⟨?_, hglobals d hd⟩)
        hhelpers)
      rintro rfl
      have hmem : .declared d ∈ s.globals.filter (AddedGlobal.declares d.name) :=
        List.mem_filter.mpr ⟨hd, beq_self_eq_true _⟩
      rw [show s.globals.filter _ = [] from hdeclares] at hmem
      cases hmem
  have helements : x ∉ p'.names := (Program.meets_sparing_iff.mp hspares).1
  have hhelper : ∀ h ∈ s.helpers, x ∉ (Element.function h.2).names := by
    intro h hh
    have hmeets : (Element.function h.2).Meets (.sparing x false) := hhelpers h hh
    exact (Element.meets_sparing_iff.mp hmeets).1
  refine ⟨⟨fun hnoted => ?declares, fun hline => hused (hline.subset ?names)⟩, ?once, ?alone, hused⟩
  case declares =>
    subst hnoted
    have hmem : .declared (.uninitialized .uniform x .float) ∈ s.globals := by
      refine List.mem_of_mem_filter (p := AddedGlobal.declares x) ?_
      rw [show s.globals.filter _ = _ from hdeclares]
      exact List.mem_singleton_self _
    -- The declaration is one line of the preamble.
    have hline : sizeLine t.profile x <:+:
        s.globals.flatMap (AddedGlobal.pieces (.ofProfile t.profile p'.stage)) :=
      line_size t.profile p'.stage x ▸ List.infix_of_mem_flatten (List.mem_map_of_mem hmem)
    unfold programPieces
    dsimp only
    exact hline.trans ((List.infix_append _ _ _).trans (List.prefix_append _ _).isInfix)
  case names => simp [sizeLine]
  case once =>
    refine (count_declaredNames hx hp hrun (fun hmem => ?_) helements).trans
      (count_globalNames hdeclares)
    obtain ⟨name, hname, hmem⟩ := List.mem_flatMap.mp hmem
    obtain ⟨h, hh, rfl⟩ := List.mem_map.mp hname
    exact hhelper h hh ((names_helper hrun h hh).2.2 ▸ hmem)
  case alone =>
    have hnone : x ∉ (s.helpers.map fun h => Element.function h.2).flatMap Element.names := by
      intro hmem
      obtain ⟨el, hel, hname⟩ := List.mem_flatMap.mp hmem
      obtain ⟨h, hh, rfl⟩ := List.mem_map.mp hel
      exact hhelper h hh hname
    have hwhole : (p'.elements.flatMap Element.names).count x = 0 :=
      List.count_eq_zero.mpr helements
    rw [List.flatMap_append, Scratch.preamble, List.flatMap_append, List.count_append,
      List.count_append, names_globals, List.count_eq_zero.mpr hnone, hwhole]
    exact count_globalNames hdeclares

/-- What a generated text declares and uses of the uniforms for the size of the render target is
    what comes with it as a note. The height is noted if the program uses it, or if the coordinates
    of a fragment program have to be computed from it; the width is noted if the program uses it. -/
theorem size_uniforms_are_noted (hp : ∀ x ∈ ["u_skRTHeight", "u_skRTWidth"], p.Avoids x)
    (h : generate t p = .ok out) :
    (∃ p' s, (Legalize.legalize t p).run.run {} = (.ok p', s) ∧
      out.text = Piece.render (programPieces t.profile s p') ∧
      Announces t s p' "u_skRTHeight" out.inputs.height ∧
      Announces t s p' "u_skRTWidth" out.inputs.width) ∧
    (out.inputs.height = true ↔ p.anyNode (Expr.isBuiltin .height) = true ∨
      t.coordPolicy = .fromHeight ∧ p.stage = .fragment ∧
        p.anyNode (Expr.isBuiltin .fragCoord) = true) ∧
    (out.inputs.width = true ↔ p.anyNode (Expr.isBuiltin .width) = true) := by
  obtain ⟨hdefect, p', s, hrun, -, rfl⟩ := run_of_generate h
  obtain ⟨haccounts, hfragment⟩ := legalize_accounts hrun
  -- Helpers do not use the names.
  have hhelpers : ∀ x ∈ [heightName, widthName],
      ∀ h ∈ s.helpers, h.2.Meets (.sparing x false) := by
    intro x hx h hh
    obtain ⟨ty, hty⟩ := (legalize_adds_helpers hrun h hh).resolve_left List.not_mem_nil
    rw [hty]
    exact meets_helper (isOutside_of_mem hx) (by rintro rfl; exact absurd hx (by decide)) ty
  have hheight : heightName ∈ [heightName, widthName] := by simp
  have hwidth : widthName ∈ [heightName, widthName] := by simp
  refine ⟨⟨p', s, hrun, rfl, ?_, ?_⟩, ?_, ?_⟩
  · -- One uniform after the other.
    refine announces ⟨by decide, by decide, by decide⟩ hdefect hrun ?_ ?_ (hhelpers _ hheight)
    · exact haccounts.noted ▸ haccounts.height
    · exact haccounts.noted ▸ (legalize_spares_height (hp _ hheight)).of_run hrun
  · refine announces ⟨by decide, by decide, by decide⟩ hdefect hrun ?_ ?_ (hhelpers _ hwidth)
    · exact haccounts.noted ▸ haccounts.width
    · exact haccounts.noted ▸ (legalize_spares_width (hp _ hwidth)).of_run hrun
  · rw [haccounts.noted, sizeInputs, Bool.or_eq_true, Bool.and_eq_true, beq_iff_eq, isHeight_eq,
      FragCoord.isFragCoord_eq]
    refine or_congr_right (and_congr_right fun _ => ?_)
    exact ⟨fun huses => ⟨hfragment (FragCoord.isFragCoord_eq ▸ huses), huses⟩, And.right⟩
  · -- The width is noted if the program uses it, and for nothing else.
    rw [haccounts.noted, sizeInputs, isWidth_eq]

end

/-- A fragment program that reads its coordinates from the other side and uses the width. -/
theorem flipped_coordinate_size_uniforms :
    let t : Target := { profile := {}, flipsY := true }
    let coord : Expr := .ofSwizzle (.ofBuiltin .fragCoord) [.y]
    let color : Expr := .ofBuiltin .fragColor
    let p : Program := ⟨.fragment, [.function (.entry
      [.assign color (.ofConstruct (.halfVec 4) [.ofBinary .div coord (.ofBuiltin .width)])])]⟩
    (∀ x ∈ ["u_skRTHeight", "u_skRTWidth"], p.Avoids x) ∧ ∃ out, generate t p = .ok out ∧
      out.inputs.height = true ∧ out.inputs.width = true := by
  intro t coord color p
  have hp : ∀ x ∈ ["u_skRTHeight", "u_skRTWidth"], p.Avoids x := fun x hx =>
    Program.avoids_iff.mpr (by revert x; decide)
  -- The text is generated; what it comes with follows from the theorem.
  obtain ⟨ps, s, hrun, -⟩ := exists_ok_of_any (r := (piecesM t p).run.run {}) (q := fun _ => true)
    (by decide +kernel)
  have hout := generate_of_run hrun
  obtain ⟨-, hheight, hwidth⟩ := size_uniforms_are_noted hp hout
  exact ⟨hp, _, hout, hheight.mpr (.inr (by decide)), hwidth.mpr (by decide)⟩

end ShaderGen
