import ShaderGen.Proofs.Generation
import ShaderGen.Proofs.Scopes.NewNames

/-!
# Names in emitted programs

What is written is what rules put in front of the program, and then its elements. In it, every name
that rules bring in refers to a declaration that comes before it in a scope around it, and none is
declared twice in one scope (`Element.WellScoped`); a program that rules were given must not use
such names itself (`Program.Pristine`).

## Key results

- `synthesized_names_are_declared`: of every program for which text is generated
-/

namespace ShaderGen

open List (Forall₂)
open ShaderGen.Symbol (ofNames Within)

/-- No name in a program, declared or referred to, starts like one that rules bring in. -/
structure Program.Pristine (p : Program) : Prop where
  refers : p.anyNode (fun n => n.symbol?.any Symbol.isSynthesized) = false
  declared (sym : Symbol) : sym ∈ p.elements.flatMap Element.declared → sym.isSynthesized = false
  locals (x : String) : x ∈ p.elements.flatMap Element.locals → isSynthesized x = false

/-- The declaration that a global of the preamble is. The fragment coordinate is no name of the
    program's, so declaring it anew declares none. -/
def AddedGlobal.element? : AddedGlobal → Option Element
  | .declared d => some (.global d)
  | .upperLeftOrigin => none

/-- What rules put in front of a program, in the order in which it is written. -/
def Scratch.preamble (s : Scratch) : List Element :=
  s.globals.filterMap AddedGlobal.element? ++ s.helpers.map fun h => .function h.2

/-- Whatever elements refer to that rules brought in is declared before, in a scope around it. What
    is declared at the top has no two declarations of one such symbol, and neither has anything
    inside a function, at whatever depth: so no scope has two. -/
structure Element.WellScoped (els : List Element) : Prop where
  bound : Element.ListBound [] els
  globals : ((els.flatMap Element.declared).filter Symbol.isSynthesized).Nodup
  locals (el : Element) : el ∈ els → (el.locals.filter isSynthesized).Nodup

/-! ### Before the first rule -/

section

variable {scope : List Symbol}

/-- Statements that are bound anywhere are bound in a row. -/
theorem Stmt.listBound_of_forall {ss : List Stmt} (h : ∀ s ∈ ss, ∀ scope, s.Bound scope) :
    ListBound scope ss := by
  induction ss generalizing scope with
  | nil => trivial
  | cons s ss ih =>
    exact ⟨h s List.mem_cons_self scope, ih fun t ht => h t (List.mem_cons_of_mem _ ht)⟩

/-- So are elements. -/
theorem Element.listBound_of_forall {els : List Element}
    (h : ∀ el ∈ els, ∀ scope, el.Bound scope) : ListBound scope els := by
  induction els generalizing scope with
  | nil => trivial
  | cons el els ih =>
    exact ⟨h el List.mem_cons_self scope, ih fun el' hel' => h el' (List.mem_cons_of_mem _ hel')⟩

/-- A statement without symbols that rules brought in is bound anywhere. -/
theorem Stmt.bound_of_all {s : Stmt} (h : s.All fun e => ∀ scope, e.Bound scope)
    (scope : List Symbol) : s.Bound scope := by
  -- A block and a loop go on in a longer scope, so the scope is generalized.
  induction s generalizing scope with
  | block body ih =>
    exact listBound_of_forall fun s hs => ih s hs (all_block.mp h s hs)
  | decl d => exact fun e he => all_decl.mp h e he scope
  | ifElse cond thenBranch elseBranch iht ihe =>
    obtain ⟨hcond, hthen, helse⟩ := all_ifElse.mp h
    refine ⟨hcond scope, iht hthen scope, ?_⟩
    cases elseBranch with
    | none => trivial
    | some s => exact ihe s rfl (helse s rfl) scope
  -- The counter of a loop is in scope in the other three parts.
  | forLoop init cond step body ihi ihb =>
    obtain ⟨hinit, hcond, hstep, hbody⟩ := all_forLoop.mp h
    refine ⟨?_, fun e he => hcond e he _, fun e he => hstep e he _, ihb hbody _⟩
    cases init with
    | none => trivial
    | some s => exact ihi s rfl (hinit s rfl) scope
  | whileLoop cond body ih =>
    obtain ⟨hcond, hbody⟩ := all_whileLoop.mp h
    exact ⟨hcond scope, ih hbody scope⟩
  | doWhile body cond ih =>
    obtain ⟨hcond, hbody⟩ := all_doWhile.mp h
    exact ⟨hcond scope, ih hbody scope⟩
  -- Later cases are in the scope of what the earlier ones declare.
  | switchOn value cases ih =>
    obtain ⟨hvalue, hcases⟩ := all_switchOn.mp h
    refine ⟨hvalue scope, ?_⟩
    clear h
    induction cases generalizing scope with
    | nil => trivial
    | cons c cases ihc =>
      obtain ⟨label, body⟩ := c
      refine ⟨listBound_of_forall fun s hs => ?_, ihc ?_ _ ?_⟩
      · exact ih label body List.mem_cons_self s hs (hcases _ List.mem_cons_self s hs)
      · exact fun label body hmem => ih label body (List.mem_cons_of_mem _ hmem)
      · exact fun c hc => hcases c (List.mem_cons_of_mem _ hc)
  | expr e => exact all_expr.mp h scope
  | returnWith value => exact fun e he => all_returnWith.mp h e he scope
  | _ => trivial

end

namespace Program

variable {p : Program}

/-- Before the first rule nothing is brought in, so there is nothing to be declared. -/
theorem Pristine.tidy (hp : p.Pristine) : p.Tidy [] {} where
  bound := by
    -- A program of the source refers to no synthesized name.
    have hrefers : p.All fun e => ∀ scope, e.Bound scope :=
      (Program.anyNode_eq_false_iff.mp hp.refers).mono fun e he _ => Expr.bound_of_unsynthesized he
    refine Element.listBound_of_forall fun el hel scope => ?_
    cases el with
    | global d => exact fun e he => hrefers _ hel e he scope
    | function fn =>
      exact Stmt.listBound_of_forall fun s hs => Stmt.bound_of_all (hrefers _ hel s hs)
    | layout l => trivial
  -- A global of a pristine program has a name of its own, and so has each function and local.
  globals x hx := by
    obtain ⟨el, hel, hx⟩ := List.mem_flatMap.mp hx
    cases el with
    | global d =>
      obtain rfl := List.mem_singleton.mp hx
      exact hp.declared _ (List.mem_flatMap.mpr ⟨_, hel, List.mem_singleton_self _⟩)
    | _ => exact absurd hx List.not_mem_nil
  functions := by
    refine spent_of_unsynthesized fun x hx => ?_
    obtain ⟨el, hel, hx⟩ := List.mem_flatMap.mp hx
    cases el with
    | function fn =>
      obtain rfl := List.mem_singleton.mp hx
      rw [← Symbol.isSynthesized_ofFunction fn.name fn.result]
      exact hp.declared _ (List.mem_flatMap.mpr ⟨_, hel, List.mem_singleton_self _⟩)
    | _ => exact absurd hx List.not_mem_nil
  locals el hel := spent_of_unsynthesized fun x hx =>
    hp.locals x (List.mem_flatMap.mpr ⟨el, hel, hx⟩)

end Program

/-! ### The preamble -/

/-- What rules put in front of a program needs nothing that stands before it, and declares no symbol
    twice. -/
structure Scratch.Orderly (s : Scratch) : Prop where
  globals : ∀ g ∈ s.globals, ∀ d, g = .declared d → d.init = none
  helpers : ∀ h ∈ s.helpers, ∃ ty : Ty, h = (ty.shape, Legalize.IntAbs.helper ty)
  symbols : s.symbols.Nodup

namespace Scratch

variable {s : Scratch}

/-! What is among the symbols of a state. -/

/-- A variable is among the symbols if a global declares it. -/
theorem variable_mem_symbols {name : String} :
    .variable name ∈ s.symbols ↔ ∃ g ∈ s.globals, g.declares name = true := by
  -- One of the globals declares a built-in variable again, under no name.
  have hglobal : ∀ g : AddedGlobal, .variable name ∈ g.symbols ↔ g.declares name = true := by
    intro g
    cases g with
    | declared d =>
      rw [AddedGlobal.symbols, AddedGlobal.declares, List.mem_singleton, beq_iff_eq,
        Symbol.variable.injEq]
      exact eq_comm
    | upperLeftOrigin => simp [AddedGlobal.symbols, AddedGlobal.declares]
  simp [symbols, hglobal]

/-- No function is among the symbols: only helpers stand in front of the program. -/
theorem function_not_mem_symbols {name : String} : .function name ∉ s.symbols := by
  have hglobal : ∀ g : AddedGlobal, .function name ∉ g.symbols := by
    intro g
    cases g <;> simp [AddedGlobal.symbols]
  simp [symbols, hglobal]

/-- A helper is among the symbols if it was added. -/
theorem helper_mem_symbols {shape : Shape} :
    .helper shape ∈ s.symbols ↔ ∃ h ∈ s.helpers, h.1 = shape := by
  have hglobal : ∀ g : AddedGlobal, .helper shape ∉ g.symbols := by
    intro g
    cases g <;> simp [AddedGlobal.symbols]
  simp [symbols, hglobal]

/-- The order in front of a program is told by its globals and helpers. -/
theorem aboutPreamble_orderly : Legalize.AboutPreamble Orderly where
  -- What is orderly is read off the helpers and the globals.
  congr s s' h hhelpers hglobals := by
    refine ⟨hglobals ▸ h.globals, hhelpers ▸ h.helpers, ?_⟩
    unfold symbols
    rw [hglobals, hhelpers]
    exact h.symbols
  helper s h ty := by
    unfold addHelper
    split
    · exact h
    next hnew =>
    refine ⟨h.globals, List.forall_mem_append.mpr ⟨h.helpers,
      List.forall_mem_singleton.mpr ⟨ty, rfl⟩⟩, ?_⟩
    -- Helpers come last among the symbols, so a new one is appended.
    have hfresh : .helper ty.shape ∉ s.symbols := fun hmem => by
      obtain ⟨h', hh', hshape⟩ := helper_mem_symbols.mp hmem
      exact hnew (List.any_eq_true.mpr ⟨h', hh', beq_iff_eq.mpr hshape⟩)
    have hlast : (s.symbols ++ [Symbol.helper ty.shape]).Nodup :=
      List.perm_append_comm.nodup_iff.mpr (List.nodup_cons.mpr ⟨hfresh, h.symbols⟩)
    simpa [symbols, report] using hlast
  global s h d hd := by
    unfold declareGlobal
    split
    · exact h
    next hnew =>
    refine ⟨List.forall_mem_append.mpr ⟨h.globals, List.forall_mem_singleton.mpr fun d' hd' =>
      AddedGlobal.declared.inj hd' ▸ hd.init⟩, h.helpers, ?_⟩
    have hfresh : .variable d.name ∉ s.symbols := fun hmem =>
      hnew (List.any_eq_true.mpr (variable_mem_symbols.mp hmem))
    -- A new variable stands between the globals and the helpers.
    have hbetween : (s.globals.flatMap AddedGlobal.symbols ++ .variable d.name ::
        s.helpers.map fun h => Symbol.helper h.1).Nodup :=
      List.perm_middle.nodup_iff.mpr (List.nodup_cons.mpr ⟨hfresh, h.symbols⟩)
    simpa [symbols, AddedGlobal.symbols, report] using hbetween
  -- The origin has no name, so no symbol is added.
  origin s h := by
    unfold declareUpperLeftOrigin
    split
    · exact h
    refine ⟨List.forall_mem_append.mpr ⟨h.globals, List.forall_mem_singleton.mpr
      (by rintro _ ⟨⟩)⟩, h.helpers, ?_⟩
    simpa [symbols, AddedGlobal.symbols] using h.symbols

/-- With nothing added, all is in order. -/
theorem orderly_empty : ({} : Scratch).Orderly := ⟨nofun, nofun, .nil⟩

namespace Orderly

/-- In front of the program stand globals without initial values, and helpers. -/
theorem mem_preamble {el : Element} (h : s.Orderly) (hel : el ∈ s.preamble) :
    (∃ d, el = .global d ∧ d.init = none) ∨
      ∃ ty : Ty, el = .function (Legalize.IntAbs.helper ty) := by
  -- The globals come first, then the helpers.
  rcases List.mem_append.mp hel with hel | hel
  · obtain ⟨g, hg, hel⟩ := List.mem_filterMap.mp hel
    cases g with
    | declared d => exact .inl ⟨d, (Option.some.inj hel).symm, h.globals _ hg d rfl⟩
    | upperLeftOrigin => exact absurd hel nofun
  · obtain ⟨helper, hhelper, rfl⟩ := List.mem_map.mp hel
    obtain ⟨ty, rfl⟩ := h.helpers helper hhelper
    exact .inr ⟨ty, rfl⟩

/-- The symbols of a state are what is declared in front of a program. -/
theorem declared_preamble (h : s.Orderly) :
    s.preamble.flatMap Element.declared = s.symbols := by
  unfold preamble Scratch.symbols
  rw [List.flatMap_append]
  congr 1
  · -- The layout for the origin declares nothing.
    induction s.globals with
    | nil => rfl
    | cons g gs ih =>
      cases g with
      | declared d => exact congrArg (Symbol.variable d.name :: ·) ih
      | upperLeftOrigin => exact ih
  · have hsymbol : ∀ helper ∈ s.helpers,
        Element.declared (.function helper.2) = [Symbol.helper helper.1] := by
      intro helper hhelper
      obtain ⟨ty, rfl⟩ := h.helpers helper hhelper
      rfl
    rw [List.flatMap_map, List.flatMap_congr hsymbol, List.map_eq_flatMap]

/-- What stands in front refers to nothing but itself. -/
theorem listBound_preamble (h : s.Orderly) : Element.ListBound [] s.preamble := by
  refine Element.listBound_of_forall fun el hel scope => ?_
  rcases h.mem_preamble hel with ⟨d, rfl, hd⟩ | ⟨ty, rfl⟩
  · show ∀ e ∈ d.init, _
    rw [hd]
    exact nofun
  · -- A helper refers to nothing but its parameter and its operators.
    refine Stmt.listBound_of_forall fun s hs scope => ?_
    obtain rfl := List.mem_singleton.mp hs
    have hx : (Expr.ofVar "x" ty).Bound scope := Expr.bound_of_unsynthesized rfl
    rintro _ ⟨rfl⟩
    simp [hx]

/-- The helpers have no synthesized locals. -/
theorem locals_preamble {el : Element} (h : s.Orderly) (hel : el ∈ s.preamble) :
    el.locals.filter isSynthesized = [] := by
  rcases h.mem_preamble hel with ⟨d, rfl, -⟩ | ⟨ty, rfl⟩
  · rfl
  · show ["x"].filter isSynthesized = []
    decide

end Orderly

end Scratch

/-! ### The emitted program -/

/-- Of what a tidy program declares, rules brought in functions only, and no helpers. -/
theorem Tidy.declared {used : String → Prop} {scope : List Symbol} {els : List Element}
    (h : Tidy used scope els) (hused : ¬ used Legalize.IntAbs.helperName) :
    (els.flatMap Element.declared).filter Symbol.isSynthesized =
      ((els.flatMap Element.functions).filter isSynthesized).map .function := by
  have hhelper : ∀ x ∈ els.flatMap Element.functions, x ≠ Legalize.IntAbs.helperName := by
    rintro _ hmem rfl
    exact hused (h.functions.used _ (by decide) hmem)
  have hglobals := h.globals
  clear h
  induction els with
  | nil => rfl
  -- Element by element: only functions have synthesized names, and none is the helper's.
  | cons el els ih =>
    simp only [List.flatMap_cons, List.mem_append] at hhelper hglobals
    have hrest := ih (fun x hx => hhelper x (.inr hx)) fun x hx => hglobals x (.inr hx)
    rw [List.flatMap_cons, List.filter_append, hrest, List.flatMap_cons, List.filter_append,
      List.map_append]
    congr 1
    cases el with
    | global d =>
      have hname := hglobals d.name (.inl (List.mem_singleton_self _))
      simp [Element.declared, Element.functions, Symbol.isSynthesized, hname]
    | function fn =>
      have hname : fn.name ≠ Legalize.IntAbs.helperName :=
        hhelper _ (.inl (List.mem_singleton_self _))
      have hsymbol : fn.symbol = .function fn.name := if_neg hname
      cases hsynthesized : isSynthesized fn.name <;>
        simp [Element.declared, Element.functions, hsymbol, Symbol.isSynthesized, hsynthesized]
    | layout l => rfl

/-- The helper functions do not take their name from a stem. -/
theorem not_used_helperName {s : Scratch} :
    ¬ s.Used Legalize.givenNames Legalize.IntAbs.helperName := by
  have hunnumbered : Unnumbered [Legalize.IntAbs.helperName] := by
    refine unnumbered_of_prefix fun name hname stem => ?_
    obtain rfl := List.mem_singleton.mp hname
    cases stem <;> decide
  rintro (hgiven | ⟨stem, n, -, heq⟩)
  · exact absurd hgiven (by decide)
  · exact hunnumbered _ (List.mem_singleton_self _) stem n heq

/-- In the program that comes out of the pipeline, with what stands in front of it, every name that
    rules brought in refers to a declaration before it in a scope around it, and no scope declares
    such a name twice. -/
theorem synthesized_names_are_declared {t : Target} {p p' : Program} {s' : Scratch}
    (hp : p.Pristine) (hrun : (Legalize.legalize t p).run.run {} = (.ok p', s')) :
    Element.WellScoped (s'.preamble ++ p'.elements) := by
  have htidy : p'.Tidy Legalize.givenNames s' := Legalize.keepsTidy_legalize _ hp.tidy _ _ hrun
  have horderly : s'.Orderly :=
    Legalize.legalize_keeps_preamble Scratch.aboutPreamble_orderly Scratch.orderly_empty hrun
  refine ⟨?_, ?_, fun el hel => ?_⟩
  · refine Element.listBound_append.mpr ⟨horderly.listBound_preamble, ?_⟩
    rw [horderly.declared_preamble]
    exact htidy.bound
  · rw [List.flatMap_append, List.filter_append, horderly.declared_preamble,
      htidy.declared not_used_helperName]
    refine List.nodup_append'.mpr ⟨horderly.symbols.filter _, ?_, ?_⟩
    · exact htidy.functions.nodup.map fun _ _ => Symbol.function.inj
    · -- In front of the program stand variables and helpers.
      intro sym hsym hfunction
      obtain ⟨name, -, rfl⟩ := List.mem_map.mp hfunction
      exact Scratch.function_not_mem_symbols (List.mem_filter.mp hsym).1
  · rcases List.mem_append.mp hel with hel | hel
    · rw [horderly.locals_preamble hel]
      exact .nil
    · exact (htidy.locals el hel).nodup

/-- A loop with minima and absolute values of integers in it, and a global whose value needs a
    function of its own. -/
theorem loop_and_global_declare_names :
    let t : Target := { profile :=
      { workarounds := Workarounds.unions
          [.single .replaceDoWhile, .single .emulateIntAbs, .single .splitMinAbs] } }
    let k : Expr := .ofVar "k" .int
    let x : Expr := .ofVar "x" .float
    let least (e : Expr) : Expr := .ofCall .min [.ofCall .abs [e], x]
    let loop : Stmt := .doWhile
      (.block [.assign k (.ofCall .abs [k]), .assign x (least (least x))])
      (.ofBinary .lt k (.int 9))
    let p : Program := ⟨.fragment,
      [.global (.plain "k" .int none), .global (.plain "x" .float none),
        .global (.plain "y" .float (some (least (.float .half)))), .function (.entry [loop])]⟩
    p.Pristine ∧ ∃ p' s', (Legalize.legalize t p).run.run {} = (.ok p', s') ∧
      p'.elements.flatMap Element.functions = ["minAbsHackInit0", "main"] ∧
      Element.WellScoped (s'.preamble ++ p'.elements) := by
  -- The program is one of the source, so the general statement is about it.
  intro t k x least loop p
  have hp : p.Pristine := ⟨by decide, by decide, by decide⟩
  obtain ⟨p', s', hrun, hfunctions⟩ := exists_ok_of_any
    (r := (Legalize.legalize t p).run.run {})
    (q := fun p' => p'.elements.flatMap Element.functions == ["minAbsHackInit0", "main"])
    (by decide +kernel)
  exact ⟨hp, p', s', hrun, beq_iff_eq.mp hfunctions, synthesized_names_are_declared hp hrun⟩

end ShaderGen
