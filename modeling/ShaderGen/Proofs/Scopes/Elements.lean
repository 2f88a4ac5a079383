import ShaderGen.Proofs.Scopes.Statements

/-!
# Scopes of elements

A global is in scope after its declaration, and a function in its own body and after it
(`Element.ListBound`). A program is tidy (`Tidy`) if it is bound in the scope of what stands in
front of it, and if no name that rules brought in is declared twice: not by two of its functions,
and not by two declarations in one of them, at whatever depth these are. Names that are in use are
told apart from those that are not, so a tidy program may be given names that are not in use yet.

## Key results

- `Tidy.spreads`: elements may be replaced by others that declare names not yet in use
-/

namespace ShaderGen

open List (Forall₂)
open ShaderGen.Symbol (ofNames Within)

namespace Function

/-- What the function is called by. -/
def symbol (fn : Function) : Symbol := .ofFunction fn.name fn.result

/-- Names of the parameters, and of everything that the body declares, at any depth. -/
def locals (fn : Function) : List String := fn.params.map Param.name ++ Stmt.listLocals fn.body

/-- The body is bound where the function and its parameters are in scope as well. -/
def Bound (scope : List Symbol) (fn : Function) : Prop :=
  Stmt.ListBound (scope ++ fn.symbol :: ofNames (fn.params.map Param.name)) fn.body

end Function

namespace Element

/-- What an element declares. -/
def declared : Element → List Symbol
  | .global d => [.variable d.name]
  | .function fn => [fn.symbol]
  | .layout _ => []

/-- Names of the globals among what an element declares. -/
def globals : Element → List String
  | .global d => [d.name]
  | .function _ | .layout _ => []

/-- Names of the functions among what an element declares. -/
def functions : Element → List String
  | .function fn => [fn.name]
  | .global _ | .layout _ => []

/-- Names that are declared inside an element. -/
def locals : Element → List String
  | .function fn => fn.locals
  | .global _ | .layout _ => []

/-- Whatever an element refers to that rules brought in is in scope there. A global is not in scope
    in its own initial value. -/
def Bound (scope : List Symbol) : Element → Prop
  | .global d => ∀ e ∈ d.init, e.Bound scope
  | .function fn => fn.Bound scope
  | .layout _ => True

/-- The same for several elements; what one declares is in scope in those after it. -/
def ListBound (scope : List Symbol) : List Element → Prop
  | [] => True
  | el :: els => el.Bound scope ∧ ListBound (scope ++ el.declared) els

section

variable {scope scope' : List Symbol} {el : Element} {els fs : List Element}

/-- The second part of a list is bound after what the first part declares. -/
theorem listBound_append : ListBound scope (els ++ fs) ↔
    ListBound scope els ∧ ListBound (scope ++ els.flatMap declared) fs := by
  induction els generalizing scope with
  | nil => simp [ListBound]
  | cons el els ih =>
    simp only [List.cons_append, ListBound, ih, List.flatMap_cons, List.append_assoc, and_assoc]

/-- What is bound in a scope is bound in a wider one. -/
theorem Bound.mono (h : el.Bound scope) (hscope : Within scope scope') : el.Bound scope' := by
  cases el with
  | global d => exact fun e he => (h e he).mono hscope
  | function fn => exact Stmt.ListBound.mono h (hscope.append_right _)
  | layout l => trivial

/-- So are lists. -/
theorem ListBound.mono (h : ListBound scope els) (hscope : Within scope scope') :
    ListBound scope' els := by
  induction els generalizing scope scope' with
  | nil => trivial
  | cons el els ih => exact ⟨h.1.mono hscope, ih h.2 (hscope.append_right _)⟩

end

/-! ### Replacing elements -/

/-- An element that declares what another one does, is bound wherever that is bound and certain
    symbols are in scope, and declares nothing inside more often, save for certain names. -/
structure Refits (brought : List Symbol) (names : List String) (el el' : Element) : Prop where
  declared : el'.declared = el.declared
  globals : el'.globals = el.globals
  functions : el'.functions = el.functions
  locals (x : String) : el'.locals.count x ≤ el.locals.count x + names.count x
  bound {scope} : brought ⊆ scope → el.Bound scope → el'.Bound scope

/-- Elements that may stand in the place of others, if certain symbols are in scope and certain
    names may be used once more. -/
structure Spreads (brought : List Symbol) (names : List String) (els els' : List Element) :
    Prop where
  declared : Within (els.flatMap declared) (els'.flatMap declared)
  globals : els'.flatMap globals ⊆ els.flatMap globals
  functions (x : String) : isSynthesized x = true →
    (els'.flatMap functions).count x ≤ (els.flatMap functions).count x + names.count x
  locals (el') : el' ∈ els' → ∃ old : List String, (old = [] ∨ ∃ el ∈ els, el.locals = old) ∧
    ∀ x, el'.locals.count x ≤ old.count x + names.count x
  bound {scope} : brought ⊆ scope → ListBound scope els → ListBound scope els'

section

variable {brought : List Symbol} {names more : List String} {el el' : Element}
  {els els' fs fs' : List Element}

/-- An element fits itself. -/
theorem Refits.refl (el : Element) : Refits brought names el el :=
  ⟨rfl, rfl, rfl, fun _ => Nat.le_add_right _ _, fun _ => id⟩

/-- It does so with more names, too. -/
theorem Refits.mono (h : Refits brought names el el') (hnames : names.Sublist more) :
    Refits brought more el el' where
  declared := h.declared
  globals := h.globals
  functions := h.functions
  locals x := Nat.le_trans (h.locals x) (Nat.add_le_add_left (hnames.count_le x) _)
  bound := h.bound

/-- What is read off elements alike is read off the lists alike. -/
theorem flatMap_eq_of_forall₂ {β : Type} {R : Element → Element → Prop} {f : Element → List β}
    (h : Forall₂ R els els') (hf : ∀ el el', R el el' → f el' = f el) :
    els'.flatMap f = els.flatMap f := by
  induction h with
  | nil => rfl
  | cons hel _ ih => rw [List.flatMap_cons, List.flatMap_cons, hf _ _ hel, ih]

namespace Spreads

/-- Nothing spreads to nothing. -/
theorem nil : Spreads brought [] [] [] :=
  ⟨.refl _, List.Subset.refl _, fun _ _ => Nat.le_refl _, fun _ => nofun, fun _ => id⟩

/-- Lists that spread do so in a row. -/
theorem append (h : Spreads brought names els els') (h' : Spreads brought more fs fs') :
    Spreads brought (names ++ more) (els ++ fs) (els' ++ fs') where
  declared := by
    simp only [List.flatMap_append]
    exact h.declared.append h'.declared
  globals := by
    simp only [List.flatMap_append]
    exact List.append_subset.mpr ⟨List.subset_append_of_subset_left _ h.globals,
      List.subset_append_of_subset_right _ h'.globals⟩
  -- The counts of both parts are added up.
  functions x hx := by
    have hfirst := h.functions x hx
    have hsecond := h'.functions x hx
    simp only [List.flatMap_append, List.count_append]
    omega
  -- An element comes from one of the two parts, and its locals with it.
  locals el' hel' := by
    rcases List.mem_append.mp hel' with hel' | hel'
    · obtain ⟨old, hold, hcount⟩ := h.locals el' hel'
      refine ⟨old, hold.imp_right fun ⟨el, hel, heq⟩ => ⟨el, List.mem_append_left _ hel, heq⟩, ?_⟩
      intro x
      have := hcount x
      rw [List.count_append]
      omega
    · obtain ⟨old, hold, hcount⟩ := h'.locals el' hel'
      refine ⟨old, hold.imp_right fun ⟨el, hel, heq⟩ => ⟨el, List.mem_append_right _ hel, heq⟩, ?_⟩
      intro x
      have := hcount x
      rw [List.count_append]
      omega
  bound {scope} hbrought hbound := by
    obtain ⟨hels, hfs⟩ := listBound_append.mp hbound
    -- The second part may use all that the first part declares.
    refine listBound_append.mpr ⟨h.bound hbrought hels, ?_⟩
    exact h'.bound (List.subset_append_of_subset_left _ hbrought)
      (hfs.mono ((Within.refl scope).append h.declared))

/-- Spreading twice is spreading with the names of both. -/
theorem trans {gs : List Element} (h : Spreads brought names els els')
    (h' : Spreads brought more els' gs) : Spreads brought (more ++ names) els gs where
  declared := h.declared.trans h'.declared
  globals := List.Subset.trans h'.globals h.globals
  functions x hx := by
    have hfirst := h.functions x hx
    have hsecond := h'.functions x hx
    rw [List.count_append]
    omega
  locals el'' hel'' := by
    obtain ⟨old', hold', hcount'⟩ := h'.locals el'' hel''
    -- An element of the end came from one in the middle, or is new altogether.
    rcases hold' with rfl | ⟨el', hel', rfl⟩
    · refine ⟨[], .inl rfl, fun x => ?_⟩
      have := hcount' x
      rw [List.count_append]
      omega
    · obtain ⟨old, hold, hcount⟩ := h.locals el' hel'
      refine ⟨old, hold, fun x => ?_⟩
      have hfirst := hcount x
      have hsecond := hcount' x
      rw [List.count_append]
      omega
  bound hbrought hels := h'.bound hbrought (h.bound hbrought hels)

/-- Elements that are replaced one by one. -/
theorem of_forall₂ (h : Forall₂ (Refits brought names) els els') :
    Spreads brought names els els' where
  declared := by
    rw [flatMap_eq_of_forall₂ h fun el el' hel => hel.declared]
    exact .refl _
  globals := by
    rw [flatMap_eq_of_forall₂ h fun el el' hel => hel.globals]
    exact List.Subset.refl _
  functions x _ := by
    rw [flatMap_eq_of_forall₂ h fun el el' hel => hel.functions]
    exact Nat.le_add_right _ _
  -- By induction on the elements, up to the one that was asked about.
  locals el' hel' := by
    induction h with
    | nil => exact absurd hel' List.not_mem_nil
    | @cons el _ els _ hel _ ih =>
      rcases List.mem_cons.mp hel' with rfl | hel'
      · exact ⟨el.locals, .inr ⟨el, List.mem_cons_self, rfl⟩, hel.locals⟩
      · obtain ⟨old, hold, hcount⟩ := ih hel'
        exact ⟨old, hold.imp_right fun ⟨el, hel, heq⟩ =>
          ⟨el, List.mem_cons_of_mem _ hel, heq⟩, hcount⟩
  bound {scope} hbrought hbound := by
    -- The elements before one are in scope there, and they declare what they did.
    induction h generalizing scope with
    | nil => trivial
    | cons hel _ ih =>
      refine ⟨hel.bound hbrought hbound.1, ?_⟩
      rw [hel.declared]
      exact ih (List.subset_append_of_subset_left _ hbrought) hbound.2

end Spreads

end

end Element

/-! ### Walks over elements -/

namespace Element

variable {brought : List Symbol} {names : List String}

/-- A global with another initial value. -/
theorem Refits.global {d d' : Decl} (hname : d'.name = d.name)
    (hinit : Option.Rel (Expr.Grants brought) d.init d'.init) :
    Refits brought names (.global d) (.global d') where
  declared := congrArg (fun x => [Symbol.variable x]) hname
  globals := congrArg ([·]) hname
  functions := rfl
  locals _ := Nat.le_add_right _ _
  bound hbrought := Stmt.bound_option_of_grants hinit (.refl _) hbrought

/-- A function with another body. -/
theorem Refits.function {fn fn' : Function} (hname : fn'.name = fn.name)
    (hresult : fn'.result.shape = fn.result.shape)
    (hparams : fn'.params.map Param.name = fn.params.map Param.name)
    (hlocals : ∀ x, (Stmt.listLocals fn'.body).count x ≤
      (Stmt.listLocals fn.body).count x + names.count x)
    (hbound : ∀ scope, brought ⊆ scope → Stmt.ListBound scope fn.body →
      Stmt.ListBound scope fn'.body) :
    Refits brought names (.function fn) (.function fn') := by
  -- Name and result are the same, so calls find the function as before.
  have hsymbol : fn'.symbol = fn.symbol := by
    unfold Function.symbol Symbol.ofFunction
    rw [hname, hresult]
  refine ⟨congrArg ([·]) hsymbol, rfl, congrArg ([·]) hname, fun x => ?_, fun hbrought h => ?_⟩
  · have hcount := hlocals x
    show (fn'.params.map Param.name ++ _).count x ≤ (fn.params.map Param.name ++ _).count x + _
    rw [hparams, List.count_append, List.count_append]
    omega
  · show Stmt.ListBound _ _
    rw [hsymbol, hparams]
    exact hbound _ (List.subset_append_of_subset_left _ hbrought) h

/-- A function fits with a new body that is bound where the old one was. -/
theorem Refits.body {fn : Function} {body : List Stmt}
    (hlocals : ∀ x, (Stmt.listLocals body).count x ≤
      (Stmt.listLocals fn.body).count x + names.count x)
    (hbound : ∀ scope, brought ⊆ scope → Stmt.ListBound scope fn.body →
      Stmt.ListBound scope body) :
    Refits brought names (.function fn) (.function { fn with body }) :=
  .function rfl rfl rfl hlocals hbound

/-- A function with other expressions. -/
theorem Refits.images {fn : Function} {body : List Stmt}
    (h : Forall₂ (Stmt.Mirrors (Expr.Grants brought)) fn.body body) :
    Refits brought names (.function fn) (.function { fn with body }) := by
  have himages : Forall₂ (Stmt.Image brought) fn.body body := h.imp fun _ _ hs => hs.image
  refine .body (fun x => ?_) fun scope hbrought hbody => ?_
  · rw [Stmt.Image.listLocals himages]
    exact Nat.le_add_right _ _
  · exact Stmt.Image.listBound himages (.refl _) hbrought hbody

section

variable {m : Type → Type} [Monad m] [LawfulMonad m] (V : Verdict m) {Q : Expr → Prop}
  {f : Expr → m Expr}

/-- A mapped element fits, if its expressions need no more names. -/
theorem mapExprsM_refits (hf : ∀ e, Q e → V.Holds (e.Grants brought) (f e)) {el : Element}
    (hel : el.All Q) : V.Holds (Refits brought [] el) (el.mapExprsM f) := by
  refine V.mono (mapExprsM_mirrors V hf el hel) fun el' h => ?_
  cases h with
  | global hinit => exact .global rfl hinit
  | function hbody => exact .images hbody
  | layout l => exact .refl _

/-- A program whose expressions are replaced. -/
theorem mapExprsM_spreads (hf : ∀ e, Q e → V.Holds (e.Grants brought) (f e)) {p : Program}
    (hp : p.All Q) :
    V.Holds (fun p' => Spreads brought [] p.elements p'.elements) (p.mapExprsM f) := by
  refine V.bind (V.mapM fun el hel => mapExprsM_refits V hf (hp el hel)) fun elements => ?_
  exact V.pure fun helements => .of_forall₂ helements

/-- A program whose nodes are replaced. -/
theorem mapNodesM_spreads (hf : ∀ e, V.Holds (e.Grants brought) (f e)) (p : Program) :
    V.Holds (fun p' => Spreads brought [] p.elements p'.elements) (p.mapNodesM f) :=
  mapExprsM_spreads V (fun e _ => Expr.isCongruence_grants.bottomUpM_verdict V hf e)
    (p.meets_anything.all rfl)

end

/-- A program whose functions are replaced. -/
theorem mapFunctions_spreads {f : Function → Function}
    (hf : ∀ fn, Refits brought names (.function fn) (.function (f fn))) (p : Program) :
    Spreads brought names p.elements (p.mapFunctions f).elements := by
  refine .of_forall₂ (List.forall₂_map_right_iff.mpr (List.forall₂_same.mpr fun el _ => ?_))
  cases el with
  | function fn => exact hf fn
  | global d => exact .refl _
  | layout l => exact .refl _

/-- A program whose first entry function is replaced. -/
theorem mapEntry_spreads {f : Function → Function}
    (hf : ∀ fn, Refits brought names (.function fn) (.function (f fn))) (p : Program) :
    Spreads brought names p.elements (p.mapEntry f).elements := by
  -- After the first entry point nothing changes.
  have hrefl : ∀ els : List Element, Forall₂ (Refits brought names) els els := fun els =>
    List.forall₂_same.mpr fun el _ => .refl el
  have hfirst : ∀ els : List Element,
      Forall₂ (Refits brought names) els (mapFirstEntry f els) := by
    intro els
    induction els with
    | nil => exact .nil
    | cons el els ih =>
      cases el with
      | function fn =>
        unfold mapFirstEntry
        split
        · exact .cons (hf fn) (hrefl els)
        · exact .cons (.refl _) ih
      | global d => exact .cons (.refl _) ih
      | layout l => exact .cons (.refl _) ih
  exact .of_forall₂ (hfirst p.elements)

/-- A program whose functions are replaced by work that is given names. -/
theorem mapFunctionsM_spreads {m : Type → Type} [Monad m] [LawfulMonad m] (C : Naming m)
    {f : Function → m Function}
    (hf : ∀ fn, C.Holds (fun names fn' => Refits brought names (.function fn) (.function fn'))
      (f fn)) (p : Program) :
    C.Holds (fun names p' => Spreads brought names p.elements p'.elements)
      (p.mapFunctionsM f) := by
  have helements : C.Holds (fun names els => Forall₂ (Refits brought names) p.elements els)
      (p.elements.mapM (mapFunctionM f)) := by
    -- Only functions are walked.
    refine C.mapM (fun h hnames => h.mono hnames) fun el _ => ?_
    cases el with
    | function fn => exact C.map (hf fn) fun names fn' h => h
    | global d => exact C.pure (.refl _)
    | layout l => exact C.pure (.refl _)
  exact C.map helements fun names els h => .of_forall₂ h

end Element

/-! ### Names in use -/

/-- Names that rules brought in occur at most once in a list, and are in use. -/
structure Spent (used : String → Prop) (names : List String) : Prop where
  once (x : String) : isSynthesized x = true → names.count x ≤ 1
  used (x : String) : isSynthesized x = true → x ∈ names → used x

/-- Names that were not in use are in use from now on, as are those that were before. -/
structure Enters (used used' : String → Prop) (names : List String) : Prop where
  nodup : names.Nodup
  fresh (x : String) : x ∈ names → ¬ used x
  entered (x : String) : x ∈ names → used' x
  kept (x : String) : used x → used' x

section

variable {used used' : String → Prop} {names old new : List String}

/-- Names that are not synthesized are not counted. -/
theorem spent_of_unsynthesized (h : ∀ x ∈ names, isSynthesized x = false) : Spent used names where
  once x hx := by
    have hmem : x ∉ names := fun hmem => absurd hx (by simp [h x hmem])
    simp [List.count_eq_zero_of_not_mem hmem]
  used x hx hmem := absurd hx (by simp [h x hmem])

/-- No name that rules brought in occurs twice. -/
theorem Spent.nodup (h : Spent used names) : (names.filter isSynthesized).Nodup := by
  refine List.nodup_iff_count_le_one.mpr fun x => ?_
  cases hx : isSynthesized x with
  | true => exact Nat.le_trans (List.filter_sublist.count_le x) (h.once x hx)
  | false =>
    have hmem : x ∉ names.filter isSynthesized := fun hmem =>
      absurd (List.mem_filter.mp hmem).2 (by simp [hx])
    simp [List.count_eq_zero_of_not_mem hmem]

/-- What is declared no more often than before, save for names that were not in use. -/
theorem Spent.of_count (h : Spent used old) (he : Enters used used' names)
    (hcount : ∀ x, isSynthesized x = true → new.count x ≤ old.count x + names.count x) :
    Spent used' new where
  once x hx := by
    have hnew := hcount x hx
    have hold := h.once x hx
    by_cases hmem : x ∈ names
    · -- A name that comes into use has not been there.
      have hnone : old.count x = 0 :=
        List.count_eq_zero_of_not_mem fun hmem' => he.fresh x hmem (h.used x hx hmem')
      have hone := List.nodup_iff_count_le_one.mp he.nodup x
      omega
    · rw [List.count_eq_zero_of_not_mem hmem] at hnew
      omega
  used x hx hmem := by
    have hnew := hcount x hx
    have hpos : 0 < new.count x := List.count_pos_iff.mpr hmem
    by_cases hmem' : x ∈ names
    · exact he.entered x hmem'
    · rw [List.count_eq_zero_of_not_mem hmem'] at hnew
      exact he.kept x (h.used x hx (List.count_pos_iff.mp (by omega)))

/-- Elements that are bound in a scope, and declare no name twice that rules brought in. -/
structure Tidy (used : String → Prop) (scope : List Symbol) (els : List Element) : Prop where
  bound : Element.ListBound scope els
  globals (x : String) : x ∈ els.flatMap Element.globals → isSynthesized x = false
  functions : Spent used (els.flatMap Element.functions)
  locals (el : Element) : el ∈ els → Spent used el.locals

/-- A tidy program may be given names that are not in use yet. -/
theorem Tidy.spreads {scope scope' brought : List Symbol} {els els' : List Element}
    (h : Tidy used scope els) (hels : Element.Spreads brought names els els')
    (hscope : scope ⊆ scope') (hbrought : brought ⊆ scope') (he : Enters used used' names) :
    Tidy used' scope' els' where
  bound := hels.bound hbrought (h.bound.mono (.of_subset hscope))
  globals x hx := h.globals x (hels.globals hx)
  functions := h.functions.of_count he hels.functions
  -- What is new in an element was not used before.
  locals el' hel' := by
    obtain ⟨old, hold, hcount⟩ := hels.locals el' hel'
    have hspent : Spent used old := by
      rcases hold with rfl | ⟨el, hel, rfl⟩
      · exact spent_of_unsynthesized (by simp)
      · exact h.locals el hel
    exact hspent.of_count he fun x _ => hcount x

/-- The same where no name comes into use. -/
theorem Tidy.replace {scope brought : List Symbol} {els els' : List Element}
    (h : Tidy used scope els) (hels : Element.Spreads brought [] els els')
    (hbrought : brought ⊆ scope) : Tidy used scope els' :=
  h.spreads hels (List.Subset.refl _) hbrought ⟨.nil, nofun, nofun, fun _ => id⟩

/-- A function may come last whose name is not one that rules bring in. -/
theorem Tidy.append {scope : List Symbol} {els : List Element} {fn : Function}
    (h : Tidy used scope els) (hbound : fn.Bound (scope ++ els.flatMap Element.declared))
    (hname : isSynthesized fn.name = false) (hlocals : fn.locals = []) :
    Tidy used scope (els ++ [.function fn]) where
  bound := Element.listBound_append.mpr ⟨h.bound, hbound, trivial⟩
  globals x hx := h.globals x (by simpa [Element.globals] using hx)
  functions := by
    -- The new function has a name of the source, or one that is fixed.
    have hother : ∀ x, isSynthesized x = true → fn.name ≠ x := fun x hx heq =>
      absurd hx (by simp [← heq, hname])
    have hlist : (els ++ [Element.function fn]).flatMap Element.functions =
        els.flatMap Element.functions ++ [fn.name] := by simp [Element.functions]
    refine ⟨fun x hx => ?_, fun x hx hmem => h.functions.used x hx ?_⟩
    · rw [hlist, List.count_append, List.count_singleton, if_neg (by simpa using hother x hx)]
      exact h.functions.once x hx
    · rw [hlist, List.mem_append, List.mem_singleton] at hmem
      exact hmem.resolve_right fun heq => hother x hx heq.symm
  locals el hel := by
    rcases List.mem_append.mp hel with hel | hel
    · exact h.locals el hel
    · obtain rfl := List.mem_singleton.mp hel
      exact spent_of_unsynthesized (by simp [Element.locals, hlocals])

end

end ShaderGen
