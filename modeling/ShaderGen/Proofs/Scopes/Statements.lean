import ShaderGen.Proofs.Naming
import ShaderGen.Proofs.Scopes.Symbols
import ShaderGen.Proofs.Semantics.Execution

/-!
# Scopes of statements

A declaration holds from the statement after it to the end of the statements around it; the header
of a `for` holds in its condition, step and body, and the cases of a `switch` share one scope. A
statement is bound in a scope (`Stmt.Bound`) if each expression in it is, in the scope that it has
there.

Statements may be replaced by others that declare further names, as long as what was bound stays
bound (`Stmt.Spreads`). A walk that replaces statement by statement does so for whole bodies.

## Key results

- `Stmt.Mirrors.image`: statements whose expressions are replaced
- `Stmt.expandListM_spreads`: statements that are replaced one by one
-/

namespace ShaderGen

open List (Forall₂)
open ShaderGen.Symbol (ofNames Within)

namespace Stmt

mutual
/-- Whatever a statement refers to that rules brought in is in scope there. -/
def Bound (scope : List Symbol) : Stmt → Prop
  | .block body => ListBound scope body
  | .decl d => ∀ e ∈ d.init, e.Bound scope
  | .ifElse cond thenBranch elseBranch =>
    cond.Bound scope ∧ thenBranch.Bound scope ∧ OptionBound scope elseBranch
  | .forLoop init cond step body =>
    OptionBound scope init ∧
      (∀ e ∈ cond, e.Bound (scope ++ ofNames (listDeclared init.toList))) ∧
      (∀ e ∈ step, e.Bound (scope ++ ofNames (listDeclared init.toList))) ∧
      body.Bound (scope ++ ofNames (listDeclared init.toList))
  | .whileLoop cond body | .doWhile body cond => cond.Bound scope ∧ body.Bound scope
  | .switchOn value cases => value.Bound scope ∧ CasesBound scope cases
  | .expr e => e.Bound scope
  | .returnWith value => ∀ e ∈ value, e.Bound scope
  | .breakOut | .continueLoop | .discard | .emitVertex | .endPrimitive => True

/-- The same for a statement that need not be there. -/
def OptionBound (scope : List Symbol) : Option Stmt → Prop
  | none => True
  | some s => s.Bound scope

/-- The same for several statements; what one declares is in scope in those after it. -/
def ListBound (scope : List Symbol) : List Stmt → Prop
  | [] => True
  | s :: ss => s.Bound scope ∧ ListBound (scope ++ ofNames s.declared) ss

/-- The same for the cases of a `switch`. -/
def CasesBound (scope : List Symbol) : List Case → Prop
  | [] => True
  | .mk _ body :: cases =>
    ListBound scope body ∧ CasesBound (scope ++ ofNames (listDeclared body)) cases
end

mutual
/-- All names that a statement declares, at any depth. -/
def locals : Stmt → List String
  | .block body => listLocals body
  | .decl d => [d.name]
  | .ifElse _ thenBranch elseBranch => thenBranch.locals ++ optionLocals elseBranch
  | .forLoop init _ _ body => optionLocals init ++ body.locals
  | .whileLoop _ body | .doWhile body _ => body.locals
  | .switchOn _ cases => casesLocals cases
  | .expr _ | .returnWith _ | .breakOut | .continueLoop | .discard | .emitVertex
  | .endPrimitive => []

/-- The same for a statement that need not be there. -/
def optionLocals : Option Stmt → List String
  | none => []
  | some s => s.locals

/-- The same for several statements. -/
def listLocals : List Stmt → List String
  | [] => []
  | s :: ss => s.locals ++ listLocals ss

/-- The same for the cases of a `switch`. -/
def casesLocals : List Case → List String
  | [] => []
  | .mk _ body :: cases => listLocals body ++ casesLocals cases
end

section

variable {scope : List Symbol} {s : Stmt} {ss tt : List Stmt}

@[simp] theorem listBound_nil : ListBound scope [] := trivial

@[simp] theorem listBound_cons : ListBound scope (s :: ss) ↔
    s.Bound scope ∧ ListBound (scope ++ ofNames s.declared) ss := Iff.rfl

/-- The second part of a list is bound after what the first part declares. -/
@[simp] theorem listBound_append : ListBound scope (ss ++ tt) ↔
    ListBound scope ss ∧ ListBound (scope ++ ofNames (listDeclared ss)) tt := by
  induction ss generalizing scope with
  | nil => simp
  | cons s ss ih =>
    rw [List.cons_append, listBound_cons, listBound_cons, ih, listDeclared_cons,
      Symbol.ofNames_append, and_assoc, List.append_assoc]

@[simp] theorem listLocals_nil : listLocals [] = [] := rfl

@[simp] theorem listLocals_cons : listLocals (s :: ss) = s.locals ++ listLocals ss := rfl

@[simp] theorem listLocals_append : listLocals (ss ++ tt) = listLocals ss ++ listLocals tt := by
  induction ss with
  | nil => rfl
  | cons s ss ih => simp [ih]

/-- The locals of an optional statement as a list. -/
@[simp] theorem listLocals_toList {o : Option Stmt} : listLocals o.toList = optionLocals o := by
  cases o with
  | none => rfl
  | some s => exact List.append_nil _

/-- An optional statement is bound as a list. -/
@[simp] theorem listBound_toList {o : Option Stmt} :
    ListBound scope o.toList ↔ OptionBound scope o := by
  cases o with
  | none => exact Iff.rfl
  | some s => exact and_iff_left trivial

/-! Declarations without values. -/

/-- Declarations have the locals they declare. -/
theorem listLocals_decls (ds : List Decl) : listLocals (ds.map .decl) = ds.map Decl.name := by
  induction ds with
  | nil => rfl
  | cons d ds ih => exact congrArg (d.name :: ·) ih

/-- Declarations declare their names. -/
theorem listDeclared_decls (ds : List Decl) : listDeclared (ds.map .decl) = ds.map Decl.name := by
  induction ds with
  | nil => rfl
  | cons d ds ih => exact congrArg (d.name :: ·) ih

/-- Declarations without initial values need no names. -/
theorem listBound_decls {ds : List Decl} (h : ∀ d ∈ ds, d.init = none) :
    ListBound scope (ds.map .decl) := by
  induction ds generalizing scope with
  | nil => trivial
  | cons d ds ih =>
    obtain ⟨hinit, hrest⟩ := List.forall_mem_cons.mp h
    -- Without an initial value a declaration refers to nothing.
    refine ⟨?_, ih hrest⟩
    show ∀ e ∈ d.init, _
    rw [hinit]
    exact nofun

/-- Several statements where a single one stands. -/
theorem bound_ofList (h : ListBound scope ss) : (ofList ss).Bound scope := by
  unfold ofList
  split
  · exact h.1
  · exact h

/-- Statements have the same locals in a block. -/
@[simp] theorem locals_ofList : (ofList ss).locals = listLocals ss := by
  unfold ofList
  split
  · exact (List.append_nil _).symm
  · rfl

/-- A bound body is bound in a block. -/
theorem bound_toBlock (h : s.Bound scope) : s.toBlock.Bound scope := by
  unfold toBlock
  split
  · exact h
  · exact ⟨h, trivial⟩

/-- A body has the same locals in a block. -/
@[simp] theorem locals_toBlock : s.toBlock.locals = s.locals := by
  unfold toBlock
  split
  · rfl
  · exact List.append_nil _

end

/-! ### Replacing expressions -/

/-- A statement that declares what another one does, and is bound wherever that is bound and certain
    symbols are in scope. -/
structure Image (brought : List Symbol) (s s' : Stmt) : Prop where
  declared : s'.declared = s.declared
  locals : s'.locals = s.locals
  bound {scope scope'} (hscope : Within scope scope') (hbrought : brought ⊆ scope')
    (h : s.Bound scope) : s'.Bound scope'

section

variable {brought scope scope' : List Symbol}

/-- Expressions that need not be there. -/
theorem bound_option_of_grants {o o' : Option Expr} (ho : Option.Rel (Expr.Grants brought) o o')
    (hscope : Within scope scope') (hbrought : brought ⊆ scope')
    (h : ∀ e ∈ o, e.Bound scope) : ∀ e ∈ o', e.Bound scope' := by
  cases ho with
  | none => exact nofun
  | some he =>
    rintro _ ⟨rfl⟩
    exact he _ hbrought ((h _ rfl).mono hscope)

namespace Image

/-- Images declare the same names. -/
theorem listDeclared {ss ss' : List Stmt} (h : Forall₂ (Image brought) ss ss') :
    listDeclared ss' = listDeclared ss := by
  induction h with
  | nil => rfl
  | cons hs _ ih => rw [listDeclared_cons, listDeclared_cons, hs.declared, ih]

/-- Images have the same locals. -/
theorem listLocals {ss ss' : List Stmt} (h : Forall₂ (Image brought) ss ss') :
    listLocals ss' = listLocals ss := by
  induction h with
  | nil => rfl
  | cons hs _ ih => rw [listLocals_cons, listLocals_cons, hs.locals, ih]

/-- Images are bound where they need no more names. -/
theorem listBound {ss ss' : List Stmt} (h : Forall₂ (Image brought) ss ss')
    (hscope : Within scope scope') (hbrought : brought ⊆ scope') (hss : ListBound scope ss) :
    ListBound scope' ss' := by
  induction h generalizing scope scope' with
  | nil => trivial
  | cons hs _ ih =>
    refine ⟨hs.bound hscope hbrought hss.1, ih ?_ (List.subset_append_of_subset_left _ hbrought)
      hss.2⟩
    exact hs.declared ▸ hscope.append_right _

/-- A block is imaged through its list. -/
theorem block {ss ss' : List Stmt} (h : Forall₂ (Image brought) ss ss') :
    Image brought (.block ss) (.block ss') where
  declared := rfl
  locals := listLocals h
  bound hscope hbrought hss := listBound h hscope hbrought hss

/-- A choice is imaged through its condition and branches. -/
theorem ifElse {c c' : Expr} {s s' : Stmt} {o o' : Option Stmt} (hc : c.Grants brought c')
    (hs : Image brought s s') (ho : Option.Rel (Image brought) o o') :
    Image brought (.ifElse c s o) (.ifElse c' s' o') where
  declared := rfl
  locals := by
    -- A branch that is absent declares nothing, and stays absent.
    cases ho with
    | none => exact congrArg (· ++ []) hs.locals
    | some ho => exact congrArg₂ (· ++ ·) hs.locals ho.locals
  bound hscope hbrought h := by
    refine ⟨hc _ hbrought (h.1.mono hscope), hs.bound hscope hbrought h.2.1, ?_⟩
    cases ho with
    | none => trivial
    | some ho => exact ho.bound hscope hbrought h.2.2

/-- A `for` loop is imaged through its header and body. -/
theorem forLoop {i i' : Option Stmt} {c c' t t' : Option Expr} {s s' : Stmt}
    (hi : Option.Rel (Image brought) i i') (hc : Option.Rel (Expr.Grants brought) c c')
    (ht : Option.Rel (Expr.Grants brought) t t') (hs : Image brought s s') :
    Image brought (.forLoop i c t s) (.forLoop i' c' t' s') where
  declared := rfl
  locals := by
    cases hi with
    | none => exact hs.locals
    | some hi => exact congrArg₂ (· ++ ·) hi.locals hs.locals
  bound {scope scope'} hscope hbrought h := by
    -- The header may declare a counter, which stays in scope for the rest of the loop.
    have hheader : Stmt.listDeclared i'.toList = Stmt.listDeclared i.toList := by
      cases hi with
      | none => rfl
      | some hi => exact congrArg (· ++ []) hi.declared
    obtain ⟨hinit, hcond, hstep, hbody⟩ := h
    have hinner := hscope.append_right (ofNames (Stmt.listDeclared i.toList))
    have hbrought' := List.subset_append_of_subset_left
      (ofNames (Stmt.listDeclared i.toList)) hbrought
    simp only [Bound, hheader]
    refine ⟨?_, bound_option_of_grants hc hinner hbrought' hcond,
      bound_option_of_grants ht hinner hbrought' hstep, hs.bound hinner hbrought' hbody⟩
    cases hi with
    | none => trivial
    | some hi => exact hi.bound hscope hbrought hinit

/-- A `switch` is imaged through its value and cases. -/
theorem switchOn {v v' : Expr} {cs cs' : List Case} (hv : v.Grants brought v')
    (hcs : Forall₂ (Case.Over (Image brought)) cs cs') :
    Image brought (.switchOn v cs) (.switchOn v' cs') where
  declared := rfl
  locals := by
    show casesLocals cs' = casesLocals cs
    induction hcs with
    | nil => rfl
    | cons hcase _ ih =>
      obtain ⟨label, hbody⟩ := hcase
      exact congrArg₂ (· ++ ·) (listLocals hbody) ih
  bound {scope scope'} hscope hbrought h := by
    refine ⟨hv _ hbrought (h.1.mono hscope), ?_⟩
    replace h : CasesBound scope cs := h.2
    -- What a case declares is in scope in the cases after it.
    induction hcs generalizing scope scope' with
    | nil => trivial
    | cons hcase _ ih =>
      obtain ⟨label, hbody⟩ := hcase
      refine ⟨listBound hbody hscope hbrought h.1, ih ?_
        (List.subset_append_of_subset_left _ hbrought) h.2⟩
      exact listDeclared hbody ▸ hscope.append_right _

end Image

/-- Statements of one structure, if what replaces each expression is bound. -/
theorem Mirrors.image {s s' : Stmt} (h : s.Mirrors (Expr.Grants brought) s') :
    Image brought s s' := by
  refine Mirrors.fold (T := Image brought) Image.block ?_ Image.ifElse Image.forLoop ?_ ?_
    Image.switchOn ?_ ?_ ?_ ?_ ?_ ?_ ?_ h
  · -- A declaration keeps its name, and its initializer is in scope where it was.
    exact fun hd => ⟨congrArg ([·]) hd.name.symm, congrArg ([·]) hd.name.symm,
      fun hscope hbrought => bound_option_of_grants hd.init hscope hbrought⟩
  · exact fun hc hs => ⟨rfl, hs.locals, fun hscope hbrought h =>
      ⟨hc _ hbrought (h.1.mono hscope), hs.bound hscope hbrought h.2⟩⟩
  · exact fun hs hc => ⟨rfl, hs.locals, fun hscope hbrought h =>
      ⟨hc _ hbrought (h.1.mono hscope), hs.bound hscope hbrought h.2⟩⟩
  · exact fun he => ⟨rfl, rfl, fun hscope hbrought h => he _ hbrought (h.mono hscope)⟩
  · exact fun hv => ⟨rfl, rfl, fun hscope hbrought =>
      bound_option_of_grants hv hscope hbrought⟩
  -- The other statements have no expressions.
  all_goals exact ⟨rfl, rfl, fun _ _ _ => trivial⟩

/-- More symbols may be in scope. -/
theorem Bound.mono {s : Stmt} (h : s.Bound scope) (hscope : Within scope scope') :
    s.Bound scope' :=
  (Mirrors.image (Mirrors.refl (@Expr.Grants.refl []) s)).bound hscope
    (List.nil_subset _) h

/-- Bound lists are bound in a wider scope. -/
theorem ListBound.mono {ss : List Stmt} (h : ListBound scope ss) (hscope : Within scope scope') :
    ListBound scope' ss := by
  have himages : Forall₂ (Image []) ss ss := List.forall₂_same.mpr fun s _ =>
    Mirrors.image (Mirrors.refl (@Expr.Grants.refl []) s)
  exact Image.listBound himages hscope (List.nil_subset _) h

/-- So are cases. -/
theorem CasesBound.mono {cases : List Case} (h : CasesBound scope cases)
    (hscope : Within scope scope') : CasesBound scope' cases := by
  induction cases generalizing scope scope' with
  | nil => trivial
  | cons c cases ih =>
    obtain ⟨label, body⟩ := c
    exact ⟨h.1.mono hscope, ih h.2 (hscope.append_right _)⟩

end

/-! ### Replacing statements -/

/-- Statements that are bound wherever others are, and that declare nothing more often than those
    do, save for certain names, each as often as it is listed. -/
structure Refits (names : List String) (ss ss' : List Stmt) : Prop where
  locals (x : String) : (listLocals ss').count x ≤ (listLocals ss).count x + names.count x
  bound {scope} : ListBound scope ss → ListBound scope ss'

/-- Statements that may stand in the place of others: what those declare around themselves is
    declared. -/
structure Spreads (names : List String) (ss ss' : List Stmt) : Prop extends
    Refits names ss ss' where
  declared : listDeclared ss ⊆ listDeclared ss'

section

variable {names more : List String} {ss ss' tt tt' : List Stmt} {s s' : Stmt}

namespace Spreads

/-- A list spreads to itself. -/
theorem refl (ss : List Stmt) : Spreads names ss ss where
  locals _ := Nat.le_add_right _ _
  bound := id
  declared := fun _ => id

/-- Spreading twice is spreading with the names of both. -/
theorem trans (h : Spreads names ss ss') (h' : Spreads more ss' tt) :
    Spreads (more ++ names) ss tt where
  locals x := by
    have hfirst := h.locals x
    have hsecond := h'.locals x
    rw [List.count_append]
    omega
  bound := h'.bound ∘ h.bound
  declared := List.Subset.trans h.declared h'.declared

/-- Lists that spread do so in a row. -/
theorem append (h : Spreads names ss ss') (h' : Spreads more tt tt') :
    Spreads (names ++ more) (ss ++ tt) (ss' ++ tt') where
  locals x := by
    have hfirst := h.locals x
    have hsecond := h'.locals x
    simp only [listLocals_append, List.count_append]
    omega
  bound hbound := by
    obtain ⟨hss, htt⟩ := listBound_append.mp hbound
    -- What the first list declares is in scope in the second.
    refine listBound_append.mpr ⟨h.bound hss, h'.bound (htt.mono ?_)⟩
    exact (Within.refl _).append (.of_subset (List.map_subset _ h.declared))
  declared := by
    simp only [listDeclared_append]
    exact List.append_subset.mpr ⟨List.subset_append_of_subset_left _ h.declared,
      List.subset_append_of_subset_right _ h'.declared⟩

/-- Several statements where a single one stands. -/
theorem ofList (h : Spreads names [s] ss') : Refits names [s] [ofList ss'] where
  locals x := by simpa using h.locals x
  bound hs := ⟨bound_ofList (h.bound hs), trivial⟩

end Spreads

namespace Refits

/-- A block spreads through its list. -/
theorem block (h : Refits names ss ss') : Spreads names [.block ss] [.block ss'] where
  locals x := by simpa [Stmt.locals] using h.locals x
  bound hs := ⟨h.bound hs.1, trivial⟩
  declared := List.Subset.refl _

/-- A choice spreads through its branches. -/
theorem ifElse {c : Expr} {o o' : Option Stmt} (h : Refits names [s] [s'])
    (ho : Refits more o.toList o'.toList) :
    Spreads (names ++ more) [.ifElse c s o] [.ifElse c s' o'] where
  locals x := by
    -- The branches get names of their own, so the counts add up.
    have hfirst := h.locals x
    have hsecond := ho.locals x
    simp only [listLocals_toList, listLocals_cons, listLocals_nil, List.append_nil, Stmt.locals,
      List.count_append] at hfirst hsecond ⊢
    omega
  bound {scope} hs := by
    refine ⟨⟨hs.1.1, (h.bound ⟨hs.1.2.1, trivial⟩).1, ?_⟩, trivial⟩
    exact listBound_toList.mp (ho.bound (listBound_toList.mpr hs.1.2.2))
  declared := List.Subset.refl _

/-- A `for` loop spreads through its body. -/
theorem forLoop {i : Option Stmt} {c t : Option Expr} (h : Refits names [s] [s']) :
    Spreads names [.forLoop i c t s] [.forLoop i c t s'] where
  locals x := by
    have hbody := h.locals x
    simp only [listLocals_cons, listLocals_nil, List.append_nil, Stmt.locals,
      List.count_append] at hbody ⊢
    omega
  bound hs := ⟨⟨hs.1.1, hs.1.2.1, hs.1.2.2.1, (h.bound ⟨hs.1.2.2.2, trivial⟩).1⟩, trivial⟩
  declared := List.Subset.refl _

/-- A `while` loop does, too. -/
theorem whileLoop {c : Expr} (h : Refits names [s] [s']) :
    Spreads names [.whileLoop c s] [.whileLoop c s'] where
  locals x := by simpa [Stmt.locals] using h.locals x
  bound hs := ⟨⟨hs.1.1, (h.bound ⟨hs.1.2, trivial⟩).1⟩, trivial⟩
  declared := List.Subset.refl _

/-- So does a `do` loop. -/
theorem doWhile {c : Expr} (h : Refits names [s] [s']) :
    Spreads names [.doWhile s c] [.doWhile s' c] where
  locals x := by simpa [Stmt.locals] using h.locals x
  bound hs := ⟨⟨hs.1.1, (h.bound ⟨hs.1.2, trivial⟩).1⟩, trivial⟩
  declared := List.Subset.refl _

end Refits

/-- Cases of a `switch` whose statements are replaced. -/
structure CasesSpread (names : List String) (cs cs' : List Case) : Prop where
  locals (x : String) : (casesLocals cs').count x ≤ (casesLocals cs).count x + names.count x
  bound {scope} : CasesBound scope cs → CasesBound scope cs'

/-- Cases spread one after the other. -/
theorem CasesSpread.cons {label : Option Int} {cs cs' : List Case} (h : Spreads names ss ss')
    (hcs : CasesSpread more cs cs') :
    CasesSpread (names ++ more) (.mk label ss :: cs) (.mk label ss' :: cs') where
  locals x := by
    have hfirst := h.locals x
    have hsecond := hcs.locals x
    simp only [casesLocals, List.count_append]
    omega
  bound hbound := by
    -- The cases share a scope, in which the first one may have declared something.
    refine ⟨h.bound hbound.1, hcs.bound (hbound.2.mono ?_)⟩
    exact (Within.refl _).append (.of_subset (List.map_subset _ h.declared))

/-- A `switch` spreads through its cases. -/
theorem CasesSpread.switchOn {v : Expr} {cs cs' : List Case} (h : CasesSpread names cs cs') :
    Spreads names [.switchOn v cs] [.switchOn v cs'] where
  locals x := by simpa [Stmt.locals] using h.locals x
  bound hs := ⟨⟨hs.1.1, h.bound hs.1.2⟩, trivial⟩
  declared := List.Subset.refl _

end

section

variable {m : Type → Type} [Monad m] (C : Naming m)
  {visit : Stmt → m (Stmt → List Stmt)}

/-- A list that is rewritten statement by statement spreads with all the names taken. -/
private theorem expandListM_spreads_of {ss : List Stmt}
    (ih : ∀ s ∈ ss, C.Holds (fun names tt => Spreads names [s] tt) (s.expandM visit)) :
    C.Holds (fun names tt => Spreads names ss tt) (expandListM visit ss) := by
  induction ss with
  | nil => exact C.pure (.refl _)
  | cons s ss ihs =>
    refine C.bind (ih s List.mem_cons_self) fun first s' hs' => ?_
    exact C.map (ihs fun t ht => ih t (List.mem_cons_of_mem _ ht)) fun later ss' hss' =>
      hs'.append hss'

/-- If a statement is always replaced by statements that may stand in its place, so are all inside
    a statement. -/
theorem expandM_spreads
    (hvisit : ∀ s, C.Holds (fun names replace => ∀ t, Spreads names [t] (replace t)) (visit s))
    (s : Stmt) : C.Holds (fun names tt => Spreads names [s] tt) (s.expandM visit) := by
  -- What stands inside is replaced first, and the visit then replaces the statement that is rebuilt
  -- around it.
  induction s with
  | block body ih =>
    refine C.bind (hvisit _) fun own replace hreplace => ?_
    exact C.map (expandListM_spreads_of C ih) fun later body' h =>
      h.toRefits.block.trans (hreplace _)
  | ifElse cond thenBranch elseBranch iht ihe =>
    have helse : C.Holds (fun names (o : Option Stmt) => Refits names elseBranch.toList o.toList)
        (expandOptionM visit elseBranch) := by
      -- The names of the branches come in the order in which they are expanded.
      cases elseBranch with
      | none => exact C.pure (Spreads.refl _).toRefits
      | some s => exact C.map (ihe s rfl) fun names ss hss => hss.ofList
    refine C.bind (hvisit _) fun own replace hreplace => C.bind iht fun first ss hss => ?_
    exact C.map helse fun later o ho => (hss.ofList.ifElse ho).trans (hreplace _)
  | forLoop init cond step body _ ih =>
    refine C.bind (hvisit _) fun own replace hreplace => ?_
    exact C.map ih fun later ss hss => hss.ofList.forLoop.trans (hreplace _)
  | whileLoop cond body ih =>
    refine C.bind (hvisit _) fun own replace hreplace => ?_
    exact C.map ih fun later ss hss => hss.ofList.whileLoop.trans (hreplace _)
  | doWhile body cond ih =>
    refine C.bind (hvisit _) fun own replace hreplace => ?_
    exact C.map ih fun later ss hss => hss.ofList.doWhile.trans (hreplace _)
  | switchOn value cases ih =>
    have hcases : C.Holds (fun names cs => CasesSpread names cases cs)
        (expandCasesM visit cases) := by
      -- Case by case, each with names of its own.
      induction cases with
      | nil => exact C.pure ⟨fun _ => Nat.zero_le _, id⟩
      | cons c cases ihc =>
        obtain ⟨label, body⟩ := c
        refine C.bind (expandListM_spreads_of C (ih label body List.mem_cons_self))
          fun first body' hbody' => ?_
        exact C.map (ihc fun label body hmem => ih label body (List.mem_cons_of_mem _ hmem))
          fun later cases' hcases' => CasesSpread.cons hbody' hcases'
    refine C.bind (hvisit _) fun own replace hreplace => ?_
    exact C.map hcases fun later cs hcs => hcs.switchOn.trans (hreplace _)
  | _ => exact C.map (hvisit _) fun own replace hreplace => hreplace _

/-- The same for the statements of a body. -/
theorem expandListM_spreads
    (hvisit : ∀ s, C.Holds (fun names replace => ∀ t, Spreads names [t] (replace t)) (visit s))
    (body : List Stmt) :
    C.Holds (fun names body' => Spreads names body body') (expandListM visit body) :=
  expandListM_spreads_of C fun s _ => expandM_spreads C hvisit s

/-- The same for a function that has no effects. -/
theorem expandList_spreads {f : Stmt → List Stmt} (hf : ∀ s, Spreads [] [s] (f s))
    (body : List Stmt) : Spreads [] body (expandList f body) :=
  expandListM_spreads unnamed (fun _ => hf) body

end

end Stmt

end ShaderGen
