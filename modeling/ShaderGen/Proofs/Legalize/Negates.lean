import ShaderGen.Legalize.FlipY
import ShaderGen.Proofs.Checked
import ShaderGen.Proofs.Mirror

/-!
# Where the clip position is negated

A program hands its clip position over where it returns or where it emits a vertex. `Negates k atEnd
body` says that in a body, in blocks and branches as well, each such statement comes directly after
one that negates the clip `y`, and that, if `atEnd`, so does the end of the body unless such a
statement comes last. Flipping a program establishes this, and walks that leave these statements
alone keep it.

## Main definitions

- `Stmt.lists`: the lists of statements directly inside a statement
- `Exit`: the statements at which a program hands its clip position over
- `Negates`: where a body negates the clip `y`
- `Handles`: what is asked of a replacement of statements

## Key results

- `Negates.mirror`, `Negates.expandListM`, `Negates.bottomUpList`: walks that keep it
- `negates_flipEntryBody`, `negates_beforeEmit`: flipping establishes it
-/

namespace ShaderGen

open List (Forall₂)

namespace Stmt

/-- The lists of statements directly inside a statement. One that stands alone is a list by
    itself. -/
def lists : Stmt → List (List Stmt)
  | .block body => [body]
  | .ifElse _ thenBranch elseBranch => [thenBranch] :: elseBranch.toList.map ([·])
  | .forLoop init _ _ body => [body] :: init.toList.map ([·])
  | .whileLoop _ body | .doWhile body _ => [[body]]
  | .switchOn _ cases => cases.map Case.body
  | _ => []

/-- Mirror images have mirror images of lists inside. -/
theorem Mirrors.lists {R : Expr → Expr → Prop} {s s' : Stmt} (h : s.Mirrors R s') :
    Forall₂ (Forall₂ (Mirrors R)) s.lists s'.lists := by
  -- An absent branch has no list, a present one is a list of its own.
  have hoption : ∀ {o o' : Option Stmt}, Option.Rel (Mirrors R) o o' →
      Forall₂ (Forall₂ (Mirrors R)) (o.toList.map ([·])) (o'.toList.map ([·])) := by
    rintro _ _ (h | _)
    · exact .cons (.cons h .nil) .nil
    · exact .nil
  cases h with
  | block h => exact .cons h .nil
  | ifElse _ hs ho => exact .cons (.cons hs .nil) (hoption ho)
  | forLoop hi _ _ hs => exact .cons (.cons hs .nil) (hoption hi)
  | whileLoop _ hs | doWhile hs _ => exact .cons (.cons hs .nil) .nil
  | @switchOn v v' cs cs' _ hcs =>
    show Forall₂ _ (cs.map Case.body) (cs'.map Case.body)
    rw [List.forall₂_map_left_iff, List.forall₂_map_right_iff]
    exact hcs.imp fun _ _ ⟨_, h⟩ => h
  | _ => exact .nil

end Stmt

namespace Legalize.FlipY

open Stmt

/-- The expression that negates the clip `y`. -/
def negation : Expr :=
  let y := Expr.ofSwizzle (.ofBuiltin .position) [.y]
  .assign y (.ofBinary .mul (.float .minusOne) y)

/-- Where a program hands its clip position over: vertex programs where they return, geometry
    programs where they emit a vertex. -/
inductive Exit where
  | returns
  | emits
deriving DecidableEq

/-- Whether a statement is such a place. -/
def Exit.isAt (k : Exit) : Stmt → Bool
  | .returnWith _ => k = .returns
  | .emitVertex => k = .emits
  | _ => false

/-- Each exit comes directly after a statement that negates the clip `y`, and so does the end of the
    list if that is asked for. -/
inductive Negates (k : Exit) : Bool → List Stmt → Prop
  | nil : Negates k false []
  | final : Negates k true [.expr negation]
  | last {s : Stmt} (hs : k.isAt s = true) : Negates k true [.expr negation, s]
  | marked {atEnd : Bool} {s : Stmt} {ss : List Stmt} (hs : k.isAt s = true)
    (rest : Negates k atEnd ss) : Negates k atEnd (.expr negation :: s :: ss)
  | other {atEnd : Bool} {s : Stmt} {ss : List Stmt} (hs : k.isAt s = false)
    (inside : ∀ body ∈ s.lists, Negates k false body) (rest : Negates k atEnd ss) :
    Negates k atEnd (s :: ss)

section

variable {k : Exit} {atEnd : Bool} {s : Stmt} {ss body : List Stmt}

namespace Negates

/-- One body goes on where another one ends. -/
theorem append {front : List Stmt} (hfront : Negates k false front) (h : Negates k atEnd body) :
    Negates k atEnd (front ++ body) := by
  generalize hinner : false = inner at hfront
  induction hfront with
  | nil => exact h
  | final | last => cases hinner
  | marked hs _ ih => exact .marked hs (ih hinner)
  | other hs inside _ _ ih => exact .other hs inside (ih hinner)

/-- A body without a negation at its end gets one by appending it. -/
theorem append_final (h : Negates k false body) : Negates k true (body ++ [.expr negation]) :=
  h.append .final

/-- The end of a body whose last statement is of the kind need not be negated again. -/
theorem to_end (h : Negates k false body) (hlast : body.getLast?.any k.isAt = true) :
    Negates k true body := by
  generalize hinner : false = inner at h
  induction h with
  | nil => cases hlast
  | final | last => cases hinner
  -- The last statement is an exit with its negation, or it lies further on.
  | @marked _ s ss hs rest ih =>
    cases ss with
    | nil => exact .last hs
    | cons => exact .marked hs (ih (by simpa using hlast) hinner)
  | @other _ s ss hs inside rest _ ih =>
    cases ss with
    | nil => exact absurd (hs.symm.trans (by simpa using hlast)) Bool.false_ne_true
    | cons => exact .other hs inside (ih (by simpa using hlast) hinner)

/-- A statement of another kind without others inside. -/
theorem leaf (hs : k.isAt s = false) (hlists : s.lists = []) (h : Negates k atEnd ss) :
    Negates k atEnd (s :: ss) :=
  .other hs (by simp [hlists]) h

/-- A single statement. -/
theorem singleton (hs : k.isAt s = false) (inside : ∀ body ∈ s.lists, Negates k false body) :
    Negates k false [s] :=
  .other hs inside .nil

/-- A statement that is no negation is not one of the exits, and its bodies are negated
    throughout. -/
theorem inside (h : Negates k atEnd (s :: ss)) (hs : s ≠ .expr negation) :
    k.isAt s = false ∧ (∀ body ∈ s.lists, Negates k false body) ∧ Negates k atEnd ss := by
  cases h with
  | final | last | marked => exact absurd rfl hs
  | other hs inside rest => exact ⟨hs, inside, rest⟩

/-- A statement that stands alone. -/
theorem alone (h : Negates k false [s]) :
    k.isAt s = false ∧ ∀ body ∈ s.lists, Negates k false body := by
  cases h with
  | other hs inside _ => exact ⟨hs, inside⟩

/-- Declarations in front of a body change nothing. -/
theorem declarations (h : Negates k atEnd body) (ds : List Decl) :
    Negates k atEnd (ds.map .decl ++ body) := by
  induction ds with
  | nil => exact h
  | cons d ds ih => exact leaf rfl rfl ih

/-- Several statements where a single one stands. -/
theorem ofList (h : Negates k false ss) : Negates k false [Stmt.ofList ss] := by
  unfold Stmt.ofList
  split
  · exact h
  · exact singleton rfl (List.forall_mem_singleton.mpr h)

/-- A single statement may be wrapped in a block. -/
theorem toBlock (h : Negates k false [s]) : Negates k false [s.toBlock] := by
  unfold Stmt.toBlock
  split
  · exact h
  · exact singleton rfl (List.forall_mem_singleton.mpr h)

/-! ### Walks over expressions -/

/-- Mirror images negate where what they mirror does, if no other expression takes the place of the
    one that negates. -/
theorem mirror {R : Expr → Expr → Prop} (hR : ∀ {e}, R negation e → e = negation)
    {body' : List Stmt} (h : Negates k atEnd body) (hmirror : Forall₂ (Mirrors R) body body') :
    Negates k atEnd body' := by
  have hkind : ∀ {s s' : Stmt}, s.Mirrors R s' → k.isAt s' = k.isAt s := by
    intro s s' h
    cases h with
    | _ => rfl
  have hnegation : ∀ {s' : Stmt}, (Stmt.expr negation).Mirrors R s' → s' = .expr negation := by
    rintro _ (_ | _ | _ | _ | _ | _ | _ | h)
    rw [hR h]
  -- The marked positions are told by kinds of statements, which a mirror image keeps, and by the
  -- negation, which is its only mirror image.
  induction h generalizing body' with
  | nil =>
    cases hmirror
    exact .nil
  | final =>
    obtain _ | ⟨hfirst, _ | _⟩ := hmirror
    rw [hnegation hfirst]
    exact .final
  | last hs =>
    obtain _ | ⟨hfirst, _ | ⟨hsecond, _ | _⟩⟩ := hmirror
    rw [hnegation hfirst]
    exact .last ((hkind hsecond).trans hs)
  | marked hs _ ih =>
    obtain _ | ⟨hfirst, _ | ⟨hsecond, hrest⟩⟩ := hmirror
    rw [hnegation hfirst]
    exact .marked ((hkind hsecond).trans hs) (ih hrest)
  | other hs _ _ ihinside ih =>
    obtain _ | ⟨hfirst, hrest⟩ := hmirror
    refine .other ((hkind hfirst).trans hs) (fun body hbody => ?_) (ih hrest)
    obtain ⟨body₀, hmem, hlist⟩ := exists_of_forall₂ hfirst.lists body hbody
    exact ihinside body₀ hmem hlist

end Negates

/-! ### Walks over statements -/

/-- What is asked of a replacement of statements: it leaves exits and the one that negates
    alone, and the others negate as before. -/
structure Handles (k : Exit) (replace : Stmt → List Stmt) : Prop where
  exit {s : Stmt} : k.isAt s = true → replace s = [s]
  negation : replace (.expr negation) = [.expr negation]
  other {s : Stmt} : k.isAt s = false → (∀ body ∈ s.lists, Negates k false body) →
    Negates k false (replace s)

/-- A list of one statement is expanded by expanding it. -/
theorem expandListM_singleton {m : Type → Type} [Monad m] [LawfulMonad m]
    (visit : Stmt → m (Stmt → List Stmt)) (t : Stmt) :
    Stmt.expandListM visit [t] = t.expandM visit := by
  simp [Stmt.expandListM]

/-- A statement of another kind is replaced by statements that negate. -/
theorem negates_expandM {m : Type → Type} [Monad m] [LawfulMonad m] (J : Judgement m)
    {visit : Stmt → m (Stmt → List Stmt)} (hvisit : ∀ s, J.Holds (Handles k) (visit s))
    (hs : k.isAt s = false) (hinside : ∀ body ∈ s.lists, Negates k false body)
    (ih : ∀ body ∈ s.lists, J.Holds (Negates k false) (Stmt.expandListM visit body)) :
    J.Holds (Negates k false) (s.expandM visit) := by
  have hsingle : ∀ t : Stmt, J.Holds (Negates k false) (Stmt.expandListM visit [t]) →
      J.Holds (Negates k false) (t.expandM visit) := by
    intro t h
    rwa [expandListM_singleton] at h
  -- A statement that is no exit: each list inside it is known to negate once replaced, and what the
  -- visit makes of the statement keeps these lists.
  cases s with
  | block body =>
    refine J.bind (hvisit _) fun replace hreplace => ?_
    refine J.bind (ih body List.mem_cons_self) fun body' hbody => J.pure ?_
    exact hreplace.other rfl (List.forall_mem_singleton.mpr hbody)
  | ifElse cond thenBranch elseBranch =>
    obtain ⟨hthen, helse⟩ := List.forall_mem_cons.mp ih
    have hother : J.Holds (fun o => ∀ body ∈ o.toList.map ([·]), Negates k false body)
        (Stmt.expandOptionM visit elseBranch) := by
      cases elseBranch with
      | none => exact J.pure nofun
      | some t =>
        refine J.bind (hsingle t (helse _ List.mem_cons_self)) fun us hus => J.pure ?_
        exact List.forall_mem_singleton.mpr (hus.ofList)
    refine J.bind (hvisit _) fun replace hreplace => ?_
    refine J.bind (hsingle _ hthen) fun us hus => J.bind hother fun o ho => J.pure ?_
    exact hreplace.other rfl (List.forall_mem_cons.mpr ⟨hus.ofList, ho⟩)
  | forLoop init cond step body =>
    -- The initializer is not visited.
    refine J.bind (hvisit _) fun replace hreplace => ?_
    refine J.bind (hsingle _ (ih _ List.mem_cons_self)) fun us hus => J.pure ?_
    exact hreplace.other rfl (List.forall_mem_cons.mpr
      ⟨hus.ofList, fun body hbody => hinside body (List.mem_cons_of_mem _ hbody)⟩)
  | whileLoop cond body | doWhile body cond =>
    refine J.bind (hvisit _) fun replace hreplace => ?_
    refine J.bind (hsingle _ (ih _ List.mem_cons_self)) fun us hus => J.pure ?_
    exact hreplace.other rfl (List.forall_mem_singleton.mpr (hus.ofList))
  | switchOn value cases =>
    have hcases : J.Holds (fun cs => ∀ body ∈ cs.map Case.body, Negates k false body)
        (Stmt.expandCasesM visit cases) := by
      replace ih : ∀ body ∈ cases.map Case.body,
        J.Holds (Negates k false) (Stmt.expandListM visit body) := ih
      clear hs hinside
      induction cases with
      | nil => exact J.pure nofun
      | cons c cases ihc =>
        obtain ⟨label, body⟩ := c
        obtain ⟨hfirst, hrest⟩ := List.forall_mem_cons.mp ih
        refine J.bind hfirst fun body' hbody => J.bind (ihc hrest) fun cs hcs => J.pure ?_
        exact List.forall_mem_cons.mpr ⟨hbody, hcs⟩
    refine J.bind (hvisit _) fun replace hreplace => J.bind hcases fun cs hcs => J.pure ?_
    exact hreplace.other rfl hcs
  | _ => exact J.bind (hvisit _) fun replace hreplace => J.pure (hreplace.other hs nofun)

/-- Statements are replaced by others that negate. -/
theorem Negates.expandListM {m : Type → Type} [Monad m] [LawfulMonad m] (J : Judgement m)
    {visit : Stmt → m (Stmt → List Stmt)} (hvisit : ∀ s, J.Holds (Handles k) (visit s))
    (h : Negates k atEnd body) : J.Holds (Negates k atEnd) (Stmt.expandListM visit body) := by
  have hnegation : J.Holds (· = [.expr negation]) ((Stmt.expr negation).expandM visit) :=
    J.bind (hvisit _) fun replace hreplace => J.pure hreplace.negation
  -- A negation and the exit after it stay as they are, whatever becomes of the rest.
  have hmarked : ∀ {s : Stmt} {ss : List Stmt} {Q : List Stmt → Prop}, k.isAt s = true →
      J.Holds Q (Stmt.expandListM visit ss) →
        J.Holds (fun out => ∃ rest, Q rest ∧ out = .expr negation :: s :: rest)
          (Stmt.expandListM visit (.expr negation :: s :: ss)) := by
    intro s ss Q hs hrest
    have hexit : J.Holds (· = [s]) (s.expandM visit) := by
      cases s with
      | returnWith | emitVertex =>
        exact J.bind (hvisit _) fun replace hreplace => J.pure (hreplace.exit hs)
      | _ => cases hs
    refine J.bind hnegation fun us hus => J.bind (J.bind hexit fun us' hus' => ?_) fun out hout =>
      J.pure (hus ▸ hout)
    exact J.bind hrest fun rest hrest => J.pure ⟨rest, hrest, by rw [hus']; rfl⟩
  -- By induction on where the list negates, so that the pair of a negation and an exit is taken at
  -- once.
  induction h with
  | nil => exact J.pure .nil
  | final =>
    have hnil : J.Holds (· = []) (Stmt.expandListM visit []) := J.pure rfl
    refine J.bind hnegation fun us hus => J.bind hnil fun ss hss => J.pure ?_
    rw [hus, hss]
    exact .final
  | last hs =>
    refine J.mono (hmarked (Q := (· = [])) hs (J.pure rfl)) ?_
    rintro _ ⟨_, rfl, rfl⟩
    exact .last hs
  | marked hs _ ih =>
    refine J.mono (hmarked hs ih) ?_
    rintro _ ⟨rest, hrest, rfl⟩
    exact .marked hs hrest
  | other hs hinside _ ihinside ih =>
    refine J.bind (negates_expandM J hvisit hs hinside ihinside) fun us hus => ?_
    exact J.bind ih fun ss hss => J.pure (hus.append hss)

/-- The same without effects. -/
theorem Negates.expandList {f : Stmt → List Stmt} (hf : Handles k f) (h : Negates k atEnd body) :
    Negates k atEnd (Stmt.expandList f body) :=
  (h.expandListM (m := Id) .yields fun _ => .pure hf).of_id

/-- A statement is replaced after those inside it. -/
theorem negates_bottomUp {f : Stmt → Stmt} (hf : Handles k fun s => [f s]) (hs : k.isAt s = false)
    (ih : ∀ body ∈ s.lists, Negates k false (Stmt.bottomUpList f body)) :
    Negates k false [s.bottomUp f] := by
  have hoption : ∀ {o : Option Stmt},
      (∀ body ∈ o.toList.map ([·]), Negates k false (Stmt.bottomUpList f body)) →
      ∀ body ∈ (Stmt.bottomUpOption f o).toList.map ([·]), Negates k false body := by
    intro o h
    cases o with
    | none => exact nofun
    | some t => exact List.forall_mem_singleton.mpr (h [t] List.mem_cons_self)
  -- No exit, so only what stands inside matters, list by list.
  cases s with
  | block body => exact hf.other rfl (List.forall_mem_singleton.mpr (ih body List.mem_cons_self))
  | ifElse cond thenBranch elseBranch =>
    obtain ⟨hthen, helse⟩ := List.forall_mem_cons.mp ih
    exact hf.other rfl (List.forall_mem_cons.mpr ⟨hthen, hoption helse⟩)
  | forLoop init cond step body =>
    obtain ⟨hbody, hinit⟩ := List.forall_mem_cons.mp ih
    exact hf.other rfl (List.forall_mem_cons.mpr ⟨hbody, hoption hinit⟩)
  | whileLoop cond body | doWhile body cond =>
    exact hf.other rfl (List.forall_mem_singleton.mpr (ih _ List.mem_cons_self))
  -- The bodies of the cases are gone through one by one.
  | switchOn value cases =>
    refine hf.other rfl ?_
    show ∀ body ∈ (Stmt.bottomUpCases f cases).map Case.body, Negates k false body
    replace ih : ∀ body ∈ cases.map Case.body, Negates k false (Stmt.bottomUpList f body) := ih
    clear hs hoption
    induction cases with
    | nil => exact nofun
    | cons c cases ihc =>
      obtain ⟨label, body⟩ := c
      obtain ⟨hfirst, hrest⟩ := List.forall_mem_cons.mp ih
      exact List.forall_mem_cons.mpr ⟨hfirst, ihc hrest⟩
  | _ => exact hf.other hs nofun

/-- A rewrite that handles exits and negations keeps a body negated. -/
theorem Negates.bottomUpList {f : Stmt → Stmt} (hf : Handles k fun s => [f s])
    (h : Negates k atEnd body) : Negates k atEnd (Stmt.bottomUpList f body) := by
  -- The rewrite leaves a negation and an exit as they are, so the pairs stay together.
  have hnegation : (Stmt.expr negation).bottomUp f = .expr negation :=
    List.singleton_inj.mp hf.negation
  have hexit : ∀ {s : Stmt}, k.isAt s = true → s.bottomUp f = s := by
    intro s hs
    cases s with
    | returnWith | emitVertex => exact List.singleton_inj.mp (hf.exit hs)
    | _ => cases hs
  induction h with
  | nil => exact .nil
  | final =>
    rw [Stmt.bottomUpList, hnegation]
    exact .final
  | last hs =>
    rw [Stmt.bottomUpList, Stmt.bottomUpList, hnegation, hexit hs]
    exact .last hs
  | marked hs _ ih =>
    rw [Stmt.bottomUpList, Stmt.bottomUpList, hnegation, hexit hs]
    exact .marked hs ih
  | other hs _ _ ihinside ih => exact (negates_bottomUp hf hs ihinside).append ih

/-! ### Flipping -/

/-- A list is replaced by what its statements are replaced by. -/
theorem negates_expandList_of {f : Stmt → List Stmt}
    (h : ∀ s ∈ body, Negates k false (s.expand f)) :
    Negates k false (Stmt.expandList f body) := by
  induction body with
  | nil => exact .nil
  | cons s ss ih =>
    obtain ⟨hs, hss⟩ := List.forall_mem_cons.mp h
    rw [expandList_cons]
    exact hs.append (ih hss)

/-- Negating before each exit. -/
theorem negates_expand {f : Stmt → List Stmt}
    (hf : ∀ s, f s = if k.isAt s then [.expr negation, s] else [s]) (s : Stmt)
    (hs : s.Everywhere StartsPlainly) : Negates k false (s.expand f) := by
  have hother : ∀ {t : Stmt}, k.isAt t = false → (∀ body ∈ t.lists, Negates k false body) →
      Negates k false (f t) := by
    intro t ht hinside
    rw [hf, ht]
    exact .singleton ht hinside
  -- A leaf is an exit and gets the negation before it, or is none and stays.
  have hexit : ∀ {t : Stmt}, t.lists = [] → Negates k false (f t) := by
    intro t hlists
    rw [hf]
    split
    · next ht => exact .marked ht .nil
    · next ht => exact .singleton (eq_false_of_ne_true ht) (by simp [hlists])
  induction s with
  | block body ih =>
    refine hother rfl (List.forall_mem_singleton.mpr (negates_expandList_of fun s hmem => ?_))
    exact ih s hmem (hs.nested s hmem)
  | ifElse cond thenBranch elseBranch iht ihe =>
    obtain ⟨hthen, helse⟩ := List.forall_mem_cons.mp hs.nested
    rw [expand_ifElse]
    refine hother rfl (List.forall_mem_cons.mpr ⟨(iht hthen).ofList, ?_⟩)
    cases elseBranch with
    | none => exact nofun
    | some t => exact List.forall_mem_singleton.mpr (ihe t rfl (helse t (by simp))).ofList
  | forLoop init cond step body ihi ihb =>
    obtain ⟨hinit, hbody⟩ := List.forall_mem_append.mp hs.nested
    rw [expand_forLoop]
    refine hother rfl (List.forall_mem_cons.mpr
      ⟨(ihb (hbody _ List.mem_cons_self)).ofList, ?_⟩)
    -- The initializer is not visited, but it is a declaration or an expression.
    cases init with
    | none => exact nofun
    | some t =>
      have ht : t.isLoopInitializer = true := hs.here
      refine List.forall_mem_singleton.mpr (.leaf ?_ ?_ .nil) <;>
        cases t <;> first | rfl | cases ht
  -- All other bodies are statements of their own.
  | whileLoop cond body ih | doWhile body cond ih =>
    exact hother rfl (List.forall_mem_singleton.mpr (ih (hs.nested _ List.mem_cons_self)).ofList)
  | switchOn value cases ih =>
    have hcases := List.forall_mem_flatMap.mp hs.nested
    rw [expand_switchOn]
    refine hother rfl ?_
    rintro body hbody
    obtain ⟨c', hc', rfl⟩ := List.mem_map.mp hbody
    obtain ⟨⟨label, body⟩, hc, rfl⟩ := List.mem_map.mp hc'
    exact negates_expandList_of fun s hmem => ih label body hc s hmem (hcases _ hc s hmem)
  | _ => exact hexit rfl

/-- The statement that flipping adds is the one that is looked for. -/
theorem negatePosition_eq : negatePosition = .expr negation := rfl

/-- The entry function of a vertex program comes to negate before each return and at its end. -/
theorem negates_flipEntryBody (h : ∀ s ∈ body, s.Everywhere StartsPlainly) :
    Negates .returns true (flipEntryBody body) := by
  -- In front of each return inside there is a negation.
  have hexpanded : Negates .returns false (Stmt.expandList beforeReturn body) := by
    refine negates_expandList_of fun s hs => negates_expand (fun s => ?_) s (h s hs)
    cases s <;> rfl
  rw [flipEntryBody, negatePosition_eq]
  split
  · -- A body that ends in a return has its last negation in front of that.
    next hends =>
    refine hexpanded.to_end ?_
    have hsame : Stmt.isReturn = Exit.returns.isAt := funext fun s => by cases s <;> rfl
    rw [← hsame]
    exact hends
  · exact hexpanded.append_final

/-- The functions of a geometry program come to negate before each vertex. -/
theorem negates_beforeEmit (h : ∀ s ∈ body, s.Everywhere StartsPlainly) :
    Negates .emits false (Stmt.expandList beforeEmit body) := by
  refine negates_expandList_of fun s hs => negates_expand (fun s => ?_) s (h s hs)
  cases s <;> rfl

end

end Legalize.FlipY

end ShaderGen
