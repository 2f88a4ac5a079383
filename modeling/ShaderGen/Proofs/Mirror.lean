import ShaderGen.Legalize.HighPrecision
import ShaderGen.Legalize.LoopCondition
import ShaderGen.Proofs.Rewriting

/-!
# Statements that differ in their expressions

`Stmt.Mirrors R s s'` says that two statements have the same structure over expressions that are
related by `R`, and declare the same names, of whatever types. A walk that replaces expressions
makes a mirror image, and so does one that replaces statements if what it does to one of them does;
what only depends on the structure is then the same in both.

What an expression is replaced by may have a property for which the whole walk has to be known, such
as that what it needs is declared in the end, so the walks are told by a `Verdict`.

## Key results

- `Stmt.mapExprsM_mirrors`, `Stmt.bottomUp_mirrors`: the walks make mirror images
- `Stmt.Mirrors.fold`: what holds of mirror images
- `Program.mapExprsM_mirrors`, `Program.mapNodes_mirrors`: a program whose expressions are rebuilt
  keeps its structure
- `Legalize.raiseStmt_mirrors`, `Legalize.andTrueInLoop_mirrors`: so do raising precisions and the
  rule for conditions of loops
-/

namespace ShaderGen

open List (Forall₂)

/-- Values that need not be there are related to themselves where values are. -/
theorem Option.rel_refl {α : Type} {R : α → α → Prop} {o : Option α} (h : ∀ a ∈ o, R a a) :
    Option.Rel R o o := by
  cases o with
  | none => exact .none
  | some a => exact .some (h a rfl)

/-- A weaker relation holds of optional values, too. -/
theorem Option.rel_mono {α β : Type} {R R' : α → β → Prop} {o : Option α} {o' : Option β}
    (h : Option.Rel R o o') (hR : ∀ a b, R a b → R' a b) : Option.Rel R' o o' := by
  cases h with
  | none => exact .none
  | some hab => exact .some (hR _ _ hab)

/-- Cases of one label with related statements. -/
inductive Case.Over (R : Stmt → Stmt → Prop) : Case → Case → Prop
  | mk (label : Option Int) {body body' : List Stmt} (h : List.Forall₂ R body body') :
    Over R (.mk label body) (.mk label body')

/-- Declarations of one name and storage class with related initial values. -/
structure Decl.Mirrors (R : Expr → Expr → Prop) (d d' : Decl) : Prop where
  storage : d.storage = d'.storage
  name : d.name = d'.name
  init : Option.Rel R d.init d'.init

/-- Statements of one structure over related expressions. -/
inductive Stmt.Mirrors (R : Expr → Expr → Prop) : Stmt → Stmt → Prop
  | block {ss ss' : List Stmt} (h : List.Forall₂ (Mirrors R) ss ss') :
    Mirrors R (.block ss) (.block ss')
  | decl {d d' : Decl} (h : d.Mirrors R d') : Mirrors R (.decl d) (.decl d')
  | ifElse {c c' : Expr} {s s' : Stmt} {o o' : Option Stmt} (hc : R c c') (hs : Mirrors R s s')
    (ho : Option.Rel (Mirrors R) o o') : Mirrors R (.ifElse c s o) (.ifElse c' s' o')
  | forLoop {i i' : Option Stmt} {c c' t t' : Option Expr} {s s' : Stmt}
    (hi : Option.Rel (Mirrors R) i i') (hc : Option.Rel R c c') (ht : Option.Rel R t t')
    (hs : Mirrors R s s') : Mirrors R (.forLoop i c t s) (.forLoop i' c' t' s')
  | whileLoop {c c' : Expr} {s s' : Stmt} (hc : R c c') (hs : Mirrors R s s') :
    Mirrors R (.whileLoop c s) (.whileLoop c' s')
  | doWhile {c c' : Expr} {s s' : Stmt} (hs : Mirrors R s s') (hc : R c c') :
    Mirrors R (.doWhile s c) (.doWhile s' c')
  | switchOn {v v' : Expr} {cs cs' : List Case} (hv : R v v')
    (hcs : List.Forall₂ (Case.Over (Mirrors R)) cs cs') :
    Mirrors R (.switchOn v cs) (.switchOn v' cs')
  | expr {e e' : Expr} (h : R e e') : Mirrors R (.expr e) (.expr e')
  | returnWith {v v' : Option Expr} (h : Option.Rel R v v') :
    Mirrors R (.returnWith v) (.returnWith v')
  | breakOut : Mirrors R .breakOut .breakOut
  | continueLoop : Mirrors R .continueLoop .continueLoop
  | discard : Mirrors R .discard .discard
  | emitVertex : Mirrors R .emitVertex .emitVertex
  | endPrimitive : Mirrors R .endPrimitive .endPrimitive

namespace Stmt

/-! ### Walks -/

section

variable {m : Type → Type} [Monad m] [LawfulMonad m] (V : Verdict m) {Q : Expr → Prop}
  {R : Expr → Expr → Prop} {f : Expr → m Expr}

/-- An optional value is rewritten through the one it may hold. -/
theorem mapM_option_rel {α β : Type} {S : α → β → Prop} {g : α → m β} {o : Option α}
    (h : ∀ a ∈ o, V.Holds (S a) (g a)) : V.Holds (Option.Rel S o) (o.mapM g) := by
  cases o with
  | none => exact V.pure .none
  | some a =>
    rw [Option.mapM_some, ← bind_pure_comp]
    exact V.bind (h a rfl) fun b => V.pure fun hb => .some hb

omit [LawfulMonad m] in
/-- A list is rewritten statement by statement. -/
theorem mapExprsListM_mirrors_of {ss : List Stmt}
    (h : ∀ s ∈ ss, V.Holds (s.Mirrors R) (s.mapExprsM f)) :
    V.Holds (Forall₂ (Mirrors R) ss) (mapExprsListM f ss) := by
  induction ss with
  | nil => exact V.pure .nil
  | cons s ss ih =>
    refine V.bind (h s List.mem_cons_self) fun s' => ?_
    refine V.bind (ih fun t ht => h t (List.mem_cons_of_mem s ht)) fun ss' => ?_
    exact V.pure fun hss hs => .cons hs hss

omit [LawfulMonad m] in
/-- An optional statement is rewritten through the one it may hold. -/
private theorem mapExprsOptionM_mirrors {o : Option Stmt}
    (h : ∀ s ∈ o, V.Holds (s.Mirrors R) (s.mapExprsM f)) :
    V.Holds (Option.Rel (Mirrors R) o) (mapExprsOptionM f o) := by
  cases o with
  | none => exact V.pure .none
  | some s => exact V.bind (h s rfl) fun s' => V.pure fun hs => .some hs

omit [LawfulMonad m] in
/-- Cases are rewritten through the bodies they have. -/
private theorem mapExprsCasesM_mirrors {cases : List Case}
    (h : ∀ label body, .mk label body ∈ cases → ∀ s ∈ body,
      V.Holds (s.Mirrors R) (s.mapExprsM f)) :
    V.Holds (Forall₂ (Case.Over (Mirrors R)) cases) (mapExprsCasesM f cases) := by
  induction cases with
  | nil => exact V.pure .nil
  | cons c cases ih =>
    obtain ⟨label, body⟩ := c
    -- The body of the first case is walked before the other cases.
    refine V.bind (mapExprsListM_mirrors_of V (h label body List.mem_cons_self)) fun body' => ?_
    have hrest := ih fun label' body' hc => h label' body' (List.mem_cons_of_mem _ hc)
    refine V.bind hrest fun cases' => ?_
    exact V.pure fun hcases hbody => .cons (.mk label hbody) hcases

/-- Replacing the expressions of a statement by related ones makes a mirror image of it. -/
theorem mapExprsM_mirrors (hf : ∀ e, Q e → V.Holds (R e) (f e)) (s : Stmt) (hs : s.All Q) :
    V.Holds (s.Mirrors R) (s.mapExprsM f) := by
  induction s with
  | block body ih =>
    have hbody := mapExprsListM_mirrors_of V fun s hmem => ih s hmem (all_block.mp hs s hmem)
    exact V.bind hbody fun body' => V.pure .block
  | decl d =>
    -- Of a declaration only the initial value is rewritten.
    have hinit := mapM_option_rel V fun e he => hf e (all_decl.mp hs e he)
    have hwalk : (decl d).mapExprsM f =
        d.init.mapM f >>= fun init' => pure (.decl { d with init := init' }) := by
      simp only [mapExprsM, Decl.mapInitM, bind_assoc, pure_bind]
    rw [hwalk]
    exact V.bind hinit fun init' => V.pure fun h => .decl ⟨rfl, rfl, h⟩
  -- The parts are rewritten in the order of the walk, and the results arrive in reverse.
  | ifElse cond thenBranch elseBranch iht ihe =>
    obtain ⟨hcond, hthen, helse⟩ := all_ifElse.mp hs
    refine V.bind (hf cond hcond) fun cond' => V.bind (iht hthen) fun thenBranch' => ?_
    have hother := mapExprsOptionM_mirrors V fun s hmem => ihe s hmem (helse s hmem)
    refine V.bind hother fun else' => ?_
    exact V.pure fun he ht hc => .ifElse hc ht he
  | forLoop init cond step body ihi ihb =>
    obtain ⟨hinit, hcond, hstep, hbody⟩ := all_forLoop.mp hs
    refine V.bind (mapM_option_rel V fun e he => hf e (hcond e he)) fun cond' => ?_
    refine V.bind (mapM_option_rel V fun e he => hf e (hstep e he)) fun step' => ?_
    have hfirst := mapExprsOptionM_mirrors V fun s hmem => ihi s hmem (hinit s hmem)
    -- The verdicts come in the order of the walk: condition and step, then initializer, then body.
    refine V.bind hfirst fun init' => ?_
    exact V.bind (ihb hbody) fun body' => V.pure fun hb hi hs hc => .forLoop hi hc hs hb
  | whileLoop cond body ih =>
    obtain ⟨hcond, hbody⟩ := all_whileLoop.mp hs
    refine V.bind (hf cond hcond) fun cond' => V.bind (ih hbody) fun body' => ?_
    exact V.pure fun hb hc => .whileLoop hc hb
  | doWhile body cond ih =>
    obtain ⟨hcond, hbody⟩ := all_doWhile.mp hs
    refine V.bind (hf cond hcond) fun cond' => V.bind (ih hbody) fun body' => ?_
    exact V.pure fun hb hc => .doWhile hb hc
  -- A label is not rewritten.
  | switchOn value cases ih =>
    obtain ⟨hvalue, hcases⟩ := all_switchOn.mp hs
    have hrest := mapExprsCasesM_mirrors V fun label body hcase s hmem =>
      ih label body hcase s hmem (hcases _ hcase s hmem)
    refine V.bind (hf value hvalue) fun value' => V.bind hrest fun cases' => ?_
    exact V.pure fun hc hv => .switchOn hv hc
  -- The leaves have an expression or nothing.
  | expr e => exact V.bind (hf e (all_expr.mp hs)) fun e' => V.pure .expr
  | returnWith value =>
    have hvalue := mapM_option_rel V fun e he => hf e (all_returnWith.mp hs e he)
    exact V.bind hvalue fun value' => V.pure .returnWith
  | breakOut => exact V.pure .breakOut
  | continueLoop => exact V.pure .continueLoop
  | discard => exact V.pure .discard
  | emitVertex => exact V.pure .emitVertex
  | endPrimitive => exact V.pure .endPrimitive

/-- The same for the statements of a body. -/
theorem mapExprsListM_mirrors (hf : ∀ e, Q e → V.Holds (R e) (f e)) {ss : List Stmt}
    (h : ∀ s ∈ ss, s.All Q) : V.Holds (Forall₂ (Mirrors R) ss) (mapExprsListM f ss) :=
  mapExprsListM_mirrors_of V fun s hs => mapExprsM_mirrors V hf s (h s hs)

end

section

variable {R : Expr → Expr → Prop}

/-- Induction over mirror images, whatever the relation between expressions is. -/
theorem Mirrors.fold {T : Stmt → Stmt → Prop}
    (block : ∀ {ss ss'}, Forall₂ T ss ss' → T (.block ss) (.block ss'))
    (decl : ∀ {d d' : Decl}, d.Mirrors R d' → T (.decl d) (.decl d'))
    (ifElse : ∀ {c c' s s' o o'}, R c c' → T s s' → Option.Rel T o o' →
      T (.ifElse c s o) (.ifElse c' s' o'))
    (forLoop : ∀ {i i' c c' t t' s s'}, Option.Rel T i i' → Option.Rel R c c' →
      Option.Rel R t t' → T s s' → T (.forLoop i c t s) (.forLoop i' c' t' s'))
    (whileLoop : ∀ {c c' s s'}, R c c' → T s s' → T (.whileLoop c s) (.whileLoop c' s'))
    (doWhile : ∀ {c c' s s'}, T s s' → R c c' → T (.doWhile s c) (.doWhile s' c'))
    (switchOn : ∀ {v v' cs cs'}, R v v' → Forall₂ (Case.Over T) cs cs' →
      T (.switchOn v cs) (.switchOn v' cs'))
    (expr : ∀ {e e'}, R e e' → T (.expr e) (.expr e'))
    (returnWith : ∀ {v v'}, Option.Rel R v v' → T (.returnWith v) (.returnWith v'))
    (breakOut : T .breakOut .breakOut) (continueLoop : T .continueLoop .continueLoop)
    (discard : T .discard .discard) (emitVertex : T .emitVertex .emitVertex)
    (endPrimitive : T .endPrimitive .endPrimitive) {s s' : Stmt} (h : s.Mirrors R s') :
    T s s' := by
  -- What holds of the statements inside is passed on to lists and optional statements.
  have hlist : ∀ {ss ss' : List Stmt}, (∀ s ∈ ss, ∀ {s'}, s.Mirrors R s' → T s s') →
      Forall₂ (Mirrors R) ss ss' → Forall₂ T ss ss' := by
    intro ss ss' ih h
    induction h with
    | nil => exact .nil
    | cons hs _ ihs =>
      refine .cons (ih _ List.mem_cons_self hs) (ihs fun s hmem => ?_)
      exact ih s (List.mem_cons_of_mem _ hmem)
  have hoption : ∀ {o o' : Option Stmt}, (∀ s ∈ o, ∀ {s'}, s.Mirrors R s' → T s s') →
      Option.Rel (Mirrors R) o o' → Option.Rel T o o' := by
    intro o o' ih h
    cases h with
    | none => exact .none
    | some hs => exact .some (ih _ rfl hs)
  induction s generalizing s' with
  | block body ih =>
    obtain ⟨hbody⟩ := h
    exact block (hlist (fun s hs => ih s hs) hbody)
  | ifElse c s o ihs iho =>
    obtain _ | _ | ⟨hc, hs, ho⟩ := h
    exact ifElse hc (ihs hs) (hoption (fun s hs => iho s hs) ho)
  | forLoop i c t s ihi ihs =>
    obtain _ | _ | _ | ⟨hi, hc, ht, hs⟩ := h
    exact forLoop (hoption (fun s hs => ihi s hs) hi) hc ht (ihs hs)
  | whileLoop c s ih =>
    obtain _ | _ | _ | _ | ⟨hc, hs⟩ := h
    exact whileLoop hc (ih hs)
  | doWhile s c ih =>
    obtain _ | _ | _ | _ | _ | ⟨hs, hc⟩ := h
    exact doWhile (ih hs) hc
  | switchOn v cs ih =>
    obtain _ | _ | _ | _ | _ | _ | ⟨hv, hcs⟩ := h
    -- Each case is its label with a list of statements.
    refine switchOn hv ?_
    induction hcs with
    | nil => exact .nil
    | cons hcase _ ihcs =>
      obtain ⟨label, hbody⟩ := hcase
      refine .cons (.mk label (hlist (fun s hs => ih _ _ List.mem_cons_self s hs) hbody)) ?_
      exact ihcs fun label body hmem => ih label body (List.mem_cons_of_mem _ hmem)
  -- The rest hold expressions only, and these are related already.
  | _ =>
    cases h
    first
    | exact decl ‹_›
    | exact expr ‹_›
    | exact returnWith ‹_›
    | assumption

/-- A weaker relation of expressions gives a weaker one of statements. -/
theorem Mirrors.mono {R' : Expr → Expr → Prop} (hR : ∀ e e', R e e' → R' e e') {s s' : Stmt}
    (h : s.Mirrors R s') : s.Mirrors R' s' := by
  -- An expression is there on both sides or on neither.
  have hexprs : ∀ {o o' : Option Expr}, Option.Rel R o o' → Option.Rel R' o o' := by
    rintro _ _ (h | _)
    · exact .some (hR _ _ h)
    · exact .none
  exact Mirrors.fold .block (fun hd => .decl ⟨hd.storage, hd.name, hexprs hd.init⟩)
    (fun hc => .ifElse (hR _ _ hc)) (fun hi hc ht => .forLoop hi (hexprs hc) (hexprs ht))
    (fun hc => .whileLoop (hR _ _ hc))
    (fun hs hc => .doWhile hs (hR _ _ hc)) (fun hv => .switchOn (hR _ _ hv))
    (fun he => .expr (hR _ _ he)) (fun hv => .returnWith (hexprs hv)) .breakOut .continueLoop
    .discard .emitVertex .endPrimitive h

/-- A statement mirrors itself if its expressions do. -/
theorem Mirrors.refl (hR : ∀ e, R e e) (s : Stmt) : s.Mirrors R s := by
  have hexprs : ∀ o : Option Expr, Option.Rel R o o := fun o => Option.rel_refl fun e _ => hR e
  induction s with
  | block body ih => exact .block (List.forall₂_same.mpr ih)
  | decl d => exact .decl ⟨rfl, rfl, hexprs _⟩
  | ifElse c s o ihs iho => exact .ifElse (hR c) ihs (Option.rel_refl iho)
  | forLoop i c t s ihi ihs => exact .forLoop (Option.rel_refl ihi) (hexprs c) (hexprs t) ihs
  | whileLoop c s ih => exact .whileLoop (hR c) ih
  | doWhile s c ih => exact .doWhile ih (hR c)
  -- Case by case, and statement by statement within a case.
  | switchOn v cs ih =>
    refine .switchOn (hR v) (List.forall₂_same.mpr fun c hc => ?_)
    obtain ⟨label, body⟩ := c
    exact .mk label (List.forall₂_same.mpr (ih label body hc))
  | expr e => exact .expr (hR e)
  | returnWith v => exact .returnWith (hexprs v)
  | breakOut => exact .breakOut
  | continueLoop => exact .continueLoop
  | discard => exact .discard
  | emitVertex => exact .emitVertex
  | endPrimitive => exact .endPrimitive

/-! What a mirror image holds is what the statement holds, as far as both are related. -/

/-- Related optional values are related as lists. -/
theorem forall₂_toList {α β : Type} {T : α → β → Prop} {o : Option α} {o' : Option β}
    (h : Option.Rel T o o') : Forall₂ T o.toList o'.toList := by
  cases h with
  | some h => exact .cons h .nil
  | none => exact .nil

/-- The expressions of mirrored statements are related one by one. -/
theorem Mirrors.own {s s' : Stmt} (h : s.Mirrors R s') : Forall₂ R s.own s'.own := by
  cases h with
  | decl hd => exact forall₂_toList hd.init
  | ifElse hc | whileLoop hc | doWhile _ hc | switchOn hc | expr hc => exact .cons hc .nil
  | forLoop _ hc ht => exact List.rel_append (forall₂_toList hc) (forall₂_toList ht)
  | returnWith hv => exact forall₂_toList hv
  | _ => exact .nil

/-- The statements inside of mirrored statements mirror one another. -/
theorem Mirrors.nested {s s' : Stmt} (h : s.Mirrors R s') :
    Forall₂ (Mirrors R) s.nested s'.nested := by
  cases h with
  | block hss => exact hss
  | ifElse _ hs ho => exact .cons hs (forall₂_toList ho)
  | forLoop hi _ _ hs => exact List.rel_append (forall₂_toList hi) (.cons hs .nil)
  | whileLoop _ hs | doWhile hs => exact .cons hs .nil
  -- The bodies of all cases are joined to one list on both sides.
  | switchOn _ hcs =>
    unfold Stmt.nested
    induction hcs with
    | nil => exact .nil
    | cons hcase _ ih =>
      obtain ⟨label, hbody⟩ := hcase
      exact List.rel_append hbody ih
  | _ => exact .nil

/-- Each element of the second list is related to one of the first. -/
theorem exists_of_forall₂ {α β : Type} {T : α → β → Prop} {as : List α} {bs : List β}
    (h : Forall₂ T as bs) : ∀ b ∈ bs, ∃ a ∈ as, T a b := by
  induction h with
  | nil => exact fun b hb => absurd hb List.not_mem_nil
  | cons hab _ ih =>
    refine List.forall_mem_cons.mpr ⟨⟨_, List.mem_cons_self, hab⟩, fun b hb => ?_⟩
    obtain ⟨a, ha, h⟩ := ih b hb
    exact ⟨a, List.mem_cons_of_mem _ ha, h⟩

/-- What holds of every statement inside holds of every statement inside a mirror image, if it holds
    of a mirror image wherever it holds of a statement. -/
theorem Mirrors.everywhere {P P' : Stmt → Prop} (hP : ∀ s s' : Stmt, s.Mirrors R s' → P s → P' s')
    {s s' : Stmt} (h : s.Mirrors R s') (hs : s.Everywhere P) : s'.Everywhere P' := by
  induction hs generalizing s' with
  | intro here _ ih =>
    refine .intro (hP _ _ h here) fun t' ht' => ?_
    obtain ⟨t, ht, hmirror⟩ := exists_of_forall₂ h.nested t' ht'
    exact ih t ht hmirror

/-- The same for all expressions inside. -/
theorem Mirrors.all {Q Q' : Expr → Prop} (hQ : ∀ e e', R e e' → Q e → Q' e') {s s' : Stmt}
    (h : s.Mirrors R s') (hs : s.All Q) : s'.All Q' := by
  induction hs generalizing s' with
  | intro own _ ih =>
    refine .intro (fun e' he' => ?_) fun t' ht' => ?_
    · obtain ⟨e, he, hrelated⟩ := exists_of_forall₂ h.own e' he'
      exact hQ e e' hrelated (own e he)
    · obtain ⟨t, ht, hmirror⟩ := exists_of_forall₂ h.nested t' ht'
      exact ih t ht hmirror

/-- What depends on expressions in the same way depends in the same way on mirror images. -/
theorem Mirrors.anyExpr_eq {p : Expr → Bool} (hR : ∀ e e', R e e' → p e' = p e) {s s' : Stmt}
    (h : s.Mirrors R s') : s'.anyExpr p = s.anyExpr p := by
  -- A search finds in a part what it finds in the part that mirrors it.
  have hexprs : ∀ {o o' : Option Expr}, Option.Rel R o o' → o'.any p = o.any p := by
    rintro _ _ (h | _)
    · exact hR _ _ h
    · rfl
  have hlist : ∀ {ss ss' : List Stmt}, Forall₂ (fun s s' => s'.anyExpr p = s.anyExpr p) ss ss' →
      anyExprList p ss' = anyExprList p ss := by
    intro ss ss' h
    induction h with
    | nil => rfl
    | cons hs _ ih => rw [anyExprList, anyExprList, hs, ih]
  have hoption : ∀ {o o' : Option Stmt},
      Option.Rel (fun s s' => s'.anyExpr p = s.anyExpr p) o o' →
        anyExprOption p o' = anyExprOption p o := by
    rintro _ _ (h | _)
    · exact h
    · rfl
  have hcases : ∀ {cs cs' : List Case},
      Forall₂ (Case.Over fun s s' => s'.anyExpr p = s.anyExpr p) cs cs' →
        anyExprCases p cs' = anyExprCases p cs := by
    intro cs cs' h
    induction h with
    | nil => rfl
    | cons hc _ ih =>
      obtain ⟨label, hbody⟩ := hc
      rw [anyExprCases, anyExprCases, hlist hbody, ih]
  refine Mirrors.fold (T := fun s s' => s'.anyExpr p = s.anyExpr p) hlist
    (fun hd => hexprs hd.init) (fun hc hs ho => ?_) (fun hi hc ht hs => ?_) (fun hc hs => ?_)
    (fun hs hc => ?_) (fun hv hcs => ?_) (hR _ _) hexprs rfl rfl rfl rfl rfl h
  · -- Each statement is the disjunction over its parts, in the same order on both sides.
    rw [anyExpr, anyExpr, hR _ _ hc, hs, hoption ho]
  · rw [anyExpr, anyExpr, hexprs hc, hexprs ht, hoption hi, hs]
  · rw [anyExpr, anyExpr, hR _ _ hc, hs]
  · rw [anyExpr, anyExpr, hR _ _ hc, hs]
  · rw [anyExpr, anyExpr, hR _ _ hv, hcases hcs]

/-- Replacing every statement makes a mirror image if replacing one statement makes a mirror image
    of whatever the statement was a mirror image of. -/
theorem bottomUp_mirrors {f : Stmt → Stmt} (hR : ∀ e, R e e)
    (hf : ∀ s s' : Stmt, s.Mirrors R s' → s.Mirrors R (f s')) (s : Stmt) :
    s.Mirrors R (s.bottomUp f) := by
  -- What the map does to lists and optional statements is told by their members.
  have hlist : ∀ {ss : List Stmt}, (∀ s ∈ ss, s.Mirrors R (s.bottomUp f)) →
      Forall₂ (Mirrors R) ss (bottomUpList f ss) := by
    intro ss h
    rw [bottomUpList_eq_map]
    exact List.forall₂_map_right_iff.mpr (List.forall₂_same.mpr h)
  have hoption : ∀ {o : Option Stmt}, (∀ s ∈ o, s.Mirrors R (s.bottomUp f)) →
      Option.Rel (Mirrors R) o (bottomUpOption f o) := by
    intro o h
    cases o with
    | none => exact .none
    | some s => exact .some (h s rfl)
  have hexprs : ∀ o : Option Expr, Option.Rel R o o := fun o => Option.rel_refl fun e _ => hR e
  induction s with
  | block body ih => exact hf _ _ (.block (hlist ih))
  | ifElse c s o ihs iho => exact hf _ _ (.ifElse (hR c) ihs (hoption iho))
  | forLoop i c t s ihi ihs =>
    exact hf _ _ (.forLoop (hoption ihi) (hexprs c) (hexprs t) ihs)
  | whileLoop c s ih => exact hf _ _ (.whileLoop (hR c) ih)
  | doWhile s c ih => exact hf _ _ (.doWhile ih (hR c))
  | switchOn v cs ih =>
    have hcases : Forall₂ (Case.Over (Mirrors R)) cs (bottomUpCases f cs) := by
      induction cs with
      | nil => exact .nil
      | cons c cs ihcs =>
        obtain ⟨label, body⟩ := c
        refine .cons (.mk label (hlist (ih label body List.mem_cons_self))) (ihcs ?_)
        exact fun label body hmem => ih label body (List.mem_cons_of_mem _ hmem)
    exact hf _ _ (.switchOn (hR v) hcases)
  -- A statement with no statements inside is only given to the map.
  | _ => exact hf _ _ (Mirrors.refl hR _)

/-- The same for the list of a body. -/
theorem bottomUpList_mirrors {f : Stmt → Stmt} (hR : ∀ e, R e e)
    (hf : ∀ s s' : Stmt, s.Mirrors R s' → s.Mirrors R (f s')) (ss : List Stmt) :
    Forall₂ (Mirrors R) ss (bottomUpList f ss) := by
  rw [bottomUpList_eq_map]
  exact List.forall₂_map_right_iff.mpr
    (List.forall₂_same.mpr fun s _ => bottomUp_mirrors hR hf s)

end

end Stmt

/-! ### Programs -/

/-- Elements that differ in their expressions only, each of which is related to the one in its
    place. -/
inductive Element.Mirrors (R : Expr → Expr → Prop) : Element → Element → Prop
  | global {d : Decl} {init : Option Expr} (h : Option.Rel R d.init init) :
    Mirrors R (.global d) (.global { d with init })
  | function {fn : Function} {body : List Stmt} (h : Forall₂ (Stmt.Mirrors R) fn.body body) :
    Mirrors R (.function fn) (.function { fn with body })
  | layout (l : Layout) : Mirrors R (.layout l) (.layout l)

/-- A weaker relation of expressions gives a weaker one of elements. -/
theorem Element.Mirrors.mono {R R' : Expr → Expr → Prop} (hR : ∀ e e', R e e' → R' e e')
    {el el' : Element} (h : el.Mirrors R el') : el.Mirrors R' el' := by
  cases h with
  | global hinit => exact .global (Option.rel_mono hinit hR)
  | function hbody => exact .function (hbody.imp fun _ _ hs => hs.mono hR)
  | layout l => exact .layout l

section

variable {m : Type → Type} [Monad m] [LawfulMonad m] (V : Verdict m) {Q : Expr → Prop}
  {R : Expr → Expr → Prop} {f : Expr → m Expr}

/-- Of a global only the initial value is rewritten. -/
theorem Element.mapExprsM_global (d : Decl) : (Element.global d).mapExprsM f =
    d.init.mapM f >>= fun init => pure (.global { d with init }) := by
  simp only [Element.mapExprsM, Decl.mapInitM, bind_assoc, pure_bind]

/-- Of a function only the body is rewritten. -/
theorem Element.mapExprsM_function (fn : Function) : (Element.function fn).mapExprsM f =
    Stmt.mapExprsListM f fn.body >>= fun body => pure (.function { fn with body }) := by
  simp only [Element.mapExprsM, Function.mapExprsM, bind_assoc, pure_bind]

/-- Each element is rewritten to one that mirrors it. -/
theorem Element.mapExprsM_mirrors (hf : ∀ e, Q e → V.Holds (R e) (f e)) (el : Element)
    (hel : el.All Q) : V.Holds (el.Mirrors R) (el.mapExprsM f) := by
  cases el with
  -- A global has at most one expression of its own, a function those in its body.
  | global d =>
    rw [mapExprsM_global]
    exact V.bind (Stmt.mapM_option_rel V fun e he => hf e (hel e he)) fun init => V.pure .global
  | function fn =>
    rw [mapExprsM_function]
    exact V.bind (Stmt.mapExprsListM_mirrors V hf hel) fun body => V.pure .function
  | layout l => exact V.pure (.layout l)

/-- A program whose expressions are replaced by related ones keeps its structure. -/
theorem Program.mapExprsM_mirrors (hf : ∀ e, Q e → V.Holds (R e) (f e)) {p : Program}
    (hp : p.All Q) : V.Holds (fun p' => p'.stage = p.stage ∧
      Forall₂ (Element.Mirrors R) p.elements p'.elements) (p.mapExprsM f) :=
  V.bind (V.mapM fun el hel => Element.mapExprsM_mirrors V hf el (hp el hel)) fun _ =>
    V.pure fun h => ⟨rfl, h⟩

end

section

variable {R : Expr → Expr → Prop} {g : Expr → Expr}

/-- A statement mirrors what a map makes of it, if the map keeps its expressions related. -/
theorem Stmt.mapExprs_mirrors {s : Stmt} (hs : s.All fun e => R e (g e)) :
    s.Mirrors R (s.mapExprs g) :=
  have hwalk := mapExprsM_mirrors (Judgement.yields (m := Id)).verdict
    (f := fun e => pure (g e)) (R := R) (fun _ he => Yields.pure he) s hs
  Yields.of_id hwalk

/-- So does an element. -/
theorem Element.mapExprs_mirrors {el : Element} (h : el.All fun e => R e (g e)) :
    el.Mirrors R (el.mapExprs g) := by
  cases el with
  | global d =>
    obtain ⟨storage, name, ty, init⟩ := d
    cases init with
    | none => exact .global .none
    | some e => exact .global (.some (h e rfl))
  | function fn =>
    -- The statements are mapped one by one.
    refine .function (List.forall₂_map_right_iff.mpr (List.forall₂_same.mpr fun s hs => ?_))
    exact Stmt.mapExprs_mirrors (h s hs)
  | layout l => exact .layout l

/-- A program whose expressions are rebuilt keeps its structure. -/
theorem Program.mapNodes_mirrors {f : Expr → Expr} {p : Program}
    (h : p.All fun e => R e (e.bottomUp f)) :
    Forall₂ (Element.Mirrors R) p.elements (p.mapNodes f).elements := by
  rw [Program.elements_mapNodes]
  exact List.forall₂_map_right_iff.mpr
    (List.forall₂_same.mpr fun el hel => Element.mapExprs_mirrors (h el hel))

end

/-! ### Rules that keep the structure

Raising precision classes changes the types that are declared, and the rule for conditions of loops
changes conditions. What either of them makes of a statement is a mirror image of it, if the
relation between expressions allows a condition to be conjoined with `true`. -/

namespace Legalize

open Stmt

variable {R : Expr → Expr → Prop} {s s' : Stmt}

/-- Raising the type of a declaration keeps its mirror. -/
theorem raiseStmt_mirrors (h : s.Mirrors R s') : s.Mirrors R (HighPrecision.raiseStmt s') := by
  have hself := h
  cases h with
  | decl hd => exact .decl ⟨hd.storage, hd.name, hd.init⟩
  | _ => exact hself

/-- The constant in an exit check keeps the mirror. -/
theorem andTrueInExitCheck_mirrors
    (hnegated : ∀ e ty c, R e (.unary ty .not c) → R e (.unary ty .not (LoopCondition.andTrue c)))
    (h : s.Mirrors R s') : s.Mirrors R (LoopCondition.andTrueInExitCheck s') := by
  unfold LoopCondition.andTrueInExitCheck
  split
  · split
    -- The condition stands negated in the check that starts the body.
    · obtain ⟨_ | ⟨hcheck, hrest⟩⟩ := h
      obtain _ | _ | ⟨hflag, ⟨_ | ⟨hexit, hnil⟩⟩, hnone⟩ := hcheck
      cases hnil
      obtain _ | _ | ⟨hcond, hexit, hother⟩ := hexit
      refine .block (.cons (.ifElse hflag (.block (.cons ?_ .nil)) hnone) hrest)
      exact .ifElse (hnegated _ _ _ hcond) hexit hother
    · exact h
  · exact h

/-- So does the constant in the condition of a loop. -/
theorem andTrueInLoop_mirrors (hand : ∀ e c, R e c → R e (LoopCondition.andTrue c))
    (hnegated : ∀ e ty c, R e (.unary ty .not c) → R e (.unary ty .not (LoopCondition.andTrue c)))
    (h : s.Mirrors R s') : s.Mirrors R (LoopCondition.andTrueInLoop s') := by
  unfold LoopCondition.andTrueInLoop
  split
  · -- In a `while` the exit check of its body changes as well, in other loops only the condition.
    obtain _ | _ | _ | _ | ⟨hcond, hbody⟩ := h
    exact .whileLoop (hand _ _ hcond) (andTrueInExitCheck_mirrors hnegated hbody)
  · obtain _ | _ | _ | ⟨hinit, hcond, hstep, hbody⟩ := h
    cases hcond with
    | some hcond => exact .forLoop hinit (.some (hand _ _ hcond)) hstep hbody
  · obtain _ | _ | _ | _ | _ | ⟨hbody, hcond⟩ := h
    exact .doWhile hbody (hand _ _ hcond)
  · exact h

end Legalize

end ShaderGen
