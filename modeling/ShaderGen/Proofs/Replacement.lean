import ShaderGen.Proofs.Mirror
import ShaderGen.Proofs.Nodes

/-!
# Walks whose replacements are known

A walk over expressions may change a state or fail, and yet it may be known by what it replaces each
of them. What comes out of it is then the program with its expressions replaced by that, and nothing
else of it is changed (`Program.mapExprs`).

## Key results

- `Expr.bottomUpM_replaces`, `Program.mapExprsM_replaces`: what a walk returns
- `Program.mapExprsM_eq_ok_iff`, `Program.mapExprsM_blames`: whether a walk gets to its end, and
  what it fails for if it does not
-/

namespace ShaderGen

open List (Forall₂)

/-- The program with its expressions replaced by a function that has no effects. -/
def Program.mapExprs (g : Expr → Expr) (p : Program) : Program :=
  { p with elements := p.elements.map (Element.mapExprs g) }

section

variable {α β : Type} {T : α → β → Prop} {as : List α} {bs : List β}

/-- A list related to another by a function is its image. -/
theorem eq_map_of_forall₂ {h : α → β} (hbs : Forall₂ (fun a b => b = h a) as bs) :
    bs = as.map h := by
  rw [← List.forall₂_eq_eq_eq, List.forall₂_map_right_iff]
  exact hbs.flip

/-- Each element of the first list is related to one of the second. -/
theorem exists_right_of_forall₂ (h : Forall₂ T as bs) : ∀ a ∈ as, ∃ b ∈ bs, T a b :=
  Stmt.exists_of_forall₂ h.flip

end

section

variable {m : Type → Type} [Monad m] [LawfulMonad m] (J : Judgement m) {f : Expr → m Expr}
  {g : Expr → Expr}

/-- If each node of an expression is replaced by one that is related to it, over children that are
    related to its own, so is the expression. -/
theorem Expr.bottomUpM_holds_throughout {R : Expr → Expr → Prop} {e : Expr}
    (h : e.Throughout fun n =>
      ∀ cs, Forall₂ R n.children cs → J.Holds (R n) (f (n.withChildren cs))) :
    J.Holds (R e) (e.bottomUpM f) := by
  induction e using induction_children with
  | h e ih =>
    obtain ⟨hnode, hbelow⟩ := throughout_iff.mp h
    -- The walk goes over the children first, and hands the node on with what they have become.
    rw [bottomUpM_eq]
    exact J.bind (J.mapM fun c hc => ih c hc (hbelow c hc)) hnode

/-- If each node of an expression is replaced by what a function gives for it, so is the
    expression. -/
theorem Expr.bottomUpM_replaces {e : Expr}
    (h : e.Throughout fun n => ∀ cs, J.Holds (· = g (n.withChildren cs)) (f (n.withChildren cs))) :
    J.Holds (· = e.bottomUp g) (e.bottomUpM f) := by
  refine bottomUpM_holds_throughout J (R := fun e e' => e' = e.bottomUp g) fun levels n hn => ?_
  intro cs hcs
  rw [bottomUp_eq, ← eq_map_of_forall₂ hcs]
  exact h levels n hn cs

namespace Stmt

/-- An initializer or the like is replaced by its image, where each value is. -/
private theorem option_mapM_replaces {o : Option Expr} (h : ∀ e ∈ o, J.Holds (· = g e) (f e)) :
    J.Holds (· = o.map g) (o.mapM f) := by
  cases o with
  | none => exact J.pure rfl
  | some e =>
    rw [Option.mapM_some, ← bind_pure_comp]
    exact J.bind (h e rfl) fun _ he => J.pure (congrArg some he)

/-- A declaration is replaced by one with the image of its initializer. -/
private theorem mapInitM_replaces {d : Decl} (h : ∀ e ∈ d.init, J.Holds (· = g e) (f e)) :
    J.Holds (· = { d with init := d.init.map g }) (d.mapInitM f) :=
  J.bind (option_mapM_replaces J h) fun _ hinit => J.pure (by rw [hinit])

omit [LawfulMonad m] in
/-- A list of statements is replaced by its image, where each statement is. -/
private theorem mapExprsListM_replaces_of {ss : List Stmt}
    (h : ∀ s ∈ ss, J.Holds (· = s.mapExprs g) (s.mapExprsM f)) :
    J.Holds (· = ss.map (mapExprs g)) (mapExprsListM f ss) := by
  induction ss with
  | nil => exact J.pure rfl
  | cons s ss ih =>
    refine J.bind (h s List.mem_cons_self) fun s' hs => ?_
    refine J.bind (ih fun t ht => h t (List.mem_cons_of_mem s ht)) fun ss' hss => J.pure ?_
    rw [hs, hss, List.map_cons]

omit [LawfulMonad m] in
/-- So is an optional branch. -/
private theorem mapExprsOptionM_replaces {o : Option Stmt}
    (h : ∀ s ∈ o, J.Holds (· = s.mapExprs g) (s.mapExprsM f)) :
    J.Holds (· = o.map (mapExprs g)) (mapExprsOptionM f o) := by
  cases o with
  | none => exact J.pure rfl
  | some s => exact J.bind (h s rfl) fun _ hs => J.pure (congrArg some hs)

omit [LawfulMonad m] in
/-- And so are the cases of a switch. -/
private theorem mapExprsCasesM_replaces {cases : List Case}
    (h : ∀ label body, .mk label body ∈ cases → ∀ s ∈ body,
      J.Holds (· = s.mapExprs g) (s.mapExprsM f)) :
    J.Holds (· = cases.map (mapExprsCase g)) (mapExprsCasesM f cases) := by
  induction cases with
  | nil => exact J.pure rfl
  | cons c cases ih =>
    obtain ⟨label, body⟩ := c
    -- The body is replaced, then the other cases, and the effects come in that order.
    refine J.bind (mapExprsListM_replaces_of J (h label body List.mem_cons_self)) fun body' hb => ?_
    refine J.bind (ih fun label' body' hc => h label' body' (List.mem_cons_of_mem _ hc))
      fun cases' hcases => J.pure ?_
    rw [hb, hcases, List.map_cons, mapExprsCase]

/-- If every expression of a statement is replaced by what a function gives for it, the statement
    is replaced accordingly. -/
theorem mapExprsM_replaces {s : Stmt} (hs : s.All fun e => J.Holds (· = g e) (f e)) :
    J.Holds (· = s.mapExprs g) (s.mapExprsM f) := by
  induction s with
  | block body ih =>
    rw [mapExprs_block]
    exact J.bind (mapExprsListM_replaces_of J fun s hmem => ih s hmem (all_block.mp hs s hmem))
      fun _ hbody => J.pure (congrArg block hbody)
  | decl d =>
    rw [mapExprs_decl]
    exact J.bind (mapInitM_replaces J (all_decl.mp hs)) fun _ hd => J.pure (congrArg decl hd)
  | ifElse cond thenBranch elseBranch iht ihe =>
    obtain ⟨hcond, hthen, helse⟩ := all_ifElse.mp hs
    rw [mapExprs_ifElse]
    -- The parts are rewritten in the order of the text, each to its image.
    refine J.bind hcond fun cond' hc => J.bind (iht hthen) fun thenBranch' ht => ?_
    refine J.bind (mapExprsOptionM_replaces J fun s hmem => ihe s hmem (helse s hmem))
      fun elseBranch' he => J.pure ?_
    rw [hc, ht, he]
  | forLoop init cond step body ihi ihb =>
    obtain ⟨hinit, hcond, hstep, hbody⟩ := all_forLoop.mp hs
    rw [mapExprs_forLoop]
    refine J.bind (option_mapM_replaces J hcond) fun cond' hc => ?_
    refine J.bind (option_mapM_replaces J hstep) fun step' ht => ?_
    refine J.bind (mapExprsOptionM_replaces J fun s hmem => ihi s hmem (hinit s hmem))
      fun init' hi => ?_
    exact J.bind (ihb hbody) fun body' hb => J.pure (by rw [hc, ht, hi, hb])
  -- The loops are alike: the condition first, then the body.
  | whileLoop cond body ih =>
    obtain ⟨hcond, hbody⟩ := all_whileLoop.mp hs
    rw [mapExprs_whileLoop]
    exact J.bind hcond fun cond' hc => J.bind (ih hbody) fun body' hb => J.pure (by rw [hc, hb])
  | doWhile body cond ih =>
    obtain ⟨hcond, hbody⟩ := all_doWhile.mp hs
    rw [mapExprs_doWhile]
    exact J.bind hcond fun cond' hc => J.bind (ih hbody) fun body' hb => J.pure (by rw [hc, hb])
  -- A label is kept.
  | switchOn value cases ih =>
    obtain ⟨hvalue, hcases⟩ := all_switchOn.mp hs
    have hrest := mapExprsCasesM_replaces J fun label body hcase s hmem =>
      ih label body hcase s hmem (hcases _ hcase s hmem)
    rw [mapExprs_switchOn]
    exact J.bind hvalue fun value' hv => J.bind hrest fun cases' hc => J.pure (by rw [hv, hc])
  | expr e => exact J.bind (all_expr.mp hs) fun e' he => J.pure (congrArg expr he)
  | returnWith value =>
    rw [mapExprs_returnWith]
    exact J.bind (option_mapM_replaces J (all_returnWith.mp hs)) fun _ hv =>
      J.pure (congrArg returnWith hv)
  | _ => exact J.pure rfl

end Stmt

/-- An element is replaced by its image, where each of its expressions is. -/
theorem Element.mapExprsM_replaces {el : Element} (h : el.All fun e => J.Holds (· = g e) (f e)) :
    J.Holds (· = el.mapExprs g) (el.mapExprsM f) := by
  cases el with
  | global d =>
    exact J.bind (Stmt.mapInitM_replaces J h) fun _ hd => J.pure (congrArg global hd)
  | function fn =>
    -- Only the body of a function holds expressions.
    rw [mapExprsM_function]
    exact J.bind (Stmt.mapExprsListM_replaces_of J fun s hs => Stmt.mapExprsM_replaces J (h s hs))
      fun _ hbody => J.pure (by rw [hbody]; rfl)
  | layout l => exact J.pure rfl

/-- If every expression of a program is replaced by what a function gives for it, that is all that
    changes. -/
theorem Program.mapExprsM_replaces {p : Program} (h : p.All fun e => J.Holds (· = g e) (f e)) :
    J.Holds (· = p.mapExprs g) (p.mapExprsM f) := by
  refine J.bind (J.mapM fun el hel => Element.mapExprsM_replaces J (h el hel)) fun els hels => ?_
  exact J.pure (by rw [eq_map_of_forall₂ hels, mapExprs])

end

/-! ### What a walk tells of a program -/

section

variable {R : Expr → Expr → Prop}

/-- Every expression of a statement is related to one in a mirror image. -/
theorem Stmt.Mirrors.all_left {s s' : Stmt} (h : s.Mirrors R s') :
    s.All fun e => ∃ e', R e e' := by
  induction s using induction_nested generalizing s' with
  | h s ih =>
    refine .intro (fun e he => ?_) fun t ht => ?_
    · obtain ⟨e', -, hR⟩ := exists_right_of_forall₂ h.own e he
      exact ⟨e', hR⟩
    · obtain ⟨t', -, hmirror⟩ := exists_right_of_forall₂ h.nested t ht
      exact ih t ht hmirror

/-- On the left of a relation, every expression of an element has a partner. -/
theorem Element.Mirrors.all_left {el el' : Element} (h : el.Mirrors R el') :
    el.All fun e => ∃ e', R e e' := by
  cases h with
  | @global d init hinit =>
    intro e he
    -- An initial value has a counterpart if it is there.
    rw [Option.mem_def.mp he] at hinit
    cases hinit with
    | some hR => exact ⟨_, hR⟩
  | function hbody =>
    intro s hs
    obtain ⟨s', -, hmirror⟩ := exists_right_of_forall₂ hbody s hs
    exact hmirror.all_left
  | layout l => trivial

/-- What the walk over each expression tells of it holds of all expressions of a program. -/
theorem Program.mapExprsM_tells {m : Type → Type} [Monad m] [LawfulMonad m] (V : Verdict m)
    {Q : Expr → Prop} {f : Expr → m Expr} (hf : ∀ e, V.Holds (fun _ => Q e) (f e)) (p : Program) :
    V.Holds (fun _ => p.All Q) (p.mapExprsM f) := by
  have hwalk := mapExprsM_mirrors V (R := fun e _ => Q e) (fun e _ => hf e) (p := p)
    (p.meets_anything.all rfl)
  refine V.mono hwalk fun p' hp' => ?_
  -- Each expression of the program went through the walk, so it is as the walk tells.
  have hall : p.All fun e => ∃ _ : Expr, Q e := by
    intro el hel
    obtain ⟨el', -, hmirror⟩ := exists_right_of_forall₂ hp'.2 el hel
    exact hmirror.all_left
  exact hall.mono fun e ⟨_, he⟩ => he

end

/-! ### Walks that can fail -/

section

variable {ε : Type} {B : ε → Prop} {f : Expr → Except ε Expr} {p p' : Program}

/-- The judgement on work that can fail, and then only for some causes. -/
def Judgement.blaming (B : ε → Prop) : Judgement (Except ε) where
  Holds Q x := (∀ a, x = .ok a → Q a) ∧ ∀ cause, x = .error cause → B cause
  pure h := ⟨fun _ ha => Except.ok.inj ha ▸ h, nofun⟩
  bind {_ _ _ _ x _} h hf := by
    cases x with
    | ok a => exact hf a (h.1 a rfl)
    | error cause => exact ⟨nofun, fun _ hcause => h.2 _ (Except.error.inj hcause ▸ rfl)⟩

/-- A walk fails only for a cause for which it fails to replace an expression. -/
theorem Program.mapExprsM_blames (h : p.All fun e => ∀ cause, f e = .error cause → B cause)
    {cause : ε} (hwalk : p.mapExprsM f = .error cause) : B cause := by
  -- What is said to replace an expression where the walk fails does not matter.
  have hblames := mapExprsM_replaces (.blaming B) (g := fun e => (f e).toOption.getD e)
    (h.mono fun e he => ⟨fun e' hok => by rw [hok]; rfl, he⟩)
  exact hblames.2 cause hwalk

/-- A walk gets to the end of a program exactly if it can replace every expression, and then these
    replacements are all that it does. -/
theorem Program.mapExprsM_eq_ok_iff :
    p.mapExprsM f = .ok p' ↔ ∃ g, p' = p.mapExprs g ∧ p.All fun e => f e = .ok (g e) := by
  have hsucceeds {g : Expr → Expr} (hall : p.All fun e => f e = .ok (g e)) :
      p.mapExprsM f = .ok (p.mapExprs g) := by
    obtain ⟨_, hwalk, rfl⟩ := mapExprsM_replaces .succeeding (f := f) (g := g)
      (hall.mono fun e he => ⟨g e, he, rfl⟩)
    exact hwalk
  -- A walk that returns has returned something for each expression.
  have hok : Yields (fun _ => p.All fun e => ∃ e', f e = .ok e') (p.mapExprsM f) :=
    mapExprsM_tells Judgement.yields.verdict
      (fun e => Yields.of_forall_ok fun e' he => ⟨e', he⟩) p
  constructor
  · intro h
    have hall : p.All fun e => f e = .ok ((f e).toOption.getD e) :=
      (hok.of_ok h).mono fun e ⟨e', he⟩ => by rw [he]; rfl
    exact ⟨_, Except.ok.inj (h.symm.trans (hsucceeds hall)), hall⟩
  · rintro ⟨g, rfl, hall⟩
    exact hsucceeds hall

end

end ShaderGen
