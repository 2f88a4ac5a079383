import ShaderGen.Proofs.Legalize.LoopFlag

/-!
# Replaced loops run alike

Replacing the loops of a program that test at their end changes nothing that a run of one of its
functions shows: it ends the same way, in a state that differs in the flags only, after the same
calls and writes; and it ends at all exactly if it did before. The names of the program only have
to leave those of the flags alone.
-/

namespace ShaderGen

/-- Whether a name starts like the names of a stem. -/
def Stem.starts (stem : Stem) (name : String) : Bool :=
  stem.text.toList.isPrefixOf name.toList

/-- A stem starts every name that is made from it. -/
theorem Stem.starts_append (stem : Stem) (rest : String) :
    stem.starts (stem.text ++ rest) = true := by
  rw [Stem.starts, String.toList_append, List.isPrefixOf_iff_prefix]
  exact List.prefix_append _ _

/-- So it starts a fresh one. -/
theorem starts_freshName (stem : Stem) (sc : Scratch) :
    stem.starts ((freshName stem).run sc).1 = true :=
  stem.starts_append _

namespace Legalize.DoWhile

open Behaviour Stmt

variable {α : Type} {m : Machine α}

/-- Names of flags. -/
def flags : String → Bool := Stem.loopFlag.starts

/-- An expanded list stands for the old one when each of its statements does. -/
theorem stands_expandListM {ss : List Stmt}
    (h : ∀ s ∈ ss, ∀ sc, Stands flags m [s] ((s.expandM visit).run sc).1) (sc : Scratch) :
    Stands flags m ss ((expandListM visit ss).run sc).1 := by
  induction ss generalizing sc with
  | nil => exact .nil
  | cons s ss ih =>
    have hrest := ih (fun s' hs' => h s' (List.mem_cons_of_mem s hs'))
      ((s.expandM visit).run sc).2
    exact (h s List.mem_cons_self sc).cons hrest

/-- So do expanded cases. -/
theorem stands_expandCasesM {cases : List Case}
    (h : ∀ label body, .mk label body ∈ cases → ∀ sc,
      Stands flags m body ((expandListM visit body).run sc).1) (sc : Scratch) :
    List.Forall₂ (Stands.InCase flags m) cases ((expandCasesM visit cases).run sc).1 := by
  induction cases generalizing sc with
  | nil => exact .nil
  | cons c cases ih =>
    obtain ⟨label, body⟩ := c
    have hrest := ih (fun label' body' hmem => h label' body' (List.mem_cons_of_mem _ hmem))
      ((expandListM visit body).run sc).2
    exact .cons (.mk label (h label body List.mem_cons_self sc)) hrest

/-- A statement is replaced by statements that can stand for it. -/
theorem stands_expandM (s : Stmt) : s.mentions flags = false →
    ∀ sc, Stands flags m [s] ((s.expandM visit).run sc).1 := by
  -- By induction on the statement, from every state, since a flag is named before the loops inside
  -- its loop are.
  induction s with
  | block body ih =>
    intro h sc
    have h := (listMentions_eq_any body).symm.trans h
    rw [List.any_eq_false] at h
    exact .block (stands_expandListM (fun s hs => ih s hs (eq_false_of_ne_true (h s hs))) sc)
  | decl d => exact fun h _ => .decl h
  | ifElse cond thenBranch elseBranch iht ihe =>
    intro h sc
    obtain ⟨h, helse⟩ := Bool.or_eq_false_iff.mp h
    obtain ⟨hcond, hthen⟩ := Bool.or_eq_false_iff.mp h
    refine .ifElse hcond (iht hthen sc).inner (matches_else ?_)
    cases elseBranch with
    | none => exact .none
    | some s => exact .some (ihe s rfl helse _).inner
  | forLoop init cond step body ihi ihb =>
    intro h sc
    obtain ⟨h, hbody⟩ := Bool.or_eq_false_iff.mp h
    obtain ⟨h, hstep⟩ := Bool.or_eq_false_iff.mp h
    obtain ⟨hinit, hcond⟩ := Bool.or_eq_false_iff.mp h
    refine .forLoop ?_ hcond hstep (ihb hbody sc).inner
    -- The initializer is left alone.
    cases init with
    | none => exact .nil
    | some s => exact stands_self s hinit
  | whileLoop cond body ih =>
    intro h sc
    obtain ⟨hcond, hbody⟩ := Bool.or_eq_false_iff.mp h
    exact .whileLoop hcond (ih hbody sc).inner
  | doWhile body cond ih =>
    intro h sc
    obtain ⟨hcond, hbody⟩ := Bool.or_eq_false_iff.mp h
    exact stands_replace hcond (starts_freshName .loopFlag sc) (ih hbody _).inner
  | switchOn value cases ih =>
    intro h sc
    obtain ⟨hvalue, hcases⟩ := Bool.or_eq_false_iff.mp h
    refine .switchOn hvalue (stands_expandCasesM (fun label body hcase sc => ?_) sc)
    have hbody := listMentions_of_mem hcases hcase
    rw [listMentions_eq_any, List.any_eq_false] at hbody
    exact stands_expandListM
      (fun s hs => ih label body hcase s hs (eq_false_of_ne_true (hbody s hs))) sc
  | expr e => exact fun h _ => .expr h
  | returnWith value => exact fun h _ => .returnWith h
  | breakOut => exact fun _ _ => .single rfl (.exit _)
  | continueLoop => exact fun _ _ => .single rfl (.exit _)
  | discard => exact fun _ _ => .single rfl (.exit _)
  | emitVertex => exact fun _ _ => .single rfl (.act _ fun _ => rfl)
  | endPrimitive => exact fun _ _ => .single rfl (.act (fun _ => .endPrimitive) fun _ => rfl)

/-- The elements run alike, one by one, whatever flags were drawn before. -/
theorem runsAlike_mapM {es : List Element}
    (h : ∀ f, .function f ∈ es → listMentions flags f.body = false) (sc : Scratch) :
    List.Forall₂ (Element.RunsAlike flags m) es
      ((es.mapM (Element.mapFunctionM replaceIn)).run sc).1 := by
  induction es generalizing sc with
  | nil => exact .nil
  | cons e es ih =>
    rw [List.mapM_cons]
    have hrest := ih (fun f hf => h f (List.mem_cons_of_mem e hf))
      ((e.mapFunctionM replaceIn).run sc).2
    refine .cons ?_ hrest
    -- Only a function has a body in which loops are replaced.
    cases e with
    | global d => exact .global d
    | layout l => exact .layout l
    | function f =>
      have hbody := h f List.mem_cons_self
      rw [listMentions_eq_any, List.any_eq_false] at hbody
      exact .of_stands (stands_expandListM
        (fun s hs => stands_expandM s (eq_false_of_ne_true (hbody s hs))) sc)

/-- Replacing the loops that test at their end keeps every run of every function: the new body ends
    in some way from some state exactly if the old one does, and what it leaves differs only in
    variables named like flags. -/
theorem legalize_keeps_runs (m : Machine α) (p : Program) (sc : Scratch)
    (h : p.mentions flags = false) :
    ((legalize p).run sc).1.stage = p.stage ∧
      List.Forall₂ (Element.RunsAlike flags m) p.elements ((legalize p).run sc).1.elements := by
  refine ⟨rfl, runsAlike_mapM (fun f hf => ?_) sc⟩
  rw [Program.mentions, List.any_eq_false] at h
  exact eq_false_of_ne_true (h f (List.mem_filterMap.mpr ⟨_, hf, rfl⟩))

/-- A loop in a loop, the outer one left by a `break` and its condition reached by a `continue`. -/
theorem nested_loops_keep_runs :
    let i : Expr := .ofVar "i" .int
    let count (n : Int) : Expr := .ofBinary .lt (.ofUnary .preIncrement i) (.int n)
    let outer : Stmt := .doWhile
      (.block [.doWhile .continueLoop (count 3), .ifElse (count 5) .continueLoop none, .breakOut])
      (count 9)
    let start : Stmt := .decl (.plain "i" .int (some (.int 0)))
    let p : Program := ⟨.vertex, [.function (.entry [start, outer])]⟩
    p.mentions flags = false ∧ ((legalize p).run {}).1.stage = .vertex ∧
      List.Forall₂ (Element.RunsAlike flags .integers) p.elements
        ((legalize p).run {}).1.elements := by
  intro i count outer start p
  -- The names are checked by looking through the program.
  have h : p.mentions flags = false := by decide
  exact ⟨h, legalize_keeps_runs .integers p {} h⟩

end Legalize.DoWhile

end ShaderGen
