import ShaderGen.Proofs.Generation
import ShaderGen.Proofs.Legalize.Negates
import ShaderGen.Proofs.Legalize.TargetSize
import ShaderGen.Proofs.Typing.Headers

/-!
# Flipped programs in the end

A program whose clip position is written to is flipped if its target is. The rules before that do
not hide a write, and the rules after it leave the statements that negate the clip `y` where they
are, directly before those that hand the position over.

A write is found along swizzles, indexing and choices, but not through groups: a program that writes
the position only in that way is not flipped (`grouped_write_is_not_flipped`).

## Main definitions

- `Expr.leadsToPosition`: a write to an expression ends up in the clip position
- `Flipped`: a program negates the clip `y` where it hands the clip position over

## Key results

- `written_position_is_flipped`: what is generated of a program that writes the clip position
-/

namespace ShaderGen

open List (Forall₂)
open Stmt (Mirrors)

/-- Whether a write to an expression ends up in the clip position. Like the check of a program, this
    follows swizzles, indexing and choices; groups are followed if that is asked for. -/
def Expr.leadsToPosition (groups : Bool) : Expr → Bool
  | .builtin _ .position => true
  | .swizzle _ base _ | .index _ base _ => base.leadsToPosition groups
  | .ternary _ _ ifTrue ifFalse => ifTrue.leadsToPosition groups || ifFalse.leadsToPosition groups
  | .group _ inner => groups && inner.leadsToPosition groups
  | _ => false

/-- Whether a node writes something that leads to the clip position. -/
def Expr.writesToPosition (groups : Bool) (e : Expr) : Bool :=
  e.target?.any (leadsToPosition groups)

namespace Legalize.FlipY

open ShaderGen.Expr Outline

/-! ### Writes are found -/

/-- What the rule takes for the position is what leads to it without groups. -/
theorem reachesPosition_eq (e : Expr) : reachesPosition e = e.leadsToPosition false := by
  induction e with
  | swizzle ty base mask ih => exact ih
  | index ty base position ih _ => exact ih
  | ternary ty cond a b _ iha ihb => simp [reachesPosition, leadsToPosition, iha, ihb]
  | builtin ty b => cases b <;> rfl
  | group ty inner _ => rfl
  | _ => rfl

/-- What the rule takes for a write of the position is a write that reaches it without groups. -/
theorem writesPosition_eq (e : Expr) : writesPosition e = e.writesToPosition false := by
  -- A node writes to what its target reaches.
  cases e with
  | unary ty op operand =>
    rw [writesPosition, writesToPosition, target?, reachesPosition_eq]
    cases op.writesOperand <;> rfl
  | binary ty op left right =>
    rw [writesPosition, writesToPosition, target?, reachesPosition_eq]
    cases op.isAssignment <;> rfl
  | _ => rfl

/-- An expression writes the clip position as another one does. -/
structure WritesAlike (e e' : Expr) : Prop where
  reaches : reachesPosition e' = reachesPosition e
  writes : e'.any writesPosition = e.any writesPosition

/-- Writing the position alike is a congruence. -/
theorem isCongruence_writesAlike : IsCongruence WritesAlike where
  trans h h' := ⟨h'.reaches.trans h.reaches, h'.writes.trans h.writes⟩
  congr {e cs} hcs := by
    -- Whether a node reaches the position is told by the child that it reaches it through.
    have hreaches : reachesPosition (e.withChildren cs) = reachesPosition e := by
      cases e with
      | swizzle | group =>
        obtain _ | ⟨hbase, _ | _⟩ := hcs
        simp [withChildren, reachesPosition, hbase.reaches]
      | index =>
        obtain _ | ⟨hbase, _ | ⟨-, _ | _⟩⟩ := hcs
        simp [withChildren, reachesPosition, hbase.reaches]
      | ternary =>
        obtain _ | ⟨-, _ | ⟨ha, _ | ⟨hb, _ | _⟩⟩⟩ := hcs
        simp [withChildren, reachesPosition, ha.reaches, hb.reaches]
      | builtin | literal | var =>
        cases hcs
        rfl
      | unary =>
        obtain _ | ⟨-, _ | _⟩ := hcs
        rfl
      | binary =>
        obtain _ | ⟨-, _ | ⟨-, _ | _⟩⟩ := hcs
        rfl
      | call | construct => rfl
    refine ⟨hreaches, ?_⟩
    -- What a node writes is told by its target.
    have hnode : writesPosition (e.withChildren cs) = writesPosition e := by
      rw [writesPosition_eq, writesPosition_eq, writesToPosition, writesToPosition]
      have htarget := target?_withChildren hcs
      generalize e.target? = target, (e.withChildren cs).target? = target' at htarget
      cases htarget with
      | none => rfl
      | some h => simpa [← reachesPosition_eq] using h.reaches
    -- What the children write is the same by assumption.
    rw [any_eq, any_eq, hnode, children_withChildren hcs.length_eq.symm]
    congr 1
    clear hreaches hnode
    generalize e.children = bs at hcs
    induction hcs with
    | nil => rfl
    | cons h _ ih => rw [List.any_cons, List.any_cons, h.writes, ih]

/-- An expression writes the position like itself. -/
theorem writesAlike_refl (e : Expr) : WritesAlike e e := ⟨rfl, rfl⟩

/-- Raising the precision of a node changes nothing about what it writes. -/
theorem raise_writesAlike (e : Expr) : WritesAlike e (HighPrecision.raiseNode e) := by
  refine ⟨?_, ?_⟩
  · cases e with
    | builtin ty b => cases b <;> rfl
    | _ => rfl
  · rw [HighPrecision.raiseNode, any_eq, any_eq, children_withTy]
    congr 1
    cases e <;> rfl

/-- A size that takes the place of a built-in variable writes as little. -/
theorem substitute_writesAlike (e : Expr) : WritesAlike e (TargetSize.substituteNode e) := by
  cases e with
  | builtin ty b => cases b <;> exact ⟨rfl, rfl⟩
  | _ => exact writesAlike_refl _

/-- Passing on an assignment leaves it in place. -/
theorem forward_writesAlike (e : Expr) : WritesAlike e (FragCoord.forwardNode e) := by
  unfold FragCoord.forwardNode
  split
  · next h =>
    -- Only an assignment of the whole position is passed on, and it stays inside the new one.
    unfold FragCoord.assignsPosition at h
    split at h
    · refine ⟨rfl, ?_⟩
      rw [any_eq _ (Expr.assign _ _)]
      simp [Expr.assign, ofBinary, children, writesPosition, reachesPosition, ofVar, any]
    · cases h
  · exact writesAlike_refl e

/-! ### Rules keep negations -/

variable {k : Exit} {atEnd : Bool} {t : Target} {p : Program}

/-- No rule after the one that flips changes the expression that negates the clip `y`. -/
theorem inert_negation : Inert negation where
  -- One field for each rule that looks at nodes: none has anything to do in a negation.
  negateDerivative := rfl
  resolve _ := rfl
  readCounter := rfl
  collapse := rfl
  unfold := rfl
  expand := rfl
  emulate := rfl
  split := rfl
  guard := rfl
  multiply := rfl
  normalize := rfl

/-- Splitting an assignment to a choice keeps the negations in front of exits. -/
theorem handles_splitStmt : Handles k fun s => [TernaryTarget.splitStmt s] where
  exit {s} h := by
    cases s with
    | returnWith | emitVertex => rfl
    | _ => cases h
  negation := rfl
  other {s} hs inside := by
    -- The assignments that a choice is split into stand in branches, with no exit in them.
    have harms : ∀ op value (target : Expr),
        Negates k false [TernaryTarget.assignArms op value target] := by
      intro op value target
      induction target with
      | ternary ty cond a b _ iha ihb =>
        have hblock : ∀ {s : Stmt}, Negates k false [s] → Negates k false [Stmt.block [s]] :=
          fun h => .singleton rfl (List.forall_mem_singleton.mpr h)
        exact .singleton rfl (List.forall_mem_cons.mpr
          ⟨hblock iha, List.forall_mem_singleton.mpr (hblock ihb)⟩)
      | _ => exact .leaf rfl rfl .nil
    unfold TernaryTarget.splitStmt
    -- Any other statement stays as it is.
    split
    · split
      · exact harms _ _ _
      · exact .singleton hs inside
    · exact .singleton hs inside

/-- Keeping every statement keeps the negations. -/
theorem handles_self : Handles k fun s => [s] where
  exit _ := rfl
  negation := rfl
  other hs inside := .singleton hs inside

/-- Replacing a loop keeps the negations in front of exits. -/
theorem handles_replace (name : String) : Handles k (DoWhile.replace name) where
  exit {s} h := by
    cases s with
    | returnWith | emitVertex => rfl
    | _ => cases h
  negation := rfl
  other {s} hs inside := by
    unfold DoWhile.replace
    split
    · -- The exit check is new; the body of the loop is the old one.
      next body cond =>
      have hbody := (inside _ List.mem_cons_self).toBlock
      have hif : ∀ {cond : Expr} {s : Stmt}, Negates k false [s] →
          Negates k false [Stmt.ifElse cond (.block [s]) none] := fun h =>
        .singleton rfl (List.forall_mem_singleton.mpr
          (.singleton rfl (List.forall_mem_singleton.mpr h)))
      refine .leaf rfl rfl (.singleton rfl (List.forall_mem_singleton.mpr ?_))
      refine .singleton rfl (List.forall_mem_singleton.mpr ?_)
      exact (hif (hif (.leaf rfl rfl .nil))).append (.leaf rfl rfl hbody)
    · exact .singleton hs inside

/-- So does the walk that replaces loops. -/
theorem handles_visit (s : Stmt) : Yields (Handles k) (DoWhile.visit s) := by
  unfold DoWhile.visit
  split
  · exact .after fun name => .pure (handles_replace name)
  · exact .pure handles_self

/-- Adding a constant to an exit check moves no statement. -/
theorem negates_andTrueInExitCheck {s : Stmt} (h : Negates k false [s]) :
    Negates k false [LoopCondition.andTrueInExitCheck s] := by
  unfold LoopCondition.andTrueInExitCheck
  split
  · split
    · -- The check stays where it is; only its condition changes.
      obtain ⟨-, hlist, hrest⟩ := (h.alone.2 _ List.mem_cons_self).inside nofun
      obtain ⟨-, hblock⟩ := (hlist _ List.mem_cons_self).alone
      obtain ⟨-, hinside⟩ := (hblock _ List.mem_cons_self).alone
      refine .singleton rfl (List.forall_mem_singleton.mpr (.other rfl ?_ hrest))
      refine List.forall_mem_singleton.mpr (.singleton rfl (List.forall_mem_singleton.mpr ?_))
      exact .singleton rfl hinside
    · exact h
  · exact h

/-- Adding a constant to the conditions of loops keeps the negations in front of exits. -/
theorem handles_andTrueInLoop : Handles k fun s => [LoopCondition.andTrueInLoop s] where
  exit {s} h := by
    cases s with
    | returnWith | emitVertex => rfl
    | _ => cases h
  negation := rfl
  other {s} hs inside := by
    unfold LoopCondition.andTrueInLoop
    -- A loop that was a `do` has its exit check inside; the other loops have a condition of their
    -- own.
    split
    · exact .singleton rfl (List.forall_mem_singleton.mpr
        (negates_andTrueInExitCheck (inside _ List.mem_cons_self)))
    · exact .singleton rfl inside
    · exact .singleton rfl inside
    · exact .singleton hs inside

/-! ### Functions -/

/-- The stage whose programs hand their clip position over there. -/
def Exit.stage : Exit → Stage
  | .returns => .vertex
  | .emits => .geometry

/-- Functions negate the clip `y` where they hand the clip position over: in a vertex program this
    is asked of the function that it starts at, in a geometry program of all. -/
def NegatedIn : Exit → List Function → Prop
  | .returns, fs => ∃ main, fs.find? Function.isEntry = some main ∧ Negates .returns true main.body
  | .emits, fs => ∀ f ∈ fs, Negates .emits false f.body

/-- A program negates the clip `y` where it hands the clip position over. -/
def Flipped (k : Exit) (p : Program) : Prop := p.stage = k.stage ∧ NegatedIn k p.functions

/-- A function in the place of another one negates where that one did. -/
structure Steady (k : Exit) (f f' : Function) : Prop where
  name : f'.name = f.name
  body : Negates k (k = .returns) f.body → Negates k (k = .returns) f'.body

/-- An element in the place of another one: what is a function stays steady. -/
def SteadyElement (k : Exit) (el el' : Element) : Prop :=
  Option.Rel (Steady k) el.function? el'.function?

section

variable {fs fs' : List Function} {els : List Element}

/-- Functions that are related keep what is negated in them. -/
theorem NegatedIn.steady (h : NegatedIn k fs) (hfs : Forall₂ (Steady k) fs fs') :
    NegatedIn k fs' := by
  cases k with
  | returns =>
    -- The entry function is the first of its name on both sides.
    obtain ⟨main, hmain, hbody⟩ := h
    induction hfs with
    | nil => cases hmain
    | @cons f f' fs fs' hf _ ih =>
      have hentry : f'.isEntry = f.isEntry := congrArg (· == Function.entryName) hf.name
      rw [List.find?_cons] at hmain
      cases hfirst : f.isEntry with
      | true =>
        rw [hfirst] at hmain
        obtain rfl := Option.some.inj hmain
        exact ⟨f', by rw [List.find?_cons, hentry, hfirst], hf.body hbody⟩
      | false =>
        rw [hfirst] at hmain
        obtain ⟨main', hmain', hbody'⟩ := ih hmain
        exact ⟨main', by rw [List.find?_cons, hentry, hfirst, hmain'], hbody'⟩
  | emits =>
    -- Every function is related to one of which the same is known.
    intro f' hf'
    obtain ⟨f, hf, hsteady⟩ := Stmt.exists_of_forall₂ hfs f' hf'
    exact hsteady.body (h f hf)

/-- A program whose elements are related to those of a flipped one is flipped. -/
theorem Flipped.of_elements (hp : Flipped k p) (h : Forall₂ (SteadyElement k) p.elements els) :
    Flipped k { p with elements := els } := by
  -- Only the functions among the elements count.
  have hfunctions : ∀ {before after : List Element}, Forall₂ (SteadyElement k) before after →
      Forall₂ (Steady k) (before.filterMap Element.function?)
        (after.filterMap Element.function?) := by
    intro before after h
    induction h with
    | nil => exact .nil
    | @cons el el' _ _ hel _ ih =>
      unfold SteadyElement at hel
      rw [List.filterMap_cons, List.filterMap_cons]
      generalize el.function? = o, el'.function? = o' at hel
      cases hel with
      | none => exact ih
      | some hf => exact .cons hf ih
  exact ⟨hp.1, hp.2.steady (hfunctions h)⟩

/-! ### Walks -/

/-- Work that leaves the expression that negates alone. -/
theorem keeps_negation {m : Type → Type} [Monad m] [LawfulMonad m] {f : Expr → m Expr}
    (hf : f negation = pure negation) (e : Expr) :
    Yields (fun e' => e = negation → e' = negation) (f e) := by
  by_cases he : e = negation
  · rw [he, hf]
    exact .pure fun _ => rfl
  · exact .of_forall (fun _ h => absurd h he) _

section

variable {m : Type → Type} [Monad m] [LawfulMonad m]

/-- Rewriting expressions of a function keeps its negations, if the negation itself is left
    alone. -/
theorem steady_mapExprsM {f : Expr → m Expr} (hf : f negation = pure negation) (fn : Function) :
    Yields (Steady k fn) (fn.mapExprsM f) := by
  have hbody : Yields (Forall₂ (Mirrors fun e e' => e = negation → e' = negation) fn.body)
      (Stmt.mapExprsListM f fn.body) :=
    Replaces.mirrors_mapExprsListM Judgement.yields.verdict (keeps_negation hf) fn.body
  exact hbody.bind fun body hmirror =>
    .pure ⟨rfl, fun h => h.mirror (fun hsame => hsame rfl) hmirror⟩

/-- The same for a whole program. -/
theorem flipped_mapExprsM {f : Expr → m Expr} (hf : f negation = pure negation)
    (hp : Flipped k p) : Yields (Flipped k) (p.mapExprsM f) := by
  have helement : ∀ el ∈ p.elements, Yields (SteadyElement k el) (el.mapExprsM f) := by
    -- Globals and layouts are no functions, so nothing is asked of them.
    intro el _
    cases el with
    | global d => exact .after fun _ => .pure .none
    | function fn => exact (steady_mapExprsM hf fn).bind fun fn' hfn => .pure (.some hfn)
    | layout l => exact .pure .none
  have helements : Yields (Forall₂ (SteadyElement k) p.elements)
      (p.elements.mapM (Element.mapExprsM f)) := Judgement.yields.mapM helement
  exact helements.bind fun els hels => .pure (hp.of_elements hels)

/-- Changing each function of a program, where each stays related to what it was. -/
theorem flipped_mapFunctionsM {f : Function → m Function} (hf : ∀ fn, Yields (Steady k fn) (f fn))
    (hp : Flipped k p) : Yields (Flipped k) (p.mapFunctionsM f) := by
  -- What is no function has nothing to negate.
  have helement : ∀ el ∈ p.elements, Yields (SteadyElement k el) (el.mapFunctionM f) := by
    intro el _
    cases el with
    | global d => exact .pure .none
    | function fn => exact (hf fn).bind fun fn' hfn => .pure (.some hfn)
    | layout l => exact .pure .none
  have helements : Yields (Forall₂ (SteadyElement k) p.elements)
      (p.elements.mapM (Element.mapFunctionM f)) := Judgement.yields.mapM helement
  exact helements.bind fun els hels => .pure (hp.of_elements hels)

end

/-- Rewriting nodes keeps what is flipped, if the negation is left alone. -/
theorem flipped_mapNodes {f : Expr → Expr} (hf : negation.bottomUp f = negation)
    (hp : Flipped k p) : Flipped k (p.mapNodes f) := by
  have hpure : Expr.bottomUpM (fun e => (pure (f e) : Id Expr)) negation = pure negation := hf
  exact (flipped_mapExprsM hpure hp).of_id

/-- Changing bodies keeps what is flipped, if it keeps the negations of a body. -/
theorem flipped_mapBodies {f : List Stmt → List Stmt}
    (hf : ∀ {body}, Negates k (k = .returns) body → Negates k (k = .returns) (f body))
    (hp : Flipped k p) : Flipped k (p.mapFunctions (Function.mapBody f)) := by
  -- Bodies are replaced one by one, and the other elements stay.
  have hfunctions : Forall₂ (SteadyElement k) p.elements
      (p.elements.map (Element.mapFunction (Function.mapBody f))) := by
    rw [List.forall₂_map_right_iff, List.forall₂_same]
    intro el _
    cases el with
    | function fn => exact .some ⟨rfl, hf⟩
    | _ => exact .none
  exact hp.of_elements hfunctions

/-- Temporaries are declared before anything else. -/
theorem steady_withTemporaries {f : Expr → TempM Expr}
    (hf : negation.bottomUpM f = pure negation) (fn : Function) :
    Yields (Steady k fn) (withTemporaries f fn) := by
  obtain ⟨y, hy⟩ := steady_mapExprsM hf fn
  have hrun : Yields (fun r : Function × List Decl => Steady k fn r.1)
      ((fn.mapExprsM (Expr.bottomUpM f)).run []) := by
    refine ⟨(fun r => ⟨(r.1.1, r.2), r.1.2⟩) <$> y.run [], ?_⟩
    rw [← hy, StateT.run_map, Functor.map_map]
  exact hrun.bind fun r hr =>
    .pure ⟨hr.name, fun h => (hr.body h).declarations _⟩

/-- The functions for initial values do not have the name of the entry function. -/
theorem not_isEntry_nth (n : Nat) :
    (Stem.minAbsInit.nth n == Function.entryName) = false ∧
      (Stem.fractInit.nth n == Function.entryName) = false := by
  -- The names differ in their second letters.
  have hne : ∀ stem : Stem, stem.text.toList[1]? ≠ Function.entryName.toList[1]? →
      1 < stem.text.toList.length → (stem.nth n == Function.entryName) = false := by
    intro stem hletter hlength
    refine beq_eq_false_iff_ne.mpr fun heq => hletter ?_
    rw [← heq, Stem.nth, String.toList_append, List.getElem?_append_left hlength]
  exact ⟨hne _ (by decide) (by decide), hne _ (by decide) (by decide)⟩

/-- Functions that initial values move into hand nothing over. -/
theorem flipped_hoist {stem : Stem} (hstem : ∀ n, (stem.nth n == Function.entryName) = false)
    (needsFunction : Expr → Bool) (hp : Flipped k p) :
    Yields (Flipped k) (HoistInit.hoist stem needsFunction p) := by
  -- In the place of an element there are new functions that only return a value, and then its
  -- function if it is one.
  let Spaced (el : Element) (els : List Element) : Prop := ∃ added : List Function,
    (∀ f ∈ added, f.isEntry = false ∧ ∃ v, f.body = [.returnWith v]) ∧
      els.filterMap Element.function? = added ++ el.function?.toList
  have helement : ∀ el ∈ p.elements,
      Yields (Spaced el) (HoistInit.hoistElement stem needsFunction el) := by
    intro el _
    obtain ⟨heq, -⟩ | ⟨d, value, rfl, -, -, ⟨-, heq⟩ | ⟨-, heq⟩⟩ :=
      HoistInit.hoistElement_cases stem needsFunction el <;> rw [heq]
    · refine .pure ⟨[], nofun, ?_⟩
      cases el <;> rfl
    · -- The initial value moves into a function with a fresh name.
      refine (yields_freshName stem).lift.bind ?_
      rintro _ ⟨n, rfl⟩
      exact .pure ⟨[HoistInit.initializer (stem.nth n) d.ty value],
        List.forall_mem_singleton.mpr ⟨hstem n, _, rfl⟩, rfl⟩
    · exact .fail _
  -- So the first entry function is the same one, and the functions are those before and the ones
  -- added.
  have hspaced : ∀ {els : List Element} {lists : List (List Element)}, Forall₂ Spaced els lists →
      (lists.flatten.filterMap Element.function?).find? Function.isEntry =
          (els.filterMap Element.function?).find? Function.isEntry ∧
        ∀ f ∈ lists.flatten.filterMap Element.function?,
          f ∈ els.filterMap Element.function? ∨ ∃ v, f.body = [.returnWith v] := by
    intro els lists h
    induction h with
    | nil => exact ⟨rfl, nofun⟩
    | @cons el list els _ hfirst _ ih =>
      obtain ⟨added, hadded, hlist⟩ := hfirst
      -- None of the new functions is an entry function.
      have hnone : added.find? Function.isEntry = none :=
        List.find?_eq_none.mpr fun f hf => by simp [(hadded f hf).1]
      have hels : (el :: els).filterMap Element.function? =
          el.function?.toList ++ els.filterMap Element.function? := by
        rw [List.filterMap_cons]
        cases el.function? <;> rfl
      rw [List.flatten_cons, List.filterMap_append, hlist, hels]
      refine ⟨?_, fun f hf => ?_⟩
      · rw [List.find?_append, List.find?_append, List.find?_append, hnone, ih.1]
        rfl
      · rcases List.mem_append.mp hf with hf | hf
        · rcases List.mem_append.mp hf with hf | hf
          · exact .inr (hadded f hf).2
          · exact .inl (List.mem_append_left _ hf)
        · exact (ih.2 f hf).imp_left (List.mem_append_right _)
  have hlists : Yields (Forall₂ Spaced p.elements)
      (p.elements.mapM (HoistInit.hoistElement stem needsFunction)) :=
    Judgement.yields.mapM helement
  -- What is known of the functions before now carries over to those after.
  refine hlists.bind fun lists hlists => .pure ⟨hp.1, ?_⟩
  obtain ⟨hfind, hmem⟩ := hspaced hlists
  have hbefore := hp.2
  cases k with
  | returns =>
    obtain ⟨main, hmain, hbody⟩ := hbefore
    exact ⟨main, hfind.trans hmain, hbody⟩
  | emits =>
    intro f hf
    rcases hmem f hf with hf | ⟨v, hbody⟩
    · exact hbefore f hf
    · rw [hbody]
      exact .leaf rfl rfl .nil

/-- Functions that only return something may come first. -/
theorem NegatedIn.prepend {added : List Function} (h : NegatedIn k fs)
    (hadded : ∀ f ∈ added, f.isEntry = false ∧ ∃ v, f.body = [.returnWith v]) :
    NegatedIn k (added ++ fs) := by
  cases k with
  | returns =>
    obtain ⟨main, hmain, hbody⟩ := h
    -- The search for the entry function goes past the new ones.
    have hnone : added.find? Function.isEntry = none :=
      List.find?_eq_none.mpr fun f hf => by simp [(hadded f hf).1]
    exact ⟨main, by rw [List.find?_append, hnone]; exact hmain, hbody⟩
  | emits =>
    refine List.forall_mem_append.mpr ⟨fun f hf => ?_, h⟩
    -- A function that only returns a value emits nothing.
    obtain ⟨-, v, hbody⟩ := hadded f hf
    rw [hbody]
    exact .leaf rfl rfl .nil

/-- The loop over the invocations emits nothing itself. -/
theorem flipped_invocations (hp : Flipped .emits p) :
    Yields (Flipped .emits) (Invocations.legalize p) := by
  -- A new name does not change the body.
  have hrename : ∀ {els : List Element}, (∀ f, .function f ∈ els → Negates .emits false f.body) →
      ∀ f, .function f ∈ Element.mapFirstEntry
        (fun f => { f with name := Invocations.invokeName }) els → Negates .emits false f.body := by
    intro els hels
    induction els with
    | nil => exact hels
    | cons el els ih =>
      have hrest := ih fun f hf => hels f (List.mem_cons_of_mem _ hf)
      intro f hf
      cases el with
      | function fn =>
        rw [Element.mapFirstEntry] at hf
        split at hf
        · rcases List.mem_cons.mp hf with hf | hf
          · cases hf
            exact hels fn List.mem_cons_self
          · exact hels f (List.mem_cons_of_mem _ hf)
        · rcases List.mem_cons.mp hf with hf | hf
          · cases hf
            exact hels _ List.mem_cons_self
          · exact hrest f hf
      | _ => exact hrest f ((List.mem_cons.mp hf).resolve_left (by rintro ⟨⟩))
  refine Invocations.yields_legalize (P := Flipped .emits) ⟨hp.1, fun f hf => ?_⟩
    (fun q hq => ⟨hq.1, fun f hf => ?_⟩)
    (fun q hq => flipped_mapNodes inert_negation.readCounter hq) fun q hq => ⟨hq.1, fun f hf => ?_⟩
  · -- First the renaming, then the scaled layouts, which hold no function.
    exact hrename (fun f hf => hp.2 f (Element.mem_functions.mpr hf)) f
      (Element.mem_functions.mp hf)
  · obtain ⟨el, hel, hscale⟩ := List.mem_filterMap.mp (Element.mem_functions.mp hf)
    obtain rfl | ⟨l, ⟨⟩⟩ := Invocations.eq_or_layout_of_scaleElement hscale
    exact hq.2 f (Element.mem_functions.mpr hel)
  · -- The only function that is new is the loop.
    rcases List.mem_append.mp (Element.mem_functions.mp hf) with hf | hf
    · exact hq.2 f (Element.mem_functions.mpr hf)
    · cases List.mem_singleton.mp hf
      refine .singleton rfl (List.forall_mem_cons.mpr ⟨.singleton rfl ?_,
        List.forall_mem_singleton.mpr (.leaf rfl rfl .nil)⟩)
      exact List.forall_mem_singleton.mpr (.leaf rfl rfl (.leaf rfl rfl .nil))

/-- The rules after the one that flips keep a program flipped. -/
theorem flipped_rule {r : Rule} (hr : r ∈ rulesAfter "frag_coord") (hp : Flipped k p) :
    Yields (Flipped k) (r.step t p) := by
  have hN := inert_negation
  have hstems := not_isEntry_nth
  simp only [rulesAfter, pipeline, List.dropWhile, Rule.name_always, String.reduceBNe,
    List.tail_cons, List.mem_cons, List.not_mem_nil, or_false] at hr
  -- One case for each rule after the one that flips.
  obtain rfl | rfl | rfl | rfl | rfl | rfl | rfl | rfl | rfl | rfl | rfl | rfl := hr
  · exact yields_step hp (flipped_mapExprsM (hN.resolve t.profile) hp).liftMalformed
  · -- The rule for invocations only runs for geometry programs, where emissions count.
    refine yields_step_cases (fun henabled => ?_) fun _ => hp
    have hgeometry : p.stage = .geometry := by
      have h : Invocations.enabled t p = true := henabled
      simp only [Invocations.enabled, Bool.and_eq_true, beq_iff_eq] at h
      exact h.1.1
    obtain rfl : k = .emits := by
      cases k with
      | returns => cases show Stage.vertex = .geometry from hp.1.symm.trans hgeometry
      | emits => rfl
    exact flipped_invocations hp
  · -- Choices on targets: first those in values, then the assignments.
    refine yields_step hp (Yields.liftUnsupported ?_)
    have hcollapsed := flipped_mapNodes hN.collapse hp
    exact TernaryTarget.yields_legalize (fun _ => hcollapsed) fun _ =>
      flipped_mapBodies (fun h => h.expandList handles_splitStmt) hcollapsed
  · -- Loops: a body in which nothing is negated asks for nothing.
    refine yields_step hp (Yields.lift (flipped_mapFunctionsM (fun fn => ?_) hp))
    by_cases hbody : Negates k (k = .returns) fn.body
    · exact (hbody.expandListM .yields handles_visit).bind fun body hbody' =>
        .pure ⟨rfl, fun _ => hbody'⟩
    · exact .after fun body => .pure ⟨rfl, fun h => absurd h hbody⟩
  · exact yields_step hp (.pure (flipped_mapNodes hN.unfold hp))
  · exact yields_step hp (.pure (flipped_mapBodies
      (fun h => h.bottomUpList handles_andTrueInLoop) hp))
  · exact yields_step hp (flipped_mapExprsM hN.expand hp).liftMalformed
  · exact yields_step hp (flipped_mapExprsM hN.emulate hp).lift
  · -- Minima: initial values move first, then functions get their temporaries.
    refine yields_step hp ((flipped_hoist (fun n => (hstems n).1) _ hp).bind fun p hp => ?_)
    exact flipped_mapFunctionsM (fun fn => (steady_withTemporaries hN.split fn).lift) hp
  · -- Fractions: the same, but globals that stay are rewritten as well.
    refine yields_step hp ((flipped_hoist (fun n => (hstems n).2) _ hp).bind fun p hp => ?_)
    have helement : ∀ el ∈ p.elements, Yields (SteadyElement k el) (Fract.guardElement el) := by
      intro el _
      cases el with
      | global d => exact .pure .none
      | function fn =>
        exact (steady_withTemporaries hN.guard fn).bind fun fn' hfn => .pure (.some hfn)
      | layout l => exact .pure .none
    have helements : Yields (Forall₂ (SteadyElement k) p.elements)
        (p.elements.mapM Fract.guardElement) := Judgement.yields.mapM helement
    exact helements.lift.bind fun els hels => .pure (hp.of_elements hels)
  · exact yields_step hp (.pure (flipped_mapNodes hN.multiply hp))
  · exact yields_step hp (flipped_mapExprsM hN.normalize hp).liftMalformed

end

/-! ### Programs that write the clip position -/

/-- A program that writes the clip position and is not flipped yet. -/
structure Writes (k : Exit) (p : Program) : Prop where
  stage : p.stage = k.stage
  writes : p.anyNode writesPosition = true
  plain : p.Plain
  entry : k = .returns → ∃ main, .function main ∈ p.elements ∧ main.isEntry = true

namespace Writes

/-- Rewriting nodes that write alike keeps what a program writes. -/
theorem mapNodes {f : Expr → Expr} (hf : ∀ e, WritesAlike e (f e)) (hp : Writes k p) :
    Writes k (p.mapNodes f) where
  stage := hp.stage
  writes := by
    rw [Program.anyNode_mapNodes_of fun e => (isCongruence_writesAlike.bottomUp hf e).writes]
    exact hp.writes
  -- That loops start plainly is kept by any rewriting of expressions.
  plain := shows_iff_plain.mp (Replaces.shows_mapNodes (R := fun _ _ => True)
    turns_startsPlainly (fun _ => trivial) (shows_iff_plain.mpr hp.plain))
  entry hk := by
    obtain ⟨main, hmain, hentry⟩ := hp.entry hk
    rw [Program.elements_mapNodes]
    exact ⟨_, List.mem_map_of_mem hmain, hentry⟩

/-- Raising precisions keeps what a program writes. -/
theorem raise (hp : Writes k p) : Writes k (HighPrecision.legalize p) where
  stage := hp.stage
  writes := by
    rw [anyNode_highPrecision_of fun e =>
      (isCongruence_writesAlike.bottomUp raise_writesAlike e).writes]
    exact hp.writes
  plain := shows_iff_plain.mp (shows_highPrecision rewrites_anything turns_startsPlainly
    (shows_iff_plain.mpr hp.plain))
  -- The entry point is rewritten in place and keeps its name.
  entry hk := by
    obtain ⟨main, hmain, hentry⟩ := hp.entry hk
    unfold HighPrecision.legalize
    rw [Program.elements_mapNodes]
    exact ⟨_, List.mem_map_of_mem (List.mem_map_of_mem hmain), hentry⟩

/-- Flipping finds the write. -/
theorem flipped (hp : Writes k p) : Flipped k (legalize p) := by
  have hplain : ∀ f, .function f ∈ p.elements → f.Plain := fun f hf => hp.plain _ hf
  unfold legalize
  rw [hp.stage, hp.writes]
  cases k with
  | returns =>
    refine ⟨hp.stage, ?_⟩
    obtain ⟨main, hmain, hentry⟩ := hp.entry rfl
    -- The rule works on the first entry function, which is there by assumption.
    have hfirst : ∀ {els : List Element}, .function main ∈ els →
        (∀ f, .function f ∈ els → f.Plain) → NegatedIn .returns
          ((Element.mapFirstEntry (Function.mapBody flipEntryBody) els).filterMap
            Element.function?) := by
      intro els hmem hels
      induction els with
      | nil => exact absurd hmem List.not_mem_nil
      | cons el els ih =>
        have hrest := fun hmem => ih hmem fun f hf => hels f (List.mem_cons_of_mem _ hf)
        cases el with
        -- Either this is the entry function, or the search goes on.
        | function f =>
          rw [Element.mapFirstEntry]
          split
          · next hf => exact ⟨f.mapBody flipEntryBody, List.find?_cons_of_pos hf,
              negates_flipEntryBody (hels f List.mem_cons_self)⟩
          · next hf =>
            have hother : main ≠ f := fun h => hf (h ▸ hentry)
            obtain ⟨main', hmain', hbody⟩ := hrest
              ((List.mem_cons.mp hmem).resolve_left fun h => hother (Element.function.inj h))
            exact ⟨main', (List.find?_cons_of_neg hf).trans hmain', hbody⟩
        | _ => exact hrest ((List.mem_cons.mp hmem).resolve_left (by rintro ⟨⟩))
    exact hfirst hmain hplain
  | emits =>
    -- In a geometry program every function is changed.
    refine ⟨hp.stage, fun f hf => ?_⟩
    have hf' : f ∈ (p.mapFunctions (Function.mapBody (Stmt.expandList beforeEmit))).functions := hf
    rw [Program.functions_mapFunctions] at hf'
    obtain ⟨g, hg, rfl⟩ := List.mem_map.mp hf'
    exact negates_beforeEmit (hplain g (Element.mem_functions.mp hg))

/-- The rule for fragment coordinates flips what a program writes. -/
theorem fragCoord (hflips : t.flipsY = true) (hp : Writes k p) :
    Yields (Flipped k) (FragCoord.legalize t p) := by
  refine FragCoord.yields_legalize (P := Writes k) (Q := Writes k)
    (hp.mapNodes substitute_writesAlike) (fun q hq hcoord => ?_) fun q hq => ?_
  · -- Only fragment programs read the fragment coordinate, so none is computed.
    have hunused : q.anyNode FragCoord.isFragCoord = false := by
      rw [Bool.eq_false_iff]
      intro huses
      have hfragment := hcoord huses
      rw [hq.stage] at hfragment
      cases k <;> cases hfragment
    rw [hunused]
    unfold FragCoord.applyPolicy
    cases t.coordPolicy with
    | fromVarying =>
      dsimp only
      split
      · exact .after fun _ => .pure (hq.mapNodes forward_writesAlike)
      · exact .after fun _ => .pure hq
      · exact .pure hq
    | _ => exact .pure hq
  · rw [if_pos hflips]
    exact hq.flipped

end Writes

/-- In the end, a program that writes its clip position negates the clip `y` on a flipped target. -/
theorem legalize_flips (hflips : t.flipsY = true) (hp : Writes k p) :
    Yields (Flipped k) (Legalize.legalize t p) :=
  foldlM_yields_at (P := Writes k) (pipeline_eq "frag_coord" rfl)
    (yields_beforeCoords (fun _ => Writes.raise) hp)
    (fun _ hp => .after fun _ => hp.fragCoord hflips) fun _ hr _ => flipped_rule hr

/-- Helpers come before the other functions and only return something. -/
theorem functions_withHelpers {p' : Program} {s : Scratch}
    (hrun : (Legalize.legalize t p).run.run {} = (.ok p', s)) :
    ∃ added : List Function, (∀ f ∈ added, f.isEntry = false ∧ ∃ v, f.body = [.returnWith v]) ∧
      (s.withHelpers p').functions = added ++ p'.functions := by
  -- The helpers come first, and each of them only returns a value.
  refine ⟨s.helpers.map Prod.snd, fun f hf => ?_, ?_⟩
  · obtain ⟨h, hh, rfl⟩ := List.mem_map.mp hf
    obtain ⟨ty, hty⟩ := (legalize_adds_helpers hrun h hh).resolve_left List.not_mem_nil
    rw [hty]
    exact ⟨rfl, _, rfl⟩
  · show List.filterMap _ (_ ++ _) = _
    rw [List.filterMap_append, List.filterMap_map]
    congr 1
    exact List.filterMap_eq_map ▸ rfl

/-- If a vertex or geometry program writes its clip position along a path without groups, then the
    program whose text is generated for a flipped target negates the clip `y`: a vertex program
    before each return of the function that it starts at and at the end of it, a geometry program
    before each vertex that any function emits. -/
theorem written_position_is_flipped {out : Output} (k : Exit) (hstage : p.stage = k.stage)
    (hmain : p.stage = .vertex → p.functions.any Function.isEntry = true)
    (hwrites : p.anyNode (writesToPosition false) = true) (hflips : t.flipsY = true)
    (h : generate t p = .ok out) :
    ∃ p' s, (Legalize.legalize t p).run.run {} = (.ok p', s) ∧
      out.text = Glsl.Piece.render (Glsl.programPieces t.profile s p') ∧
      Flipped k (s.withHelpers p') := by
  obtain ⟨hdefect, p', s, hrun, -, rfl⟩ := run_of_generate h
  -- The program as given writes the position, which is all that the rules before the flip need.
  have hp : Writes k p := by
    refine ⟨hstage, ?_, plain_of_defect? hdefect, fun hk => ?_⟩
    · rw [funext writesPosition_eq]
      exact hwrites
    · obtain ⟨main, hmem, hentry⟩ := List.any_eq_true.mp (hmain (hstage.trans (hk ▸ rfl)))
      exact ⟨main, Element.mem_functions.mp hmem, hentry⟩
  -- What is negated then stands in the text, behind the helper functions.
  obtain ⟨hstage', hnegated⟩ := (legalize_flips hflips hp).of_run hrun
  obtain ⟨added, hadded, hfunctions⟩ := functions_withHelpers hrun
  exact ⟨p', s, hrun, rfl, hstage', hfunctions ▸ hnegated.prepend hadded⟩

/-- A vertex program that scales a component of the position in a loop and returns from it, and a
    geometry program that moves the position in the function that emits a vertex. -/
theorem written_components_are_flipped :
    let t : Target :=
      { profile := { hasGeometryShaders := true, workarounds :=
          Workarounds.unions [.single .replaceDoWhile, .single .loopConditionAndTrue] }
        flipsY := true }
    let far : Expr := .ofVar "far" .bool
    let position : Expr := .ofBuiltin .position
    let scale : Stmt :=
      .expr (.ofBinary .mulAssign (.index .float position (.int 1)) (.float .half))
    let corner : Stmt := .assign
      (.ofSwizzle (.ofTernary far position (.ofVar "other" (.vec 4))) [.x]) (.float .half)
    let p : Program := ⟨.vertex, [.function (.entry
      [.doWhile (.block [scale, .ifElse far (.returnWith none) none]) far])]⟩
    let q : Program := ⟨.geometry, [.function ⟨"place", .void, [], [corner, .emitVertex]⟩,
      .function (.entry [.expr (.ofUserCall "place" [] .void), .endPrimitive])]⟩
    (p.stage = Exit.returns.stage ∧ (p.stage = .vertex → p.functions.any Function.isEntry = true) ∧
      p.anyNode (writesToPosition false) = true ∧ t.flipsY = true ∧
      ∃ out, generate t p = .ok out ∧ ∃ p' s, (Legalize.legalize t p).run.run {} = (.ok p', s) ∧
        out.text = Glsl.Piece.render (Glsl.programPieces t.profile s p') ∧
        Flipped .returns (s.withHelpers p')) ∧
    (q.stage = Exit.emits.stage ∧ (q.stage = .vertex → q.functions.any Function.isEntry = true) ∧
      q.anyNode (writesToPosition false) = true ∧
      ∃ out, generate t q = .ok out ∧ ∃ q' s, (Legalize.legalize t q).run.run {} = (.ok q', s) ∧
        out.text = Glsl.Piece.render (Glsl.programPieces t.profile s q') ∧
        Flipped .emits (s.withHelpers q')) := by
  -- Both programs are generated; the theorem tells the rest.
  intro t far position scale corner p q
  have hp : p.anyNode (writesToPosition false) = true := by decide
  have hq : q.anyNode (writesToPosition false) = true := by decide
  obtain ⟨ps, s, hrun, -⟩ := exists_ok_of_any (r := (piecesM t p).run.run {}) (q := fun _ => true)
    (by decide +kernel)
  obtain ⟨qs, s', hrun', -⟩ := exists_ok_of_any (r := (piecesM t q).run.run {}) (q := fun _ => true)
    (by decide +kernel)
  have hout := generate_of_run hrun
  have hout' := generate_of_run hrun'
  exact ⟨⟨rfl, fun _ => by decide, hp, rfl, _, hout,
      written_position_is_flipped .returns rfl (fun _ => by decide) hp rfl hout⟩,
    rfl, nofun, hq, _, hout', written_position_is_flipped .emits rfl nofun hq rfl hout'⟩

/-- Whether a body may end in a statement: it assigns to a part of a built-in, as the one that
    negates does, or it is an exit. -/
def Exit.mayEnd (k : Exit) (s : Stmt) : Bool :=
  k.isAt s || s matches .expr (.binary _ .assign (.swizzle _ (.builtin _ _) _) _)

/-- A body in which every exit is negated ends with an exit or a negation. -/
theorem Negates.mayEnd {body : List Stmt} (h : Negates k atEnd body) (hend : atEnd = true) :
    body.getLast?.any k.mayEnd = true := by
  -- By induction on how the negations are found; only the last statement counts.
  induction h with
  | nil => cases hend
  | final => cases k <;> rfl
  | last hs => simp [Exit.mayEnd, hs]
  | @marked _ s ss hs rest ih =>
    cases ss with
    | nil => simp [Exit.mayEnd, hs]
    | cons => simpa using ih hend
  | @other _ s ss hs inside rest _ ih =>
    cases ss with
    | nil =>
      subst hend
      cases rest
    | cons => simpa using ih hend

/-- A write whose path to the clip position takes a group is not found, so the program is not
    flipped. -/
theorem grouped_write_is_not_flipped :
    let write : Stmt := .assign (.ofSwizzle (.ofGroup (.ofBuiltin .position)) [.x]) (.float .one)
    let p : Program := ⟨.vertex, [.function (.entry [write])]⟩
    let t : Target := { profile := {}, flipsY := true }
    p.anyNode (writesToPosition true) = true ∧ p.functions.any Function.isEntry = true ∧
      (∃ out, generate t p = .ok out) ∧
      ∃ p' s, (Legalize.legalize t p).run.run {} = (.ok p', s) ∧
        ¬ Flipped .returns (s.withHelpers p') := by
  -- The text is generated, and its entry function does not end with a negation.
  intro write p t
  obtain ⟨ps, s, hrun, -⟩ := exists_ok_of_any (r := (piecesM t p).run.run {}) (q := fun _ => true)
    (by decide +kernel)
  obtain ⟨p', s', hrun', hlast⟩ := exists_ok_of_any (r := (Legalize.legalize t p).run.run {})
    (q := fun p' => (p'.functions.find? Function.isEntry).all fun main =>
      !main.body.getLast?.any Exit.returns.mayEnd) (by decide +kernel)
  refine ⟨by decide, by decide, ⟨_, generate_of_run hrun⟩, p', s', hrun', ?_⟩
  rintro ⟨-, main, hmain, hbody⟩
  -- The entry function in the text is the one that the rules leave.
  obtain ⟨added, hadded, hfunctions⟩ := functions_withHelpers hrun'
  have hnone : added.find? Function.isEntry = none :=
    List.find?_eq_none.mpr fun f hf => by simp [(hadded f hf).1]
  rw [hfunctions, List.find?_append, hnone, Option.none_or] at hmain
  rw [hmain] at hlast
  exact absurd (hbody.mayEnd rfl) (by simpa using hlast)

end Legalize.FlipY

end ShaderGen
