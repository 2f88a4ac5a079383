import Mathlib.Tactic.Tauto
import ShaderGen.Program.Traverse
import ShaderGen.Proofs.Children
import ShaderGen.Proofs.Yields

/-!
# What rewriting keeps

`Stmt.All Q`, and the same for the larger parts of a program, says that all expressions of a
statement satisfy `Q`. For each walk there is one lemma that says when the result of the walk
satisfies a predicate throughout; what a rule does is then a matter of what it does to one node or
to one statement.

## Key results

- `Expr.bottomUpM_holds`: what holds of rebuilding a node over rebuilt children holds of
  rebuilding an expression
- `Expr.IsCongruence.bottomUpM_holds`: it is enough that each node is replaced by one that is
  related to it, if the relation can be put together from those of the children
- `Stmt.mapExprsM_fits`, `Program.mapExprsM_yields`, `Stmt.expandM_everywhere`,
  `Stmt.bottomUp_fits`: the same for the expressions of a program and for statements
-/

namespace ShaderGen

/-! ### Expressions -/

namespace Expr

/-- Every node of an expression satisfies a predicate. -/
def Every (P : Expr → Bool) (e : Expr) : Prop := e.any (fun n => !P n) = false

section

variable {P P' : Expr → Bool} {e : Expr}

/-- A test holds everywhere in an expression if it holds at the node and everywhere in its
    children. -/
theorem every_iff : e.Every P ↔ P e = true ∧ ∀ c ∈ e.children, c.Every P := by
  rw [Every, any_eq_false_iff, Bool.not_eq_false']
  rfl

/-- In particular it holds at the node. -/
theorem Every.node (h : e.Every P) : P e = true := (every_iff.mp h).1

/-- It holds everywhere in each child as well. -/
theorem Every.child (h : e.Every P) {c : Expr} (hc : c ∈ e.children) : c.Every P :=
  (every_iff.mp h).2 c hc

/-- A weaker test holds wherever a stronger one does. -/
theorem Every.imp (h : e.Every P) (hP : ∀ n, P n = true → P' n = true) : e.Every P' := by
  refine any_mono (fun n hn => ?_) h
  rw [Bool.not_eq_true'] at hn ⊢
  exact Bool.eq_false_iff.mpr fun hP' => absurd (hP n hP') (by simp [hn])

/-- A test that no node fails holds everywhere. -/
theorem every_of_forall (h : ∀ n, P n = true) : e.Every P := by
  induction e using induction_children with
  | h e ih => exact every_iff.mpr ⟨h e, ih⟩

/-- Two tests hold everywhere together if each of them does. -/
theorem every_and : (e.Every fun n => P n && P' n) ↔ e.Every P ∧ e.Every P' := by
  constructor
  · exact fun h => ⟨h.imp fun n hn => (Bool.and_eq_true_iff.mp hn).1,
      h.imp fun n hn => (Bool.and_eq_true_iff.mp hn).2⟩
  · -- The other direction goes node by node.
    induction e using induction_children with
    | h e ih =>
      rintro ⟨h, h'⟩
      refine every_iff.mpr ⟨by rw [h.node, h'.node]; rfl, fun c hc => ?_⟩
      exact ih c hc ⟨h.child hc, h'.child hc⟩

end

/-- Each child of a node over related children is related to one of the old children. -/
theorem exists_related_child {R : Expr → Expr → Prop} {e : Expr} {cs : List Expr}
    (hcs : List.Forall₂ R e.children cs) :
    ∀ c' ∈ (e.withChildren cs).children, ∃ c ∈ e.children, R c c' := by
  -- The children of the new node are those that were put in.
  rw [children_withChildren hcs.length_eq.symm]
  generalize e.children = bs at hcs
  induction hcs with
  | nil => simp
  | cons hR _ ih =>
    refine List.forall_mem_cons.mpr ⟨⟨_, List.mem_cons_self, hR⟩, fun c' hc' => ?_⟩
    obtain ⟨c, hc, hrelated⟩ := ih c' hc'
    exact ⟨c, List.mem_cons_of_mem _ hc, hrelated⟩

section

variable {m : Type → Type} [Monad m] [LawfulMonad m] {f : Expr → m Expr} {R : Expr → Expr → Prop}

/-- What is related to a node whose children were replaced by related ones is related to the
    node; so the rebuilt expression is related to the expression. -/
theorem bottomUpM_holds (J : Judgement m)
    (h : ∀ e cs, List.Forall₂ R e.children cs → J.Holds (R e) (f (e.withChildren cs)))
    (e : Expr) : J.Holds (R e) (e.bottomUpM f) := by
  induction e using induction_children with
  | h e ih =>
    rw [bottomUpM_eq]
    exact J.bind (J.mapM ih) (h e)

/-- A walk from the leaves up relates every node to what it returns, if the work at a node does so
    over related children. -/
theorem bottomUpM_yields
    (h : ∀ e cs, List.Forall₂ R e.children cs → Yields (R e) (f (e.withChildren cs))) (e : Expr) :
    Yields (R e) (e.bottomUpM f) :=
  bottomUpM_holds .yields h e

/-- A preorder on expressions that can be put together from how the children are related. -/
structure IsCongruence (R : Expr → Expr → Prop) : Prop where
  trans : ∀ {a b c}, R a b → R b c → R a c
  congr : ∀ {e cs}, List.Forall₂ R e.children cs → R e (e.withChildren cs)

/-- If each node is replaced by one that is related to it in the end, so is each expression. -/
theorem IsCongruence.bottomUpM_verdict (hR : IsCongruence R) (V : Verdict m)
    (h : ∀ e, V.Holds (R e) (f e)) (e : Expr) : V.Holds (R e) (e.bottomUpM f) := by
  induction e using induction_children with
  | h e ih =>
    rw [bottomUpM_eq]
    exact V.bind (V.mapM ih) fun cs =>
      V.mono (h _) fun _ he hcs => hR.trans (hR.congr hcs) he

/-- A walk from the leaves up keeps a congruence, if the work at each single node does. -/
theorem IsCongruence.bottomUpM_holds (hR : IsCongruence R) (J : Judgement m)
    (h : ∀ e, J.Holds (R e) (f e)) (e : Expr) : J.Holds (R e) (e.bottomUpM f) :=
  hR.bottomUpM_verdict J.verdict h e

end

/-! The same for a function that has no effects. -/

section

variable {f : Expr → Expr} {R : Expr → Expr → Prop}

/-- The same for a walk that has no effects. -/
theorem bottomUp_related
    (h : ∀ e cs, List.Forall₂ R e.children cs → R e (f (e.withChildren cs))) (e : Expr) :
    R e (e.bottomUp f) := by
  have hpure : ∀ e cs, List.Forall₂ R e.children cs →
      Yields (R e) (pure (f (e.withChildren cs)) : Id Expr) := fun e cs hcs => .pure (h e cs hcs)
  exact Yields.of_id (bottomUpM_yields (f := fun e => (pure (f e) : Id Expr)) hpure e)

/-- A walk without effects keeps a congruence that each single node keeps. -/
theorem IsCongruence.bottomUp (hR : IsCongruence R) (h : ∀ e, R e (f e)) (e : Expr) :
    R e (e.bottomUp f) :=
  bottomUp_related (fun _ _ hcs => hR.trans (hR.congr hcs) (h _)) e

end

end Expr

/-! ### Statements -/

/-- Statements of a case of a `switch`. -/
def Case.body : Case → List Stmt
  | .mk _ body => body

namespace Stmt

/-- Expressions that a statement holds itself. -/
def own : Stmt → List Expr
  | .decl d => d.init.toList
  | .ifElse cond _ _ | .whileLoop cond _ | .doWhile _ cond => [cond]
  | .forLoop _ cond step _ => cond.toList ++ step.toList
  | .switchOn value _ => [value]
  | .expr e => [e]
  | .returnWith value => value.toList
  | .block _ | .breakOut | .continueLoop | .discard | .emitVertex | .endPrimitive => []

/-- Statements directly inside a statement. -/
def nested : Stmt → List Stmt
  | .block body => body
  | .ifElse _ thenBranch elseBranch => thenBranch :: elseBranch.toList
  | .forLoop init _ _ body => init.toList ++ [body]
  | .whileLoop _ body | .doWhile body _ => [body]
  | .switchOn _ cases => cases.flatMap Case.body
  | _ => []

/-- A predicate holds of a statement and of every statement inside it. -/
inductive Everywhere (P : Stmt → Prop) : Stmt → Prop where
  | intro {s} (here : P s) (nested : ∀ t ∈ s.nested, Everywhere P t) : Everywhere P s

/-- All expressions of a statement satisfy a predicate. -/
inductive All (Q : Expr → Prop) : Stmt → Prop where
  | intro {s} (own : ∀ e ∈ s.own, Q e) (nested : ∀ t ∈ s.nested, All Q t) : All Q s

/-- All names that a statement declares satisfy one predicate, and all its expressions another. -/
inductive Fits (N : String → Prop) (Q : Expr → Prop) : Stmt → Prop where
  | intro {s} (own : ∀ e ∈ s.own, Q e) (names : ∀ d, s = .decl d → N d.name)
      (nested : ∀ t ∈ s.nested, Fits N Q t) : Fits N Q s

/-- A predicate on statements looks at none of the statements inside, save at the initializer of a
    `for`, and asks nothing of a block. -/
structure Shallow (P : Stmt → Prop) : Prop where
  block : ∀ body, P (.block body)
  ifElse : ∀ {cond s s' o o'}, P (.ifElse cond s o) → P (.ifElse cond s' o')
  forLoop : ∀ {init cond step s s'}, P (.forLoop init cond step s) → P (.forLoop init cond step s')
  whileLoop : ∀ {cond s s'}, P (.whileLoop cond s) → P (.whileLoop cond s')
  doWhile : ∀ {cond s s'}, P (.doWhile s cond) → P (.doWhile s' cond)
  switchOn : ∀ {value cases cases'}, P (.switchOn value cases) → P (.switchOn value cases')

section

variable {P : Stmt → Prop}

/-- What holds everywhere in a statement holds of the statement itself. -/
theorem Everywhere.here {s : Stmt} (h : s.Everywhere P) : P s := by
  cases h
  assumption

/-- It holds everywhere in the statements that stand in it. -/
theorem Everywhere.nested {s : Stmt} (h : s.Everywhere P) : ∀ t ∈ s.nested, t.Everywhere P := by
  cases h
  assumption

/-- A weaker property holds everywhere if a stronger one does. -/
theorem Everywhere.mono {P' : Stmt → Prop} {s : Stmt} (h : s.Everywhere P)
    (hP : ∀ s, P s → P' s) : s.Everywhere P' := by
  induction h with
  | intro here _ ih => exact .intro (hP _ here) ih

/-- What holds of the expressions of each statement inside. -/
theorem Everywhere.all {Q : Expr → Prop} {s : Stmt} (h : s.Everywhere P)
    (hP : ∀ s, P s → ∀ e ∈ s.own, Q e) : s.All Q := by
  induction h with
  | intro here _ ih => exact .intro (hP _ here) ih

end

section

variable {N : String → Prop} {Q : Expr → Prop}

/-- Fitting is a matter of the expressions that a statement has itself, of the name that it
    declares, and of the statements in it. -/
theorem fits_iff {s : Stmt} : s.Fits N Q ↔
    (∀ e ∈ s.own, Q e) ∧ (∀ d, s = .decl d → N d.name) ∧ ∀ t ∈ s.nested, t.Fits N Q := by
  constructor
  · rintro ⟨hown, hnames, hnested⟩
    exact ⟨hown, hnames, hnested⟩
  · rintro ⟨hown, hnames, hnested⟩
    exact .intro hown hnames hnested

/-- Another property of all expressions may be asked as well. -/
theorem Fits.and {Q' : Expr → Prop} {s : Stmt} (h : s.Fits N Q) (h' : s.All Q') :
    s.Fits N fun e => Q e ∧ Q' e := by
  induction h with
  | intro own names nested ih =>
    obtain ⟨hown, hnested⟩ := h'
    exact .intro (fun e he => ⟨own e he, hown e he⟩) names fun t ht => ih t ht (hnested t ht)

/-- What a statement holds itself: its own expressions, and the name that it declares. -/
def OwnFits (N : String → Prop) (Q : Expr → Prop) (s : Stmt) : Prop :=
  (∀ e ∈ s.own, Q e) ∧ ∀ d, s = .decl d → N d.name

/-- Said of single statements, fitting is a property that holds everywhere. -/
theorem fits_iff_everywhere {s : Stmt} : s.Fits N Q ↔ s.Everywhere (OwnFits N Q) := by
  constructor
  · intro h
    induction h with
    | intro own names nested ih => exact .intro ⟨own, names⟩ ih
  · intro h
    induction h with
    | intro here nested ih => exact .intro here.1 here.2 ih

/-- That property looks at no statement inside another one. -/
theorem shallow_ownFits : Shallow (OwnFits N Q) where
  block _ := ⟨fun _ he => absurd he List.not_mem_nil, nofun⟩
  ifElse h := ⟨h.1, nofun⟩
  forLoop h := ⟨h.1, nofun⟩
  whileLoop h := ⟨h.1, nofun⟩
  doWhile h := ⟨h.1, nofun⟩
  switchOn h := ⟨h.1, nofun⟩

/-- Fitting weaker demands follows from fitting stronger ones. -/
theorem Fits.mono {N' : String → Prop} {Q' : Expr → Prop} {s : Stmt} (h : s.Fits N Q)
    (hN : ∀ x, N x → N' x) (hQ : ∀ e, Q e → Q' e) : s.Fits N' Q' := by
  induction h with
  | intro own names nested ih =>
    exact .intro (fun e he => hQ e (own e he)) (fun d hd => hN d.name (names d hd)) ih

section

attribute [local simp] own nested

/-- A block fits if the statements in it do. -/
theorem fits_block {body : List Stmt} : (block body).Fits N Q ↔ ∀ s ∈ body, s.Fits N Q := by
  rw [fits_iff]
  simp

/-- A declaration fits if its name and its initial value do. -/
theorem fits_decl {d : Decl} : (decl d).Fits N Q ↔ N d.name ∧ ∀ e ∈ d.init, Q e := by
  rw [fits_iff]
  simp [and_comm]

/-- An `if` fits if its condition and its branches do. -/
theorem fits_ifElse {cond : Expr} {thenBranch : Stmt} {elseBranch : Option Stmt} :
    (ifElse cond thenBranch elseBranch).Fits N Q ↔
      Q cond ∧ thenBranch.Fits N Q ∧ ∀ s ∈ elseBranch, s.Fits N Q := by
  rw [fits_iff]
  simp

/-- A `for` fits if its header and its body do. -/
theorem fits_forLoop {init : Option Stmt} {cond step : Option Expr} {body : Stmt} :
    (forLoop init cond step body).Fits N Q ↔
      (∀ s ∈ init, s.Fits N Q) ∧ (∀ e ∈ cond, Q e) ∧ (∀ e ∈ step, Q e) ∧ body.Fits N Q := by
  rw [fits_iff]
  simp only [Stmt.own, Stmt.nested, List.forall_mem_append, Option.mem_toList,
    List.forall_mem_singleton, reduceCtorEq, false_implies, implies_true, true_and]
  tauto

/-- A `while` fits if its condition and its body do. -/
theorem fits_whileLoop {cond : Expr} {body : Stmt} :
    (whileLoop cond body).Fits N Q ↔ Q cond ∧ body.Fits N Q := by
  rw [fits_iff]
  simp

/-- A `do` fits if its body and its condition do. -/
theorem fits_doWhile {cond : Expr} {body : Stmt} :
    (doWhile body cond).Fits N Q ↔ Q cond ∧ body.Fits N Q := by
  rw [fits_iff]
  simp

/-- A `switch` fits if its value and the bodies of its cases do. -/
theorem fits_switchOn {value : Expr} {cases : List Case} :
    (switchOn value cases).Fits N Q ↔ Q value ∧ ∀ c ∈ cases, ∀ s ∈ c.body, s.Fits N Q := by
  rw [fits_iff]
  simp only [Stmt.own, Stmt.nested, List.forall_mem_singleton, reduceCtorEq, false_implies,
    implies_true, true_and, List.forall_mem_flatMap]

/-- A statement of one expression fits if the expression does. -/
theorem fits_expr {e : Expr} : (expr e).Fits N Q ↔ Q e := by
  rw [fits_iff]
  simp

/-- A `return` fits if its value does, should it have one. -/
theorem fits_returnWith {value : Option Expr} :
    (returnWith value).Fits N Q ↔ ∀ e ∈ value, Q e := by
  rw [fits_iff]
  simp

end

/-- Putting braces around a statement changes nothing about what fits. -/
theorem fits_toBlock {s : Stmt} (h : s.Fits N Q) : s.toBlock.Fits N Q := by
  unfold toBlock
  split
  · exact h
  · exact fits_block.mpr (by simpa using h)

/-- What any names and expressions satisfy. -/
theorem fits_of_forall (hN : ∀ x, N x) (hQ : ∀ e, Q e) (s : Stmt) : s.Fits N Q := by
  induction s with
  | block body ih => exact fits_block.mpr ih
  | decl d => exact fits_decl.mpr ⟨hN _, fun _ _ => hQ _⟩
  | ifElse cond thenBranch elseBranch iht ihe => exact fits_ifElse.mpr ⟨hQ _, iht, ihe⟩
  | forLoop init cond step body ihi ihb =>
    exact fits_forLoop.mpr ⟨ihi, fun _ _ => hQ _, fun _ _ => hQ _, ihb⟩
  | whileLoop cond body ih => exact fits_whileLoop.mpr ⟨hQ _, ih⟩
  | doWhile body cond ih => exact fits_doWhile.mpr ⟨hQ _, ih⟩
  | switchOn value cases ih =>
    refine fits_switchOn.mpr ⟨hQ _, fun c hc s hs => ?_⟩
    obtain ⟨label, body⟩ := c
    exact ih label body hc s hs
  | expr e => exact fits_expr.mpr (hQ _)
  | returnWith value => exact fits_returnWith.mpr fun _ _ => hQ _
  -- The other statements hold no expressions and no statements.
  | _ => exact fits_iff.mpr (by simp [Stmt.own, Stmt.nested])

/-- If nothing is asked of names, it is only the expressions that count. -/
theorem all_iff_fits {s : Stmt} : s.All Q ↔ s.Fits (fun _ => True) Q := by
  constructor
  · intro h
    induction h with
    | intro own nested ih => exact .intro own (fun _ _ => trivial) ih
  · intro h
    induction h with
    | intro own names nested ih => exact .intro own ih

end

section

variable {Q : Expr → Prop}

/-- What holds of all expressions in a statement holds of its own. -/
theorem All.own {s : Stmt} (h : s.All Q) : ∀ e ∈ s.own, Q e := by
  cases h
  assumption

/-- It holds of those in the statements inside it. -/
theorem All.nested {s : Stmt} (h : s.All Q) : ∀ t ∈ s.nested, t.All Q := by
  cases h
  assumption

/-- So it holds of the own expressions of every statement at any depth. -/
theorem All.everywhere {s : Stmt} (h : s.All Q) : s.Everywhere fun s => ∀ e ∈ s.own, Q e := by
  induction h with
  | intro own _ ih => exact .intro own ih

/-- What follows from two properties holds of all expressions of which both hold. -/
theorem All.imp₂ {Q' R : Expr → Prop} {s : Stmt} (h : s.All Q) (h' : s.All Q')
    (hR : ∀ e, Q e → Q' e → R e) : s.All R := by
  induction h with
  | intro own nested ih =>
    exact .intro (fun e he => hR e (own e he) (h'.own e he))
      fun t ht => ih t ht (h'.nested t ht)

/-- The expressions in a block are those of its statements. -/
theorem all_block {body : List Stmt} : (block body).All Q ↔ ∀ s ∈ body, s.All Q := by
  simp only [all_iff_fits, fits_block]

/-- The only expression in a declaration is its initial value. -/
theorem all_decl {d : Decl} : (decl d).All Q ↔ ∀ e ∈ d.init, Q e := by
  simp only [all_iff_fits, fits_decl, true_and]

/-- The expressions in an `if` are its condition and those in its branches. -/
theorem all_ifElse {cond : Expr} {thenBranch : Stmt} {elseBranch : Option Stmt} :
    (ifElse cond thenBranch elseBranch).All Q ↔
      Q cond ∧ thenBranch.All Q ∧ ∀ s ∈ elseBranch, s.All Q := by
  simp only [all_iff_fits, fits_ifElse]

/-- The expressions in a `for` are those of its header and those of its body. -/
theorem all_forLoop {init : Option Stmt} {cond step : Option Expr} {body : Stmt} :
    (forLoop init cond step body).All Q ↔
      (∀ s ∈ init, s.All Q) ∧ (∀ e ∈ cond, Q e) ∧ (∀ e ∈ step, Q e) ∧ body.All Q := by
  simp only [all_iff_fits, fits_forLoop]

/-- The expressions in a `while` are its condition and those in its body. -/
theorem all_whileLoop {cond : Expr} {body : Stmt} :
    (whileLoop cond body).All Q ↔ Q cond ∧ body.All Q := by
  simp only [all_iff_fits, fits_whileLoop]

/-- The expressions in a `do` are those in its body and its condition. -/
theorem all_doWhile {cond : Expr} {body : Stmt} :
    (doWhile body cond).All Q ↔ Q cond ∧ body.All Q := by
  simp only [all_iff_fits, fits_doWhile]

/-- The expressions in a `switch` are its value and those in its cases. -/
theorem all_switchOn {value : Expr} {cases : List Case} :
    (switchOn value cases).All Q ↔ Q value ∧ ∀ c ∈ cases, ∀ s ∈ c.body, s.All Q := by
  simp only [all_iff_fits, fits_switchOn]

/-- A statement of one expression has that expression. -/
theorem all_expr {e : Expr} : (expr e).All Q ↔ Q e := by
  simp only [all_iff_fits, fits_expr]

/-- The expression in a `return` is its value. -/
theorem all_returnWith {value : Option Expr} : (returnWith value).All Q ↔ ∀ e ∈ value, Q e := by
  simp only [all_iff_fits, fits_returnWith]

/-- All expressions of a statement avoid a predicate if and only if none is found. -/
theorem anyExpr_eq_false_iff {p : Expr → Bool} (s : Stmt) :
    s.anyExpr p = false ↔ s.All fun e => p e = false := by
  -- Lists and optional parts are searched member by member.
  have hlist : ∀ {ss : List Stmt}, (∀ s ∈ ss, s.anyExpr p = false ↔ s.All fun e => p e = false) →
      (anyExprList p ss = false ↔ ∀ s ∈ ss, s.All fun e => p e = false) := by
    intro ss h
    rw [anyExprList_eq_any, List.any_eq_false]
    exact forall₂_congr fun s hs => by rw [Bool.not_eq_true]; exact h s hs
  have hoption : ∀ {o : Option Stmt}, (∀ s ∈ o, s.anyExpr p = false ↔ s.All fun e => p e = false) →
      (anyExprOption p o = false ↔ ∀ s ∈ o, s.All fun e => p e = false) := by
    intro o h
    cases o with
    | none => simp [anyExprOption]
    | some s => simpa [anyExprOption] using h s rfl
  have hany : ∀ {o : Option Expr}, o.any p = false ↔ ∀ e ∈ o, p e = false := by
    intro o
    cases o <;> simp
  -- The induction is over statements; the cases follow the equations for `All`.
  induction s with
  | block body ih => rw [all_block, anyExpr, hlist ih]
  | decl d => rw [all_decl, anyExpr, hany]
  | ifElse cond thenBranch elseBranch iht ihe =>
    rw [all_ifElse, anyExpr, Bool.or_eq_false_iff, Bool.or_eq_false_iff,
      show _ ↔ _ from iht, hoption ihe, and_assoc]
  | forLoop init cond step body ihi ihb =>
    rw [all_forLoop, anyExpr, Bool.or_eq_false_iff, Bool.or_eq_false_iff, Bool.or_eq_false_iff,
      hany, hany, hoption ihi, show _ ↔ _ from ihb]
    tauto
  | whileLoop cond body ih =>
    rw [all_whileLoop, anyExpr, Bool.or_eq_false_iff, show _ ↔ _ from ih]
  | doWhile body cond ih =>
    rw [all_doWhile, anyExpr, Bool.or_eq_false_iff, show _ ↔ _ from ih]
  | switchOn value cases ih =>
    -- The cases of a `switch` are a recursion of their own.
    have hcases : anyExprCases p cases = false ↔
        ∀ c ∈ cases, ∀ s ∈ c.body, s.All fun e => p e = false := by
      clear hoption hany
      induction cases with
      | nil => simp [anyExprCases]
      | cons c cases ihc =>
        obtain ⟨label, body⟩ := c
        rw [anyExprCases, Bool.or_eq_false_iff, hlist (ih label body List.mem_cons_self),
          ihc fun label body hmem => ih label body (List.mem_cons_of_mem _ hmem),
          List.forall_mem_cons, Case.body]
    rw [all_switchOn, anyExpr, Bool.or_eq_false_iff, hcases]
  | expr e => rw [all_expr, anyExpr]
  | returnWith value => rw [all_returnWith, anyExpr, hany]
  | _ => exact ⟨fun _ => .intro (by simp [Stmt.own]) (by simp [Stmt.nested]), fun _ => rfl⟩

end

end Stmt

/-! ### Walks over statements -/

section

variable {m : Type → Type} [Monad m] [LawfulMonad m] {N : String → Prop} {Q Q' : Expr → Prop}

/-- An expression that need not be there satisfies what each expression is replaced by. -/
theorem mapM_option_holds (J : Judgement m) {f : Expr → m Expr} (hf : ∀ e, Q e → J.Holds Q' (f e))
    {o : Option Expr} (h : ∀ e ∈ o, Q e) : J.Holds (fun o' => ∀ e ∈ o', Q' e) (o.mapM f) := by
  cases o with
  | none => exact J.pure (by simp)
  | some e =>
    rw [Option.mapM_some, ← bind_pure_comp]
    exact J.bind (hf e (h e rfl)) fun e' he' => J.pure (by simpa using he')

/-- A declaration keeps its name. -/
theorem Decl.mapInitM_holds (J : Judgement m) {f : Expr → m Expr}
    (hf : ∀ e, Q e → J.Holds Q' (f e)) {d : Decl} (h : N d.name ∧ ∀ e ∈ d.init, Q e) :
    J.Holds (fun d' => N d'.name ∧ ∀ e ∈ d'.init, Q' e) (d.mapInitM f) :=
  J.bind (mapM_option_holds J hf h.2) fun _ hinit => J.pure ⟨h.1, hinit⟩

end

namespace Stmt

section

variable {m : Type → Type} [Monad m] [LawfulMonad m] {N : String → Prop} {Q Q' : Expr → Prop}

omit [LawfulMonad m] in
/-- What holds of each of several statements holds of all of them. -/
private theorem mapExprsListM_step (J : Judgement m) {f : Expr → m Expr} {ss : List Stmt}
    (ih : ∀ s ∈ ss, s.Fits N Q → J.Holds (Fits N Q') (s.mapExprsM f)) (h : ∀ s ∈ ss, s.Fits N Q) :
    J.Holds (fun ss' => ∀ s ∈ ss', Fits N Q' s) (mapExprsListM f ss) := by
  induction ss with
  | nil => exact J.pure (by simp)
  | cons s ss ihs =>
    refine J.bind (ih s List.mem_cons_self (h s List.mem_cons_self)) fun s' hs' => ?_
    refine J.bind (ihs (fun t ht => ih t (List.mem_cons_of_mem _ ht))
      fun t ht => h t (List.mem_cons_of_mem _ ht)) fun ss' hss' => ?_
    exact J.pure (List.forall_mem_cons.mpr ⟨hs', hss'⟩)

/-- If expressions with one property are replaced by expressions with another, so are those of a
    statement. -/
theorem mapExprsM_fits (J : Judgement m) {f : Expr → m Expr}
    (hf : ∀ e, Q e → J.Holds Q' (f e)) (s : Stmt) (hs : s.Fits N Q) :
    J.Holds (Fits N Q') (s.mapExprsM f) := by
  -- A part that may be missing is walked just if it is there.
  have hoption : ∀ {o : Option Stmt}, (∀ s ∈ o, s.Fits N Q → J.Holds (Fits N Q') (s.mapExprsM f)) →
      (∀ s ∈ o, s.Fits N Q) → J.Holds (fun o' => ∀ s ∈ o', Fits N Q' s) (mapExprsOptionM f o) := by
    intro o ih h
    cases o with
    | none => exact J.pure (by simp)
    | some s => exact J.bind (ih s rfl (h s rfl)) fun s' hs' => J.pure (by simpa using hs')
  induction s with
  | block body ih =>
    exact J.bind (mapExprsListM_step J ih (fits_block.mp hs)) fun body' h =>
      J.pure (fits_block.mpr h)
  | decl d =>
    exact J.bind (Decl.mapInitM_holds J hf (fits_decl.mp hs)) fun d' h => J.pure (fits_decl.mpr h)
  -- From here on: the parts in the order in which they are walked, then the statement they make.
  | ifElse cond thenBranch elseBranch iht ihe =>
    obtain ⟨hcond, hthen, helse⟩ := fits_ifElse.mp hs
    refine J.bind (hf cond hcond) fun cond' hcond' => ?_
    refine J.bind (iht hthen) fun then' hthen' => ?_
    exact J.bind (hoption ihe helse) fun else' helse' =>
      J.pure (fits_ifElse.mpr ⟨hcond', hthen', helse'⟩)
  | forLoop init cond step body ihi ihb =>
    obtain ⟨hinit, hcond, hstep, hbody⟩ := fits_forLoop.mp hs
    refine J.bind (mapM_option_holds J hf hcond) fun cond' hcond' => ?_
    refine J.bind (mapM_option_holds J hf hstep) fun step' hstep' => ?_
    refine J.bind (hoption ihi hinit) fun init' hinit' => ?_
    exact J.bind (ihb hbody) fun body' hbody' =>
      J.pure (fits_forLoop.mpr ⟨hinit', hcond', hstep', hbody'⟩)
  | whileLoop cond body ih =>
    obtain ⟨hcond, hbody⟩ := fits_whileLoop.mp hs
    refine J.bind (hf cond hcond) fun cond' hcond' => ?_
    exact J.bind (ih hbody) fun body' hbody' => J.pure (fits_whileLoop.mpr ⟨hcond', hbody'⟩)
  | doWhile body cond ih =>
    obtain ⟨hcond, hbody⟩ := fits_doWhile.mp hs
    refine J.bind (hf cond hcond) fun cond' hcond' => ?_
    exact J.bind (ih hbody) fun body' hbody' => J.pure (fits_doWhile.mpr ⟨hcond', hbody'⟩)
  | switchOn value cases ih =>
    obtain ⟨hvalue, hcases⟩ := fits_switchOn.mp hs
    -- The cases of a `switch` are walked one after the other.
    have hrest : J.Holds (fun cases' => ∀ c ∈ cases', ∀ s ∈ c.body, s.Fits N Q')
        (mapExprsCasesM f cases) := by
      clear hs hoption
      induction cases with
      | nil => exact J.pure (by simp)
      | cons c cases ihc =>
        obtain ⟨label, body⟩ := c
        refine J.bind (mapExprsListM_step J (ih label body List.mem_cons_self)
          (hcases _ List.mem_cons_self)) fun body' hbody' => ?_
        refine J.bind (ihc (fun label body hmem => ih label body (List.mem_cons_of_mem _ hmem))
          fun c hc => hcases c (List.mem_cons_of_mem _ hc)) fun cases' hcases' => ?_
        exact J.pure (List.forall_mem_cons.mpr ⟨hbody', hcases'⟩)
    refine J.bind (hf value hvalue) fun value' hvalue' => ?_
    exact J.bind hrest fun cases' hcases' => J.pure (fits_switchOn.mpr ⟨hvalue', hcases'⟩)
  -- The leaves have at most one expression.
  | expr e => exact J.bind (hf e (fits_expr.mp hs)) fun e' he' => J.pure (fits_expr.mpr he')
  | returnWith value =>
    exact J.bind (mapM_option_holds J hf (fits_returnWith.mp hs)) fun value' h =>
      J.pure (fits_returnWith.mpr h)
  | _ => exact J.pure (fits_iff.mpr (by simp [Stmt.own, Stmt.nested]))

/-- The same for the statements of a body. -/
theorem mapExprsListM_fits (J : Judgement m) {f : Expr → m Expr}
    (hf : ∀ e, Q e → J.Holds Q' (f e)) {body : List Stmt} (h : ∀ s ∈ body, s.Fits N Q) :
    J.Holds (fun body' => ∀ s ∈ body', s.Fits N Q') (mapExprsListM f body) :=
  mapExprsListM_step J (fun s _ => mapExprsM_fits J hf s) h

omit [LawfulMonad m] in
/-- What holds of each of several statements holds of all of them. -/
private theorem expandListM_step (J : Judgement m) {T T' : Stmt → Prop}
    {visit : Stmt → m (Stmt → List Stmt)} {ss : List Stmt}
    (ih : ∀ s ∈ ss, T s → J.Holds (fun ss' => ∀ u ∈ ss', T' u) (s.expandM visit))
    (h : ∀ s ∈ ss, T s) : J.Holds (fun ss' => ∀ u ∈ ss', T' u) (expandListM visit ss) := by
  induction ss with
  | nil => exact J.pure (by simp)
  | cons s ss ihs =>
    refine J.bind (ih s List.mem_cons_self (h s List.mem_cons_self)) fun s' hs' => ?_
    refine J.bind (ihs (fun t ht => ih t (List.mem_cons_of_mem _ ht))
      fun t ht => h t (List.mem_cons_of_mem _ ht)) fun ss' hss' => ?_
    exact J.pure (List.forall_mem_append.mpr ⟨hs', hss'⟩)

/-- A statement as it stands once what is inside it was replaced: what is seen of the one from
    outside is seen of the other. -/
def Recasts (s t : Stmt) : Prop := ∀ K, Shallow K → K s → K t

omit [LawfulMonad m] in
/-- If a statement with one property is replaced by statements that have another one throughout,
    provided that all statements that stand inside it by then do, so is every statement that has the
    first property throughout. The initializer of a `for` is not visited. -/
theorem expandM_rebuilds (J : Judgement m) {P P' : Stmt → Prop} (hP' : ∀ body, P' (.block body))
    (hinit : ∀ {init cond step body}, P (.forLoop init cond step body) →
      ∀ s ∈ init, s.Everywhere P → s.Everywhere P')
    {visit : Stmt → m (Stmt → List Stmt)}
    (hvisit : ∀ s, P s → J.Holds (fun replace => ∀ t, s.Recasts t →
      (∀ u ∈ t.nested, u.Everywhere P') → ∀ u ∈ replace t, u.Everywhere P') (visit s))
    (s : Stmt) (hs : s.Everywhere P) :
    J.Holds (fun ss => ∀ u ∈ ss, u.Everywhere P') (s.expandM visit) := by
  -- Where one statement stands, several are put into a block.
  have hofList : ∀ {ss : List Stmt}, (∀ s ∈ ss, s.Everywhere P') → (ofList ss).Everywhere P' := by
    intro ss h
    unfold ofList
    split
    · -- A single statement takes the place itself.
      exact h _ List.mem_cons_self
    · exact .intro (hP' _) h
  induction s with
  -- The visit is given the statement that is rebuilt over its expanded children.
  | block body ih =>
    refine J.bind (hvisit _ hs.here) fun replace hreplace => ?_
    exact J.bind (expandListM_step J ih hs.nested) fun body' h =>
      J.pure (hreplace _ (fun K hK _ => hK.block _) h)
  | ifElse cond thenBranch elseBranch iht ihe =>
    obtain ⟨hthen, helse⟩ := List.forall_mem_cons.mp hs.nested
    have helse' : J.Holds (fun o => ∀ s ∈ Option.toList o, s.Everywhere P')
        (expandOptionM visit elseBranch) := by
      cases elseBranch with
      | none => exact J.pure (by simp)
      | some s =>
        refine J.bind (ihe s rfl (helse s (by simp))) fun ss hss => J.pure ?_
        -- Branches are single statements again.
        simpa using hofList hss
    refine J.bind (hvisit _ hs.here) fun replace hreplace => ?_
    refine J.bind (iht hthen) fun then' hthen' => ?_
    refine J.bind helse' fun else' helse' =>
      J.pure (hreplace _ (fun K hK => hK.ifElse) ?_)
    exact List.forall_mem_cons.mpr ⟨hofList hthen', helse'⟩
  | forLoop init cond step body ihi ihb =>
    obtain ⟨hfirst, hbody⟩ := List.forall_mem_append.mp hs.nested
    refine J.bind (hvisit _ hs.here) fun replace hreplace => ?_
    refine J.bind (ihb (hbody _ List.mem_cons_self)) fun body' hbody' =>
      J.pure (hreplace _ (fun K hK => hK.forLoop) ?_)
    -- The first part of the header is kept as it is, so only the body is new.
    refine List.forall_mem_append.mpr
      ⟨fun s hmem => ?_, List.forall_mem_singleton.mpr (hofList hbody')⟩
    exact hinit hs.here s (Option.mem_toList.mp hmem) (hfirst s hmem)
  | whileLoop cond body ih =>
    refine J.bind (hvisit _ hs.here) fun replace hreplace => ?_
    refine J.bind (ih (hs.nested _ List.mem_cons_self)) fun body' hbody' =>
      J.pure (hreplace _ (fun K hK => hK.whileLoop) ?_)
    exact List.forall_mem_singleton.mpr (hofList hbody')
  | doWhile body cond ih =>
    refine J.bind (hvisit _ hs.here) fun replace hreplace => ?_
    refine J.bind (ih (hs.nested _ List.mem_cons_self)) fun body' hbody' =>
      J.pure (hreplace _ (fun K hK => hK.doWhile) ?_)
    exact List.forall_mem_singleton.mpr (hofList hbody')
  | switchOn value cases ih =>
    have hcases := List.forall_mem_flatMap.mp hs.nested
    -- The bodies of the cases are expanded one by one; no case is added or lost.
    have hrest : J.Holds (fun cases' => ∀ c ∈ cases', ∀ s ∈ Case.body c, s.Everywhere P')
        (expandCasesM visit cases) := by
      clear hs
      induction cases with
      | nil => exact J.pure (by simp)
      | cons c cases ihc =>
        obtain ⟨label, body⟩ := c
        refine J.bind (expandListM_step J (ih label body List.mem_cons_self)
          (hcases _ List.mem_cons_self)) fun body' hbody' => ?_
        refine J.bind (ihc (fun label body hmem => ih label body (List.mem_cons_of_mem _ hmem))
          fun c hc => hcases c (List.mem_cons_of_mem _ hc)) fun cases' hcases' => ?_
        exact J.pure (List.forall_mem_cons.mpr ⟨hbody', hcases'⟩)
    refine J.bind (hvisit _ hs.here) fun replace hreplace => ?_
    refine J.bind hrest fun cases' hcases' => J.pure (hreplace _ (fun K hK => hK.switchOn) ?_)
    exact List.forall_mem_flatMap.mpr hcases'
  -- A statement without others inside is visited as it is.
  | _ => exact J.bind (hvisit _ hs.here) fun replace hreplace =>
      J.pure (hreplace _ (fun _ _ => id) nofun)

/-- If a statement is always replaced by statements that have a property throughout where it does,
    so are all inside a statement. -/
theorem expandM_everywhere (J : Judgement m) {P : Stmt → Prop} (hP : Shallow P)
    {visit : Stmt → m (Stmt → List Stmt)}
    (hvisit : ∀ s, J.Holds
      (fun replace => ∀ t : Stmt, t.Everywhere P → ∀ u ∈ replace t, u.Everywhere P) (visit s))
    (s : Stmt) (hs : s.Everywhere P) :
    J.Holds (fun ss => ∀ u ∈ ss, u.Everywhere P) (s.expandM visit) := by
  refine expandM_rebuilds J hP.block (fun _ _ _ h => h) (fun s hs => ?_) s hs
  refine J.mono (hvisit s) fun replace hreplace t ht hnested => hreplace t ?_
  exact .intro (ht P hP hs) hnested

omit [LawfulMonad m] in
/-- The same as above for the statements of a body. -/
theorem expandListM_rebuilds (J : Judgement m) {P P' : Stmt → Prop} (hP' : ∀ body, P' (.block body))
    (hinit : ∀ {init cond step body}, P (.forLoop init cond step body) →
      ∀ s ∈ init, s.Everywhere P → s.Everywhere P')
    {visit : Stmt → m (Stmt → List Stmt)}
    (hvisit : ∀ s, P s → J.Holds (fun replace => ∀ t, s.Recasts t →
      (∀ u ∈ t.nested, u.Everywhere P') → ∀ u ∈ replace t, u.Everywhere P') (visit s))
    {body : List Stmt} (h : ∀ s ∈ body, s.Everywhere P) :
    J.Holds (fun body' => ∀ s ∈ body', s.Everywhere P') (expandListM visit body) :=
  expandListM_step J (fun s _ => expandM_rebuilds J hP' hinit hvisit s) h

/-- The same for the statements of a body. -/
theorem expandListM_everywhere (J : Judgement m) {P : Stmt → Prop} (hP : Shallow P)
    {visit : Stmt → m (Stmt → List Stmt)}
    (hvisit : ∀ s, J.Holds
      (fun replace => ∀ t : Stmt, t.Everywhere P → ∀ u ∈ replace t, u.Everywhere P) (visit s))
    {body : List Stmt} (h : ∀ s ∈ body, s.Everywhere P) :
    J.Holds (fun body' => ∀ s ∈ body', s.Everywhere P) (expandListM visit body) :=
  expandListM_step J (fun s _ => expandM_everywhere J hP hvisit s) h

/-- If a statement of a body is always replaced by statements that fit where it does, the new body
    fits. -/
theorem expandListM_fits (J : Judgement m) {visit : Stmt → m (Stmt → List Stmt)}
    (hvisit : ∀ s, J.Holds (fun replace => ∀ t : Stmt, t.Fits N Q → ∀ u ∈ replace t, u.Fits N Q)
      (visit s))
    {body : List Stmt} (h : ∀ s ∈ body, s.Fits N Q) :
    J.Holds (fun body' => ∀ s ∈ body', s.Fits N Q) (expandListM visit body) := by
  simp only [fits_iff_everywhere] at hvisit h ⊢
  exact expandListM_everywhere J shallow_ownFits hvisit h

/-- Replaces a statement with a function that has no effects. -/
def expand (f : Stmt → List Stmt) (s : Stmt) : List Stmt := Id.run (s.expandM fun _ => pure f)

section

variable (f : Stmt → List Stmt)

/-- Nothing becomes nothing. -/
@[simp] theorem expandList_nil : expandList f [] = [] := rfl

/-- Statements are expanded one after the other. -/
@[simp] theorem expandList_cons (s : Stmt) (ss : List Stmt) :
    expandList f (s :: ss) = s.expand f ++ expandList f ss := rfl

/-- Expanding two runs of statements is expanding each of them. -/
@[simp] theorem expandList_append (ss tt : List Stmt) :
    expandList f (ss ++ tt) = expandList f ss ++ expandList f tt := by
  induction ss with
  | nil => rfl
  | cons s ss ih => simp [ih]

/-- A block is visited with its statements expanded. -/
theorem expand_block (body : List Stmt) : (block body).expand f = f (.block (expandList f body)) :=
  rfl

/-- An `if` is visited with each branch expanded to one statement. -/
theorem expand_ifElse (cond : Expr) (thenBranch : Stmt) (elseBranch : Option Stmt) :
    (ifElse cond thenBranch elseBranch).expand f =
      f (.ifElse cond (ofList (thenBranch.expand f))
        (elseBranch.map fun s => ofList (s.expand f))) := by
  cases elseBranch <;> rfl

/-- A `for` is visited with its body expanded; its header is left alone. -/
theorem expand_forLoop (init : Option Stmt) (cond step : Option Expr) (body : Stmt) :
    (forLoop init cond step body).expand f =
      f (.forLoop init cond step (ofList (body.expand f))) := rfl

/-- A `while` is visited with its body expanded. -/
theorem expand_whileLoop (cond : Expr) (body : Stmt) :
    (whileLoop cond body).expand f = f (.whileLoop cond (ofList (body.expand f))) := rfl

/-- A `do` is visited with its body expanded. -/
theorem expand_doWhile (body : Stmt) (cond : Expr) :
    (doWhile body cond).expand f = f (.doWhile (ofList (body.expand f)) cond) := rfl

/-- The case with its statements replaced. -/
def expandCase : Case → Case
  | .mk label body => .mk label (expandList f body)

/-- A `switch` is visited with its cases expanded. -/
theorem expand_switchOn (value : Expr) (cases : List Case) :
    (switchOn value cases).expand f = f (.switchOn value (cases.map (expandCase f))) := by
  have hcases : Id.run (expandCasesM (fun _ => pure f) cases) = cases.map (expandCase f) := by
    induction cases with
    | nil => rfl
    | cons c cases ih =>
      obtain ⟨label, body⟩ := c
      exact congrArg (Case.mk label (expandList f body) :: ·) ih
  exact congrArg (fun cs => f (.switchOn value cs)) hcases

end

/-- Replaces the expressions of a statement with a function that has no effects. -/
def mapExprs (g : Expr → Expr) (s : Stmt) : Stmt := Id.run (s.mapExprsM fun e => pure (g e))

section

variable (g : Expr → Expr)

/-- Rewriting expressions without effects works on every statement of a list. -/
theorem mapExprsListM_pure (ss : List Stmt) :
    Id.run (mapExprsListM (fun e => pure (g e)) ss) = ss.map (mapExprs g) := by
  induction ss with
  | nil => rfl
  | cons s ss ih => exact congrArg (s.mapExprs g :: ·) ih

/-- In a block, every statement is rewritten. -/
theorem mapExprs_block (body : List Stmt) :
    (block body).mapExprs g = .block (body.map (mapExprs g)) :=
  congrArg block (mapExprsListM_pure g body)

/-- In a declaration, the initial value is rewritten. -/
theorem mapExprs_decl (d : Decl) :
    (decl d).mapExprs g = .decl { d with init := d.init.map g } := by
  obtain ⟨storage, name, ty, init⟩ := d
  cases init <;> rfl

/-- In an `if`, the condition and the branches are rewritten. -/
theorem mapExprs_ifElse (cond : Expr) (thenBranch : Stmt) (elseBranch : Option Stmt) :
    (ifElse cond thenBranch elseBranch).mapExprs g =
      .ifElse (g cond) (thenBranch.mapExprs g) (elseBranch.map (mapExprs g)) := by
  cases elseBranch <;> rfl

/-- In a `for`, the header and the body are rewritten. -/
theorem mapExprs_forLoop (init : Option Stmt) (cond step : Option Expr) (body : Stmt) :
    (forLoop init cond step body).mapExprs g =
      .forLoop (init.map (mapExprs g)) (cond.map g) (step.map g) (body.mapExprs g) := by
  cases init <;> cases cond <;> cases step <;> rfl

/-- In a `while`, the condition and the body are rewritten. -/
theorem mapExprs_whileLoop (cond : Expr) (body : Stmt) :
    (whileLoop cond body).mapExprs g = .whileLoop (g cond) (body.mapExprs g) := rfl

/-- In a `do`, the body and the condition are rewritten. -/
theorem mapExprs_doWhile (body : Stmt) (cond : Expr) :
    (doWhile body cond).mapExprs g = .doWhile (body.mapExprs g) (g cond) := rfl

/-- The case with the expressions of its statements replaced. -/
def mapExprsCase : Case → Case
  | .mk label body => .mk label (body.map (mapExprs g))

/-- In a `switch`, the value and the cases are rewritten. -/
theorem mapExprs_switchOn (value : Expr) (cases : List Case) :
    (switchOn value cases).mapExprs g = .switchOn (g value) (cases.map (mapExprsCase g)) := by
  -- The body of each case is mapped, its label kept.
  have hcases : Id.run (mapExprsCasesM (fun e => pure (g e)) cases) =
      cases.map (mapExprsCase g) := by
    induction cases with
    | nil => rfl
    | cons c cases ih =>
      obtain ⟨label, body⟩ := c
      exact congrArg₂ (fun b cs => Case.mk label b :: cs) (mapExprsListM_pure g body) ih
  exact congrArg (fun cs => switchOn (g value) cs) hcases

/-- In a `return`, the value is rewritten. -/
theorem mapExprs_returnWith (value : Option Expr) :
    (returnWith value).mapExprs g = .returnWith (value.map g) := by
  cases value <;> rfl

end

/-- Replacing every expression by itself changes nothing. -/
theorem mapExprs_id (s : Stmt) : s.mapExprs id = s := by
  have hoption (o : Option Expr) : o.map id = o := Option.map_id_fun ▸ rfl
  induction s with
  | block body ih => rw [mapExprs_block, List.map_congr_left ih, List.map_id']
  | decl d => rw [mapExprs_decl, hoption]
  | ifElse cond thenBranch elseBranch iht ihe =>
    rw [mapExprs_ifElse, iht, Option.map_congr ihe, Option.map_id']
    rfl
  | forLoop init cond step body ihi ihb =>
    rw [mapExprs_forLoop, hoption, hoption, ihb, Option.map_congr ihi, Option.map_id']
  | whileLoop cond body ih => rw [mapExprs_whileLoop, ih]; rfl
  | doWhile body cond ih => rw [mapExprs_doWhile, ih]; rfl
  | switchOn value cases ih =>
    -- A case keeps its label, and its body is unchanged by induction.
    have hcases : cases.map (mapExprsCase id) = cases := by
      refine (List.map_congr_left fun c hc => ?_).trans (List.map_id _)
      obtain ⟨label, body⟩ := c
      exact congrArg (Case.mk label) ((List.map_congr_left (ih label body hc)).trans
        (List.map_id' body))
    rw [mapExprs_switchOn, hcases]
    rfl
  | returnWith value => rw [mapExprs_returnWith, hoption]
  | _ => rfl

/-- What holds of each of several statements holds of all of them. -/
private theorem bottomUpList_step {T T' : Stmt → Prop} {f : Stmt → Stmt} {ss : List Stmt}
    (ih : ∀ s ∈ ss, T s → T' (s.bottomUp f)) (h : ∀ s ∈ ss, T s) :
    ∀ s ∈ bottomUpList f ss, T' s := by
  intro s hs
  rw [bottomUpList_eq_map] at hs
  obtain ⟨t, ht, rfl⟩ := List.mem_map.mp hs
  exact ih t ht (h t ht)

/-- If a statement with the expressions and the declaration of one that has a property is replaced
    by one that has another property, provided that all statements inside it do, so is every
    statement that has the first property throughout. -/
theorem bottomUp_rebuilds {P T : Stmt → Prop} {f : Stmt → Stmt}
    (hf : ∀ s t : Stmt, P s → t.own = s.own → (∀ d, t = .decl d → s = .decl d) →
      (∀ u ∈ t.nested, T u) → T (f t)) (s : Stmt) (hs : s.Everywhere P) : T (s.bottomUp f) := by
  -- A branch or a first part that may be missing.
  have hoption : ∀ {o : Option Stmt}, (∀ s ∈ o, s.Everywhere P → T (s.bottomUp f)) →
      (∀ s ∈ o.toList, s.Everywhere P) → ∀ s ∈ (bottomUpOption f o).toList, T s := by
    intro o ih h
    cases o with
    | none => simp [bottomUpOption]
    | some s => simpa [bottomUpOption] using ih s rfl (h s (by simp))
  -- At each statement the induction gives `T` of what stands in it, and `hf` the rest.
  induction s with
  | block body ih =>
    exact hf _ _ hs.here rfl nofun (bottomUpList_step ih hs.nested)
  | ifElse cond thenBranch elseBranch iht ihe =>
    obtain ⟨hthen, helse⟩ := List.forall_mem_cons.mp hs.nested
    exact hf _ _ hs.here rfl nofun (List.forall_mem_cons.mpr ⟨iht hthen, hoption ihe helse⟩)
  | forLoop init cond step body ihi ihb =>
    obtain ⟨hinit, hbody⟩ := List.forall_mem_append.mp hs.nested
    refine hf _ _ hs.here rfl nofun (List.forall_mem_append.mpr ⟨hoption ihi hinit, ?_⟩)
    exact List.forall_mem_singleton.mpr (ihb (hbody _ List.mem_cons_self))
  | whileLoop cond body ih | doWhile body cond ih =>
    exact hf _ _ hs.here rfl nofun
      (List.forall_mem_singleton.mpr (ih (hs.nested _ List.mem_cons_self)))
  | switchOn value cases ih =>
    have hcases := List.forall_mem_flatMap.mp hs.nested
    -- The bodies of the cases, one case after the other.
    have hrest : ∀ c ∈ bottomUpCases f cases, ∀ s ∈ c.body, T s := by
      clear hs hoption
      induction cases with
      | nil => simp [bottomUpCases]
      | cons c cases ihc =>
        obtain ⟨label, body⟩ := c
        rw [bottomUpCases, List.forall_mem_cons]
        exact ⟨bottomUpList_step (ih label body List.mem_cons_self) (hcases _ List.mem_cons_self),
          ihc (fun label body hmem => ih label body (List.mem_cons_of_mem _ hmem))
            fun c hc => hcases c (List.mem_cons_of_mem _ hc)⟩
    exact hf _ _ hs.here rfl nofun (List.forall_mem_flatMap.mpr hrest)
  | _ => exact hf _ _ hs.here rfl (fun _ => id) nofun

/-- The same for the statements of a body. -/
theorem bottomUpList_rebuilds {P T : Stmt → Prop} {f : Stmt → Stmt}
    (hf : ∀ s t : Stmt, P s → t.own = s.own → (∀ d, t = .decl d → s = .decl d) →
      (∀ u ∈ t.nested, T u) → T (f t)) {body : List Stmt} (h : ∀ s ∈ body, s.Everywhere P) :
    ∀ s ∈ bottomUpList f body, T s :=
  bottomUpList_step (fun s _ => bottomUp_rebuilds hf s) h

/-- If a statement is always replaced by one whose expressions have a property that its own have,
    so are all inside a statement. -/
theorem bottomUp_fits {f : Stmt → Stmt} (hf : ∀ s, s.Fits N Q → (f s).Fits N Q) (s : Stmt)
    (hs : s.Fits N Q) : (s.bottomUp f).Fits N Q := by
  refine bottomUp_rebuilds (fun s t hown heq hdecl hnested => hf t ?_) s
    (fits_iff_everywhere.mp hs)
  exact fits_iff.mpr ⟨heq ▸ hown.1, fun d hd => hown.2 d (hdecl d hd), hnested⟩

/-- The same for the statements of a body. -/
theorem bottomUpList_fits {f : Stmt → Stmt} (hf : ∀ s, s.Fits N Q → (f s).Fits N Q)
    {body : List Stmt} (h : ∀ s ∈ body, s.Fits N Q) : ∀ s ∈ bottomUpList f body, s.Fits N Q :=
  bottomUpList_step (fun s _ => bottomUp_fits hf s) h

end

end Stmt

/-! ### Functions -/

/-- What is asked of a program: of the variables that it declares, of the names of its functions and
    of its expressions. Each body of a function may also hold a certain prologue, of which it is not
    asked. -/
structure Demand where
  names : String → Prop := fun _ => True
  functions : String → Prop := fun _ => True
  exprs : Expr → Prop
  prologue : List Stmt := []

namespace Demand

variable {c : Demand}

/-- The demand that asks something else of expressions. -/
def withExprs (c : Demand) (Q : Expr → Prop) : Demand := { c with exprs := Q }

/-- A body satisfies a demand, not counting one prologue. -/
def Body (c : Demand) (body : List Stmt) : Prop :=
  (∀ s ∈ body, s.Fits c.names c.exprs) ∨
    ∃ front rest, body = front ++ c.prologue ++ rest ∧
      ∀ s ∈ front ++ rest, s.Fits c.names c.exprs

/-- Without a prologue all statements are counted. -/
theorem body_iff_of_prologue_eq_nil (hc : c.prologue = []) {body : List Stmt} :
    c.Body body ↔ ∀ s ∈ body, s.Fits c.names c.exprs := by
  refine ⟨?_, .inl⟩
  rintro (h | ⟨front, rest, rfl, h⟩)
  · exact h
  · rwa [hc, List.append_nil]

/-- A body meets weaker demands on expressions if it meets stronger ones. -/
theorem Body.mono {Q : Expr → Prop} {body : List Stmt} (h : c.Body body)
    (hexprs : ∀ e, c.exprs e → Q e) : (c.withExprs Q).Body body := by
  rcases h with h | ⟨front, rest, hbody, h⟩
  · exact .inl fun s hs => (h s hs).mono (fun _ hx => hx) hexprs
  · exact .inr ⟨front, rest, hbody, fun s hs => (h s hs).mono (fun _ hx => hx) hexprs⟩

/-- Statements that satisfy the demand may come before a body. -/
theorem Body.append_left {first body : List Stmt} (h : c.Body body)
    (hfirst : ∀ s ∈ first, s.Fits c.names c.exprs) : c.Body (first ++ body) := by
  rcases h with h | ⟨front, rest, rfl, h⟩
  · exact .inl (List.forall_mem_append.mpr ⟨hfirst, h⟩)
  · refine .inr ⟨first ++ front, rest, by simp, ?_⟩
    rw [List.append_assoc]
    exact List.forall_mem_append.mpr ⟨hfirst, h⟩

/-- Statements that satisfy the demand may come after a body. -/
theorem Body.append_right {last body : List Stmt} (h : c.Body body)
    (hlast : ∀ s ∈ last, s.Fits c.names c.exprs) : c.Body (body ++ last) := by
  rcases h with h | ⟨front, rest, rfl, h⟩
  · exact .inl (List.forall_mem_append.mpr ⟨h, hlast⟩)
  · refine .inr ⟨front, rest ++ last, by simp, ?_⟩
    rw [← List.append_assoc]
    exact List.forall_mem_append.mpr ⟨h, hlast⟩

section

variable {m : Type → Type} [Monad m] [LawfulMonad m] (J : Judgement m)

/-- A walk that goes through a body from its start to its end and leaves the prologue alone. -/
theorem Body.walk {body : List Stmt} (h : c.Body body) (c' : Demand)
    (hsame : c'.prologue = c.prologue) (walk : List Stmt → m (List Stmt))
    (happend : ∀ a b, walk (a ++ b) = do
      let a' ← walk a
      let b' ← walk b
      pure (a' ++ b'))
    (hprologue : walk c.prologue = pure c.prologue)
    (hwalk : ∀ body, (∀ s ∈ body, s.Fits c.names c.exprs) →
      J.Holds (fun body' => ∀ s ∈ body', s.Fits c'.names c'.exprs) (walk body)) :
    J.Holds c'.Body (walk body) := by
  -- Either there is no prologue, or one that stands between two parts which are walked by
  -- themselves.
  rcases h with h | ⟨front, rest, rfl, h⟩
  · exact J.mono (hwalk body h) fun _ hbody => .inl hbody
  · obtain ⟨hfront, hrest⟩ := List.forall_mem_append.mp h
    rw [happend, happend, hprologue]
    simp only [bind_assoc, pure_bind]
    refine J.bind (hwalk front hfront) fun front' hfront' => ?_
    refine J.bind (hwalk rest hrest) fun rest' hrest' => J.pure (.inr ⟨front', rest', ?_, ?_⟩)
    · rw [hsame]
    · exact List.forall_mem_append.mpr ⟨hfront', hrest'⟩

end

end Demand

/-! ### Programs -/

/-- What is asked of a function; its parameters are variables that it declares. -/
structure Function.Meets (c : Demand) (fn : Function) : Prop where
  name : c.functions fn.name
  params : ∀ x ∈ fn.params, c.names x.name
  body : c.Body fn.body

/-- Changing the body of a function in a way that keeps the demands on bodies keeps those on
    functions. -/
theorem Function.mapBody_meets {c : Demand} {f : List Stmt → List Stmt} {fn : Function}
    (hf : ∀ body, c.Body body → c.Body (f body)) (h : fn.Meets c) : (fn.mapBody f).Meets c :=
  ⟨h.name, h.params, hf fn.body h.body⟩

/-- What is asked of an element. -/
def Element.Meets (c : Demand) : Element → Prop
  | .global d => c.names d.name ∧ ∀ e ∈ d.init, c.exprs e
  | .function fn => fn.Meets c
  | .layout _ => True

/-- What is asked of a program. -/
def Program.Meets (c : Demand) (p : Program) : Prop := ∀ el ∈ p.elements, el.Meets c

/-- The demand that asks for nothing. -/
def Demand.anything : Demand := { exprs := fun _ => True }

/-- Of a function, nothing is asked. -/
theorem Function.meets_anything (fn : Function) : fn.Meets .anything :=
  ⟨trivial, fun _ _ => trivial,
    .inl fun s _ => s.fits_of_forall (fun _ => trivial) fun _ => trivial⟩

/-- Of a program, nothing is asked either. -/
theorem Program.meets_anything (p : Program) : p.Meets .anything := by
  intro el _
  cases el with
  | global d => exact ⟨trivial, fun _ _ => trivial⟩
  | function fn => exact fn.meets_anything
  | layout l => trivial

/-- A program meets weaker demands on expressions if it meets stronger ones. -/
theorem Program.Meets.mono {c : Demand} {Q : Expr → Prop} {p : Program} (h : p.Meets c)
    (hexprs : ∀ e, c.exprs e → Q e) : p.Meets (c.withExprs Q) := by
  intro el hel
  have hmeets := h el hel
  cases el with
  | global d => exact ⟨hmeets.1, fun e he => hexprs e (hmeets.2 e he)⟩
  | function fn => exact ⟨hmeets.name, hmeets.params, hmeets.body.mono hexprs⟩
  | layout l => trivial

/-- All expressions of a function satisfy a predicate. -/
def Function.All (Q : Expr → Prop) (fn : Function) : Prop := ∀ s ∈ fn.body, s.All Q

/-- All expressions of an element satisfy a predicate. -/
def Element.All (Q : Expr → Prop) : Element → Prop
  | .global d => ∀ e ∈ d.init, Q e
  | .function fn => fn.All Q
  | .layout _ => True

/-- All expressions of a program satisfy a predicate. -/
def Program.All (Q : Expr → Prop) (p : Program) : Prop := ∀ el ∈ p.elements, el.All Q

/-- To ask something of all expressions of a function is a demand without a prologue. -/
theorem Function.all_iff_meets {Q : Expr → Prop} {fn : Function} :
    fn.All Q ↔ fn.Meets { exprs := Q } := by
  have hbody : fn.All Q ↔ Demand.Body { exprs := Q } fn.body :=
    (forall₂_congr fun s _ => Stmt.all_iff_fits).trans
      (Demand.body_iff_of_prologue_eq_nil (c := { exprs := Q }) rfl).symm
  exact hbody.trans ⟨fun h => ⟨trivial, fun _ _ => trivial, h⟩, Function.Meets.body⟩

/-- If nothing is asked of names, and no prologue is left out, it is only the expressions that
    count. -/
theorem Program.all_iff_meets {Q : Expr → Prop} {p : Program} :
    p.All Q ↔ p.Meets { exprs := Q } := by
  refine forall₂_congr fun el _ => ?_
  cases el with
  | global d => exact (and_iff_right trivial).symm
  | function fn => exact Function.all_iff_meets
  | layout l => exact Iff.rfl

/-- What is asked of names is left out. -/
theorem Program.Meets.all {c : Demand} (hc : c.prologue = []) {p : Program} (h : p.Meets c) :
    p.All c.exprs := by
  intro el hel
  have hmeets := h el hel
  cases el with
  | global d => exact hmeets.2
  | function fn =>
    intro s hs
    -- Without a prologue, a body is just its statements.
    have hfits := (Demand.body_iff_of_prologue_eq_nil hc).mp hmeets.body s hs
    exact Stmt.all_iff_fits.mpr (hfits.mono (fun _ _ => trivial) fun _ => id)
  | layout l => trivial

/-- Another property of all expressions may be asked as well. -/
theorem Program.Meets.and {c : Demand} (hc : c.prologue = []) {Q : Expr → Prop} {p : Program}
    (h : p.Meets c) (h' : p.All Q) : p.Meets (c.withExprs fun e => c.exprs e ∧ Q e) := by
  intro el hel
  have hmeets := h el hel
  have hall := h' el hel
  cases el with
  | global d => exact ⟨hmeets.1, fun e he => ⟨hmeets.2 e he, hall e he⟩⟩
  | function fn =>
    -- Two demands on expressions are put together statement by statement.
    have hbody := (Demand.body_iff_of_prologue_eq_nil hc).mp hmeets.body
    exact ⟨hmeets.name, hmeets.params, .inl fun s hs => (hbody s hs).and (hall s hs)⟩
  | layout l => trivial

section

variable {m : Type → Type} [Monad m] [LawfulMonad m] {Q Q' : Expr → Prop} {c c' : Demand}

/-- What follows from two properties holds of all expressions of which both hold. -/
theorem Program.All.imp₂ {R : Expr → Prop} {p : Program} (h : p.All Q) (h' : p.All Q')
    (hR : ∀ e, Q e → Q' e → R e) : p.All R := by
  intro el hel
  have hQ := h el hel
  have hQ' := h' el hel
  cases el with
  | global d => exact fun e he => hR e (hQ e he) (hQ' e he)
  | function fn => exact fun s hs => (hQ s hs).imp₂ (hQ' s hs) hR
  | layout l => trivial

/-- A weaker property holds of all expressions if a stronger one does. -/
theorem Program.All.mono {p : Program} (h : p.All Q) (hQ : ∀ e, Q e → Q' e) : p.All Q' :=
  h.imp₂ h fun e he _ => hQ e he

/-- No node of a program satisfies a predicate if and only if none of its expressions has such a
    node. -/
theorem Program.anyNode_eq_false_iff {p : Program} {q : Expr → Bool} :
    p.anyNode q = false ↔ p.All fun e => e.any q = false := by
  rw [Program.anyNode, List.any_eq_false]
  refine forall₂_congr fun el _ => ?_
  rw [Bool.not_eq_true]
  cases el with
  | global d => cases h : d.init <;> simp [Element.anyNode, Element.All, h]
  -- A function is searched statement by statement.
  | function fn =>
    rw [Element.anyNode, Function.anyNode, Stmt.anyExprList_eq_any, List.any_eq_false]
    refine forall₂_congr fun s _ => ?_
    rw [Bool.not_eq_true]
    exact s.anyExpr_eq_false_iff
  | layout l => simp [Element.anyNode, Element.All]

/-! ### Walks over programs -/

/-- Two runs of statements are rewritten one after the other. -/
theorem Stmt.mapExprsListM_append (f : Expr → m Expr) (a b : List Stmt) :
    mapExprsListM f (a ++ b) = (do
      let a' ← mapExprsListM f a
      let b' ← mapExprsListM f b
      pure (a' ++ b')) := by
  induction a with
  | nil => simp [mapExprsListM]
  | cons s a ih =>
    simp only [List.cons_append, mapExprsListM, ih, bind_assoc, pure_bind]

/-- Two runs of statements are expanded one after the other. -/
theorem Stmt.expandListM_append (visit : Stmt → m (Stmt → List Stmt)) (a b : List Stmt) :
    expandListM visit (a ++ b) = (do
      let a' ← expandListM visit a
      let b' ← expandListM visit b
      pure (a' ++ b')) := by
  induction a with
  | nil => simp [expandListM]
  | cons s a ih =>
    simp only [List.cons_append, expandListM, ih, bind_assoc, pure_bind, List.append_assoc]

/-- Rewriting the expressions of a function keeps what is demanded, if it does so at every
    expression and leaves the prologue as it is. -/
theorem Function.mapExprsM_meets (J : Judgement m) {f : Expr → m Expr}
    (hf : ∀ e, c.exprs e → J.Holds Q' (f e))
    (hprologue : Stmt.mapExprsListM f c.prologue = pure c.prologue) {fn : Function}
    (h : fn.Meets c) : J.Holds (Function.Meets (c.withExprs Q')) (fn.mapExprsM f) := by
  have hbody : J.Holds (c.withExprs Q').Body (Stmt.mapExprsListM f fn.body) :=
    h.body.walk J (c.withExprs Q') rfl _ (Stmt.mapExprsListM_append f) hprologue
      fun _ => Stmt.mapExprsListM_fits J hf
  exact J.bind hbody fun _ hbody => J.pure ⟨h.name, h.params, hbody⟩

/-- If expressions that satisfy one demand are replaced by expressions that satisfy another, so are
    those of a program. -/
theorem Program.mapExprsM_meets (J : Judgement m) {f : Expr → m Expr}
    (hf : ∀ e, c.exprs e → J.Holds Q' (f e))
    (hprologue : Stmt.mapExprsListM f c.prologue = pure c.prologue) {p : Program}
    (h : p.Meets c) : J.Holds (Program.Meets (c.withExprs Q')) (p.mapExprsM f) := by
  refine J.bind (J.mapM_forall fun el hel => ?_) fun elements helements => J.pure helements
  cases el with
  | global d =>
    exact J.bind (Decl.mapInitM_holds J hf (h _ hel)) fun d' hd' => J.pure hd'
  | function fn =>
    exact J.bind (Function.mapExprsM_meets J hf hprologue (h _ hel)) fun fn' hfn' => J.pure hfn'
  | layout l => exact J.pure trivial

/-- If functions that satisfy one demand are replaced by functions that satisfy another, so does
    all that a program holds where its globals do. -/
theorem Program.mapFunctionsM_meets (J : Judgement m) {f : Function → m Function}
    (hf : ∀ fn, fn.Meets c → J.Holds (Function.Meets c') (f fn)) {p : Program} (h : p.Meets c)
    (hglobal : ∀ d, .global d ∈ p.elements → Element.Meets c' (.global d)) :
    J.Holds (Program.Meets c') (p.mapFunctionsM f) := by
  refine J.bind (J.mapM_forall fun el hel => ?_) fun elements helements => J.pure helements
  cases el with
  | function fn => exact J.bind (hf fn (h _ hel)) fun fn' hfn' => J.pure hfn'
  | global d => exact J.pure (hglobal d hel)
  | layout l => exact J.pure trivial

/-- The same for a function that has no effects. -/
theorem Program.mapFunctions_meets {f : Function → Function}
    (hf : ∀ fn, fn.Meets c → (f fn).Meets c) {p : Program} (h : p.Meets c) :
    (p.mapFunctions f).Meets c := by
  intro el hel
  obtain ⟨el, hmem, rfl⟩ := List.mem_map.mp hel
  cases el with
  | function fn => exact hf fn (h _ hmem)
  | global d => exact h _ hmem
  | layout l => trivial

/-- Rebuilding the nodes of a program. -/
theorem Program.mapNodes_meets {f : Expr → Expr} (hf : ∀ e, c.exprs e → Q' (e.bottomUp f))
    (hprologue : Stmt.mapExprsListM (m := Id) (fun e => pure (e.bottomUp f)) c.prologue =
      pure c.prologue)
    {p : Program} (h : p.Meets c) : (p.mapNodes f).Meets (c.withExprs Q') :=
  (Program.mapExprsM_meets (m := Id) .yields (fun e he => .pure (hf e he)) hprologue h).of_id

/-- A function of a program is one of its elements. -/
theorem Element.mem_functions {els : List Element} {f : Function} :
    f ∈ els.filterMap function? ↔ .function f ∈ els := by
  refine List.mem_filterMap.trans ⟨?_, fun h => ⟨_, h, rfl⟩⟩
  rintro ⟨el, hel, hf⟩
  cases el with
  | function g => exact Option.some.inj hf ▸ hel
  | _ => cases hf

/-- Changing each function changes the list of them member by member. -/
theorem Program.functions_mapFunctions (f : Function → Function) (p : Program) :
    (p.mapFunctions f).functions = p.functions.map f := by
  unfold functions mapFunctions
  rw [List.filterMap_map, List.map_filterMap]
  refine List.filterMap_congr fun el _ => ?_
  cases el <;> rfl

/-- The element with its expressions replaced by a function that has no effects. -/
def Element.mapExprs (g : Expr → Expr) : Element → Element
  | .global d => .global { d with init := d.init.map g }
  | .function fn => .function (fn.mapBody (List.map (Stmt.mapExprs g)))
  | .layout l => .layout l

/-- Rewriting the expressions of an element without effects. -/
theorem Element.mapExprsM_pure (g : Expr → Expr) (el : Element) :
    Id.run (el.mapExprsM fun e => pure (g e)) = el.mapExprs g := by
  -- The walk without effects and the map agree on each part.
  cases el with
  | global d =>
    obtain ⟨storage, name, ty, init⟩ := d
    cases init <;> rfl
  | function fn =>
    exact congrArg (fun body => Element.function { fn with body })
      (Stmt.mapExprsListM_pure g fn.body)
  | layout l => rfl

/-- Rewriting the nodes of a program works on every element. -/
theorem Program.elements_mapNodes (f : Expr → Expr) (p : Program) :
    (p.mapNodes f).elements = p.elements.map (Element.mapExprs (Expr.bottomUp f)) := by
  show Id.run (p.elements.mapM _) = _
  rw [List.idRun_mapM]
  exact List.map_congr_left fun el _ => el.mapExprsM_pure (Expr.bottomUp f)

/-- The first function that a program can start at is replaced in its place. -/
theorem Element.mapFirstEntry_append {f : Function → Function} {before after : List Element}
    {fn : Function} (hbefore : ∀ g, .function g ∈ before → g.isEntry = false)
    (hfn : fn.isEntry = true) :
    mapFirstEntry f (before ++ .function fn :: after) = before ++ .function (f fn) :: after := by
  -- The search goes past everything before the first function of that name.
  induction before with
  | nil => exact if_pos hfn
  | cons el before ih =>
    have hrest := ih fun g hg => hbefore g (List.mem_cons_of_mem _ hg)
    cases el with
    | function g =>
      have hg := hbefore g List.mem_cons_self
      exact (if_neg (by simp [hg])).trans (congrArg (Element.function g :: ·) hrest)
    | global d => exact congrArg (Element.global d :: ·) hrest
    | layout l => exact congrArg (Element.layout l :: ·) hrest

/-- Replacing the entry function. -/
theorem Program.mapEntry_meets {f : Function → Function}
    (hf : ∀ fn, fn.Meets c → (f fn).Meets c) {p : Program} (h : p.Meets c) :
    (p.mapEntry f).Meets c := by
  have helements : ∀ {els : List Element}, (∀ el ∈ els, el.Meets c) →
      ∀ el ∈ Element.mapFirstEntry f els, el.Meets c := by
    -- What comes before the entry function and after it stays as it is.
    intro els hels
    induction els with
    | nil => simp [Element.mapFirstEntry]
    | cons el els ih =>
      have hrest := ih fun el hel => hels el (List.mem_cons_of_mem _ hel)
      have hfirst := hels el List.mem_cons_self
      cases el with
      | function fn =>
        rw [Element.mapFirstEntry]
        split
        · exact List.forall_mem_cons.mpr ⟨hf fn hfirst, fun el hel =>
            hels el (List.mem_cons_of_mem _ hel)⟩
        · exact List.forall_mem_cons.mpr ⟨hfirst, hrest⟩
      | global d => exact List.forall_mem_cons.mpr ⟨hfirst, hrest⟩
      | layout l => exact List.forall_mem_cons.mpr ⟨hfirst, hrest⟩
  exact helements h

/-! The same where only expressions count. -/

/-- What a rewriting that may fail yields at each expression holds of all expressions of the program
    that it yields. -/
theorem Program.mapExprsM_yields {f : Expr → m Expr} (hf : ∀ e, Q e → Yields Q' (f e))
    {p : Program} (h : p.All Q) : Yields (Program.All Q') (p.mapExprsM f) := by
  have hmeets := Program.mapExprsM_meets .yields (c := { exprs := Q }) hf rfl
    (Program.all_iff_meets.mp h)
  exact hmeets.mono fun p' hp' => Program.all_iff_meets.mpr hp'

/-- Changing functions changes what holds of all expressions, if what held before still implies it
    in the globals. -/
theorem Program.mapFunctions_all {f : Function → Function} (hmono : ∀ e, Q e → Q' e)
    (hf : ∀ fn, fn.All Q → (f fn).All Q') {p : Program} (h : p.All Q) :
    (p.mapFunctions f).All Q' := by
  intro el hel
  obtain ⟨el, hmem, rfl⟩ := List.mem_map.mp hel
  have hall := h el hmem
  cases el with
  | global d => exact fun e he => hmono e (hall e he)
  | function fn => exact hf fn hall
  | layout l => trivial

/-- Rewriting the nodes of a program changes what holds of all its expressions. -/
theorem Program.mapNodes_all {f : Expr → Expr} (hf : ∀ e, Q e → Q' (e.bottomUp f)) {p : Program}
    (h : p.All Q) : (p.mapNodes f).All Q' := by
  rw [Program.all_iff_meets] at h ⊢
  exact Program.mapNodes_meets hf rfl h

end

end ShaderGen
