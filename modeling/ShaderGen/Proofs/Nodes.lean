import ShaderGen.Proofs.Rewriting

/-!
# Nodes and where they stand

A program is a forest of statements and expressions. `Node.children` are the nodes directly below
a node, `Node.Holds` says that one node stands some levels below another, and `Program.HoldsAt`
that a node stands at some depth of a program: the statements of functions and the initial values
of globals are at depth one.

## Key results

- `Stmt.induction_nested`: induction over a statement, for all kinds at once
- `Node.forall_holds_iff`: what holds of all nodes below a node, by its children
- `Stmt.all_throughout_iff`, `Program.all_throughout_iff`: what holds of all expressions at any
  depth of a statement and of a program
-/

namespace ShaderGen

/-- Induction over a statement, for all kinds at once. -/
theorem Stmt.induction_nested {motive : Stmt → Prop}
    (h : ∀ s, (∀ t ∈ s.nested, motive t) → motive s) (s : Stmt) : motive s := by
  -- One case a constructor: the statements that stand directly inside are its hypotheses.
  induction s with
  | block body ih => exact h _ ih
  | ifElse cond thenBranch elseBranch iht ihe =>
    exact h _ (by simpa [nested] using ⟨iht, ihe⟩)
  | forLoop init cond step body ihi ihb =>
    exact h _ (List.forall_mem_append.mpr ⟨by simpa using ihi, by simpa using ihb⟩)
  | whileLoop cond body ih | doWhile body cond ih => exact h _ (by simpa [nested] using ih)
  | switchOn value cases ih =>
    refine h _ fun s hs => ?_
    obtain ⟨⟨label, body⟩, hc, hs⟩ := List.mem_flatMap.mp hs
    exact ih label body hc s hs
  | _ => exact h _ nofun

/-- Statement or expression of a program. -/
inductive Node where
  | stmt (s : Stmt)
  | expr (e : Expr)

namespace Node

/-- What stands directly below a node. -/
def children : Node → List Node
  | .stmt s => s.own.map .expr ++ s.nested.map .stmt
  | .expr e => e.children.map .expr

/-- The second node stands so many levels below the first. -/
inductive Holds : Node → Nat → Node → Prop where
  | here (n : Node) : Holds n 0 n
  | inside {n c m : Node} {levels : Nat} (hc : c ∈ n.children) (h : Holds c levels m) :
    Holds n (levels + 1) m

variable {n : Node}

/-- What holds of every node at or below a node holds of the node, and of every node at or below
    its children. -/
theorem forall_holds_iff {P : Nat → Node → Prop} :
    (∀ levels m, n.Holds levels m → P levels m) ↔
      P 0 n ∧ ∀ c ∈ n.children, ∀ levels m, c.Holds levels m → P (levels + 1) m := by
  constructor
  · exact fun h => ⟨h 0 n (.here n), fun c hc levels m hm => h _ m (.inside hc hm)⟩
  · rintro ⟨hhere, hbelow⟩ _ m (_ | ⟨hc, hm⟩)
    · exact hhere
    · exact hbelow _ hc _ m hm

/-- Some node at or below a node has a property if the node has it, or some node at or below one of
    its children. -/
theorem exists_holds_iff {P : Node → Prop} :
    (∃ levels m, n.Holds levels m ∧ P m) ↔
      P n ∨ ∃ c ∈ n.children, ∃ levels m, c.Holds levels m ∧ P m := by
  constructor
  · rintro ⟨_, m, _ | ⟨hc, hm⟩, hP⟩
    · exact .inl hP
    · exact .inr ⟨_, hc, _, m, hm, hP⟩
  · rintro (hP | ⟨c, hc, levels, m, hm, hP⟩)
    · exact ⟨0, n, .here n, hP⟩
    · exact ⟨levels + 1, m, .inside hc hm, hP⟩

end Node

/-- Every node at or below an expression satisfies a predicate. -/
def Expr.Throughout (P : Expr → Prop) (e : Expr) : Prop :=
  ∀ levels n, (Node.expr e).Holds levels (.expr n) → P n

/-- What holds throughout holds of the node and throughout its children. -/
theorem Expr.throughout_iff {P : Expr → Prop} {e : Expr} :
    e.Throughout P ↔ P e ∧ ∀ c ∈ e.children, c.Throughout P := by
  -- What holds of all nodes holds of all nodes that are expressions.
  have h := Node.forall_holds_iff (n := .expr e)
    (P := fun _ m => ∀ n, m = .expr n → P n)
  simp only [Node.children, List.forall_mem_map] at h
  constructor
  · intro he
    have := h.mp fun levels m hm n hn => he levels n (hn ▸ hm)
    exact ⟨this.1 e rfl, fun c hc levels n hn => this.2 c hc levels _ hn n rfl⟩
  · rintro ⟨hhere, hbelow⟩ levels n hn
    refine h.mpr ⟨fun n hn => Node.expr.inj hn ▸ hhere, ?_⟩ levels _ hn n rfl
    exact fun c hc levels m hm n hn => hbelow c hc levels n (hn ▸ hm)

/-- No node of an expression satisfies a predicate if and only if none is found. -/
theorem Expr.throughout_iff_any {p : Expr → Bool} {e : Expr} :
    e.Throughout (fun n => p n = false) ↔ e.any p = false := by
  induction e using Expr.induction_children with
  | h e ih =>
    rw [throughout_iff, any_eq_false_iff]
    exact and_congr Iff.rfl (forall₂_congr ih)

/-- What holds of all expressions at any depth of a statement holds throughout the expressions that
    it and the statements inside it hold. -/
theorem Stmt.all_throughout_iff {P : Expr → Prop} {s : Stmt} :
    s.All (Expr.Throughout P) ↔ ∀ levels e, (Node.stmt s).Holds levels (.expr e) → P e := by
  induction s using Stmt.induction_nested with
  | h s ih =>
    constructor
    · -- What is held is an own expression or what a nested statement holds.
      rintro ⟨hown, hnested⟩ levels e h
      obtain _ | ⟨hc, h⟩ := h
      obtain ⟨c, hmem, rfl⟩ | ⟨t, hmem, rfl⟩ := by simpa [Node.children] using hc
      · exact hown c hmem _ e h
      · exact (ih t hmem).mp (hnested t hmem) _ e h
    · intro h
      refine .intro (fun c hc levels e he => ?_) fun t ht => (ih t ht).mpr fun levels e he => ?_
      · exact h (levels + 1) e (.inside (by simp [Node.children, hc]) he)
      · exact h (levels + 1) e (.inside (by simp [Node.children, ht]) he)

/-- Nodes that stand at depth one. -/
def Element.roots : Element → List Node
  | .global d => d.init.toList.map .expr
  | .function f => f.body.map .stmt
  | .layout _ => []

/-- A node stands at a depth of a program. -/
inductive Program.HoldsAt (p : Program) : Nat → Node → Prop where
  | intro {el : Element} {r n : Node} {levels : Nat} (hel : el ∈ p.elements) (hr : r ∈ el.roots)
    (h : r.Holds levels n) : HoldsAt p (levels + 1) n

/-- What holds throughout the roots of an element holds of all it reaches. -/
private theorem Element.all_throughout_iff {P : Expr → Prop} {el : Element} :
    el.All (Expr.Throughout P) ↔
      ∀ r ∈ el.roots, ∀ levels e, r.Holds levels (.expr e) → P e := by
  cases el with
  | global d => simp [All, roots, Expr.Throughout]
  | function f =>
    simp only [roots, List.forall_mem_map]
    exact forall₂_congr fun s _ => Stmt.all_throughout_iff
  | layout l => simp [All, roots]

/-- What holds of all expressions at any depth of a program holds throughout the expressions that
    its globals and its statements hold. -/
theorem Program.all_throughout_iff {P : Expr → Prop} {p : Program} :
    p.All (Expr.Throughout P) ↔ ∀ depth e, p.HoldsAt depth (.expr e) → P e := by
  constructor
  · rintro h _ e ⟨hel, hr, he⟩
    exact Element.all_throughout_iff.mp (h _ hel) _ hr _ e he
  · intro h el hel
    exact Element.all_throughout_iff.mpr fun r hr levels e he => h _ e (.intro hel hr he)

end ShaderGen
