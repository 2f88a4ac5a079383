import ShaderGen.Glsl.Dialect
import ShaderGen.Proofs.Glsl.Tree
import ShaderGen.Proofs.Induction

/-!
# Trees that statements are read as

A statement is *open* if it ends in an `if` without an `else`. An `else` that is written after an
open statement belongs to the nearest such `if`, so the branch in front of an `else` has to end
in none for the `else` to belong where it is meant to (`Stmt.hasDanglingElse`).

## Key results

- `Stmt.reading_eq_skeleton_iff`: a statement is read as itself if and only if no `else` in it
  dangles
-/

namespace ShaderGen

open Glsl

/-- What a declaration is read as. Of the storage class its word is left, of the type its shape, and
    the precision only where it is written. -/
structure DeclTree where
  storage : Option String
  precision : Option Precision
  shape : Shape
  name : String
  init : Option Tree
deriving Repr

mutual
/-- What a statement is read as. -/
inductive StmtTree where
  | block (body : List StmtTree)
  | decl (declared : DeclTree)
  | ifElse (cond : Tree) (thenBranch : StmtTree) (elseBranch : Option StmtTree)
  | forLoop (init : Option StmtTree) (cond step : Option Tree) (body : StmtTree)
  | whileLoop (cond : Tree) (body : StmtTree)
  | doWhile (body : StmtTree) (cond : Tree)
  | switchOn (value : Tree) (cases : List CaseTree)
  | expr (e : Tree)
  | returnWith (value : Option Tree)
  | breakOut
  | continueLoop
  | discard
  | emitVertex
  | endPrimitive

/-- What a case of a `switch` is read as; no label stands for the default case. -/
inductive CaseTree where
  | mk (label : Option Tree) (body : List StmtTree)
end

namespace StmtTree

/-- Whether a statement ends in an `if` without an `else`. -/
def isOpen : StmtTree → Bool
  | .ifElse _ _ none => true
  | .ifElse _ _ (some elseBranch) => elseBranch.isOpen
  | .forLoop _ _ _ body => body.isOpen
  | .whileLoop _ body => body.isOpen
  | _ => false

/-- An open statement with an `else` for the nearest `if` that has none. -/
def withElse : StmtTree → StmtTree → StmtTree
  | .ifElse cond thenBranch none, added =>
    if thenBranch.isOpen then .ifElse cond (thenBranch.withElse added) none
    else .ifElse cond thenBranch (some added)
  | .ifElse cond thenBranch (some elseBranch), added =>
    .ifElse cond thenBranch (some (elseBranch.withElse added))
  | .forLoop init cond step body, added => .forLoop init cond step (body.withElse added)
  | .whileLoop cond body, added => .whileLoop cond (body.withElse added)
  | t, _ => t

/-- What an `if` is read as whose branches are read as statements. -/
def nearest (cond : Tree) (thenBranch : StmtTree) : Option StmtTree → StmtTree
  | none => .ifElse cond thenBranch none
  | some elseBranch =>
    if thenBranch.isOpen then .ifElse cond (thenBranch.withElse elseBranch) none
    else .ifElse cond thenBranch (some elseBranch)

end StmtTree

/-- Word for a storage class in the text of a stage. Legacy texts have words of their own for what
    goes into the vertex stage and for what it passes on. -/
def Storage.word? (legacy : Bool) (stage : Stage) : Storage → Option String
  | .auto => none
  | .const => some "const"
  | .uniform => some "uniform"
  | .input => some <|
    if legacy && stage == .vertex then "attribute"
    else if legacy && stage == .fragment then "varying"
    else "in"
  | .output => some (if legacy && stage == .vertex then "varying" else "out")
  | .varying => some <|
    if legacy && stage != .geometry then "varying" else if stage == .fragment then "in" else "out"

/-- Precision that is written in front of a type: of numbers alone, and not where texts have no
    qualifiers. -/
def Ty.written? (qualifying : Qualifying) (ty : Ty) : Option Precision :=
  match ty.shape, qualifying with
  | .void, _ | .sampler _, _ | .scalar .bool, _ | .vector .bool _, _ => none
  | _, .off => none
  | _, .byType => some ty.precision
  | _, .highest => some .full

/-- What a declaration is read as in a dialect. -/
def Decl.skeleton (d : Dialect) (decl : Decl) : DeclTree where
  storage := decl.storage.word? d.legacy d.stage
  precision := decl.ty.written? d.qualifying
  shape := decl.ty.shape
  name := decl.name
  init := decl.init.map Expr.skeleton

namespace Stmt

mutual
/-- Tree of a statement in a dialect, `join` putting together each `if`. -/
def tree (d : Dialect) (join : Tree → StmtTree → Option StmtTree → StmtTree) : Stmt → StmtTree
  | .block body => .block (listTree d join body)
  | .decl declared => .decl (declared.skeleton d)
  | .ifElse cond thenBranch elseBranch =>
    join cond.skeleton (thenBranch.tree d join) (optionTree d join elseBranch)
  | .forLoop init cond step body =>
    .forLoop (optionTree d join init) (cond.map Expr.skeleton) (step.map Expr.skeleton)
      (body.tree d join)
  | .whileLoop cond body => .whileLoop cond.skeleton (body.tree d join)
  | .doWhile body cond => .doWhile (body.tree d join) cond.skeleton
  | .switchOn value cases => .switchOn value.skeleton (caseTrees d join cases)
  | .expr e => .expr e.skeleton
  | .returnWith value => .returnWith (value.map Expr.skeleton)
  | .breakOut => .breakOut
  | .continueLoop => .continueLoop
  | .discard => .discard
  | .emitVertex => .emitVertex
  | .endPrimitive => .endPrimitive

/-- Tree of a statement that need not be there. -/
def optionTree (d : Dialect) (join : Tree → StmtTree → Option StmtTree → StmtTree) :
    Option Stmt → Option StmtTree
  | none => none
  | some s => some (s.tree d join)

/-- Trees of several statements. -/
def listTree (d : Dialect) (join : Tree → StmtTree → Option StmtTree → StmtTree) :
    List Stmt → List StmtTree
  | [] => []
  | s :: ss => s.tree d join :: listTree d join ss

/-- Trees of the cases of a `switch`. -/
def caseTrees (d : Dialect) (join : Tree → StmtTree → Option StmtTree → StmtTree) :
    List Case → List CaseTree
  | [] => []
  | .mk label body :: cases =>
    .mk (label.map fun n => (Literal.int n).skeleton) (listTree d join body) ::
      caseTrees d join cases
end

/-- What is left of a statement without what its text does not show: the same branches, bodies
    and blocks around the same declarations and expressions. -/
def skeleton (d : Dialect) : Stmt → StmtTree := tree d .ifElse

/-- What the text of a statement is read as, each `else` belonging to the nearest open `if`. -/
def reading (d : Dialect) : Stmt → StmtTree := tree d .nearest

/-- Whether a statement ends in an `if` without an `else`. -/
def isOpen : Stmt → Bool
  | .ifElse _ _ none => true
  | .ifElse _ _ (some elseBranch) => elseBranch.isOpen
  | .forLoop _ _ _ body => body.isOpen
  | .whileLoop _ body => body.isOpen
  | _ => false

mutual
/-- Whether a statement has an `else` after a branch that ends in an `if` without one. -/
def hasDanglingElse : Stmt → Bool
  | .block body => listHasDanglingElse body
  | .ifElse _ thenBranch elseBranch =>
    elseBranch.isSome && thenBranch.isOpen || thenBranch.hasDanglingElse ||
      optionHasDanglingElse elseBranch
  | .forLoop init _ _ body => optionHasDanglingElse init || body.hasDanglingElse
  | .whileLoop _ body | .doWhile body _ => body.hasDanglingElse
  | .switchOn _ cases => casesHaveDanglingElse cases
  | _ => false

/-- Whether a statement that need not be there has an `else` that dangles. -/
def optionHasDanglingElse : Option Stmt → Bool
  | none => false
  | some s => s.hasDanglingElse

/-- Whether one of several statements has an `else` that dangles. -/
def listHasDanglingElse : List Stmt → Bool
  | [] => false
  | s :: ss => s.hasDanglingElse || listHasDanglingElse ss

/-- Whether a case of a `switch` has an `else` that dangles. -/
def casesHaveDanglingElse : List Case → Bool
  | [] => false
  | .mk _ body :: cases => listHasDanglingElse body || casesHaveDanglingElse cases
end

variable {d : Dialect}

/-- A statement is open if its tree is. -/
theorem isOpen_skeleton (s : Stmt) : (s.skeleton d).isOpen = s.isOpen := by
  induction s with
  -- The statements that end in another one are as open as that one.
  | ifElse cond thenBranch elseBranch ihthen ihelse =>
    cases elseBranch with
    | none => rfl
    | some elseBranch => exact ihelse elseBranch rfl
  | forLoop init cond step body ihinit ihbody => exact ihbody
  | whileLoop cond body ih => exact ih
  | _ => rfl

/-- An `if` is read with its own branches unless it has an `else` after an open branch. -/
theorem nearest_eq_ifElse_iff {cond : Tree} {thenBranch thenBranch' : StmtTree}
    {elseBranch elseBranch' : Option StmtTree} (h : elseBranch.isSome = elseBranch'.isSome) :
    StmtTree.nearest cond thenBranch elseBranch = .ifElse cond thenBranch' elseBranch' ↔
      (elseBranch.isSome && thenBranch'.isOpen) = false ∧ thenBranch = thenBranch' ∧
        elseBranch = elseBranch' := by
  cases elseBranch with
  | none => simp [StmtTree.nearest]
  | some elseBranch =>
    rw [StmtTree.nearest]
    by_cases hopen : thenBranch.isOpen = true
    · rw [if_pos hopen, StmtTree.ifElse.injEq]
      constructor
      · -- The `else` has gone to another `if`, so this one is left without.
        rintro ⟨-, -, rfl⟩
        exact absurd h (by simp)
      · rintro ⟨hclosed, rfl, -⟩
        exact absurd hclosed (by simp [hopen])
    · rw [if_neg hopen, StmtTree.ifElse.injEq]
      constructor
      · rintro ⟨-, rfl, helse⟩
        exact ⟨by simp [hopen], rfl, helse⟩
      · rintro ⟨-, rfl, helse⟩
        exact ⟨rfl, rfl, helse⟩

/-- Several statements are read as themselves if each of them is. -/
private theorem listTree_eq_iff {ss : List Stmt}
    (h : ∀ s ∈ ss, s.reading d = s.skeleton d ↔ s.hasDanglingElse = false) :
    listTree d .nearest ss = listTree d .ifElse ss ↔ listHasDanglingElse ss = false := by
  induction ss with
  | nil => exact ⟨fun _ => rfl, fun _ => rfl⟩
  | cons s ss ih =>
    show s.reading d :: _ = s.skeleton d :: _ ↔ (s.hasDanglingElse || _) = false
    rw [List.cons.injEq, Bool.or_eq_false_iff, h s List.mem_cons_self,
      ih fun s hs => h s (List.mem_cons_of_mem _ hs)]

/-- A statement that need not be there is read as itself if it is where it is there. -/
private theorem optionTree_eq_iff {o : Option Stmt}
    (h : ∀ s ∈ o, s.reading d = s.skeleton d ↔ s.hasDanglingElse = false) :
    optionTree d .nearest o = optionTree d .ifElse o ↔ optionHasDanglingElse o = false := by
  cases o with
  | none => exact ⟨fun _ => rfl, fun _ => rfl⟩
  | some s =>
    show some (s.reading d) = some (s.skeleton d) ↔ s.hasDanglingElse = false
    rw [Option.some.injEq, h s rfl]

/-- The cases of a `switch` are read as themselves if their statements are. -/
private theorem caseTrees_eq_iff {cases : List Case}
    (h : ∀ label body, .mk label body ∈ cases →
      ∀ s ∈ body, s.reading d = s.skeleton d ↔ s.hasDanglingElse = false) :
    caseTrees d .nearest cases = caseTrees d .ifElse cases ↔
      casesHaveDanglingElse cases = false := by
  induction cases with
  | nil => exact ⟨fun _ => rfl, fun _ => rfl⟩
  | cons c cases ih =>
    obtain ⟨label, body⟩ := c
    -- The trees agree if those of the first body do and those of the other cases do.
    have hbody := listTree_eq_iff (h label body List.mem_cons_self)
    show CaseTree.mk _ _ :: _ = CaseTree.mk _ _ :: _ ↔ (_ || _) = false
    rw [List.cons.injEq, CaseTree.mk.injEq, Bool.or_eq_false_iff, hbody,
      ih fun label body hmem => h label body (List.mem_cons_of_mem _ hmem)]
    simp

/-- A statement is read as itself if and only if no `else` in it dangles. -/
theorem reading_eq_skeleton_iff (s : Stmt) :
    s.reading d = s.skeleton d ↔ s.hasDanglingElse = false := by
  induction s with
  | block body ih =>
    -- One case for each statement with a body: the two trees have the same head, and differ where
    -- the trees of a body do.
    show StmtTree.block _ = StmtTree.block _ ↔ _
    rw [StmtTree.block.injEq]
    exact listTree_eq_iff ih
  | ifElse cond thenBranch elseBranch ihthen ihelse =>
    show StmtTree.nearest _ (thenBranch.reading d) _ =
      .ifElse _ (thenBranch.skeleton d) (optionTree d .ifElse elseBranch) ↔ (_ || _ || _) = false
    -- Only here the two readings are put together differently, by `nearest` and by `ifElse`.
    have hsome : ∀ join, (optionTree d join elseBranch).isSome = elseBranch.isSome := by
      intro join
      cases elseBranch <;> rfl
    rw [nearest_eq_ifElse_iff (by rw [hsome, hsome]), hsome, isOpen_skeleton, ihthen,
      optionTree_eq_iff ihelse, Bool.or_eq_false_iff, Bool.or_eq_false_iff, and_assoc]
  | forLoop init cond step body ihinit ihbody =>
    show StmtTree.forLoop _ _ _ (body.reading d) = .forLoop _ _ _ (body.skeleton d) ↔
      (_ || _) = false
    rw [StmtTree.forLoop.injEq, optionTree_eq_iff ihinit, ihbody, Bool.or_eq_false_iff]
    simp
  | whileLoop cond body ih =>
    show StmtTree.whileLoop _ (body.reading d) = .whileLoop _ (body.skeleton d) ↔ _
    rw [StmtTree.whileLoop.injEq, ih]
    exact and_iff_right rfl
  | doWhile body cond ih =>
    show StmtTree.doWhile (body.reading d) _ = .doWhile (body.skeleton d) _ ↔ _
    rw [StmtTree.doWhile.injEq, ih]
    exact and_iff_left rfl
  | switchOn value cases ih =>
    show StmtTree.switchOn _ _ = StmtTree.switchOn _ _ ↔ _
    rw [StmtTree.switchOn.injEq, caseTrees_eq_iff ih]
    exact and_iff_right rfl
  | _ => exact ⟨fun _ => rfl, fun _ => rfl⟩

end Stmt

end ShaderGen
