import Mathlib.Data.List.Forall2
import ShaderGen.Proofs.Nodes

/-!
# What a walk visits

The walk over the nodes of a program (`Program.mapNodesM`) hands expressions to a function, and the
search (`Program.anyNode`) looks for one that satisfies a predicate; each goes through statements
and expressions in an order of its own. Both are compared with the positions at which expressions
stand, which tell two equal expressions in different places apart.

## Key results

- `Program.isPostorder_positions`: each position is listed once, after those inside it
- `Program.mapNodesM_visiting`: the walk hands on what stands at these positions, in this order
- `Program.mem_visited_iff_holdsAt`: what is visited is what stands at some depth
- `Program.walk_and_search_cover_positions`: the walk and the search cover all positions
-/

namespace ShaderGen

open List (Forall₂)

/-! ### Positions -/

/-- Where something stands in a tree: which child to go to at each level. -/
abbrev Position := List Nat

/-- `order` lists the positions at which something is found, each of them once, and those inside
    another one before it. -/
structure IsPostorder {α : Type} (find? : Position → Option α) (order : List Position) :
    Prop where
  nodup : order.Nodup
  complete : ∀ path, path ∈ order ↔ (find? path).isSome
  inner_first : order.Pairwise fun first later => ¬ first <+: later

/-- No position is listed twice where none comes before one that it is inside of. -/
theorem IsPostorder.of_inner_first {α : Type} {find? : Position → Option α}
    {order : List Position} (complete : ∀ path, path ∈ order ↔ (find? path).isSome)
    (inner_first : order.Pairwise fun first later => ¬ first <+: later) :
    IsPostorder find? order where
  nodup := inner_first.imp fun hnot => by
    rintro rfl
    exact hnot List.prefix_rfl
  complete := complete
  inner_first := inner_first

/-- Positions below several nodes, from those that start at each of them. -/
def below (lists : List (List Position)) : List Position :=
  lists.zipIdx.flatMap fun (paths, i) => paths.map (i :: ·)

/-- A path goes to a child first, and then on in the subtree of that child. -/
theorem mem_below {lists : List (List Position)} {path : Position} :
    path ∈ below lists ↔ ∃ i rest paths, path = i :: rest ∧ lists[i]? = some paths ∧
      rest ∈ paths := by
  simp only [below, List.mem_flatMap, List.mem_map, Prod.exists, List.mk_mem_zipIdx_iff_getElem?]
  constructor
  · rintro ⟨paths, i, hpaths, rest, hrest, rfl⟩
    exact ⟨i, rest, paths, rfl, hpaths, hrest⟩
  · rintro ⟨i, rest, paths, rfl, hpaths, hrest⟩
    exact ⟨paths, i, hpaths, rest, hrest, rfl⟩

/-- Positions that start at different nodes are not inside each other. -/
theorem pairwise_below {lists : List (List Position)}
    (h : ∀ paths ∈ lists, paths.Pairwise fun first later => ¬ first <+: later) :
    (below lists).Pairwise fun first later => ¬ first <+: later := by
  -- Positions below one child differ as they did there; below two children they differ in the first
  -- step.
  refine List.pairwise_flatMap.mpr ⟨?_, ?_⟩
  · rintro ⟨paths, i⟩ hmem
    have hpaths := List.fst_mem_of_mem_zipIdx hmem
    refine List.pairwise_map.mpr ((h paths hpaths).imp fun {first later} hnot hprefix => ?_)
    exact hnot (List.cons_prefix_cons.mp hprefix).2
  · have hindices : (lists.zipIdx.map Prod.snd).Pairwise (· < ·) := by
      rw [List.zipIdx_map_snd]
      exact List.pairwise_lt_range'
    refine (List.pairwise_map.mp hindices).imp fun {a b} hlt first hfirst later hlater hp => ?_
    obtain ⟨rest, -, rfl⟩ := List.mem_map.mp hfirst
    obtain ⟨rest', -, rfl⟩ := List.mem_map.mp hlater
    exact absurd (List.cons_prefix_cons.mp hp).1 (Nat.ne_of_lt hlt)

/-! ### Positions of a program -/

namespace Node

/-- The expression that a node is. -/
def expr? : Node → Option Expr
  | .expr e => some e
  | .stmt _ => none

/-- The expression at a position, which starts at a node. -/
def exprAt? : Node → Position → Option Expr
  | n, [] => n.expr?
  | n, i :: path => n.children[i]?.bind fun c => c.exprAt? path

/-- The expression at a position, which starts with the choice of one of several nodes. -/
def exprAmong? (ns : List Node) : Position → Option Expr
  | [] => none
  | i :: path => ns[i]?.bind fun n => n.exprAt? path

/-- Induction over a node, for statements and expressions at once. -/
theorem induction {motive : Node → Prop} (h : ∀ n, (∀ c ∈ n.children, motive c) → motive n)
    (n : Node) : motive n := by
  -- Expressions first, since they hold no statements.
  have hexpr : ∀ e, motive (.expr e) := fun e => by
    induction e using Expr.induction_children with
    | h e ih => exact h _ (List.forall_mem_map.mpr ih)
  cases n with
  | expr e => exact hexpr e
  | stmt s =>
    induction s using Stmt.induction_nested with
    | h s ih =>
      exact h _ (List.forall_mem_append.mpr
        ⟨List.forall_mem_map.mpr fun e _ => hexpr e, List.forall_mem_map.mpr ih⟩)

instance : WellFoundedRelation Node where
  rel c n := c ∈ n.children
  wf := ⟨induction fun n ih => .intro n ih⟩

/-- Positions of the expressions at and below a node, those inside another one before it. -/
def positions (n : Node) : List Position :=
  below (n.children.attach.map fun c => c.1.positions) ++ if n.expr?.isSome then [[]] else []
termination_by n
decreasing_by exact c.2

/-- The positions of a subtree come before the node itself. -/
theorem positions_eq (n : Node) :
    n.positions =
      below (n.children.map positions) ++ if n.expr?.isSome then [[]] else [] := by
  rw [positions, List.attach_map_val]

/-- If the positions below each of several nodes are known, so are those below all of them. -/
theorem isPostorder_below {ns : List Node} (h : ∀ n ∈ ns, IsPostorder n.exprAt? n.positions) :
    IsPostorder (exprAmong? ns) (below (ns.map positions)) := by
  refine .of_inner_first (fun path => ?_)
    (pairwise_below (List.forall_mem_map.mpr fun n hn => (h n hn).inner_first))
  rw [mem_below]
  -- A path starts with the number of the child it goes into.
  cases path with
  | nil => simp [exprAmong?]
  | cons i path =>
    rw [exprAmong?]
    cases hi : ns[i]? with
    | none => simp [hi]
    | some n => simpa [hi] using (h n (List.mem_of_getElem? hi)).complete path

/-- A path that is not empty goes on in a child. -/
theorem exprAt?_cons (n : Node) (i : Nat) (path : Position) :
    n.exprAt? (i :: path) = exprAmong? n.children (i :: path) := rfl

/-- Every position of a node is listed once, and after those inside it. -/
theorem isPostorder_positions (n : Node) : IsPostorder n.exprAt? n.positions := by
  induction n using induction with
  | h n ih =>
    have hbelow := isPostorder_below ih
    have hcons : ∀ path ∈ below (n.children.map positions), path ≠ [] := by
      intro path hpath
      obtain ⟨i, rest, -, rfl, -⟩ := mem_below.mp hpath
      exact List.cons_ne_nil i rest
    rw [positions_eq]
    refine .of_inner_first (fun path => ?_) (List.pairwise_append.mpr ?_)
    · rw [List.mem_append]
      cases path with
      -- The empty path is that of the node, and all others go to a child.
      | nil =>
        have hnil : [] ∉ below (n.children.map positions) := fun h => hcons _ h rfl
        simp [hnil, exprAt?]
      | cons i path =>
        rw [exprAt?_cons, ← hbelow.complete]
        simp
    · refine ⟨hbelow.inner_first, by split <;> simp, fun path hpath here hhere hprefix => ?_⟩
      -- The node comes last, and its path is below none of the others.
      have hhere : here = [] := by
        split at hhere
        · exact List.mem_singleton.mp hhere
        · cases hhere
      exact hcons path hpath (List.prefix_nil.mp (hhere ▸ hprefix))

/-- Expressions at and below a node, one for each position, those inside another one before it. -/
def visits (n : Node) : List Expr := n.positions.filterMap n.exprAt?

/-- What stands at the positions below several nodes. -/
theorem filterMap_below (ns : List Node) :
    (below (ns.map positions)).filterMap (exprAmong? ns) = ns.flatMap visits := by
  -- Behind one number the positions are those of one child.
  have hvisits : ∀ x ∈ ns.zipIdx,
      (x.1.positions.map (x.2 :: ·)).filterMap (exprAmong? ns) = x.1.visits := by
    rintro ⟨n, i⟩ hx
    have hn := List.mk_mem_zipIdx_iff_getElem?.mp hx
    rw [List.filterMap_map, visits]
    refine List.filterMap_congr fun path _ => ?_
    simp [exprAmong?, hn]
  rw [below, List.zipIdx_map, List.flatMap_map, List.filterMap_flatMap]
  refine (List.flatMap_congr hvisits).trans ?_
  conv_rhs => rw [← List.zipIdx_map_fst 0 ns, List.flatMap_map]

/-- The children are visited before the node. -/
theorem visits_eq (n : Node) : n.visits = n.children.flatMap visits ++ n.expr?.toList := by
  rw [visits, positions_eq, List.filterMap_append, ← filterMap_below]
  congr 1
  · refine List.filterMap_congr fun path hpath => ?_
    obtain ⟨i, rest, -, rfl, -⟩ := mem_below.mp hpath
    rfl
  · cases n <;> rfl

/-- An expression is visited after its children. -/
theorem visits_expr (e : Expr) :
    (Node.expr e).visits = e.children.flatMap (fun c => (Node.expr c).visits) ++ [e] := by
  rw [visits_eq, children, List.flatMap_map]
  rfl

/-- The expressions of a statement are visited before the statements in it. -/
theorem visits_stmt (s : Stmt) :
    (Node.stmt s).visits =
      s.own.flatMap (fun e => (Node.expr e).visits) ++
        s.nested.flatMap fun t => (Node.stmt t).visits := by
  rw [visits_eq, children, List.flatMap_append, List.flatMap_map, List.flatMap_map]
  exact List.append_nil _

/-- A statement with none inside visits its own expressions. -/
theorem visits_stmt_of_nested_eq_nil {s : Stmt} (h : s.nested = []) :
    (Node.stmt s).visits = s.own.flatMap fun e => (Node.expr e).visits := by
  rw [visits_stmt, h, List.flatMap_nil, List.append_nil]

/-- What is visited below a node is what stands there. -/
theorem mem_visits_iff {n : Node} {e : Expr} :
    e ∈ n.visits ↔ ∃ levels, n.Holds levels (.expr e) := by
  induction n using induction with
  | h n ih =>
    have h := exists_holds_iff (n := n) (P := fun m => m = .expr e)
    simp only [exists_eq_right] at h
    rw [h, visits_eq, List.mem_append, List.mem_flatMap, or_comm]
    refine or_congr ?_ (exists_congr fun c => and_congr_right fun hc => ih c hc)
    cases n <;> simp [expr?, eq_comm]

end Node

/-! ### Walks that change nothing -/

section

variable {m : Type → Type} [Monad m] (note : Expr → m Unit) {α β : Type}

/-- Hands expressions to a function, in order, and gives back something else. -/
def visiting (es : List Expr) (a : α) : m α := do
  es.forM note
  pure a

variable [LawfulMonad m] {note} {es es' : List Expr} {a : α} {b : β}

/-- A value alone visits nothing. -/
theorem pure_eq_visiting : (pure a : m α) = visiting note [] a := by
  simp [visiting]

/-- Visits made in a row are joined. -/
theorem visiting_bind {x : m α} {f : α → m β} (hx : x = visiting note es a)
    (hf : f a = visiting note es' b) : x >>= f = visiting note (es ++ es') b := by
  simp [hx, hf, visiting]

/-- Going on with what was given back. -/
theorem visiting_bind_pure {x : m α} {f : α → m β} (hx : x = visiting note es a)
    (hf : f a = pure b) : x >>= f = visiting note es b := by
  simp [hx, hf, visiting]

/-- A walk over a list visits the members one after the other. -/
theorem mapM_eq_visiting {walk : α → m α} {visits : α → List Expr} {as : List α}
    (h : ∀ a ∈ as, walk a = visiting note (visits a) a) :
    as.mapM walk = visiting note (as.flatMap visits) as := by
  induction as with
  | nil => simp [visiting]
  | cons a as ih =>
    have hrest := ih fun a ha => h a (List.mem_cons_of_mem _ ha)
    rw [List.mapM_cons, List.flatMap_cons]
    exact visiting_bind (h a List.mem_cons_self) (visiting_bind_pure hrest rfl)

/-- Rebuilding an expression by itself hands on all its nodes. -/
theorem Expr.bottomUpM_visiting (e : Expr) :
    e.bottomUpM (fun n => visiting note [n] n) = visiting note (Node.expr e).visits e := by
  induction e using induction_children with
  | h e ih =>
    rw [bottomUpM_eq, Node.visits_expr]
    exact visiting_bind (mapM_eq_visiting ih) (by rw [withChildren_children])

section

variable {f : Expr → m Expr} (hf : ∀ e, f e = visiting note (Node.expr e).visits e)
include hf

/-- A walk over an optional expression visits it if it is there. -/
theorem option_mapM_visiting (o : Option Expr) :
    o.mapM f = visiting note (o.toList.flatMap fun e => (Node.expr e).visits) o := by
  cases o with
  | none => simp [visiting]
  | some e =>
    rw [Option.mapM_some, ← bind_pure_comp, Option.toList_some, List.flatMap_singleton]
    exact visiting_bind_pure (hf e) rfl

/-- A walk over a declaration visits its initial value. -/
theorem Decl.mapInitM_visiting (d : Decl) :
    d.mapInitM f = visiting note (d.init.toList.flatMap fun e => (Node.expr e).visits) d :=
  visiting_bind_pure (option_mapM_visiting hf d.init) rfl

namespace Stmt

omit hf in
/-- What is known of the walk over each of several statements is known of the walk over all. -/
theorem mapExprsListM_visiting {ss : List Stmt}
    (h : ∀ s ∈ ss, s.mapExprsM f = visiting note (Node.stmt s).visits s) :
    mapExprsListM f ss = visiting note (ss.flatMap fun s => (Node.stmt s).visits) ss := by
  induction ss with
  | nil => exact pure_eq_visiting
  | cons s ss ih =>
    have hrest := ih fun t ht => h t (List.mem_cons_of_mem _ ht)
    rw [List.flatMap_cons]
    exact visiting_bind (h s List.mem_cons_self) (visiting_bind_pure hrest rfl)

/-- Rebuilding the expressions of a statement by themselves hands on all nodes of them. -/
theorem mapExprsM_visiting (s : Stmt) : s.mapExprsM f = visiting note (Node.stmt s).visits s := by
  -- An optional statement is visited like the list of it.
  have hoption : ∀ {o : Option Stmt},
      (∀ s ∈ o, s.mapExprsM f = visiting note (Node.stmt s).visits s) →
      mapExprsOptionM f o = visiting note (o.toList.flatMap fun s => (Node.stmt s).visits) o := by
    intro o h
    cases o with
    | none => exact pure_eq_visiting
    | some s =>
      rw [Option.toList_some, List.flatMap_singleton]
      exact visiting_bind_pure (h s rfl) rfl
  -- The walk takes the expressions of a statement itself before those of the statements inside it,
  -- which is the order of the nodes.
  induction s with
  | block body ih =>
    rw [Node.visits_stmt]
    exact visiting_bind_pure (mapExprsListM_visiting ih) rfl
  | decl d =>
    rw [Node.visits_stmt_of_nested_eq_nil rfl]
    exact visiting_bind_pure (Decl.mapInitM_visiting hf d) rfl
  | ifElse cond thenBranch elseBranch iht ihe =>
    rw [Node.visits_stmt, own, nested, List.flatMap_singleton, List.flatMap_cons]
    exact visiting_bind (hf cond) (visiting_bind iht (visiting_bind_pure (hoption ihe) rfl))
  | forLoop init cond step body ihi ihb =>
    rw [Node.visits_stmt, own, nested, List.flatMap_append, List.flatMap_append,
      List.flatMap_singleton, List.append_assoc]
    exact visiting_bind (option_mapM_visiting hf cond) (visiting_bind (option_mapM_visiting hf step)
      (visiting_bind (hoption ihi) (visiting_bind_pure ihb rfl)))
  | whileLoop cond body ih | doWhile body cond ih =>
    rw [Node.visits_stmt, own, nested, List.flatMap_singleton, List.flatMap_singleton]
    exact visiting_bind (hf cond) (visiting_bind_pure ih rfl)
  | switchOn value cases ih =>
    have hcases : mapExprsCasesM f cases =
        visiting note ((cases.flatMap Case.body).flatMap fun s => (Node.stmt s).visits) cases := by
      -- The cases are visited one after another, the statements of each in order.
      induction cases with
      | nil => exact pure_eq_visiting
      | cons c cases ihc =>
        obtain ⟨label, body⟩ := c
        have hrest := ihc fun label' body' hc => ih label' body' (List.mem_cons_of_mem _ hc)
        rw [List.flatMap_cons, List.flatMap_append]
        exact visiting_bind (mapExprsListM_visiting (ih label body List.mem_cons_self))
          (visiting_bind_pure hrest rfl)
    rw [Node.visits_stmt, own, nested, List.flatMap_singleton]
    exact visiting_bind (hf value) (visiting_bind_pure hcases rfl)
  | expr e =>
    rw [Node.visits_stmt_of_nested_eq_nil rfl, own, List.flatMap_singleton]
    exact visiting_bind_pure (hf e) rfl
  | returnWith value =>
    rw [Node.visits_stmt_of_nested_eq_nil rfl]
    exact visiting_bind_pure (option_mapM_visiting hf value) rfl
  | _ =>
    rw [Node.visits_stmt]
    exact pure_eq_visiting

end Stmt

/-- A walk over an element visits what its roots hold. -/
theorem Element.mapExprsM_visiting (el : Element) :
    el.mapExprsM f = visiting note (el.roots.flatMap Node.visits) el := by
  cases el with
  -- The positions of an element are those of its roots, in order.
  | global d =>
    rw [roots, List.flatMap_map]
    exact visiting_bind_pure (Decl.mapInitM_visiting hf d) rfl
  | function fn =>
    rw [roots, List.flatMap_map]
    exact visiting_bind_pure
      (visiting_bind_pure (Stmt.mapExprsListM_visiting fun s _ => s.mapExprsM_visiting hf) rfl) rfl
  | layout l => exact pure_eq_visiting

end

end

/-! ### Programs -/

namespace Program

/-- Nodes that stand at depth one, in order. -/
def roots (p : Program) : List Node := p.elements.flatMap Element.roots

/-- The expression at a position of a program. -/
def exprAt? (p : Program) : Position → Option Expr := Node.exprAmong? p.roots

/-- Positions of the expressions of a program, those inside another one before it. -/
def positions (p : Program) : List Position := below (p.roots.map Node.positions)

/-- Expressions that the walk hands to its function, in order, if that changes none of them. -/
def visited (p : Program) : List Expr :=
  ((p.mapNodesM fun e => do
    modify fun es => es ++ [e]
    pure e : StateM (List Expr) Program).run []).2

variable {p : Program}

/-- Every position of a program is listed once, and after those inside it. -/
theorem isPostorder_positions (p : Program) : IsPostorder p.exprAt? p.positions :=
  Node.isPostorder_below fun n _ => n.isPostorder_positions

/-- A walk over a program visits what its roots hold. -/
private theorem mapNodesM_visiting_roots {m : Type → Type} [Monad m] [LawfulMonad m]
    (note : Expr → m Unit) (p : Program) :
    p.mapNodesM (fun e => do note e; pure e) = visiting note (p.roots.flatMap Node.visits) p := by
  have hnode : ∀ e, (do note e; pure e) = visiting note [e] e := fun e => by simp [visiting]
  rw [roots, List.flatMap_assoc]
  refine visiting_bind_pure (mapM_eq_visiting fun el _ => ?_) rfl
  refine Element.mapExprsM_visiting (fun e => ?_) el
  simp only [hnode]
  exact Expr.bottomUpM_visiting e

/-- Noting each visit in a list gives the visits in order. -/
private theorem run_visiting (es done : List Expr) (p : Program) :
    ((visiting (m := StateM (List Expr)) (fun e => modify fun es => es ++ [e]) es p).run done).2 =
      done ++ es := by
  induction es generalizing done with
  | nil => exact (List.append_nil done).symm
  | cons e es ih => simpa [visiting] using ih (done ++ [e])

/-- What is visited in a program is what its roots hold. -/
theorem visited_eq (p : Program) : p.visited = p.roots.flatMap Node.visits := by
  rw [visited, mapNodesM_visiting_roots, run_visiting, List.nil_append]

/-- The walk hands the visited expressions to its function in order, whatever the function does
    besides giving each of them back. -/
theorem mapNodesM_visiting {m : Type → Type} [Monad m] [LawfulMonad m] (note : Expr → m Unit)
    (p : Program) : p.mapNodesM (fun e => do note e; pure e) = visiting note p.visited p := by
  rw [visited_eq, mapNodesM_visiting_roots]

/-- What is visited stands at the positions of the program, in this order. -/
theorem visited_at_positions (p : Program) :
    Forall₂ (fun path e => p.exprAt? path = some e) p.positions p.visited := by
  have hvisited : p.visited = p.positions.filterMap p.exprAt? := by
    rw [visited_eq, ← Node.filterMap_below]
    rfl
  have hfound : ∀ path ∈ p.positions, (p.exprAt? path).isSome :=
    -- Every position has an expression, so none is dropped from the list.
    fun path => (p.isPostorder_positions.complete path).mp
  rw [hvisited]
  generalize p.positions = order at hfound
  induction order with
  | nil => exact .nil
  | cons path order ih =>
    obtain ⟨e, he⟩ := Option.isSome_iff_exists.mp (hfound path List.mem_cons_self)
    rw [List.filterMap_cons_some he]
    exact .cons he (ih fun path h => hfound path (List.mem_cons_of_mem _ h))

/-- What is visited is what stands at some depth. -/
theorem mem_visited_iff_holdsAt {e : Expr} :
    e ∈ p.visited ↔ ∃ depth, p.HoldsAt depth (.expr e) := by
  simp only [visited_eq, roots, List.mem_flatMap, Node.mem_visits_iff]
  constructor
  · rintro ⟨r, ⟨el, hel, hr⟩, levels, h⟩
    exact ⟨levels + 1, .intro hel hr h⟩
  · rintro ⟨_, hel, hr, h⟩
    exact ⟨_, ⟨_, hel, hr⟩, _, h⟩

/-- The search finds what is visited, and nothing else. -/
theorem anyNode_iff_visited {q : Expr → Bool} :
    p.anyNode q = true ↔ ∃ e ∈ p.visited, q e = true := by
  -- It is easier to say where nothing is found.
  have hfalse : p.anyNode q = false ↔ ∀ e ∈ p.visited, q e = false := by
    simp only [anyNode_eq_false_iff, ← Expr.throughout_iff_any, all_throughout_iff,
      mem_visited_iff_holdsAt]
    constructor
    · rintro h e ⟨depth, he⟩
      exact h depth e he
    · exact fun h depth e he => h e ⟨depth, he⟩
  rw [← not_iff_not, Bool.not_eq_true, hfalse]
  simp

/-- The walk over a program and the search in it cover the same expressions: those at all
    positions, each position once, and after those inside it. -/
theorem walk_and_search_cover_positions (p : Program) :
    IsPostorder p.exprAt? p.positions ∧
      Forall₂ (fun path e => p.exprAt? path = some e) p.positions p.visited ∧
      (∀ {m : Type → Type} [Monad m] [LawfulMonad m] (note : Expr → m Unit),
        p.mapNodesM (fun e => do note e; pure e) = do p.visited.forM note; pure p) ∧
      ∀ q : Expr → Bool, p.anyNode q = true ↔ ∃ e ∈ p.visited, q e = true :=
  ⟨p.isPostorder_positions, p.visited_at_positions, fun note => p.mapNodesM_visiting note,
    fun _ => anyNode_iff_visited⟩

/-- In the header of a loop the condition and the step are visited before the initializer. -/
example :
    let step := Expr.unary .float .postIncrement (.var .float "i")
    let loop := Stmt.forLoop (some (.expr (.var .int "a"))) none (some step) (.returnWith none)
    (⟨.fragment, [.function (.entry [loop])]⟩ : Program).visited =
      [.var .float "i", step, .var .int "a"] := rfl

end Program

end ShaderGen
