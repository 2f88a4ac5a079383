import ShaderGen.Stmt.Basic

/-!
# Induction over expressions and statements

Expressions and statements hold lists of themselves, so the principles that come with their
definitions speak about lists as well. The ones here have a case for each constructor, with a
hypothesis for every member of a list.
-/

namespace ShaderGen

/-- Induction over an expression. -/
@[elab_as_elim, induction_eliminator]
theorem Expr.induction {motive : Expr → Prop}
    (literal : ∀ ty value, motive (.literal ty value))
    (var : ∀ ty name, motive (.var ty name))
    (builtin : ∀ ty which, motive (.builtin ty which))
    (unary : ∀ ty op operand, motive operand → motive (.unary ty op operand))
    (binary : ∀ ty op left right, motive left → motive right → motive (.binary ty op left right))
    (ternary : ∀ ty cond ifTrue ifFalse, motive cond → motive ifTrue → motive ifFalse →
      motive (.ternary ty cond ifTrue ifFalse))
    (call : ∀ ty callee args, (∀ arg ∈ args, motive arg) → motive (.call ty callee args))
    (swizzle : ∀ ty base mask, motive base → motive (.swizzle ty base mask))
    (index : ∀ ty base position, motive base → motive position → motive (.index ty base position))
    (construct : ∀ ty args, (∀ arg ∈ args, motive arg) → motive (.construct ty args))
    (group : ∀ ty inner, motive inner → motive (.group ty inner)) :
    ∀ e, motive e := by
  -- The size goes down from a node to its children, those in a list included.
  have step : ∀ n e, sizeOf e < n → motive e := by
    intro n
    induction n with
    | zero => exact fun e h => absurd h (Nat.not_lt_zero _)
    | succ n ih =>
      intro e he
      cases e with
      | literal ty value => exact literal ty value
      | var ty name => exact var ty name
      | builtin ty which => exact builtin ty which
      | unary ty op operand =>
        simp only [Expr.unary.sizeOf_spec] at he
        exact unary ty op operand (ih _ (by omega))
      | binary ty op left right =>
        simp only [Expr.binary.sizeOf_spec] at he
        exact binary ty op left right (ih _ (by omega)) (ih _ (by omega))
      | ternary ty cond ifTrue ifFalse =>
        simp only [Expr.ternary.sizeOf_spec] at he
        exact ternary ty cond ifTrue ifFalse (ih _ (by omega)) (ih _ (by omega)) (ih _ (by omega))
      -- An argument is smaller than the list it stands in.
      | call ty callee args =>
        simp only [Expr.call.sizeOf_spec] at he
        refine call ty callee args fun arg harg => ih _ ?_
        have := List.sizeOf_lt_of_mem harg
        omega
      | swizzle ty base mask =>
        simp only [Expr.swizzle.sizeOf_spec] at he
        exact swizzle ty base mask (ih _ (by omega))
      | index ty base position =>
        simp only [Expr.index.sizeOf_spec] at he
        exact index ty base position (ih _ (by omega)) (ih _ (by omega))
      | construct ty args =>
        simp only [Expr.construct.sizeOf_spec] at he
        refine construct ty args fun arg harg => ih _ ?_
        have := List.sizeOf_lt_of_mem harg
        omega
      | group ty inner =>
        simp only [Expr.group.sizeOf_spec] at he
        exact group ty inner (ih _ (by omega))
  exact fun e => step (sizeOf e + 1) e (Nat.lt_succ_self _)

/-- Induction over a statement. -/
@[elab_as_elim, induction_eliminator]
theorem Stmt.induction {motive : Stmt → Prop}
    (block : ∀ body, (∀ s ∈ body, motive s) → motive (.block body))
    (decl : ∀ d, motive (.decl d))
    (ifElse : ∀ cond thenBranch elseBranch, motive thenBranch →
      (∀ s ∈ elseBranch, motive s) → motive (.ifElse cond thenBranch elseBranch))
    (forLoop : ∀ init cond step body, (∀ s ∈ init, motive s) → motive body →
      motive (.forLoop init cond step body))
    (whileLoop : ∀ cond body, motive body → motive (.whileLoop cond body))
    (doWhile : ∀ body cond, motive body → motive (.doWhile body cond))
    (switchOn : ∀ value cases, (∀ label body, .mk label body ∈ cases → ∀ s ∈ body, motive s) →
      motive (.switchOn value cases))
    (expr : ∀ e, motive (.expr e))
    (returnWith : ∀ value, motive (.returnWith value))
    (breakOut : motive .breakOut)
    (continueLoop : motive .continueLoop)
    (discard : motive .discard)
    (emitVertex : motive .emitVertex)
    (endPrimitive : motive .endPrimitive) :
    ∀ s, motive s := by
  -- As for expressions, by induction on a bound of the size.
  have step : ∀ n s, sizeOf s < n → motive s := by
    intro n
    induction n with
    | zero => exact fun s h => absurd h (Nat.not_lt_zero _)
    | succ n ih =>
      intro s hs
      cases s with
      | block body =>
        simp only [Stmt.block.sizeOf_spec] at hs
        refine block body fun s hmem => ih _ ?_
        have := List.sizeOf_lt_of_mem hmem
        omega
      | decl d => exact decl d
      | ifElse cond thenBranch elseBranch =>
        simp only [Stmt.ifElse.sizeOf_spec] at hs
        refine ifElse cond thenBranch elseBranch (ih _ (by omega)) fun s hmem => ih _ ?_
        -- A branch that is there is smaller than the optional one.
        rw [Option.mem_def.mp hmem, Option.some.sizeOf_spec] at hs
        omega
      | forLoop init cond step body =>
        simp only [Stmt.forLoop.sizeOf_spec] at hs
        refine forLoop init cond step body (fun s hmem => ih _ ?_) (ih _ (by omega))
        rw [Option.mem_def.mp hmem, Option.some.sizeOf_spec] at hs
        omega
      | whileLoop cond body =>
        simp only [Stmt.whileLoop.sizeOf_spec] at hs
        exact whileLoop cond body (ih _ (by omega))
      | doWhile body cond =>
        simp only [Stmt.doWhile.sizeOf_spec] at hs
        exact doWhile body cond (ih _ (by omega))
      | switchOn value cases =>
        simp only [Stmt.switchOn.sizeOf_spec] at hs
        refine switchOn value cases fun label body hcase s hmem => ih _ ?_
        -- A statement is smaller than its body, and the body smaller than its case.
        have hbody := List.sizeOf_lt_of_mem hcase
        have hstmt := List.sizeOf_lt_of_mem hmem
        simp only [Case.mk.sizeOf_spec] at hbody
        omega
      | expr e => exact expr e
      | returnWith value => exact returnWith value
      | breakOut => exact breakOut
      | continueLoop => exact continueLoop
      | discard => exact discard
      | emitVertex => exact emitVertex
      | endPrimitive => exact endPrimitive
  exact fun s => step (sizeOf s + 1) s (Nat.lt_succ_self _)

end ShaderGen
