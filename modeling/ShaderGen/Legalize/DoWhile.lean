import ShaderGen.Program.Traverse
import ShaderGen.Scratch

/-! # Loops that test at the end

The loop `do { body } while (c);` becomes

```text
bool flag = false;
while (true) {
    if (flag) {
        if (!c) {
            break;
        }
    }
    flag = true;
    { body }
}
```

Because the flag is set before the body runs, a `continue` in the body reaches the test as well.
Flags are numbered outermost loop first. -/

namespace ShaderGen.Legalize.DoWhile

/-- The test that leaves the loop once the body has run. -/
def exitCheck (flag cond : Expr) : Stmt :=
  .ifElse flag (.block [.ifElse (.ofUnary .not cond) (.block [.breakOut]) none]) none

/-- The loop that tests at its start, with the declaration of its flag. -/
def replace (flagName : String) : Stmt → List Stmt
  | .doWhile body cond =>
    let flag := Expr.ofVar flagName .bool
    [.decl (.plain flagName .bool (some (.bool false))),
     .whileLoop (.bool true)
      (.block [exitCheck flag cond, .assign flag (.bool true), body.toBlock])]
  | s => [s]

/-- Takes a name for the flag of a loop before the loops inside it take theirs. -/
def visit : Stmt → ScratchM (Stmt → List Stmt)
  | .doWhile _ _ => do
    let flagName ← freshName .loopFlag
    pure (replace flagName)
  | _ => pure fun s => [s]

/-- Replaces the loops of one function. -/
def replaceIn (f : Function) : ScratchM Function := do
  let body ← Stmt.expandListM visit f.body
  pure { f with body }

/-- Replaces every loop that tests at its end. -/
def legalize (p : Program) : ScratchM Program := p.mapFunctionsM replaceIn

end ShaderGen.Legalize.DoWhile
