import ShaderGen.Program.Traverse
import ShaderGen.Scratch

/-! # Conditions of loops

Every condition `c` of a loop becomes `c && true`. A loop that used to test at its end keeps its
condition in the exit check at the start of its body, so it is changed there as well. -/

namespace ShaderGen.Legalize.LoopCondition

/-- `c && true` -/
def andTrue (cond : Expr) : Expr := .ofBinary .logicalAnd cond (.bool true)

/-- Whether a name is that of the flag of a loop that used to test at its end. -/
def isLoopFlag (name : String) : Bool := Stem.loopFlag.text.toList.isPrefixOf name.toList

/-- Changes the condition of the exit check, if the body of a loop starts with one. -/
def andTrueInExitCheck : Stmt → Stmt
  | s@(.block (.ifElse flag@(.var _ name)
        (.block [.ifElse (.unary ty .not cond) exit otherwise]) none :: rest)) =>
    if isLoopFlag name then
      .block (.ifElse flag
        (.block [.ifElse (.unary ty .not (andTrue cond)) exit otherwise]) none :: rest)
    else s
  | s => s

/-- Changes the condition of a loop. A `for` without a condition stays without one. -/
def andTrueInLoop : Stmt → Stmt
  | .whileLoop cond body => .whileLoop (andTrue cond) (andTrueInExitCheck body)
  | .forLoop init (some cond) step body => .forLoop init (some (andTrue cond)) step body
  | .doWhile body cond => .doWhile body (andTrue cond)
  | s => s

/-- Changes the condition of every loop. -/
def legalize (p : Program) : Program :=
  p.mapFunctions (Function.mapBody (Stmt.bottomUpList andTrueInLoop))

end ShaderGen.Legalize.LoopCondition
