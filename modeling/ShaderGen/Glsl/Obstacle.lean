import ShaderGen.Glsl.Dialect
import ShaderGen.Scratch

/-! # What cannot be printed

Some programs have no spelling in a dialect: legacy generations have no unsigned integers and no
fragment outputs, and no generation has numerals for infinities and NaNs. `obstacle?` finds the
first such thing in the order of the text. It also finds what only a malformed program can have
after the pipeline. -/

namespace ShaderGen

open Glsl

/-- Legacy generations have no unsigned types. -/
def Ty.obstacle? (legacy : Bool) (ty : Ty) : Option Fault :=
  match ty.shape with
  | .scalar .uint | .vector .uint _ => if legacy then some (.unsupported .unsignedType) else none
  | _ => none

/-- Only finite floats have numerals, and legacy generations have no unsigned ones. -/
def Literal.obstacle? (legacy : Bool) : Literal → Option Fault
  | .float v => if v.isFinite then none else some (.unsupported (.nonFiniteLiteral v))
  | .uint _ => if legacy then some (.unsupported .unsignedLiteral) else none
  | .int _ | .bool _ => none

/-- No dialect has a variable for the size of the render target. -/
def Builtin.obstacle? : Builtin → Option Fault
  | .width => some (.malformed (.sizeLeft .width))
  | .height => some (.malformed (.sizeLeft .height))
  | _ => none

/-- No dialect has constant selectors. -/
def Mask.obstacle? (mask : Mask) : Option Fault :=
  if mask.any Selector.isLiteral then some (.malformed .literalSelectorLeft) else none

namespace Expr

mutual
/-- First obstacle of an expression. -/
def obstacle? (legacy : Bool) : Expr → Option Fault
  | .literal _ value => value.obstacle? legacy
  | .var _ _ => none
  | .builtin _ which => which.obstacle?
  | .unary _ _ operand => operand.obstacle? legacy
  | .binary _ _ left right => left.obstacle? legacy <|> right.obstacle? legacy
  | .ternary _ cond ifTrue ifFalse =>
    cond.obstacle? legacy <|> ifTrue.obstacle? legacy <|> ifFalse.obstacle? legacy
  | .call _ _ args => listObstacle? legacy args
  | .swizzle _ base mask => base.obstacle? legacy <|> mask.obstacle?
  | .index _ base position => base.obstacle? legacy <|> position.obstacle? legacy
  | .construct ty args => ty.obstacle? legacy <|> listObstacle? legacy args
  | .group _ inner => inner.obstacle? legacy

/-- First obstacle of several expressions. -/
def listObstacle? (legacy : Bool) : List Expr → Option Fault
  | [] => none
  | e :: es => e.obstacle? legacy <|> listObstacle? legacy es
end

end Expr

/-- First obstacle of a declaration: its storage class, its type or its initial value. -/
def Decl.obstacle? (d : Dialect) (decl : Decl) : Option Fault :=
  (if d.hasStorage decl.storage then none else some (.unsupported .fragmentOutput)) <|>
    decl.ty.obstacle? d.legacy <|> decl.init.bind (Expr.obstacle? d.legacy)

namespace Stmt

/-- First obstacle of the initializer of a `for`. -/
def initObstacle? (d : Dialect) : Option Stmt → Option Fault
  | none => none
  | some (.decl declared) => declared.obstacle? d
  | some (.expr e) => e.obstacle? d.legacy
  | some _ => some (.malformed .loopInitializer)

mutual
/-- First obstacle of a statement. -/
def obstacle? (d : Dialect) : Stmt → Option Fault
  | .block body => listObstacle? d body
  | .decl declared => declared.obstacle? d
  | .ifElse cond thenBranch elseBranch =>
    cond.obstacle? d.legacy <|> thenBranch.obstacle? d <|> optionObstacle? d elseBranch
  | .forLoop init cond step body =>
    initObstacle? d init <|> cond.bind (Expr.obstacle? d.legacy) <|>
      step.bind (Expr.obstacle? d.legacy) <|> body.obstacle? d
  | .whileLoop cond body => cond.obstacle? d.legacy <|> body.obstacle? d
  | .doWhile body cond => body.obstacle? d <|> cond.obstacle? d.legacy
  | .switchOn value cases => value.obstacle? d.legacy <|> casesObstacle? d cases
  | .expr e => e.obstacle? d.legacy
  | .returnWith value => value.bind (Expr.obstacle? d.legacy)
  | .breakOut | .continueLoop | .discard | .emitVertex | .endPrimitive => none

/-- First obstacle of a statement that need not be there. -/
def optionObstacle? (d : Dialect) : Option Stmt → Option Fault
  | none => none
  | some s => s.obstacle? d

/-- First obstacle of several statements. -/
def listObstacle? (d : Dialect) : List Stmt → Option Fault
  | [] => none
  | s :: ss => s.obstacle? d <|> listObstacle? d ss

/-- First obstacle of the cases of a `switch`. -/
def casesObstacle? (d : Dialect) : List Case → Option Fault
  | [] => none
  | .mk _ body :: cases => listObstacle? d body <|> casesObstacle? d cases
end

end Stmt

/-- First obstacle of a function: its result, its parameters or its body. -/
def Function.obstacle? (d : Dialect) (f : Function) : Option Fault :=
  f.result.obstacle? d.legacy <|> f.params.findSome? (fun p => p.ty.obstacle? d.legacy) <|>
    Stmt.listObstacle? d f.body

/-- First obstacle of an element. Layouts can always be printed. -/
def Element.obstacle? (d : Dialect) : Element → Option Fault
  | .global decl => decl.obstacle? d
  | .function f => f.obstacle? d
  | .layout _ => none

/-- First obstacle of a global of the preamble. -/
def AddedGlobal.obstacle? (d : Dialect) : AddedGlobal → Option Fault
  | .declared decl => decl.obstacle? d
  | .upperLeftOrigin => none

/-- First obstacle of a program with what the scratch state adds in front of it. -/
def Glsl.programObstacle? (profile : Profile) (s : Scratch) (p : Program) : Option Fault :=
  let d := Dialect.ofProfile profile p.stage
  s.globals.findSome? (AddedGlobal.obstacle? d) <|>
    s.helpers.findSome? (fun h => h.2.obstacle? d) <|>
    p.elements.findSome? (Element.obstacle? d)

end ShaderGen
