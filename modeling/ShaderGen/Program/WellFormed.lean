import ShaderGen.Program.Basic

/-! # Well-formed programs

A program is well formed if nothing nests too deeply, every swizzle fits the value under it, every
`for` starts with a declaration or an expression, and nothing is written through a constant
selector. `Program.defect?` finds the first violation, reading the program from its start and each
node before what it holds. `Malformation` also lists what later stages find wrong with a program
that got past this check. -/

namespace ShaderGen

/-- Way in which a program breaks what its producer has to uphold. -/
inductive Malformation where
  | nestsTooDeep
  | loopInitializer
  | maskLength (length : Nat)
  | literalTarget
  | swizzledNonVector
  | selectorOutOfRange (selector : Selector) (width : Nat)
  /-- a swizzle whose base turned out to be no vector only when it was normalized -/
  | normalizedNonVector
  | coordinateOutsideFragment
  | lookupArguments
  | lookupSampler
  | lookupCoordinate (width : Nat) (dim : SamplerDim)
  | missingEntry
  | powArguments (count : Nat)
  /-- a constant selector in a program that is about to be written out -/
  | literalSelectorLeft
  /-- a render-target size in a program that is about to be written out -/
  | sizeLeft (which : Builtin)
deriving DecidableEq, Repr

/-- Greatest nesting depth of statements and expressions taken together. -/
def maxDepth : Nat := 512

/-- The depth bound itself, as a check of one node. -/
def depthDefect? (depth : Nat) : Option Malformation :=
  if maxDepth < depth then some .nestsTooDeep else none

/-- What is wrong with a mask over a value of type `base`; `target` tells whether the swizzle is
    written to. -/
def Mask.defect? (mask : Mask) (base : Ty) (target : Bool) : Option Malformation :=
  if mask.isEmpty || Mask.maxLength < mask.length then some (.maskLength mask.length)
  else if target && mask.any Selector.isLiteral then some .literalTarget
  else
    match base.swizzleWidth? with
    | none => some .swizzledNonVector
    | some width =>
      match mask.firstPast? width with
      | some s => some (.selectorOutOfRange s width)
      | none => none

namespace Expr

mutual
/-- First defect of an expression at a given depth. `target` is set for what is written to: the
    left side of an assignment, the operand of an increment, and what those write through. -/
def defect? (depth : Nat) (target : Bool) : Expr → Option Malformation
  | .literal _ _ | .var _ _ | .builtin _ _ => depthDefect? depth
  | .unary _ op operand => depthDefect? depth <|> operand.defect? (depth + 1) op.writesOperand
  | .binary _ op left right =>
    depthDefect? depth <|> left.defect? (depth + 1) op.isAssignment <|>
      right.defect? (depth + 1) false
  | .ternary _ cond ifTrue ifFalse =>
    depthDefect? depth <|> cond.defect? (depth + 1) false <|>
      ifTrue.defect? (depth + 1) target <|> ifFalse.defect? (depth + 1) target
  | .call _ _ args => depthDefect? depth <|> listDefect? (depth + 1) args
  | .swizzle _ base mask =>
    depthDefect? depth <|> mask.defect? base.ty target <|> base.defect? (depth + 1) target
  | .index _ base position =>
    depthDefect? depth <|> base.defect? (depth + 1) target <|>
      position.defect? (depth + 1) false
  | .construct _ args => depthDefect? depth <|> listDefect? (depth + 1) args
  | .group _ inner => depthDefect? depth <|> inner.defect? (depth + 1) target

/-- First defect of several expressions, none of them written to. -/
def listDefect? (depth : Nat) : List Expr → Option Malformation
  | [] => none
  | e :: es => e.defect? depth false <|> listDefect? depth es
end

end Expr

/-- First defect of an initial value. -/
def Decl.defect? (depth : Nat) (d : Decl) : Option Malformation :=
  d.init.bind (Expr.defect? depth false)

namespace Stmt

/-- Whether a statement may stand as the initializer of a `for`. -/
def isLoopInitializer : Stmt → Bool
  | .decl _ | .expr _ => true
  | _ => false

mutual
/-- First defect of a statement at a given depth. -/
def defect? (depth : Nat) : Stmt → Option Malformation
  | .block body => depthDefect? depth <|> listDefect? (depth + 1) body
  | .decl d => depthDefect? depth <|> d.defect? (depth + 1)
  | .ifElse cond thenBranch elseBranch =>
    depthDefect? depth <|> cond.defect? (depth + 1) false <|>
      thenBranch.defect? (depth + 1) <|> optionDefect? (depth + 1) elseBranch
  | .forLoop init cond step body =>
    depthDefect? depth <|> initDefect? (depth + 1) init <|>
      cond.bind (Expr.defect? (depth + 1) false) <|>
      step.bind (Expr.defect? (depth + 1) false) <|> body.defect? (depth + 1)
  | .whileLoop cond body | .doWhile body cond =>
    depthDefect? depth <|> cond.defect? (depth + 1) false <|> body.defect? (depth + 1)
  | .switchOn value cases =>
    depthDefect? depth <|> value.defect? (depth + 1) false <|> casesDefect? (depth + 1) cases
  | .expr e => depthDefect? depth <|> e.defect? (depth + 1) false
  | .returnWith value => depthDefect? depth <|> value.bind (Expr.defect? (depth + 1) false)
  | .breakOut | .continueLoop | .discard | .emitVertex | .endPrimitive => depthDefect? depth

/-- First defect of a statement that need not be there. -/
def optionDefect? (depth : Nat) : Option Stmt → Option Malformation
  | none => none
  | some s => s.defect? depth

/-- First defect of the initializer of a `for`. -/
def initDefect? (depth : Nat) : Option Stmt → Option Malformation
  | none => none
  | some s => if s.isLoopInitializer then s.defect? depth else some .loopInitializer

/-- First defect of several statements. -/
def listDefect? (depth : Nat) : List Stmt → Option Malformation
  | [] => none
  | s :: ss => s.defect? depth <|> listDefect? depth ss

/-- First defect of the cases of a `switch`. -/
def casesDefect? (depth : Nat) : List Case → Option Malformation
  | [] => none
  | .mk _ body :: cases => listDefect? depth body <|> casesDefect? depth cases
end

end Stmt

/-- First defect of an element. Statements of a function and initial values of globals are at
    depth one. -/
def Element.defect? : Element → Option Malformation
  | .global d => d.defect? 1
  | .function f => Stmt.listDefect? 1 f.body
  | .layout _ => none

/-- First defect of a program. -/
def Program.defect? (p : Program) : Option Malformation := p.elements.findSome? Element.defect?

end ShaderGen
