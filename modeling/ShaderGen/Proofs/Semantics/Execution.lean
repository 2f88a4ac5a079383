import ShaderGen.Proofs.Semantics.Behaviour
import ShaderGen.Proofs.Semantics.Evaluation
import ShaderGen.Program.Basic

/-!
# What statements do

A declaration holds from where it stands to the end of the statements around it. A branch and the
body of a loop are scopes of their own, the header of a `for` and the cases of a `switch` open one
as well. A `continue` in the body of a loop goes on with its condition where that comes last, and
with its step where it has one.

## Key results

- `Stmt.listBehaviour_append`: statements put together run one after the other
- `Stmt.inner_ofList`, `Stmt.behaviour_toBlock`: several statements where a single one stands
-/

namespace ShaderGen

variable {α : Type}

namespace Behaviour

/-- Declares a variable with its first components. -/
def declare (name : String) (content : Nat → α) : Behaviour α :=
  change fun σ => σ.setLocal name (some content)

/-- Goes on one way or the other, as a condition tells. -/
def branch (m : Machine α) (cond : Expr) (A B : Behaviour α) : Behaviour α :=
  after (cond.values m) fun vs => if m.holds vs then A else B

/-- Goes on if a condition holds, and breaks out of the loop otherwise. -/
def test (m : Machine α) (cond : Expr) : Behaviour α := branch m cond skip (exit .breakOut)

end Behaviour

/-- Runs a declaration. Without an initial value the components are undefined. -/
def Decl.behaviour (m : Machine α) (d : Decl) : Behaviour α :=
  match d.init with
  | none => .declare d.name fun _ => m.undefined
  | some e => .after (e.values m) fun vs => .declare d.name fun i => vs.getD i m.undefined

namespace Stmt

open Behaviour

/-- Names that a statement declares for the statements after it. -/
def declared : Stmt → List String
  | .decl d => [d.name]
  | _ => []

/-- Names that several statements declare around themselves. -/
def listDeclared (ss : List Stmt) : List String := ss.flatMap declared

/-- Names that the cases of a `switch` declare; they hold in later cases as well. -/
def casesDeclared : List Case → List String
  | [] => []
  | .mk _ body :: cases => listDeclared body ++ casesDeclared cases

mutual
/-- What a statement does. -/
def behaviour (m : Machine α) : Stmt → Behaviour α
  | .block body => inScope (listDeclared body) (listBehaviour m body)
  | .decl d => d.behaviour m
  | .ifElse cond thenBranch elseBranch =>
    branch m cond (inScope thenBranch.declared (thenBranch.behaviour m))
      (elseBehaviour m elseBranch)
  | .forLoop init cond step body =>
    inScope (listDeclared init.toList)
      (seq (initBehaviour m init)
        (Forever
          (seq (cond.elim skip (test m))
            (andThen (inScope body.declared (body.behaviour m))
              (step.elim skip fun e => after (e.eval m) fun _ => skip)))))
  | .whileLoop cond body =>
    Forever (seq (test m cond) (inScope body.declared (body.behaviour m)))
  | .doWhile body cond =>
    Forever (andThen (inScope body.declared (body.behaviour m)) (test m cond))
  | .switchOn value cases =>
    after (value.values m) fun vs => catchBreak
      (inScope (casesDeclared cases)
        (seqAll ((selected (m.asInteger vs) (caseBehaviours m cases)).map Prod.snd)))
  | .expr e => after (e.eval m) fun _ => skip
  | .returnWith none => exit (.returned none)
  | .returnWith (some e) => after (e.values m) fun vs => exit (.returned (some vs))
  | .breakOut => exit .breakOut
  | .continueLoop => exit .continueLoop
  | .discard => exit .discarded
  | .emitVertex => change fun σ => σ.act (.emitVertex σ.shared)
  | .endPrimitive => change fun σ => σ.act .endPrimitive

/-- What the second branch of an `if` does. -/
def elseBehaviour (m : Machine α) : Option Stmt → Behaviour α
  | none => skip
  | some s => inScope s.declared (s.behaviour m)

/-- What the initializer of a `for` does. What it declares holds in the whole loop. -/
def initBehaviour (m : Machine α) : Option Stmt → Behaviour α
  | none => skip
  | some s => s.behaviour m

/-- What several statements do one after the other. -/
def listBehaviour (m : Machine α) : List Stmt → Behaviour α
  | [] => skip
  | s :: ss => seq (s.behaviour m) (listBehaviour m ss)

/-- What the cases of a `switch` do, each with its label. -/
def caseBehaviours (m : Machine α) : List Case → List (Option Int × Behaviour α)
  | [] => []
  | .mk label body :: cases => (label, listBehaviour m body) :: caseBehaviours m cases
end

/-- What a statement does where a single one stands: it is a scope of its own. -/
def inner (m : Machine α) (s : Stmt) : Behaviour α := inScope s.declared (s.behaviour m)

variable (m : Machine α)

/-- No statements declare nothing. -/
@[simp] theorem listDeclared_nil : listDeclared [] = [] := rfl

/-- A list declares what its first statement does and what the rest does. -/
@[simp] theorem listDeclared_cons (s : Stmt) (ss : List Stmt) :
    listDeclared (s :: ss) = s.declared ++ listDeclared ss := rfl

/-- Lists declare in their order. -/
@[simp] theorem listDeclared_append (ss tt : List Stmt) :
    listDeclared (ss ++ tt) = listDeclared ss ++ listDeclared tt :=
  List.flatMap_append

/-- A list of one statement behaves like it. -/
theorem listBehaviour_singleton (s : Stmt) : listBehaviour m [s] = s.behaviour m := seq_skip _

/-- The first part of a loop behaves like a list of at most one statement. -/
theorem initBehaviour_eq (init : Option Stmt) :
    initBehaviour m init = listBehaviour m init.toList := by
  cases init with
  | none => rfl
  | some s => exact (listBehaviour_singleton m s).symm

/-- Lists behave one after the other. -/
theorem listBehaviour_append (ss tt : List Stmt) :
    listBehaviour m (ss ++ tt) = seq (listBehaviour m ss) (listBehaviour m tt) := by
  induction ss with
  | nil => exact (skip_seq _).symm
  | cons s ss ih =>
    show seq _ (listBehaviour m (ss ++ tt)) = _
    rw [ih]
    exact (seq_assoc _ _ _).symm

/-- A block in a scope of its own behaves like its list in a scope. -/
theorem inner_block (ss : List Stmt) :
    (Stmt.block ss).inner m = inScope (listDeclared ss) (listBehaviour m ss) :=
  inScope_nil _

/-- One statement or a block around several makes no difference. -/
theorem inner_ofList (ss : List Stmt) :
    (ofList ss).inner m = inScope (listDeclared ss) (listBehaviour m ss) := by
  match ss with
  | [] => exact inner_block m []
  | [s] =>
    rw [listBehaviour_singleton, listDeclared_cons, listDeclared_nil, List.append_nil]
    rfl
  | s :: s' :: ss => exact inner_block m _

/-- Wrapped in a block, a statement declares nothing. -/
theorem declared_toBlock (s : Stmt) : s.toBlock.declared = [] := by
  cases s <;> rfl

/-- Wrapped in a block, it behaves as in a scope of its own. -/
theorem behaviour_toBlock (s : Stmt) : s.toBlock.behaviour m = s.inner m := by
  cases s with
  | block body => exact (inScope_nil _).symm
  | _ =>
    show inScope (listDeclared [_]) (listBehaviour m [_]) = _
    rw [listBehaviour_singleton, listDeclared_cons, listDeclared_nil, List.append_nil]
    rfl

end Stmt

/-- The runs of a function, from the state in which its parameters have their values. -/
def Function.Runs (m : Machine α) (f : Function) : Behaviour α := Stmt.listBehaviour m f.body

end ShaderGen
