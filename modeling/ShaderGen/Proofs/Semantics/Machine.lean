import Mathlib.Data.List.TakeDrop
import ShaderGen.Expr.Build

/-!
# What a program runs on

A value is a list of components. What the language leaves to the hardware (how numbers are
represented, what arithmetic and the intrinsic functions compute, what a function of the program
does) is a `Machine`, over which every statement about runs is quantified. What a run can see and
change is a `State`, and what it does to one is an `Eval`: it may discard the fragment, and it may
never return. Everything that a run does is also kept in order, as the `Action`s of its trace.

## Main definitions

- `Machine`: the part of the language that is left open
- `State`: variables and trace
- `Eval`: a computation over states
- `Lane`: a component together with the place it was read from, if it can be written there
-/

namespace ShaderGen

/-- Number of components that a value of the shape is made of; a sampler counts as one. -/
def Shape.laneCount : Shape → Nat
  | .sampler _ => 1
  | s => s.componentCount

/-- Number of components that a value of the type is made of. -/
def Ty.laneCount (ty : Ty) : Nat := ty.shape.laneCount

/-- What has a value that can be read and written. -/
inductive Variable where
  | named (name : String)
  | builtin (which : Builtin)
deriving DecidableEq

/-- One component of a variable. -/
structure Cell where
  owner : Variable
  lane : Nat
deriving DecidableEq

/-- What an observer sees of a run. -/
inductive Action (α : Type) where
  | call (name : String) (args : List (Ty × List α))
  | write (cell : Cell) (value : α)
  | emitVertex (shared : Variable → Nat → α)
  | endPrimitive

/-- How a call of a function of the program ends: its result, unless it discards the fragment, what
    it leaves in the variables that all functions share, and what it did. -/
structure Reply (α : Type) where
  result : Option (List α)
  shared : Variable → Nat → α
  actions : List (Action α)

/-- What the language leaves open. A function of the program sees its arguments and the shared
    variables, and gives no reply if it never returns. -/
structure Machine (α : Type) where
  undefined : α
  literal : Literal → α
  truth : α → Bool
  truth_literal : ∀ b, truth (literal (.bool b)) = b
  /-- what an index and a `switch` take a component for -/
  integer : α → Int
  /-- conversion of a component to a different kind -/
  convert : ScalarKind → ScalarKind → α → α
  unary : UnaryOp → Ty → List α → List α
  binary : BinaryOp → Ty → List α → Ty → List α → List α
  intrinsic : Intrinsic → List (Ty × List α) → List α
  /-- constructor of a matrix -/
  matrix : Ty → List (Ty × List α) → List α
  call : String → List (Ty × List α) → (Variable → Nat → α) → Option (Reply α)

/-- Variables and trace of a run. Locals hide what is shared under their name. -/
structure State (α : Type) where
  shared : Variable → Nat → α
  locals : String → Option (Nat → α)
  trace : List (Action α)

/-- Component of a value, and the cell behind it if it is one that can be written. -/
structure Lane (α : Type) where
  value : α
  cell? : Option Cell

/-- The fragment is discarded. -/
inductive Discarded where
  | discarded

/-- Computation that sees and changes a state. It gives no result if it never returns. -/
abbrev Eval (α : Type) := ExceptT Discarded (StateT (State α) Option)

/-- Values of several components. -/
def Lane.values {α : Type} (ls : List (Lane α)) : List α := ls.map Lane.value

/-- Components of a variable of the type. -/
def Variable.lanes {α : Type} (v : Variable) (ty : Ty) (content : Nat → α) : List (Lane α) :=
  (List.range ty.laneCount).map fun i => ⟨content i, some ⟨v, i⟩⟩

namespace State

variable {α : Type}

/-- Components of a variable. -/
def read (σ : State α) : Variable → Nat → α
  | .named name => (σ.locals name).getD (σ.shared (.named name))
  | .builtin which => σ.shared (.builtin which)

/-- The state after one more action. -/
def act (σ : State α) (action : Action α) : State α := { σ with trace := σ.trace ++ [action] }

/-- The state with one component of a shared variable changed. -/
def setShared (σ : State α) (cell : Cell) (value : α) : State α :=
  { σ with shared := fun v i => if v = cell.owner ∧ i = cell.lane then value else σ.shared v i }

/-- The state with a local variable of that name, or without one. -/
def setLocal (σ : State α) (name : String) (content : Option (Nat → α)) : State α :=
  { σ with locals := fun x => if x = name then content else σ.locals x }

/-- The state at the end of a scope: the names declared in it stand for what they stood for at its
    start. -/
def leave (σ start : State α) (names : List String) : State α :=
  { σ with locals := fun x => if x ∈ names then start.locals x else σ.locals x }

/-- The state after a component is written. -/
def write (σ : State α) (cell : Cell) (value : α) : State α :=
  let changed :=
    match cell.owner with
    | .named name =>
      match σ.locals name with
      | some content =>
        σ.setLocal name (some fun i => if i = cell.lane then value else content i)
      | none => σ.setShared cell value
    | .builtin _ => σ.setShared cell value
  changed.act (.write cell value)

/-- The state after components are written in order. Those that have no cell are lost. -/
def store (σ : State α) : List (Lane α) → List α → State α
  | ⟨_, some cell⟩ :: ls, v :: vs => (σ.write cell v).store ls vs
  | ⟨_, none⟩ :: ls, _ :: vs => σ.store ls vs
  | _, _ => σ

end State

namespace Machine

variable {α : Type} (m : Machine α)

/-- Components that belong to no variable. -/
def temporaries (ty : Ty) (vs : List α) : List (Lane α) :=
  (vs.takeD ty.laneCount m.undefined).map fun v => ⟨v, none⟩

/-- As many components as a value of the type has. -/
def fit (ty : Ty) (ls : List (Lane α)) : List (Lane α) :=
  ls.takeD ty.laneCount ⟨m.undefined, none⟩

/-- Truth value of a scalar. -/
def holds (vs : List α) : Bool := m.truth (vs.headD m.undefined)

/-- Integer that a scalar stands for. -/
def asInteger (vs : List α) : Int := m.integer (vs.headD m.undefined)

/-- Components from a position on, in units of `count` components; none before the first. -/
def past {β : Type} (count : Nat) (xs : List β) : Int → List β
  | .ofNat i => xs.drop (i * count)
  | .negSucc _ => []

/-- A component as a component of another kind. -/
def cast (source target : ScalarKind) (v : α) : α :=
  if source = target then v else m.convert source target v

/-- Components that fill a value of `count` components: a lone one is repeated. -/
def spread (count : Nat) : List α → List α
  | [v] => List.replicate count v
  | vs => vs

/-- As many values as there are lanes are kept as they are. -/
theorem spread_of_length {β : Type} {n : Nat} {vs : List β} (h : vs.length = n) :
    spread n vs = vs := by
  match vs with
  | [] => rfl
  | [v] => rw [← h]; rfl
  | _ :: _ :: _ => rfl

/-- Components that a constructor makes of its arguments: those of all the arguments in order,
    save that a lone scalar fills the value. -/
def construct (ty : Ty) (args : List (Ty × List α)) : List α :=
  match ty.shape with
  | .matrix _ _ => m.matrix ty args
  | _ => spread ty.laneCount
    (args.flatMap fun arg => arg.2.map (m.cast arg.1.componentKind ty.componentKind))

/-- A machine that computes with integers, componentwise; a function of the program returns its
    arguments. -/
def integers : Machine Int where
  undefined := 0
  literal
    | .float v => if v = .one then 1 else 0
    | .int v => v
    | .uint v => v
    | .bool b => if b then 1 else 0
  truth v := v != 0
  truth_literal := by decide
  integer v := v
  convert _ target v := if target = .bool then (if v = 0 then 0 else 1) else v
  unary op _ vs := vs.map fun v =>
    match op with
    | .neg => -v
    | .not | .complement => -v - 1
    | .preIncrement | .postIncrement => v + 1
    | .preDecrement | .postDecrement => v - 1
  binary op _ ls _ rs := (ls.zip rs).map fun (a, b) =>
    match op with
    | .add => a + b
    | .sub => a - b
    | .mul => a * b
    | .div => a / b
    | _ => if a < b then 1 else 0
  intrinsic _ args := args.flatMap Prod.snd
  matrix _ args := args.flatMap Prod.snd
  call _ args shared := some ⟨some (args.flatMap Prod.snd), shared, []⟩

end Machine

namespace Eval

variable {α : Type}

/-- Reads the components of a variable. -/
def load (v : Variable) (ty : Ty) : Eval α (List (Lane α)) :=
  (fun σ => v.lanes ty (σ.read v)) <$> (get : Eval α (State α))

/-- Writes components in order. -/
def store (ls : List (Lane α)) (vs : List α) : Eval α Unit := modify fun σ => σ.store ls vs

/-- Calls a function of the program. The call comes before what the function does. -/
def call (m : Machine α) (name : String) (args : List (Ty × List α)) : Eval α (List α) :=
  ExceptT.mk fun σ =>
    (m.call name args σ.shared).map fun reply =>
      (reply.result.elim (.error .discarded) .ok,
        { σ with shared := reply.shared, trace := σ.trace ++ .call name args :: reply.actions })

end Eval

end ShaderGen
