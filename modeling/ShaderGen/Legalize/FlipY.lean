import ShaderGen.Program.Traverse

/-! # Flipping the y axis

On a render target with its origin at the top, `y` runs the other way. Vertex programs negate the
clip `y` on every exit from the entry function, geometry programs before every emitted vertex, and
fragment programs negate derivatives along `y`. -/

namespace ShaderGen.Legalize.FlipY

/-- Whether what is written through swizzles, indexing and choices ends up in the clip
    position. -/
def reachesPosition : Expr → Bool
  | .builtin _ .position => true
  | .swizzle _ base _ | .index _ base _ => reachesPosition base
  | .ternary _ _ ifTrue ifFalse => reachesPosition ifTrue || reachesPosition ifFalse
  | _ => false

/-- Whether a node writes the clip position. -/
def writesPosition : Expr → Bool
  | .binary _ op left _ => op.isAssignment && reachesPosition left
  | .unary _ op operand => op.writesOperand && reachesPosition operand
  | _ => false

/-- The statement `gl_Position.y = -1.0 * gl_Position.y;`. -/
def negatePosition : Stmt :=
  let y := Expr.ofSwizzle (.ofBuiltin .position) [.y]
  .assign y (.ofBinary .mul (.float .minusOne) y)

/-- Negates derivatives along `y`. -/
def negateDerivative : Expr → Expr
  | e@(.call _ (.intrinsic .dFdy) _) => .ofUnary .neg e
  | e => e

/-- Negates the clip `y` before a return. -/
def beforeReturn : Stmt → List Stmt
  | s@(.returnWith _) => [negatePosition, s]
  | s => [s]

/-- Negates the clip `y` before a vertex is emitted. -/
def beforeEmit : Stmt → List Stmt
  | .emitVertex => [negatePosition, .emitVertex]
  | s => [s]

/-- What stands for a statement is the statement, with the negation in front of it or without. -/
theorem forall_mem_beforeReturn {P : Stmt → Prop} {s : Stmt} (hnegate : P negatePosition)
    (hs : P s) : ∀ u ∈ beforeReturn s, P u := by
  unfold beforeReturn
  split
  · exact List.forall_mem_cons.mpr ⟨hnegate, List.forall_mem_singleton.mpr hs⟩
  · exact List.forall_mem_singleton.mpr hs

/-- What holds of the negation and of a statement holds before each vertex. -/
theorem forall_mem_beforeEmit {P : Stmt → Prop} {s : Stmt} (hnegate : P negatePosition)
    (hs : P s) : ∀ u ∈ beforeEmit s, P u := by
  unfold beforeEmit
  split
  · exact List.forall_mem_cons.mpr ⟨hnegate, List.forall_mem_singleton.mpr hs⟩
  · exact List.forall_mem_singleton.mpr hs

/-- Whether control cannot reach the end of a body because its last statement returns. -/
def endsInReturn (body : List Stmt) : Bool := body.getLast?.any Stmt.isReturn

/-- Negates the clip `y` before every return and, if control can reach it, at the end. -/
def flipEntryBody (body : List Stmt) : List Stmt :=
  let body := Stmt.expandList beforeReturn body
  if endsInReturn body then body else body ++ [negatePosition]

/-- The end of the body is only one more place for the negation. -/
theorem flipEntryBody_cases (body : List Stmt) :
    flipEntryBody body = Stmt.expandList beforeReturn body ∨
      flipEntryBody body = Stmt.expandList beforeReturn body ++ [negatePosition] := by
  unfold flipEntryBody
  dsimp only
  split
  · exact .inl rfl
  · exact .inr rfl

/-- Flips the program. A program that never writes the clip position leaves it alone. -/
def legalize (p : Program) : Program :=
  match p.stage with
  | .fragment => p.mapNodes negateDerivative
  | .vertex =>
    if p.anyNode writesPosition then p.mapEntry (Function.mapBody flipEntryBody) else p
  | .geometry =>
    if p.anyNode writesPosition then
      p.mapFunctions (Function.mapBody (Stmt.expandList beforeEmit))
    else p

/-- What holds of all that flipping can make of a program holds of what it makes. -/
theorem legalize_holds {P : Program → Prop} {p : Program} (hsame : P p)
    (hderivatives : P (p.mapNodes negateDerivative))
    (hreturns : P (p.mapEntry (Function.mapBody flipEntryBody)))
    (hemits : P (p.mapFunctions (Function.mapBody (Stmt.expandList beforeEmit)))) :
    P (legalize p) := by
  unfold legalize
  -- The stage decides what is negated, and where.
  split
  · exact hderivatives
  · split
    · exact hreturns
    · exact hsame
  · split
    · exact hemits
    · exact hsame

end ShaderGen.Legalize.FlipY
