import ShaderGen.Program.Traverse
import ShaderGen.Scratch

/-! # Invocations of geometry programs

On a target that runs a geometry program only once for each primitive, the entry function becomes
an ordinary one, and a new entry function calls it as often as the program asks, counting the
invocation in a global variable and ending a primitive after each. The program can then emit as
many times more vertices. -/

namespace ShaderGen.Legalize.Invocations

/-- Global variable that counts the invocations. -/
def counterName : String := "sk_InvocationID"

/-- New name of the entry function. -/
def invokeName : String := "_invoke"

/-- Greatest vertex count that a layout can name. -/
def maxVertexCount : Nat := 0xffffffff

/-- Reference to the counter. -/
def counter : Expr := .ofVar counterName .int

/-- Whether the program has to be changed for a target. -/
def enabled (t : Target) (p : Program) : Bool :=
  p.stage == .geometry && 1 < p.declaredInvocations && !t.profile.hasInvocations

/-- Whether a layout item names an invocation count. -/
def isInvocations (item : LayoutItem) : Bool := item.invocations?.isSome

/-- Multiplies a vertex count, up to the greatest that can be named. -/
def scaleItem (count : Nat) : LayoutItem → LayoutItem
  | .maxVertices vertices => .maxVertices (min (vertices * count) maxVertexCount)
  | item => item

/-- Removes invocation counts from input layouts and scales the vertex counts of output layouts.
    An input layout that is left empty disappears. -/
def scaleElement (count : Nat) : Element → Option Element
  | .layout ⟨.input, items⟩ =>
    let items := items.filter fun item => !isInvocations item
    if items.isEmpty then none else some (.layout ⟨.input, items⟩)
  | .layout ⟨.output, items⟩ => some (.layout ⟨.output, items.map (scaleItem count)⟩)
  | e => some e

/-- Only layouts are changed. -/
theorem eq_or_layout_of_scaleElement {count : Nat} {el el' : Element}
    (h : scaleElement count el = some el') : el' = el ∨ ∃ l, el' = .layout l := by
  unfold scaleElement at h
  split at h
  · dsimp only at h
    split at h
    · -- A layout that loses its last item goes.
      cases h
    · exact .inr ⟨_, (Option.some.inj h).symm⟩
  · exact .inr ⟨_, (Option.some.inj h).symm⟩
  · exact .inl (Option.some.inj h).symm

/-- What holds of every element and of any layout holds after the counts are scaled. -/
theorem forall_mem_scaled {count : Nat} {P : Element → Prop} (hlayout : ∀ l, P (.layout l))
    {els : List Element} (h : ∀ el ∈ els, P el) :
    ∀ el ∈ els.filterMap (scaleElement count), P el := by
  intro el hel
  obtain ⟨el', hmem, hscale⟩ := List.mem_filterMap.mp hel
  obtain rfl | ⟨l, rfl⟩ := eq_or_layout_of_scaleElement hscale
  · exact h el hmem
  · exact hlayout l

/-- Reads the counter in place of the built-in variable. -/
def readCounter : Expr → Expr
  | .builtin _ .invocationId => counter
  | e => e

/-- Entry function that runs the former one once for every invocation. -/
def runAll (count : Nat) : Function :=
  .entry
    [.forLoop (some (.assign counter (.int 0)))
      (some (.ofBinary .lt counter (.int count)))
      (some (.ofUnary .postIncrement counter))
      (.block [.expr (.ofUserCall invokeName [] .void), .endPrimitive])]

/-- Runs the invocations of a program in a loop. -/
def legalize (p : Program) : GenM Program := do
  let count := p.declaredInvocations
  modify (Scratch.report (.emulatesInvocations count))
  if p.functions.any Function.isEntry then
    let renamed := p.mapEntry fun f => { f with name := invokeName }
    let scaled := { renamed with elements := renamed.elements.filterMap (scaleElement count) }
    let counted := scaled.mapNodes readCounter
    modify (Scratch.declareGlobal (.uninitialized .auto counterName .int))
    pure { counted with elements := counted.elements ++ [.function (runAll count)] }
  else
    throw (.malformed .missingEntry)

end ShaderGen.Legalize.Invocations
