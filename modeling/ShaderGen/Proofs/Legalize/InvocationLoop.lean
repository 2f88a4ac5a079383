import ShaderGen.Legalize.Invocations
import ShaderGen.Proofs.Rewriting
import ShaderGen.Proofs.Semantics.Machine

/-!
# The program with its invocations in a loop

A program whose invocations are run in a loop is given here in closed form, element by element: what
it declares and puts out is what the original does, its functions read the counter in place of the
number of the invocation, and its layouts ask for one invocation and for as many times more vertices
as there were.

## Key results

- `run_legalize`: what the rule makes of a program with an entry function
- `functions_looped`, `declaredInvocations_looped`, `vertexCounts_looped`, `outputWidth_looped`:
  what is in it
-/

namespace ShaderGen.Legalize.Invocations

variable {β : Type}

/-- The program that runs the invocations in a loop. -/
def looped (p : Program) : Program :=
  let renamed := p.mapEntry fun f => { f with name := invokeName }
  let scaled : Program :=
    { renamed with elements := renamed.elements.filterMap (scaleElement p.declaredInvocations) }
  let counted := scaled.mapNodes readCounter
  { counted with elements := counted.elements ++ [.function (runAll p.declaredInvocations)] }

/-- A global that was declared is among the declared ones. -/
theorem declares_declareGlobal (d : Decl) (s : Scratch) :
    (s.declareGlobal d).globals.any (AddedGlobal.declares d.name) = true := by
  unfold Scratch.declareGlobal
  split
  · assumption
  · simp [AddedGlobal.declares]

/-- A program with an entry function is looped, and others are refused. -/
theorem run_legalize_eq (p : Program) (s : Scratch) : (legalize p).run.run s =
    if p.functions.any Function.isEntry = true then
      (.ok (looped p), (s.report (.emulatesInvocations p.declaredInvocations)).declareGlobal
        (.uninitialized .auto counterName .int))
    else (.error (.malformed .missingEntry),
      s.report (.emulatesInvocations p.declaredInvocations)) := by
  unfold legalize
  split <;> rfl

/-- A program with an entry function is looped, and the counter is declared before it. -/
theorem run_legalize {p : Program} (h : p.functions.any Function.isEntry = true) (s : Scratch) :
    ∃ s', (legalize p).run.run s = (.ok (looped p), s') ∧
      s'.globals.any (AddedGlobal.declares counterName) = true := by
  rw [run_legalize_eq, if_pos h]
  exact ⟨_, rfl, declares_declareGlobal _ _⟩

/-- The function with the counter read in place of the number of the invocation. -/
def counting (f : Function) : Function :=
  f.mapBody (List.map (Stmt.mapExprs (Expr.bottomUp readCounter)))

/-- What stands for an element in the looped program. -/
def rework (count : Nat) (el : Element) : List Element :=
  ((scaleElement count el).map (Element.mapExprs (Expr.bottomUp readCounter))).toList

/-- An input layout that is left has no invocation count. -/
theorem rework_input (count : Nat) (items : List LayoutItem) :
    rework count (.layout ⟨.input, items⟩) = [] ∨
      rework count (.layout ⟨.input, items⟩) =
        [.layout ⟨.input, items.filter fun item => !isInvocations item⟩] := by
  unfold rework scaleElement
  dsimp only
  split
  · exact .inl rfl
  · exact .inr rfl

/-- What is gathered from the elements of the looped program, if input layouts have nothing to
    add. -/
theorem flatMap_rework {count : Nat} {g h : Element → List β}
    (hglobal : ∀ (d : Decl) init, h (.global { d with init }) = g (.global d))
    (hfunction : ∀ f, h (.function (counting f)) = g (.function f))
    (hinput : ∀ items, h (.layout ⟨.input, items⟩) = [] ∧ g (.layout ⟨.input, items⟩) = [])
    (houtput : ∀ items, h (.layout ⟨.output, items.map (scaleItem count)⟩) =
      g (.layout ⟨.output, items⟩)) (els : List Element) :
    (els.flatMap (rework count)).flatMap h = els.flatMap g := by
  have hsingle (el : Element) : [el].flatMap h = h el := by simp
  have hrework (el : Element) : (rework count el).flatMap h = g el := by
    -- An element is reworked to one element, or to none when a layout loses its last item.
    cases el with
    | global d => exact (hsingle _).trans (hglobal d _)
    | function f => exact (hsingle _).trans (hfunction f)
    | layout l =>
      obtain ⟨_ | _, items⟩ := l
      · rw [(hinput items).2]
        rcases rework_input count items with hnone | hleft
        · rw [hnone]
          rfl
        · rw [hleft, hsingle, (hinput _).1]
      · exact (hsingle _).trans (houtput items)
  simp [List.flatMap_assoc, hrework]

/-- The functions of a reworked program are the functions, counting. -/
theorem filterMap_function?_rework (count : Nat) (els : List Element) :
    (els.flatMap (rework count)).filterMap Element.function? =
      (els.filterMap Element.function?).map counting := by
  rw [List.map_filterMap, List.filterMap_eq_flatMap_toList, List.filterMap_eq_flatMap_toList]
  exact flatMap_rework (fun _ _ => rfl) (fun _ => rfl) (fun _ => ⟨rfl, rfl⟩) (fun _ => rfl) els

/-- A reworked element declares no invocation count. -/
theorem invocationCounts_rework (count : Nat) (el : Element) :
    (rework count el).flatMap Element.invocationCounts = [] := by
  cases el with
  | global d => rfl
  | function f => rfl
  | layout l =>
    obtain ⟨_ | _, items⟩ := l
    · -- The counts are filtered out of the input layouts, which are dropped when nothing is left.
      rcases rework_input count items with h | h
      · rw [h]
        rfl
      · rw [h]
        show (items.filter _).filterMap LayoutItem.invocations? ++ [] = []
        rw [List.append_nil, List.filterMap_filter, List.filterMap_eq_nil_iff]
        intro item _
        cases item <;> rfl
    · rfl

/-- Vertex count that a layout item names. -/
def maxVertices? : LayoutItem → Option Nat
  | .maxVertices count => some count
  | _ => none

/-- Vertex counts that an element names; only output layouts name any. -/
def vertexCounts : Element → List Nat
  | .layout ⟨.output, items⟩ => items.filterMap maxVertices?
  | _ => []

/-- Whether a global of the storage class is an output of a geometry program. -/
def isOutput (storage : Storage) : Bool := storage = .output || storage = .varying

/-- Number of components of the output that an element declares under a name. -/
def outputWidth? (name : String) : Element → Option Nat
  | .global d => if isOutput d.storage ∧ d.name = name then some d.ty.laneCount else none
  | _ => none

/-- Number of components of an output. No other variable has any that are put out. -/
def outputWidth (p : Program) : Variable → Nat
  | .named name => (p.elements.filterMap (outputWidth? name)).headD 0
  | .builtin .position => Builtin.position.ty.laneCount
  | .builtin _ => 0

section

variable {p : Program} {before after : List Element} {main : Function}
  (hp : p.elements = before ++ .function main :: after) (hmain : main.isEntry = true)
  (hbefore : ∀ f, .function f ∈ before → f.isEntry = false)

include hp hmain hbefore

/-- The elements of the looped program, in their order. -/
theorem elements_looped : (looped p).elements =
    before.flatMap (rework p.declaredInvocations) ++
      .function { counting main with name := invokeName } ::
        after.flatMap (rework p.declaredInvocations) ++
          [.function (runAll p.declaredInvocations)] := by
  simp only [looped, Program.mapEntry, Program.elements_mapNodes]
  rw [hp, Element.mapFirstEntry_append hbefore hmain, List.map_filterMap,
    List.filterMap_eq_flatMap_toList, List.flatMap_append]
  rfl

/-- The functions of the looped program, in their order. -/
theorem functions_looped : (looped p).functions =
    (before.filterMap Element.function?).map counting ++
      { counting main with name := invokeName } ::
        (after.filterMap Element.function?).map counting ++ [runAll p.declaredInvocations] := by
  unfold Program.functions
  rw [elements_looped hp hmain hbefore]
  simp [filterMap_function?_rework, Element.function?]

/-- The looped program is declared to run once. -/
theorem declaredInvocations_looped : (looped p).declaredInvocations = 1 := by
  have hnone (els : List Element) : (els.flatMap (rework p.declaredInvocations)).flatMap
      Element.invocationCounts = [] := by
    simp [List.flatMap_assoc, invocationCounts_rework]
  unfold Program.declaredInvocations
  rw [elements_looped hp hmain hbefore]
  simp [hnone, Element.invocationCounts]

/-- Every vertex count is multiplied by the number of invocations, up to the limit. -/
theorem vertexCounts_looped : (looped p).elements.flatMap vertexCounts =
    (p.elements.flatMap vertexCounts).map
      fun vertices => min (vertices * p.declaredInvocations) maxVertexCount := by
  have hscaled (els : List Element) : (els.flatMap (rework p.declaredInvocations)).flatMap
      vertexCounts = (els.flatMap vertexCounts).map
        fun vertices => min (vertices * p.declaredInvocations) maxVertexCount := by
    -- Only the output layouts hold a count of vertices.
    rw [List.map_flatMap]
    refine flatMap_rework (fun _ _ => rfl) (fun _ => rfl) (fun _ => ⟨rfl, rfl⟩)
      (fun items => ?_) els
    show (items.map (scaleItem _)).filterMap maxVertices? = (items.filterMap maxVertices?).map _
    rw [List.filterMap_map, List.map_filterMap]
    refine List.filterMap_congr fun item _ => ?_
    cases item <;> rfl
  rw [elements_looped hp hmain hbefore]
  generalize p.declaredInvocations = count at *
  rw [hp]
  simp [hscaled, vertexCounts]

/-- The looped program has the outputs of the original. -/
theorem outputWidth_looped : outputWidth (looped p) = outputWidth p := by
  have hkept (name : String) (els : List Element) :
      (els.flatMap (rework p.declaredInvocations)).filterMap (outputWidth? name) =
        els.filterMap (outputWidth? name) := by
    rw [List.filterMap_eq_flatMap_toList, List.filterMap_eq_flatMap_toList]
    exact flatMap_rework (fun _ _ => rfl) (fun _ => rfl) (fun _ => ⟨rfl, rfl⟩) (fun _ => rfl) els
  -- The names of the outputs are not touched, so each is found at the same declaration.
  have hsame (name : String) : (looped p).elements.filterMap (outputWidth? name) =
      p.elements.filterMap (outputWidth? name) := by
    have hfunction (f : Function) : outputWidth? name (.function f) = none := rfl
    rw [elements_looped hp hmain hbefore]
    generalize p.declaredInvocations = count at hkept
    simp [hkept, hp, hfunction]
  funext v
  cases v with
  | builtin which => cases which <;> rfl
  | named name => exact congrArg (List.headD · 0) (hsame name)

end

end ShaderGen.Legalize.Invocations
