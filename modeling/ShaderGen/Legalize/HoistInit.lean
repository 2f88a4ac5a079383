import ShaderGen.Program.Traverse
import ShaderGen.Scratch

/-! # Initial values that need a function

Some workarounds need local variables, which an initial value of a global cannot have. Such a value
moves into a function of its own, which is declared right before the global and called in its
place: `float g = e;` becomes `float f() { return e; }` followed by `float g = f();`. Only plain
globals may call a function there. -/

namespace ShaderGen.Legalize.HoistInit

/-- Function that returns an initial value. -/
def initializer (name : String) (ty : Ty) (value : Expr) : Function :=
  ⟨name, ty, [], [.returnWith (some value)]⟩

/-- Moves the initial value of a global with a node that needs a function. -/
def hoistElement (stem : Stem) (needsFunction : Expr → Bool) : Element → GenM (List Element)
  | .global d =>
    match d.init with
    | some value =>
      if value.any needsFunction then
        if d.storage = .auto then do
          let name ← freshName stem
          pure [.function (initializer name d.ty value),
            .global { d with init := some (.ofUserCall name [] d.ty) }]
        else throw (.unsupported (.initializer d.name))
      else pure [.global d]
    | none => pure [.global d]
  | e => pure [e]

/-- An element is left alone unless it is a global whose initial value needs a function: the value
    moves into one if the global is a plain one, and is refused if it is not. -/
theorem hoistElement_cases (stem : Stem) (needsFunction : Expr → Bool) (el : Element) :
    (hoistElement stem needsFunction el = pure [el] ∧
        ∀ d, el = .global d → ∀ e ∈ d.init, e.any needsFunction = false) ∨
      ∃ d value, el = .global d ∧ d.init = some value ∧ value.any needsFunction = true ∧
        (d.storage = .auto ∧ hoistElement stem needsFunction el = (do
              let name ← freshName stem
              pure [.function (initializer name d.ty value),
                .global { d with init := some (.ofUserCall name [] d.ty) }]) ∨
          d.storage ≠ .auto ∧
            hoistElement stem needsFunction el = throw (.unsupported (.initializer d.name))) := by
  -- An initializer that needs no function stays, and so does what has none.
  cases el with
  | function f => exact .inl ⟨rfl, nofun⟩
  | layout l => exact .inl ⟨rfl, nofun⟩
  | global d =>
    cases hinit : d.init with
    | none =>
      refine .inl ⟨by simp only [hoistElement, hinit], ?_⟩
      rintro _ ⟨rfl⟩ e he
      exact absurd (hinit.symm.trans he) nofun
    | some value =>
      cases hneeds : value.any needsFunction with
      | false =>
        refine .inl ⟨by simp only [hoistElement, hinit, hneeds, Bool.false_eq_true, if_false], ?_⟩
        rintro _ ⟨rfl⟩ e he
        obtain rfl : value = e := Option.some.inj (hinit.symm.trans he)
        exact hneeds
      | true =>
        refine .inr ⟨d, value, rfl, hinit, hneeds, ?_⟩
        by_cases hauto : d.storage = .auto
        · exact .inl ⟨hauto, by simp only [hoistElement, hinit, hneeds, if_true, if_pos hauto]⟩
        · exact .inr ⟨hauto, by simp only [hoistElement, hinit, hneeds, if_true, if_neg hauto]⟩

/-- Moves every initial value with a node that needs a function, naming the functions by a
    stem. -/
def hoist (stem : Stem) (needsFunction : Expr → Bool) (p : Program) : GenM Program := do
  let elements ← p.elements.mapM (hoistElement stem needsFunction)
  pure { p with elements := elements.flatten }

end ShaderGen.Legalize.HoistInit
