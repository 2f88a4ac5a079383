import ShaderGen.Proofs.Legalize.Reworked
import ShaderGen.Proofs.Scopes.Ledger

/-!
# Names that rules do not bring in

Rules make up names for temporaries, flags and functions, and the rule for invocations brings in
three of its own. Any other name stays out of a program that does not use it (`Program.Avoids`),
once fragment coordinates are settled. That rule refers to the uniforms for the size of the render
target, so for such a name, references may be granted (`Demand.sparing`).

## Key results

- `carried_sparing`: what the rules after fragment coordinates leave alone
-/

namespace ShaderGen

namespace Expr

/-- A node refers to a name. -/
def usesName (x : String) (e : Expr) : Bool := e.name? == some x

variable {x : String}

/-- Whether a node uses a name is told by the node. -/
theorem usesName_withChildren (e : Expr) (cs : List Expr) :
    (e.withChildren cs).usesName x = e.usesName x := by
  rw [usesName, usesName, name?_withChildren]

/-- The type of a node does not use a name. -/
theorem usesName_withTy (e : Expr) (ty : Ty) : (e.withTy ty).usesName x = e.usesName x := by
  rw [usesName, usesName, name?_withTy]

end Expr

/-- The demand that nothing has a name, and that nothing refers to it unless that is granted. -/
def Demand.sparing (x : String) (granted : Bool) : Demand where
  names := (· ≠ x)
  functions := (· ≠ x)
  exprs e := granted = true ∨ e.any (Expr.usesName x) = false

/-- A program neither declares a name nor refers to it. -/
def Program.Avoids (x : String) (p : Program) : Prop := p.Meets (.sparing x false)

namespace Legalize

open ShaderGen.Expr

/-- A name that no rule after the one for fragment coordinates brings in. -/
structure IsOutside (x : String) : Prop where
  coined : ¬ IsCoined x
  counter : Invocations.counterName ≠ x
  invoked : Invocations.invokeName ≠ x
  entry : Function.entryName ≠ x

variable {x : String} {granted : Bool} {e : Expr}

/-- A node with another name does not use this one. -/
theorem usesName_eq_false_of_ne {name : String} (h : e.name? = some name) (hname : name ≠ x) :
    e.usesName x = false := by
  rw [usesName, h]
  simpa using hname

/-- What is put together of parts that do not refer to the name does not either. -/
theorem any_usesName_of_madeOf (hx : IsOutside x) {calls : Bool} {P : Expr → Prop}
    (h : MadeOf calls P e) (hP : ∀ d, P d → d.any (usesName x) = false) :
    e.any (usesName x) = false := by
  induction h with
  | part hd => exact hP _ hd
  | @node e _ named _ ih =>
    refine any_eq_false_iff.mpr ⟨?_, ih⟩
    -- A node the rules write has a coined name, or none.
    cases hname : e.name? with
    | none => rw [usesName, hname]; rfl
    | some name =>
      exact usesName_eq_false_of_ne hname fun h => hx.coined (h ▸ named name hname)
  | @temp ty tempTy stem n value _ ih =>
    have htemp : (Expr.var tempTy (stem.nth n)).any (usesName x) = false :=
      any_eq_false_iff.mpr
        ⟨usesName_eq_false_of_ne rfl fun h => hx.coined (h ▸ isCoined_nth stem n), nofun⟩
    exact any_eq_false_iff.mpr
      ⟨rfl, List.forall_mem_cons.mpr ⟨htemp, List.forall_mem_singleton.mpr ih⟩⟩

/-- No rule makes an expression refer to the name. -/
theorem reworks_usesName (hx : IsOutside x) :
    Reworks fun e e' => e.any (usesName x) = false → e'.any (usesName x) = false where
  trans := (isCongruence_avoids usesName_withChildren).trans
  congr := (isCongruence_avoids usesName_withChildren).congr
  refl _ := id
  remake _ hmade _ he := any_usesName_of_madeOf hx hmade fun _ hd => hd.any_eq_false he
  counter _ _ := any_eq_false_iff.mpr ⟨usesName_eq_false_of_ne rfl hx.counter, nofun⟩

/-- The loop over invocations refers to the counter and to the former entry function. -/
theorem fits_runAll (hx : IsOutside x) (granted : Bool) (count : Nat) :
    ∀ s ∈ (Invocations.runAll count).body,
      s.Fits (Demand.sparing x granted).names (Demand.sparing x granted).exprs := by
  have hcounter : Invocations.counter.any (usesName x) = false :=
    any_eq_false_iff.mpr ⟨usesName_eq_false_of_ne rfl hx.counter, nofun⟩
  have hinvoked : (Expr.ofUserCall Invocations.invokeName [] .void).any (usesName x) = false :=
    any_eq_false_iff.mpr ⟨usesName_eq_false_of_ne rfl hx.invoked, nofun⟩
  have hbinary : ∀ {ty op right}, right.any (usesName x) = false →
      (Expr.binary ty op Invocations.counter right).any (usesName x) = false := fun hright =>
    any_eq_false_iff.mpr
      ⟨rfl, List.forall_mem_cons.mpr ⟨hcounter, List.forall_mem_singleton.mpr hright⟩⟩
  have hstep : ∀ {ty op}, (Expr.unary ty op Invocations.counter).any (usesName x) = false :=
    any_eq_false_iff.mpr ⟨rfl, List.forall_mem_singleton.mpr hcounter⟩
  -- The loop has the counter in each part of its header, and calls the old entry point.
  refine List.forall_mem_singleton.mpr (Stmt.fits_forLoop.mpr ⟨?_, ?_, ?_, Stmt.fits_block.mpr ?_⟩)
  · rintro _ ⟨rfl⟩
    exact Stmt.fits_expr.mpr (.inr (hbinary rfl))
  · rintro _ ⟨rfl⟩
    exact .inr (hbinary rfl)
  · rintro _ ⟨rfl⟩
    exact .inr hstep
  · refine List.forall_mem_cons.mpr ⟨Stmt.fits_expr.mpr (.inr hinvoked), ?_⟩
    exact List.forall_mem_singleton.mpr (Stmt.fits_iff.mpr (by simp [Stmt.own, Stmt.nested]))

/-- The rules after fragment coordinates leave such a name alone. -/
theorem carried_sparing (hx : IsOutside x) (granted : Bool) : Carried (.sparing x granted) := by
  have hfresh : ∀ stem n, Stem.nth stem n ≠ x := fun stem n h => hx.coined (h ▸ isCoined_nth stem n)
  refine (reworks_usesName hx).carried (fun h => Or.imp_right h) (by simp [Demand.sparing]) hfresh
    ?_ ?_ ?_ ?_ (fits_runAll hx granted) hfresh hx.invoked hx.entry
  · -- A chosen target is given up for two assignments, with the same parts.
    rintro ty choiceTy op cond a b value - (hgranted | h)
    · exact ⟨.inl hgranted, fun _ => ⟨.inl hgranted, .inl hgranted⟩⟩
    · obtain ⟨hchoice, hvalue⟩ := List.forall_mem_cons.mp (any_eq_false_iff.mp h).2
      obtain ⟨hcond, harms⟩ := List.forall_mem_cons.mp (any_eq_false_iff.mp hchoice).2
      obtain ⟨ha, hb⟩ := List.forall_mem_cons.mp harms
      have harm : ∀ ty arm, arm.any (usesName x) = false →
          (Expr.binary ty op arm value).any (usesName x) = false := fun ty arm harm =>
        any_eq_false_iff.mpr ⟨rfl, List.forall_mem_cons.mpr ⟨harm, hvalue⟩⟩
      exact ⟨.inr hcond, fun ty => ⟨.inr (harm ty a ha),
        .inr (harm ty b (hb b (List.mem_singleton_self b)))⟩⟩
  · refine fun ty e => or_congr Iff.rfl (any_eq_false_iff.trans ?_)
    exact (and_iff_right rfl).trans List.forall_mem_singleton
  · refine fun e => Or.imp_right fun he => any_eq_false_iff.mpr ⟨rfl, ?_⟩
    exact List.forall_mem_cons.mpr ⟨he, List.forall_mem_singleton.mpr rfl⟩
  · exact fun e hmade => .inr (any_usesName_of_madeOf hx hmade nofun)

/-- Helper functions for absolute values do not use such a name, if it is not that of their
    parameter. -/
theorem meets_helper (hx : IsOutside x) (hparam : x ≠ "x") (ty : Ty) :
    (IntAbs.helper ty).Meets (.sparing x false) := by
  have hread : (Expr.ofVar "x" ty).any (usesName x) = false :=
    any_eq_false_iff.mpr ⟨usesName_eq_false_of_ne rfl hparam.symm, nofun⟩
  -- The body is the product of the parameter and its sign, with no other name in it.
  have hsign : (Expr.ofCall .sign [.ofVar "x" ty]).any (usesName x) = false :=
    any_eq_false_iff.mpr ⟨rfl, List.forall_mem_singleton.mpr hread⟩
  have hproduct : (Expr.ofBinary .mul (.ofVar "x" ty) (.ofCall .sign [.ofVar "x" ty])).any
      (usesName x) = false :=
    any_eq_false_iff.mpr
      ⟨rfl, List.forall_mem_cons.mpr ⟨hread, List.forall_mem_singleton.mpr hsign⟩⟩
  refine ⟨fun h => hx.coined (.inr h.symm), List.forall_mem_singleton.mpr hparam.symm, .inl ?_⟩
  refine List.forall_mem_singleton.mpr (Stmt.fits_returnWith.mpr ?_)
  rintro _ ⟨rfl⟩
  exact .inr hproduct

/-! ### Before fragment coordinates are settled -/

variable {p : Program}

/-- References may be granted where there are none. -/
theorem sparing_of_avoids (hp : p.Avoids x) : p.Meets (.sparing x granted) :=
  Program.Meets.mono (Q := (Demand.sparing x granted).exprs) hp fun _ he =>
    .inr (he.resolve_left (by simp))

/-- A body spares a name if its statements do. -/
theorem body_sparing {body : List Stmt} : (Demand.sparing x granted).Body body ↔
    ∀ s ∈ body, s.Fits (Demand.sparing x granted).names (Demand.sparing x granted).exprs :=
  Demand.body_iff_of_prologue_eq_nil rfl

/-- Raising precisions changes no names. -/
theorem sparing_highPrecision (hp : p.Meets (.sparing x granted)) :
    (HighPrecision.legalize p).Meets (.sparing x granted) := by
  -- Raising the precision of a node names nothing.
  have hnode : ∀ e : Expr, e.any (usesName x) = false →
      (HighPrecision.raiseNode e).any (usesName x) = false := by
    intro e he
    rw [any_eq_false_iff] at he ⊢
    rw [HighPrecision.raiseNode, usesName_withTy, children_withTy]
    exact he
  have hraise : ∀ e, (Demand.sparing x granted).exprs e →
      (Demand.sparing x granted).exprs (e.bottomUp HighPrecision.raiseNode) := fun e =>
    Or.imp_right ((isCongruence_avoids usesName_withChildren).bottomUp hnode e)
  exact meets_highPrecision rfl hraise hp

end Legalize

end ShaderGen
