import ShaderGen.Legalize.Fract
import ShaderGen.Proofs.Legalize.Minimum
import ShaderGen.Proofs.Semantics.Lanewise
import ShaderGen.Proofs.Semantics.Transition

/-!
# What a guarded fraction computes

The operand of a guarded `fract` is a variable or has no side effects, so that it has the same value
in both places where it stands. Lane by lane the value comes from the same function of scalars
(`ScalarOps.guard`), whatever a machine takes sign, absolute value and fraction to be.

## Key results

- `Expr.maps_guarded`: the guarded fraction of an operand that only reads
- `Expr.reads_guarded`: the guarded fraction of what a temporary holds
- `Expr.run_captured`: an operand that is put into a temporary first
-/

namespace ShaderGen

open ShaderGen.Legalize (Fract.guarded)

variable {α : Type}

/-- What a guarded fraction makes of one lane of its operand. -/
def ScalarOps.guard (ops : ScalarOps α) (half a : α) : α :=
  ops.binary .sub .float half (ops.binary .mul .float (ops.function .sign .float a)
    (ops.binary .sub .float half (ops.function .fract .float (ops.function .abs .float a))))

namespace Expr

variable {m : Machine α} {ops : ScalarOps α} {x : Expr} {ty : Ty}

/-- The guarded fraction of an operand that only reads is computed lane by lane. -/
theorem maps_guarded (hm : m.Lanewise ops) (hx : x.ty.isLanes .float = true)
    (hty : ty.shape = x.ty.shape) (hread : Eval.IsReadOnly (x.values m)) :
    Maps m x (Fract.guarded x ty) (ops.guard (m.literal (.float .half))) := by
  have hsign := (Maps.self m x).ofCall hm hx (g := .sign) rfl
  have hfraction := ((Maps.self m x).ofCall hm hx (g := .abs) rfl).ofCall hm hx (g := .fract) rfl
  have hdistance := hfraction.scaled hm hx (.inl rfl) .half
  have hproduct := hsign.combine hm hx (.inr rfl) hread hdistance
  exact (hproduct.scaledTo hm hx (.inl rfl) .half hty).group

variable {σ τ : State α} {temp : String} {s : Ty} {vs : List α}

/-- The guarded fraction of what a temporary holds. -/
theorem reads_guarded (hm : m.Lanewise ops) (hs : s.isLanes .float = true)
    (hty : ty.shape = s.shape) (h : τ.Contains temp s vs) :
    Reads m τ (Fract.guarded (.var s temp) ty)
      (vs.map (ops.guard (m.literal (.float .half)))) := by
  have hread : Eval.IsReadOnly ((var s temp).values m) := (Eval.isReadOnly_load _ _).map
  exact reads_map (reads_var h) (maps_guarded (x := .var s temp) hm hs hty hread).values

/-! ### Which locals there are -/

/-- Evaluating an expression neither adds nor removes locals. -/
theorem isSome_locals_of_run {r : Except Discarded (List α)} (h : x.run m σ = some (r, τ))
    (name : String) : (τ.locals name).isSome = (σ.locals name).isSome := by
  -- Whether a local exists is changed by a scope only, and a scope puts it back.
  let T (σ τ : State α) : Prop := ∀ name, (τ.locals name).isSome = (σ.locals name).isSome
  have hT : Transition (fun _ => False) T :=
    { refl := fun σ name => rfl
      trans := fun h h' name => (h' name).trans (h name)
      leave := fun {σ ρ} names h name => by
        show (if name ∈ names then σ.locals name else ρ.locals name).isSome = _
        split
        · rfl
        · exact h name
      setLocal := fun _ _ h => h.elim
      emitVertex := fun _ _ => rfl
      endPrimitive := fun _ _ => rfl }
  have hsteps : Transition.Steps m (fun _ => True) T :=
    ⟨fun σ cell _ value => State.isSome_locals_write cell value σ, fun _ _ _ _ _ _ => rfl⟩
  have hfollows (e : Expr) : Eval.Follows T (Lane.Owned e.Reaches) (e.eval m) := by
    induction e using induction_children with
    | h e ih => exact follows_eval hT hsteps (fun _ _ _ _ => trivial) ih
  exact ((hfollows x).map hT (Q := fun _ => True) (fun _ _ => trivial) h).1 name

/-- An operand that is put into a temporary first, however it changes the state. -/
theorem run_captured (hm : m.Lanewise ops) (hx : x.ty.isLanes .float = true)
    (hty : ty.shape = x.ty.shape) (hrun : x.run m σ = some (.ok vs, τ))
    (htemp : (σ.locals temp).isSome = true) :
    ∃ τ', (ofBinary .comma (assign (.var x.ty temp) x)
      (Fract.guarded (.var x.ty temp) ty)).run m σ =
        some (.ok (vs.map (ops.guard (m.literal (.float .half)))), τ') := by
  -- Evaluating the operand keeps the temporary a local, so it holds what is written to it.
  have hlocal : (τ.locals temp).isSome = true := (isSome_locals_of_run hrun temp).trans htemp
  have hcontains := State.contains_store (fun _ => m.undefined) hlocal (length_of_run hrun)
  refine ⟨τ.store ((Variable.named temp).lanes x.ty fun _ => m.undefined) vs, ?_⟩
  -- After the assignment the temporary holds the values of the operand.
  have hassign : ((assign (.var x.ty temp) x).values m).run.run σ =
      some (.ok vs, τ.store ((Variable.named temp).lanes x.ty fun _ => m.undefined) vs) := by
    rw [values_assign_var m temp x fun _ => m.undefined, ExceptT.run_bind, StateT.run_bind]
    rw [run] at hrun
    rw [hrun]
    rfl
  rw [run, values_comma, ExceptT.run_bind, StateT.run_bind, hassign]
  exact reads_guarded hm hx hty hcontains

end Expr

end ShaderGen
