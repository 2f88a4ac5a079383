import ShaderGen.Legalize.Temporary
import ShaderGen.Proofs.Naming
import ShaderGen.Proofs.Semantics.Retraced

/-!
# Temporaries of a function

A computation that declares temporaries is given the next names of a stem (`supplying`), so what is
asked for later differs from what was asked for before (`Supplies.bind`). The declarations start the
body of the function, so in the end every expression of the body finds all of them declared,
whichever of them it asked for itself (`settling`).

## Key results

- `Supplies.bind`: computations one after the other ask for different names
- `exists_run_withTemporaries`: what becomes of a function whose expressions are rebuilt
- `exists_temporaries`: a function whose expressions were rebuilt with temporaries
- `runsAs_withTemporaries`, `retraced_withTemporaries`: it does what it did
-/

namespace ShaderGen

namespace Legalize

open List (Forall₂)

variable {β γ : Type} {stem : Stem}

/-- A computation declares temporaries without values, with the next names of a stem, and what it
    returns goes with these names. -/
def Supplies (stem : Stem) (Q : List String → β → Prop) (x : TempM β) : Prop :=
  ∀ temps sc, ∃ new b count, (x.run temps).run sc = ((b, temps ++ new), sc.advance stem count) ∧
    new.map Decl.name = stem.names (sc.counters.get stem) count ∧ (∀ d ∈ new, d.init = none) ∧
    Q (new.map Decl.name) b

namespace Supplies

variable {Q : List String → β → Prop} {R : List String → γ → Prop} {x : TempM β}

/-- A value supplies nothing. -/
theorem pure {b : β} (h : Q [] b) : Supplies stem Q (pure b) :=
  fun temps sc => ⟨[], b, 0, by rw [List.append_nil]; rfl, rfl, by simp, h⟩

/-- What comes later asks for other names. -/
theorem bind {f : β → TempM γ} (h : Supplies stem Q x)
    (hf : ∀ first b, Q first b → Supplies stem
      (fun second c => (∀ y ∈ second, y ∉ first) → R (first ++ second) c) (f b)) :
    Supplies stem R (x >>= f) := by
  intro temps sc
  -- The second part draws on from where the first stopped, so their names are apart.
  obtain ⟨new, b, count, hrun, hnew, hinit, hQ⟩ := h temps sc
  obtain ⟨new', c, more, hrun', hnew', hinit', hR⟩ :=
    hf _ b hQ (temps ++ new) (sc.advance stem count)
  have hnames : (new ++ new').map Decl.name =
      stem.names (sc.counters.get stem) (count + more) := by
    rw [List.map_append, hnew, hnew', Scratch.get_advance_self, Stem.names_append]
  refine ⟨new ++ new', c, count + more, ?_, hnames, ?_, ?_⟩
  · rw [StateT.run_bind, StateT.run_bind, hrun, ← List.append_assoc, ← Scratch.advance_advance]
    exact hrun'
  · exact List.forall_mem_append.mpr ⟨hinit, hinit'⟩
  · have hnodup := hnames ▸ Stem.nodup_names
    rw [List.map_append] at hnodup ⊢
    exact hR fun y hy hy' => (List.nodup_append.mp hnodup).2.2 y hy' y hy rfl

/-- A postcondition may be weakened. -/
theorem mono {Q' : List String → β → Prop} (h : Supplies stem Q x)
    (hQ : ∀ names b, Q names b → Q' names b) : Supplies stem Q' x := by
  intro temps sc
  obtain ⟨new, b, count, hrun, hnew, hinit, hb⟩ := h temps sc
  exact ⟨new, b, count, hrun, hnew, hinit, hQ _ _ hb⟩

end Supplies

/-- The judgement on computations that declare temporaries. -/
def supplying (stem : Stem) : Naming TempM where
  Holds := Supplies stem
  pure := .pure
  bind h hf := h.bind fun first b hb => (hf first b hb).mono fun _ _ hR _ => hR

/-- The verdict on computations that declare temporaries, if these are among certain names. -/
abbrev settling (stem : Stem) (names : List String) : Verdict TempM :=
  (supplying stem).verdict names

/-- The names that were asked for are among those of the whole function. -/
theorem Supplies.settles {Q : List String → β → Prop} {Q' : β → Prop} {x : TempM β}
    {names : List String} (h : Supplies stem Q x) (hQ : ∀ own b, own ⊆ names → Q own b → Q' b) :
    (settling stem names).Holds Q' x :=
  h.mono fun own b hb hown => hQ own b hown hb

/-- A new temporary has a name of its own. -/
theorem supplies_freshTemp (ty : Ty) :
    Supplies stem (fun names e => ∃ n, names = [stem.nth n] ∧ e = .var ty (stem.nth n))
      (freshTemp stem ty) := by
  intro temps sc
  refine ⟨[.plain (stem.nth (sc.counters.get stem)) ty none], _, 1, rfl, rfl, by simp [Decl.plain],
    _, rfl, rfl⟩

/-! ### Functions -/

/-- Whatever the names turn out to be, a function whose expressions are rebuilt starts with the
    declarations of its temporaries. -/
theorem exists_run_withTemporaries {R : List String → List Stmt → Prop} {f : Expr → TempM Expr}
    {fn : Function} (h : ∀ names, (settling stem names).Holds (R names)
      (Stmt.mapExprsListM (Expr.bottomUpM f) fn.body)) (sc : Scratch) :
    ∃ (temps : List Decl) (body : List Stmt) (count : Nat), (withTemporaries f fn).run sc =
        ({ fn with body := temps.map Stmt.decl ++ body }, sc.advance stem count) ∧
      temps.map Decl.name = stem.names (sc.counters.get stem) count ∧
      (∀ d ∈ temps, d.init = none) ∧ R (temps.map Decl.name) body := by
  obtain ⟨temps, body, count, hrun, hnames, hinit, -⟩ := h [] [] sc
  refine ⟨temps, body, count, ?_, hnames, hinit, ?_⟩
  · simp only [withTemporaries, Function.mapExprsM, StateT.run_bind, hrun]
    rfl
  · -- The names are known only after this run, and the same run is judged for these names then.
    obtain ⟨temps', body', count', hrun', -, -, hbody⟩ := h (temps.map Decl.name) [] sc
    have hsame : ((body, temps), sc.advance stem count) =
        ((body', temps'), sc.advance stem count') := hrun.symm.trans hrun'
    obtain ⟨⟨rfl, rfl⟩, -⟩ : (body = body' ∧ temps = temps') ∧
        sc.advance stem count = sc.advance stem count' := by simpa using hsame
    exact hbody fun _ => id

section

variable {added : String → Bool} {Q : Expr → Prop} {f : Expr → TempM Expr}

/-- The body of a function whose expressions were rebuilt declares temporaries, and then has its
    statements over what each expression became, with those temporaries. -/
theorem exists_temporaries {R : List String → Expr → Expr → Prop}
    (hR : ∀ names big e e', names ⊆ big → R names e e' → R big e e')
    (hstem : ∀ n, added (stem.nth n) = true)
    (hf : ∀ e, Q e → Supplies stem (fun names => R names e) (e.bottomUpM f))
    {fn : Function} (hfn : fn.All Q) (sc : Scratch) :
    ∃ (temps : List Decl) (body : List Stmt),
      ((withTemporaries f fn).run sc).1 = { fn with body := temps.map Stmt.decl ++ body } ∧
        (∀ d ∈ temps, d.init = none ∧ added d.name = true) ∧
        Forall₂ (Stmt.Mirrors (R (temps.map Decl.name))) fn.body body := by
  -- The relation is between expressions, and more temporaries do not harm it.
  have hwalk (names : List String) : (settling stem names).Holds
      (Forall₂ (Stmt.Mirrors (R names)) fn.body) (Stmt.mapExprsListM (Expr.bottomUpM f) fn.body) :=
    Stmt.mapExprsListM_mirrors (settling stem names) (fun e he => (hf e he).settles
      fun own e' hown h => hR own names e e' hown h) hfn
  obtain ⟨temps, body, count, hrun, hnames, hinit, hbody⟩ := exists_run_withTemporaries hwalk sc
  refine ⟨temps, body, by rw [hrun], fun d hd => ⟨hinit d hd, ?_⟩, hbody⟩
  -- The temporaries have the names that were drawn.
  have hmem := List.mem_map_of_mem (f := Decl.name) hd
  obtain ⟨n, -, -, hname⟩ := Stem.mem_names.mp (hnames ▸ hmem)
  exact hname ▸ hstem n

variable {α : Type} {m m' : Machine α}

/-- A function does what it did after each of its expressions was replaced by one that tracks it
    with temporaries of its own. -/
theorem runsAs_withTemporaries (hm : m.Alike added m') (hstem : ∀ n, added (stem.nth n) = true)
    (hf : ∀ e, Q e →
      Supplies stem (fun names => e.Tracks added m m' names) (e.bottomUpM f))
    {fn : Function} (hfn : fn.All Q) (sc : Scratch) :
    fn.RunsAs added m m' ((withTemporaries f fn).run sc).1 := by
  obtain ⟨temps, body, hrun, htemps, hbody⟩ := exists_temporaries
    (R := fun names e e' => e.Tracks added m m' names e')
    (fun _ _ _ _ hsub h => h.mono fun _ hx => hsub hx) hstem hf hfn sc
  rw [hrun]
  exact .of_body hm htemps hbody

/-- A function is retraced if each of its expressions is, with temporaries of its own. -/
theorem retraced_withTemporaries {helpers : List Function}
    (hstem : ∀ n, added (stem.nth n) = true)
    (hf : ∀ e, Q e → Supplies stem (fun names => e.Traced added helpers m names) (e.bottomUpM f))
    {fn : Function} (hfn : fn.All Q) (sc : Scratch) :
    fn.Retraced added helpers m ((withTemporaries f fn).run sc).1 := by
  obtain ⟨temps, body, hrun, htemps, hbody⟩ := exists_temporaries
    (R := fun names e e' => e.Traced added helpers m names e')
    (fun _ _ _ _ hsub h => h.mono fun _ hx => hsub hx) hstem hf hfn sc
  rw [hrun]
  exact .of_body htemps hbody

end

end Legalize

end ShaderGen
