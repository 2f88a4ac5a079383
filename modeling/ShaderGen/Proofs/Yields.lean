import Mathlib.Data.List.Forall2
import ShaderGen.Scratch

/-!
# What computations return

`Yields Q x` says that whatever the computation `x` returns satisfies `Q`, in whatever state it
starts, and says nothing of a computation that fails. The walks over programs are written for any
monad, and so is what is proved about them; a computation is only run at the end
(`Yields.of_ok`, `Yields.of_run`). Where the state matters as well, another `Judgement` stands in
for `Yields`, and where the whole run has to be known, the weaker `Verdict`.
-/

namespace ShaderGen

/-- Whatever a computation returns satisfies a predicate: the computation does the same as one that
    returns a proof along with every result. -/
def Yields {m : Type → Type} [Monad m] {α : Type} (Q : α → Prop) (x : m α) : Prop :=
  ∃ y : m {a : α // Q a}, Subtype.val <$> y = x

namespace Yields

variable {α β : Type}

section

variable {m : Type → Type} [Monad m] [LawfulMonad m] {Q : α → Prop} {R : β → Prop} {x : m α}

/-- A value yields itself. -/
theorem pure {a : α} (h : Q a) : Yields Q (Pure.pure a : m α) :=
  ⟨Pure.pure ⟨a, h⟩, map_pure _ _⟩

/-- What holds of every value holds of what a computation returns. -/
theorem of_forall (h : ∀ a, Q a) (x : m α) : Yields Q x :=
  ⟨(fun a => ⟨a, h a⟩) <$> x, by simp⟩

/-- What is yielded may be weakened. -/
theorem mono {Q' : α → Prop} (h : Yields Q x) (hmono : ∀ a, Q a → Q' a) : Yields Q' x := by
  obtain ⟨y, rfl⟩ := h
  exact ⟨(fun a => ⟨a.1, hmono a.1 a.2⟩) <$> y, by simp⟩

/-- What two computations in turn yield. -/
theorem bind {f : α → m β} (h : Yields Q x) (hf : ∀ a, Q a → Yields R (f a)) :
    Yields R (x >>= f) := by
  obtain ⟨y, rfl⟩ := h
  refine ⟨y >>= fun a => (hf a.1 a.2).choose, ?_⟩
  rw [map_bind, bind_map_left]
  exact bind_congr fun a => (hf a.1 a.2).choose_spec

/-- What comes first makes no difference if nothing is asked of it. -/
theorem after {f : α → m β} (hf : ∀ a, Yields R (f a)) : Yields R (x >>= f) :=
  (of_forall (fun _ => trivial) x).bind fun a (_ : True) => hf a

end

end Yields

/-- A way to tell what computations return that can be used step by step. -/
structure Judgement (m : Type → Type) [Monad m] where
  /-- what a computation returns satisfies a predicate -/
  Holds {α : Type} (Q : α → Prop) (x : m α) : Prop
  pure {α : Type} {Q : α → Prop} {a : α} (h : Q a) : Holds Q (Pure.pure a)
  bind {α β : Type} {Q : α → Prop} {R : β → Prop} {x : m α} {f : α → m β} (h : Holds Q x)
    (hf : ∀ a, Q a → Holds R (f a)) : Holds R (x >>= f)

/-- A way to tell what computations return, all at once in the end: nothing may be assumed of what
    has been returned before the last computation is done. -/
structure Verdict (m : Type → Type) [Monad m] where
  /-- what a computation returns satisfies a predicate -/
  Holds {α : Type} (Q : α → Prop) (x : m α) : Prop
  pure {α : Type} {Q : α → Prop} {a : α} (h : Q a) : Holds Q (Pure.pure a)
  bind {α β : Type} {Q : α → Prop} {R : β → Prop} {x : m α} {f : α → m β} (h : Holds Q x)
    (hf : ∀ a, Holds (fun b => Q a → R b) (f a)) : Holds R (x >>= f)

namespace Verdict

variable {m : Type → Type} [Monad m] [LawfulMonad m] {α β : Type}

/-- A verdict may be weakened. -/
theorem mono (V : Verdict m) {Q Q' : α → Prop} {x : m α} (h : V.Holds Q x)
    (hmono : ∀ a, Q a → Q' a) : V.Holds Q' x := by
  rw [← bind_pure x]
  exact V.bind h fun a => V.pure (hmono a)

/-- Computations one after the other return what is related to where each of them comes from. -/
theorem mapM (V : Verdict m) {P : α → β → Prop} {f : α → m β} {as : List α}
    (h : ∀ a ∈ as, V.Holds (P a) (f a)) : V.Holds (List.Forall₂ P as) (as.mapM f) := by
  induction as with
  | nil =>
    rw [List.mapM_nil]
    exact V.pure .nil
  | cons a as ih =>
    -- The first result is known before the others are computed.
    rw [List.mapM_cons]
    refine V.bind (h a List.mem_cons_self) fun b => ?_
    refine V.bind (ih fun a' ha => h a' (List.mem_cons_of_mem _ ha)) fun bs => ?_
    exact V.pure fun hbs hb => .cons hb hbs

end Verdict

namespace Judgement

variable {m : Type → Type} [Monad m] [LawfulMonad m] {α β : Type}

/-- The judgement that does not look at states. -/
def yields : Judgement m := ⟨Yields, .pure, .bind⟩

/-- A judgement may be weakened. -/
theorem mono (J : Judgement m) {Q Q' : α → Prop} {x : m α} (h : J.Holds Q x)
    (hmono : ∀ a, Q a → Q' a) : J.Holds Q' x := by
  rw [← bind_pure x]
  exact J.bind h fun a ha => J.pure (hmono a ha)

/-- The judgement on work that could fail: it does not. -/
def succeeding {ε : Type} : Judgement (Except ε) where
  Holds Q x := ∃ a, x = .ok a ∧ Q a
  pure h := ⟨_, rfl, h⟩
  bind h hf := by
    obtain ⟨a, rfl, ha⟩ := h
    exact hf a ha

/-- What can be assumed step by step can be told in the end. -/
def verdict (J : Judgement m) : Verdict m where
  Holds := J.Holds
  pure := J.pure
  bind h hf := J.bind h fun a ha => J.mono (hf a) fun _ hb => hb ha

/-- A judgement on every element is one on the list. -/
theorem mapM (J : Judgement m) {P : α → β → Prop} {f : α → m β} {as : List α}
    (h : ∀ a ∈ as, J.Holds (P a) (f a)) : J.Holds (List.Forall₂ P as) (as.mapM f) :=
  J.verdict.mapM h

/-- Computations one after the other return what each of them returns. -/
theorem mapM_forall (J : Judgement m) {R : β → Prop} {f : α → m β} {as : List α}
    (h : ∀ a ∈ as, J.Holds R (f a)) : J.Holds (fun bs => ∀ b ∈ bs, R b) (as.mapM f) := by
  have hall : J.Holds (List.Forall₂ (fun _ => R) as) (as.mapM f) := J.mapM h
  refine J.mono hall fun bs hbs => ?_
  clear h hall
  induction hbs with
  | nil => simp
  | cons hb _ ih => exact List.forall_mem_cons.mpr ⟨hb, ih⟩

end Judgement

namespace Yields

variable {α β : Type}

/-- What every element yields, the list yields. -/
theorem mapM_forall {m : Type → Type} [Monad m] [LawfulMonad m] {R : β → Prop} {f : α → m β}
    {as : List α} (h : ∀ a ∈ as, Yields R (f a)) :
    Yields (fun bs => ∀ b ∈ bs, R b) (as.mapM f) :=
  Judgement.yields.mapM_forall h

/-! ### Running computations -/

/-- In the identity monad, what is yielded holds. -/
theorem of_id {Q : α → Prop} {x : Id α} (h : Yields Q x) : Q x.run := by
  obtain ⟨y, rfl⟩ := h
  exact y.run.2

/-- What is yielded holds of a success. -/
theorem of_ok {ε : Type} {Q : α → Prop} {x : Except ε α} {a : α} (h : Yields Q x)
    (hx : x = .ok a) : Q a := by
  obtain ⟨y, rfl⟩ := h
  cases y with
  | error e => exact absurd hx (by simp [Functor.map, Except.map])
  | ok b =>
    obtain rfl : b.1 = a := by simpa [Functor.map, Except.map] using hx
    exact b.2

/-- A computation that can fail yields what holds wherever it does not. -/
theorem of_forall_ok {ε : Type} {Q : α → Prop} {x : Except ε α} (h : ∀ a, x = .ok a → Q a) :
    Yields Q x := by
  cases x with
  | error e => exact ⟨.error e, rfl⟩
  | ok a => exact .pure (h a rfl)

/-- A computation that changes the scratch state returns what it returns from each of them. -/
theorem of_forall_run {Q : α → Prop} {x : ScratchM α} (h : ∀ s, Q (x.run s).1) : Yields Q x :=
  ⟨fun s => (⟨(x.run s).1, h s⟩, (x.run s).2), rfl⟩

/-- A computation that changes the scratch state returns the same where it could fail. -/
theorem lift {Q : α → Prop} {x : ScratchM α} (h : Yields Q x) :
    Yields Q (liftM x : GenM α) := by
  obtain ⟨y, rfl⟩ := h
  exact ⟨liftM y, (liftM_map _ _).symm⟩

/-- A malformation that is passed on changes nothing for the successes. -/
theorem liftMalformed {Q : α → Prop} {x : Except Malformation α} (h : Yields Q x) :
    Yields Q (ShaderGen.liftMalformed x) := by
  obtain ⟨y, rfl⟩ := h
  cases y with
  | ok b => exact .pure b.2
  | error cause => exact ⟨throw (.malformed cause), rfl⟩

/-- Neither does a refusal that is passed on. -/
theorem liftUnsupported {Q : α → Prop} {x : Except Unsupported α} (h : Yields Q x) :
    Yields Q (ShaderGen.liftUnsupported x) := by
  obtain ⟨y, rfl⟩ := h
  cases y with
  | ok b => exact .pure b.2
  | error cause => exact ⟨throw (.unsupported cause), rfl⟩

/-- A failure yields anything. -/
theorem error {ε : Type} {Q : α → Prop} (fault : ε) : Yields Q (.error fault : Except ε α) :=
  ⟨.error fault, rfl⟩

/-- A computation that fails returns nothing. -/
theorem fail {Q : α → Prop} (fault : Fault) : Yields Q (throw fault : GenM α) :=
  ⟨throw fault, rfl⟩

/-- What a generation returns from a scratch state, if it does. -/
theorem of_run {Q : α → Prop} {x : GenM α} {s s' : Scratch} {a : α} (h : Yields Q x)
    (hx : x.run.run s = (.ok a, s')) : Q a := by
  obtain ⟨y, rfl⟩ := h
  rw [ExceptT.run_map, StateT.run_map] at hx
  have hresult : (y.run.run s).1.map Subtype.val = .ok a := congrArg Prod.fst hx
  -- A computation that failed has no result.
  cases hy : (y.run.run s).1 with
  | error fault => exact absurd hresult (by simp [hy, Except.map])
  | ok b =>
    obtain rfl : b.1 = a := by simpa [hy, Except.map] using hresult
    exact b.2

end Yields

/-- What a run was checked to return. -/
theorem exists_ok_of_any {ε α σ : Type} {r : Except ε α × σ} {q : α → Bool}
    (h : r.1.toOption.any q = true) : ∃ a s, r = (.ok a, s) ∧ q a = true := by
  obtain ⟨result, s⟩ := r
  cases result with
  | error e => exact absurd h (by simp [Except.toOption])
  | ok a => exact ⟨a, s, rfl, h⟩

section

variable {ε σ α β : Type} {x : ExceptT ε (StateM σ) α} {f : α → ExceptT ε (StateM σ) β} {s s' : σ}

/-- After a success the second computation runs in the new state. -/
theorem run_bind_of_ok {a : α} (h : x.run.run s = (.ok a, s')) :
    (x >>= f).run.run s = (f a).run.run s' := by
  rw [ExceptT.run_bind, StateT.run_bind, h]
  rfl

/-- After a failure it does not run. -/
theorem run_bind_of_error {fault : ε} (h : x.run.run s = (.error fault, s')) :
    (x >>= f).run.run s = (.error fault, s') := by
  rw [ExceptT.run_bind, StateT.run_bind, h]
  rfl

end

/-! ### Generated names -/

/-- A name that a stem gives out. -/
def Stem.nth (stem : Stem) (n : Nat) : String := stem.text ++ toString n

/-- Different numbers give different names. -/
theorem Stem.nth_injective (stem : Stem) : Function.Injective stem.nth := by
  intro a b h
  have hlists := congrArg String.toList h
  simp only [Stem.nth, String.toList_append, List.append_cancel_left_eq] at hlists
  have hdigits : Nat.toDigits 10 a = Nat.toDigits 10 b := by
    simpa only [Nat.toString_eq_repr, Nat.toList_repr] using hlists
  simpa using congrArg (fun digits => Nat.ofDigitChars 10 digits 0) hdigits

/-- A fresh name is numbered with its stem. -/
theorem yields_freshName (stem : Stem) :
    Yields (fun name => ∃ n, name = stem.nth n) (freshName stem) :=
  .of_forall_run fun s => ⟨s.counters.get stem, rfl⟩

end ShaderGen
