import Mathlib.Data.List.Nodup
import ShaderGen.Proofs.Yields

/-!
# Names that are given out

The names of a stem are numbered one after the other, so a computation that asks for names gets the
next ones (`Stem.names`) and leaves a counter that has advanced by as many (`Scratch.advance`). A
`Naming` is a judgement on computations that also tells which names they were given.

## Key results

- `Stem.nth_inj`: a name tells its stem and its number
- `Naming.mapM`: computations one after the other
- `numbering_freshName`: the next name of a stem
-/

namespace ShaderGen

open List (Forall₂)

/-! ### Stems -/

namespace Stem

/-- A name tells its stem and its number, since no stem starts another. -/
theorem nth_inj {stem stem' : Stem} {n n' : Nat} (h : stem.nth n = stem'.nth n') :
    stem = stem' ∧ n = n' := by
  -- No stem is a prefix of another, so the stem can be read off the name.
  have hapart : ∀ stem stem' : Stem, stem.text.toList <+: stem'.text.toList → stem = stem' := by
    intro stem stem'
    cases stem <;> cases stem' <;> decide
  have hlists : stem.text.toList ++ (toString n).toList =
      stem'.text.toList ++ (toString n').toList := by
    simpa only [nth, String.toList_append] using congrArg String.toList h
  have hsame : stem = stem' := by
    rcases List.prefix_or_prefix_of_prefix (List.prefix_append _ _)
      (hlists ▸ List.prefix_append stem'.text.toList _) with hprefix | hprefix
    · exact hapart _ _ hprefix
    · exact (hapart _ _ hprefix).symm
  subst hsame
  exact ⟨rfl, stem.nth_injective h⟩

/-- The names of a stem with consecutive numbers. -/
def names (stem : Stem) (first count : Nat) : List String :=
  (List.range' first count).map stem.nth

variable {stem : Stem} {first count : Nat}

/-- No names are none. -/
@[simp] theorem names_zero : stem.names first 0 = [] := rfl

/-- One name is the first. -/
@[simp] theorem names_one : stem.names first 1 = [stem.nth first] := rfl

/-- Names drawn in two goes are the names drawn in one. -/
theorem names_append (more : Nat) :
    stem.names first count ++ stem.names (first + count) more =
      stem.names first (count + more) := by
  rw [names, names, ← List.map_append, List.range'_append_1]
  rfl

/-- Names of one stem are distinct. -/
theorem nodup_names : (stem.names first count).Nodup :=
  List.Nodup.map stem.nth_injective List.nodup_range'

/-- A name is drawn when its number lies in the range. -/
theorem mem_names {name : String} :
    name ∈ stem.names first count ↔ ∃ n, first ≤ n ∧ n < first + count ∧ stem.nth n = name := by
  simp only [names, List.mem_map, List.mem_range'_1, and_assoc]

end Stem

/-! ### Counters -/

/-- The counters after several names of a stem were given out. -/
def Counters.advance (stem : Stem) : Nat → Counters → Counters
  | 0, c => c
  | count + 1, c => advance stem count (c.bump stem)

/-- Advancing one counter leaves the others. -/
theorem Counters.get_advance (stem other : Stem) (count : Nat) (c : Counters) :
    (advance stem count c).get other =
      if other = stem then c.get other + count else c.get other := by
  induction count generalizing c with
  | zero => simp [advance]
  | succ count ih =>
    rw [advance, ih, get_bump]
    split <;> omega

/-- Advancing twice is advancing by the sum. -/
theorem Counters.advance_advance (stem : Stem) (first more : Nat) (c : Counters) :
    advance stem more (advance stem first c) = advance stem (first + more) c := by
  induction first generalizing c with
  | zero => rw [advance, Nat.zero_add]
  | succ first ih => rw [Nat.succ_add, advance, advance, ih]

namespace Scratch

variable {s : Scratch} {stem : Stem}

/-- The scratch state after several names of a stem were given out. -/
def advance (stem : Stem) (count : Nat) (s : Scratch) : Scratch :=
  { s with counters := Counters.advance stem count s.counters }

/-- Advancing by nothing changes nothing. -/
@[simp] theorem advance_zero : s.advance stem 0 = s := rfl

/-- Advancing the scratch twice is advancing it by the sum. -/
theorem advance_advance (first more : Nat) :
    (s.advance stem first).advance stem more = s.advance stem (first + more) :=
  congrArg (fun c => { s with counters := c })
    (Counters.advance_advance stem first more s.counters)

/-- The counter that was advanced has moved by the count. -/
@[simp] theorem get_advance_self (count : Nat) :
    (s.advance stem count).counters.get stem = s.counters.get stem + count := by
  rw [advance, Counters.get_advance, if_pos rfl]

end Scratch

/-! ### Judgements that tell names -/

/-- A way to tell what computations return and which names they are given for it. -/
structure Naming (m : Type → Type) [Monad m] where
  /-- what a computation returns goes with the names that it is given -/
  Holds {α : Type} (Q : List String → α → Prop) (x : m α) : Prop
  pure {α : Type} {Q : List String → α → Prop} {a : α} (h : Q [] a) : Holds Q (Pure.pure a)
  bind {α β : Type} {Q : List String → α → Prop} {R : List String → β → Prop} {x : m α}
    {f : α → m β} (h : Holds Q x)
    (hf : ∀ first a, Q first a → Holds (fun later b => R (first ++ later) b) (f a)) :
    Holds R (x >>= f)

namespace Naming

variable {m : Type → Type} [Monad m] [LawfulMonad m] {α β : Type} (C : Naming m)

omit [LawfulMonad m] in
/-- A pure function may be applied to what was computed. -/
theorem map {Q : List String → α → Prop} {R : List String → β → Prop} {x : m α} {g : α → β}
    (h : C.Holds Q x) (hg : ∀ names a, Q names a → R names (g a)) :
    C.Holds R (x >>= fun a => Pure.pure (g a)) := by
  refine C.bind h fun first a ha => C.pure ?_
  rw [List.append_nil]
  exact hg first a ha

/-- A postcondition may be weakened. -/
theorem mono {Q Q' : List String → α → Prop} {x : m α} (h : C.Holds Q x)
    (hmono : ∀ names a, Q names a → Q' names a) : C.Holds Q' x := by
  rw [← bind_pure x]
  exact C.map h hmono

/-- Computations one after the other, if what they return goes with more names as well. -/
theorem mapM {P : List String → α → β → Prop} {f : α → m β} {as : List α}
    (hmono : ∀ {names more a b}, P names a b → names.Sublist more → P more a b)
    (h : ∀ a ∈ as, C.Holds (fun names => P names a) (f a)) :
    C.Holds (fun names => Forall₂ (P names) as) (as.mapM f) := by
  induction as with
  | nil =>
    rw [List.mapM_nil]
    exact C.pure .nil
  | cons a as ih =>
    rw [List.mapM_cons]
    -- The names of the head come before those of the rest, and the two do not overlap.
    refine C.bind (h a List.mem_cons_self) fun first b hb => ?_
    refine C.bind (ih fun a' ha' => h a' (List.mem_cons_of_mem a ha')) fun later bs hbs => ?_
    refine C.pure ?_
    rw [List.append_nil]
    refine .cons (hmono hb (List.sublist_append_left first later)) (hbs.imp fun _ _ hP => ?_)
    exact hmono hP (List.sublist_append_right first later)

/-- What computations return once the names that they are given are known to be among others. -/
def verdict (names : List String) : Verdict m where
  Holds Q x := C.Holds (fun own a => own ⊆ names → Q a) x
  pure h := C.pure fun _ => h
  bind h hf := C.bind h fun _ a ha => C.mono (hf a) fun _ _ hb hnames =>
    have ⟨hfirst, hlater⟩ := List.append_subset.mp hnames
    hb hlater (ha hfirst)

end Naming

/-- Computations without effects are given no names. -/
def unnamed : Naming Id where
  Holds Q x := Q [] x.run
  pure h := h
  bind h hf := hf _ _ h

/-- Computations are given the next names of a stem, and do nothing else to the scratch state. -/
def numbering (stem : Stem) : Naming ScratchM where
  Holds Q x := ∀ s, ∃ count, (x.run s).2 = s.advance stem count ∧
    Q (stem.names (s.counters.get stem) count) (x.run s).1
  pure h s := ⟨0, rfl, h⟩
  bind {_ _ _ R x f} h hf s := by
    obtain ⟨count, hstate, hresult⟩ := h s
    obtain ⟨more, hstate', hresult'⟩ := hf _ _ hresult (x.run s).2
    refine ⟨count + more, ?_, ?_⟩
    · rw [StateT.run_bind, ← Scratch.advance_advance, ← hstate]
      exact hstate'
    · rw [hstate, Scratch.get_advance_self, Stem.names_append, ← hstate] at hresult'
      exact hresult'

/-- The same for computations that can fail, where nothing is said of what fails. -/
def numberingGen (stem : Stem) : Naming GenM where
  Holds {α} Q x := (numbering stem).Holds
    (fun names (r : Except Fault α) => ∀ a, r = .ok a → Q names a) x.run
  pure h := (numbering stem).pure fun _ ha => Except.ok.inj ha ▸ h
  bind {_ _ _ _ x f} h hf := by
    rw [ExceptT.run_bind]
    refine (numbering stem).bind h fun first r hr => ?_
    cases r with
    | error fault => exact (numbering stem).pure nofun
    | ok a => exact hf first a (hr a rfl)

/-- The next name of a stem. -/
theorem numbering_freshName (stem : Stem) :
    (numbering stem).Holds (fun names name => names = [name]) (freshName stem) :=
  fun _ => ⟨1, rfl, rfl⟩

section

variable {α : Type} {stem : Stem} {Q : List String → α → Prop}

/-- A computation that draws names still does when it may also fail. -/
theorem numberingGen_lift {x : ScratchM α} (h : (numbering stem).Holds Q x) :
    (numberingGen stem).Holds Q (liftM x) := by
  intro s
  obtain ⟨count, hstate, hresult⟩ := h s
  exact ⟨count, hstate, fun a ha => Except.ok.inj ha ▸ hresult⟩

/-- A failure draws nothing. -/
theorem numberingGen_fail (fault : Fault) : (numberingGen stem).Holds Q (throw fault) :=
  fun _ => ⟨0, rfl, nofun⟩

end

end ShaderGen
