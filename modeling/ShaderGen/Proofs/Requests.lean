import ShaderGen.Proofs.Legalize.Journal
import ShaderGen.Proofs.Mirror
import ShaderGen.Proofs.Naming

/-!
# Requests to the scratch state

Rules ask the scratch state for names, extensions, globals and helper functions, in any order. What
is there after several requests can be told from the requests alone (`Scratch.Served`): no name is
given out twice, whatever the stems; an extension is named once, and the last one that was asked for
to come first does so; and of the globals of one name, as of the helper functions for one shape, the
one that was asked for first is there.

## Main definitions

- `firsts`: the members of a list that are the first with their key
- `Request`: what can be asked of the scratch state

## Key results

- `Scratch.Served.serve`: one more request
- `served_serveAll`: any requests, one after the other
-/

namespace ShaderGen

/-! ### The first with each key -/

section

variable {β κ : Type} [DecidableEq κ] {key : β → κ} {b : β} {bs : List β} {k : κ}

/-- The members of a list that are the first with their key, in order. -/
def firsts (key : β → κ) : List β → List β
  | [] => []
  | b :: bs => b :: (firsts key bs).filter (key · ≠ key b)

/-- Keys are not lost. -/
theorem mem_map_firsts : k ∈ (firsts key bs).map key ↔ k ∈ bs.map key := by
  induction bs with
  | nil => rfl
  | cons b bs ih =>
    -- The first of each key is kept, so no key gets lost.
    by_cases hk : k = key b
    · simp [firsts, hk]
    · simp only [List.mem_map] at ih
      simp [firsts, hk, ← ih, and_assoc]
      grind

/-- No key is there twice. -/
theorem nodup_map_firsts : ((firsts key bs).map key).Nodup := by
  induction bs with
  | nil => exact List.nodup_nil
  | cons b bs ih =>
    rw [firsts, List.map_cons, List.nodup_cons]
    refine ⟨by simp, ?_⟩
    exact ih.sublist (List.filter_sublist.map key)

/-- One more member is left out if its key is there already. -/
theorem firsts_concat (key : β → κ) (bs : List β) (b : β) :
    firsts key (bs ++ [b]) =
      if key b ∈ bs.map key then firsts key bs else firsts key bs ++ [b] := by
  induction bs with
  | nil => rfl
  | cons a bs ih =>
    rw [List.cons_append, firsts, ih, firsts]
    by_cases hb : key b = key a
    · split <;> simp [hb]
    · split <;> simp_all

/-- Adding one more member after a test for its key among those that are there. -/
theorem concat_firsts {test : Bool} (h : test = true ↔ key b ∈ (firsts key bs).map key) :
    (if test then firsts key bs else firsts key bs ++ [b]) = firsts key (bs ++ [b]) := by
  rw [firsts_concat]
  simp only [h, mem_map_firsts]

end

/-! ### Requests -/

/-- What can be asked of the scratch state. -/
inductive Request where
  /-- the next name of a stem -/
  | fresh (stem : Stem)
  | extension (name : String)
  /-- an extension that has to come before all others -/
  | extensionFirst (name : String)
  | global (d : Decl)
  | upperLeftOrigin
  /-- a helper function for a shape -/
  | helper (shape : Shape) (fn : Function)

namespace Request

/-- The stem of which a name is asked for. -/
def stem? : Request → Option Stem
  | .fresh stem => some stem
  | _ => none

/-- The extension that is asked for, at whatever place. -/
def extension? : Request → Option String
  | .extension name | .extensionFirst name => some name
  | _ => none

/-- The extension that is asked for to come first. -/
def first? : Request → Option String
  | .extensionFirst name => some name
  | _ => none

/-- The global that is asked for. -/
def global? : Request → Option AddedGlobal
  | .global d => some (.declared d)
  | .upperLeftOrigin => some .upperLeftOrigin
  | _ => none

/-- The helper function that is asked for, with its shape. -/
def helper? : Request → Option (Shape × Function)
  | .helper shape fn => some (shape, fn)
  | _ => none

/-- The answer to a request, which is a name or nothing, and the scratch state after it. -/
def serve (s : Scratch) : Request → Option String × Scratch
  | .fresh stem => ((s.freshName stem).1, (s.freshName stem).2)
  | .extension name => (none, s.requireExtension name)
  | .extensionFirst name => (none, s.requireExtensionFirst name)
  | .global d => (none, s.declareGlobal d)
  | .upperLeftOrigin => (none, s.declareUpperLeftOrigin)
  | .helper shape fn => (none, s.addHelper shape fn)

/-- The names that are given for requests, one after the other, and the scratch state after all of
    them. -/
def serveAll (s : Scratch) : List Request → List String × Scratch
  | [] => ([], s)
  | r :: rs =>
    let rest := serveAll (r.serve s).2 rs
    ((r.serve s).1.toList ++ rest.1, rest.2)

end Request

/-! ### One more request -/

namespace Scratch

/-- What has been answered to some requests, and what is there after them, if they were put to the
    empty scratch state. -/
structure Served (rs : List Request) (names : List String) (s : Scratch) : Prop where
  /-- every request for a name was answered, with a name of its stem -/
  stems : List.Forall₂ (fun stem name => ∃ n < s.counters.get stem, name = stem.nth n)
    (rs.filterMap Request.stem?) names
  /-- no name was given out twice -/
  distinct : names.Nodup
  /-- no extension is named twice -/
  once : s.extensions.Nodup
  /-- the extensions that are named are those that were asked for -/
  requested (x : String) : x ∈ s.extensions ↔ x ∈ rs.filterMap Request.extension?
  /-- the last extension that was asked for to come first does so -/
  first : ∀ x ∈ (rs.filterMap Request.first?).getLast?, s.extensions.head? = some x
  /-- of the globals of one name, the one that was asked for first is there -/
  globals : s.globals = firsts AddedGlobal.name? (rs.filterMap Request.global?)
  /-- of the helpers for one shape, the one that was asked for first is there -/
  helpers : s.helpers = firsts Prod.fst (rs.filterMap Request.helper?)

variable {s : Scratch} {rs : List Request} {names : List String} {r : Request} {x : String}

/-- A request that asks for no name gets none, and uses up no number. -/
theorem serve_of_stem?_eq_none (h : r.stem? = none) :
    (r.serve s).1 = none ∧ (r.serve s).2.counters = s.counters := by
  cases r with
  | fresh stem => cases h
  -- The counters are not among the fields that such a request changes.
  | extension name =>
    obtain ⟨_, hs⟩ := s.exists_requireExtension name
    exact ⟨rfl, by simp only [Request.serve, hs]⟩
  | extensionFirst name => exact ⟨rfl, rfl⟩
  | global d =>
    obtain ⟨_, _, hs⟩ := s.exists_declareGlobal d
    exact ⟨rfl, by simp only [Request.serve, hs]⟩
  | upperLeftOrigin =>
    obtain ⟨_, hs⟩ := s.exists_declareUpperLeftOrigin
    exact ⟨rfl, by simp only [Request.serve, hs]⟩
  | helper shape fn =>
    obtain ⟨_, _, hs⟩ := s.exists_addHelper shape fn
    exact ⟨rfl, by simp only [Request.serve, hs]⟩

/-- A request that names no extension leaves the extensions as they are. -/
theorem extensions_serve (h : r.extension? = none) : (r.serve s).2.extensions = s.extensions := by
  cases r with
  | fresh stem => rfl
  | extension | extensionFirst => cases h
  -- Declaring changes the globals and the log.
  | global d =>
    obtain ⟨_, _, hs⟩ := s.exists_declareGlobal d
    simp only [Request.serve, hs]
  | upperLeftOrigin =>
    obtain ⟨_, hs⟩ := s.exists_declareUpperLeftOrigin
    simp only [Request.serve, hs]
  | helper shape fn =>
    obtain ⟨_, _, hs⟩ := s.exists_addHelper shape fn
    simp only [Request.serve, hs]

/-- A request for no global leaves the globals as they are. -/
theorem globals_serve (h : r.global? = none) : (r.serve s).2.globals = s.globals := by
  -- Every other request leaves the globals alone.
  cases r with
  | fresh | extensionFirst => rfl
  | extension name =>
    obtain ⟨_, hs⟩ := s.exists_requireExtension name
    simp only [Request.serve, hs]
  | global | upperLeftOrigin => cases h
  | helper shape fn =>
    obtain ⟨_, _, hs⟩ := s.exists_addHelper shape fn
    simp only [Request.serve, hs]

/-- A request for no helper leaves the helpers as they are. -/
theorem helpers_serve (h : r.helper? = none) : (r.serve s).2.helpers = s.helpers := by
  cases r with
  | fresh | extensionFirst => rfl
  -- Helpers are added by a request of their own only.
  | extension name =>
    obtain ⟨_, hs⟩ := s.exists_requireExtension name
    simp only [Request.serve, hs]
  | global d =>
    obtain ⟨_, _, hs⟩ := s.exists_declareGlobal d
    simp only [Request.serve, hs]
  | upperLeftOrigin =>
    obtain ⟨_, hs⟩ := s.exists_declareUpperLeftOrigin
    simp only [Request.serve, hs]
  | helper => cases h

/-! Extensions. -/

/-- Naming an extension adds that one alone. -/
theorem mem_requireExtension {name : String} :
    x ∈ (s.requireExtension name).extensions ↔ x ∈ s.extensions ∨ x = name := by
  unfold requireExtension
  split
  · next h => grind
  · simp

/-- Naming an extension repeats none. -/
theorem nodup_requireExtension (name : String) (h : s.extensions.Nodup) :
    (s.requireExtension name).extensions.Nodup := by
  unfold requireExtension
  split
  · exact h
  · next hnew =>
    rw [List.nodup_append_comm]
    exact List.nodup_cons.mpr ⟨by simpa using hnew, h⟩

/-- An extension that is asked for comes after those that are there. -/
theorem head?_requireExtension {name : String} (h : s.extensions.head? = some x) :
    (s.requireExtension name).extensions.head? = some x := by
  unfold requireExtension
  split
  · exact h
  · exact (List.head?_append_of_ne_nil _ fun hnil => by simp [hnil] at h).trans h

/-- Naming an extension first adds that one alone. -/
theorem mem_requireExtensionFirst {name : String} :
    x ∈ (s.requireExtensionFirst name).extensions ↔ x ∈ s.extensions ∨ x = name := by
  simp [requireExtensionFirst]
  grind

/-- Naming an extension first repeats none. -/
theorem nodup_requireExtensionFirst (name : String) (h : s.extensions.Nodup) :
    (s.requireExtensionFirst name).extensions.Nodup :=
  List.nodup_cons.mpr ⟨by simp, h.filter _⟩

/-! Globals and helper functions. -/

/-- A global is added unless one of its name is there. -/
theorem globals_declareGlobal (d : Decl) : (s.declareGlobal d).globals =
    if s.globals.any (AddedGlobal.declares d.name) then s.globals
    else s.globals ++ [.declared d] := by
  unfold declareGlobal
  split <;> rfl

/-- The origin is moved once. -/
theorem globals_declareUpperLeftOrigin : s.declareUpperLeftOrigin.globals =
    if s.globals.any AddedGlobal.isUpperLeftOrigin then s.globals
    else s.globals ++ [.upperLeftOrigin] := by
  unfold declareUpperLeftOrigin
  split <;> rfl

/-- A helper is added unless one of its shape is there. -/
theorem helpers_addHelper (shape : Shape) (fn : Function) : (s.addHelper shape fn).helpers =
    if s.helpers.any (fun h => h.1 == shape) then s.helpers else s.helpers ++ [(shape, fn)] := by
  unfold addHelper
  split <;> rfl

/-- A global of a name is there just if the name is among those declared. -/
theorem any_declares {gs : List AddedGlobal} {name : String} :
    gs.any (AddedGlobal.declares name) = true ↔ some name ∈ gs.map AddedGlobal.name? := by
  rw [List.any_eq_true, List.mem_map]
  refine exists_congr fun g => and_congr_right fun _ => ?_
  cases g <;> simp [AddedGlobal.declares, AddedGlobal.name?]

/-- The origin was moved just if one of the globals declares no name. -/
theorem any_isUpperLeftOrigin {gs : List AddedGlobal} :
    gs.any AddedGlobal.isUpperLeftOrigin = true ↔ none ∈ gs.map AddedGlobal.name? := by
  rw [List.any_eq_true, List.mem_map]
  refine exists_congr fun g => and_congr_right fun _ => ?_
  cases g <;> simp [AddedGlobal.isUpperLeftOrigin, AddedGlobal.name?]

/-- A helper for a shape is there just if the shape is among theirs. -/
theorem any_shape {helpers : List (Shape × Function)} {shape : Shape} :
    helpers.any (fun h => h.1 == shape) = true ↔ shape ∈ helpers.map Prod.fst := by
  simp

/-- What a list ends with is asked last. -/
theorem filterMap_concat {β γ : Type} (f : β → Option γ) (bs : List β) (b : β) :
    (bs ++ [b]).filterMap f = bs.filterMap f ++ (f b).toList := by
  rw [List.filterMap_append]
  cases h : f b <;> simp [h]

namespace Served

/-- The names that were given out are numbered below the counters, so the next one is new. -/
theorem notMem_freshName (h : Served rs names s) (stem : Stem) : (s.freshName stem).1 ∉ names := by
  intro hmem
  obtain ⟨stem', -, n, hn, hname⟩ := Stmt.exists_of_forall₂ h.stems _ hmem
  obtain ⟨rfl, rfl⟩ := Stem.nth_inj (show stem.nth (s.counters.get stem) = stem'.nth n from hname)
  exact absurd hn (Nat.lt_irrefl _)

/-- A name that was given out stays below the counter of its stem. -/
theorem stems_freshName (h : Served rs names s) (stem : Stem) :
    List.Forall₂ (fun stem' name => ∃ n < (s.freshName stem).2.counters.get stem',
      name = stem'.nth n) (rs.filterMap Request.stem? ++ [stem])
        (names ++ [(s.freshName stem).1]) := by
  -- Only the number of this stem goes up.
  have hcounter : ∀ stem', (s.freshName stem).2.counters.get stem' =
      if stem' = stem then s.counters.get stem' + 1 else s.counters.get stem' :=
    s.counters.get_bump stem
  refine List.rel_append (h.stems.imp fun stem' name hname => ?_) (.cons ?_ .nil)
  · obtain ⟨n, hn, rfl⟩ := hname
    refine ⟨n, ?_, rfl⟩
    rw [hcounter]
    split <;> omega
  · exact ⟨s.counters.get stem, by simp [hcounter], rfl⟩

/-- The names that are handed out are numbered below the counters, and all different. -/
theorem names_serve (h : Served rs names s) (r : Request) :
    List.Forall₂ (fun stem name => ∃ n < (r.serve s).2.counters.get stem, name = stem.nth n)
        ((rs ++ [r]).filterMap Request.stem?) (names ++ (r.serve s).1.toList) ∧
      (names ++ (r.serve s).1.toList).Nodup := by
  rw [filterMap_concat]
  -- A new name is different from those before, because its number was not used yet.
  cases hr : r.stem? with
  | none =>
    obtain ⟨hanswer, hcounters⟩ := serve_of_stem?_eq_none (s := s) hr
    simpa [hanswer, hcounters] using ⟨h.stems, h.distinct⟩
  | some stem =>
    obtain rfl : r = .fresh stem := by
      cases r with
      | fresh => exact congrArg Request.fresh (Option.some.inj hr)
      | _ => cases hr
    refine ⟨h.stems_freshName stem, ?_⟩
    rw [List.nodup_append_comm]
    exact List.nodup_cons.mpr ⟨h.notMem_freshName stem, h.distinct⟩

/-- Whatever is asked for, extensions are those that were named, each once and the one that was last
    asked to be first in front. -/
theorem extensions_serve (h : Served rs names s) (r : Request) :
    (r.serve s).2.extensions.Nodup ∧
      (∀ x, x ∈ (r.serve s).2.extensions ↔ x ∈ (rs ++ [r]).filterMap Request.extension?) ∧
      ∀ x ∈ ((rs ++ [r]).filterMap Request.first?).getLast?,
        (r.serve s).2.extensions.head? = some x := by
  simp only [filterMap_concat]
  cases r with
  | extension name =>
    refine ⟨nodup_requireExtension name h.once, fun x => ?_, fun x hx => ?_⟩
    · rw [List.mem_append, ← h.requested]
      exact mem_requireExtension.trans (or_congr_right List.mem_singleton.symm)
    · -- What was put in front stays in front.
      rw [show Option.toList _ = [] from rfl, List.append_nil] at hx
      exact head?_requireExtension (h.first x hx)
  | extensionFirst name =>
    refine ⟨nodup_requireExtensionFirst name h.once, fun x => ?_, fun x hx => ?_⟩
    · rw [List.mem_append, ← h.requested]
      exact mem_requireExtensionFirst.trans (or_congr_right List.mem_singleton.symm)
    · obtain rfl : name = x := by simpa [Request.first?] using hx
      rfl
  | fresh | global | upperLeftOrigin | helper =>
    rw [Scratch.extensions_serve rfl]
    simp only [Request.extension?, Request.first?, Option.toList_none, List.append_nil]
    exact ⟨h.once, h.requested, h.first⟩

/-- The globals are the first ones of their names among those asked for. -/
theorem globals_serve (h : Served rs names s) (r : Request) :
    (r.serve s).2.globals = firsts AddedGlobal.name? ((rs ++ [r]).filterMap Request.global?) := by
  rw [filterMap_concat]
  cases r with
  | global d =>
    refine (globals_declareGlobal d).trans ?_
    rw [h.globals]
    exact concat_firsts any_declares
  -- The origin is declared once, like a global with a name.
  | upperLeftOrigin =>
    refine globals_declareUpperLeftOrigin.trans ?_
    rw [h.globals]
    exact concat_firsts any_isUpperLeftOrigin
  | fresh | extension | extensionFirst | helper =>
    rw [Scratch.globals_serve rfl]
    simpa [Request.global?] using h.globals

/-- The helpers are the first ones of their shapes among those asked for. -/
theorem helpers_serve (h : Served rs names s) (r : Request) :
    (r.serve s).2.helpers = firsts Prod.fst ((rs ++ [r]).filterMap Request.helper?) := by
  rw [filterMap_concat]
  -- A helper is added unless there is one of its shape.
  cases r with
  | helper shape fn =>
    refine (helpers_addHelper shape fn).trans ?_
    rw [h.helpers]
    exact concat_firsts any_shape
  | fresh | extension | extensionFirst | global | upperLeftOrigin =>
    rw [Scratch.helpers_serve rfl]
    simpa [Request.helper?] using h.helpers

/-- One more request. -/
theorem serve (h : Served rs names s) (r : Request) :
    Served (rs ++ [r]) (names ++ (r.serve s).1.toList) (r.serve s).2 where
  stems := (h.names_serve r).1
  distinct := (h.names_serve r).2
  once := (h.extensions_serve r).1
  requested := (h.extensions_serve r).2.1
  first := (h.extensions_serve r).2.2
  globals := h.globals_serve r
  helpers := h.helpers_serve r

/-- Several more requests. -/
theorem serveAll (h : Served rs names s) (more : List Request) :
    Served (rs ++ more) (names ++ (Request.serveAll s more).1) (Request.serveAll s more).2 := by
  induction more generalizing rs names s with
  | nil => simpa [Request.serveAll] using h
  | cons r more ih =>
    have hrest := ih (h.serve r)
    rwa [List.append_assoc, List.append_assoc] at hrest

end Served

/-- Nothing has been asked for yet. -/
theorem served_empty : Served [] [] {} where
  stems := .nil
  distinct := List.nodup_nil
  once := List.nodup_nil
  requested _ := Iff.rfl
  first := nofun
  globals := rfl
  helpers := rfl

end Scratch

/-- Any requests to the empty scratch state, one after the other. -/
theorem served_serveAll (rs : List Request) :
    let (names, s) := Request.serveAll {} rs
    s.Served rs names ∧ s.globalNames.Nodup ∧ (s.helpers.map Prod.fst).Nodup := by
  have h := Scratch.served_empty.serveAll rs
  refine ⟨h, ?_, ?_⟩
  · -- No two globals have one key, so no two have one name.
    have hkeys : ((Request.serveAll {} rs).2.globals.map AddedGlobal.name?).Nodup :=
      h.globals ▸ nodup_map_firsts
    have hnames := hkeys.filterMap (f := id) fun a a' name ha ha' => ha.trans ha'.symm
    rwa [List.filterMap_map] at hnames
  · exact h.helpers ▸ nodup_map_firsts

end ShaderGen
