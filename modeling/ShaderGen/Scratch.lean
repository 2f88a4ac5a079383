import ShaderGen.Error
import ShaderGen.Event

/-! # Scratch state of one generation

What the rules of a generation share: the names given out so far, and the extensions, globals and
helper functions that will stand before the program's own elements. Every generation starts from
the empty state, so nothing passes from one to the next. -/

namespace ShaderGen

/-- Start of a generated name. A number follows it. -/
inductive Stem where
  | loopFlag
  | minAbsTemp
  | fractTemp
  | minAbsInit
  | fractInit
deriving DecidableEq, Repr

/-- How names of a stem start. No stem starts another, so no two names are equal. -/
def Stem.text : Stem → String
  | .loopFlag => "_tmpLoopSeenOnce"
  | .minAbsTemp => "minAbsHackVar"
  | .fractTemp => "fractHackVar"
  | .minAbsInit => "minAbsHackInit"
  | .fractInit => "fractHackInit"

/-- How many names each stem has given out. -/
structure Counters where
  loopFlag : Nat := 0
  minAbsTemp : Nat := 0
  fractTemp : Nat := 0
  minAbsInit : Nat := 0
  fractInit : Nat := 0
deriving DecidableEq, Repr

namespace Counters

/-- Number of names that a stem has given out. -/
def get (c : Counters) : Stem → Nat
  | .loopFlag => c.loopFlag
  | .minAbsTemp => c.minAbsTemp
  | .fractTemp => c.fractTemp
  | .minAbsInit => c.minAbsInit
  | .fractInit => c.fractInit

/-- Counts one more name of a stem. -/
def bump (c : Counters) : Stem → Counters
  | .loopFlag => { c with loopFlag := c.loopFlag + 1 }
  | .minAbsTemp => { c with minAbsTemp := c.minAbsTemp + 1 }
  | .fractTemp => { c with fractTemp := c.fractTemp + 1 }
  | .minAbsInit => { c with minAbsInit := c.minAbsInit + 1 }
  | .fractInit => { c with fractInit := c.fractInit + 1 }

/-- Only the counter of the stem goes up. -/
@[simp] theorem get_bump (c : Counters) (s t : Stem) :
    (c.bump s).get t = if t = s then c.get t + 1 else c.get t := by
  cases s <;> cases t <;> rfl

end Counters

/-- Global declaration of the preamble. -/
inductive AddedGlobal where
  | declared (d : Decl)
  /-- the fragment coordinate, declared anew with its origin at the upper left -/
  | upperLeftOrigin
deriving Repr

namespace AddedGlobal

/-- Whether a global of the preamble declares a name. -/
def declares (name : String) : AddedGlobal → Bool
  | .declared d => d.name == name
  | .upperLeftOrigin => false

/-- Whether a global of the preamble moves the origin. -/
def isUpperLeftOrigin : AddedGlobal → Bool
  | .declared _ => false
  | .upperLeftOrigin => true

end AddedGlobal

/-- State that the rules of one generation share. -/
structure Scratch where
  inputs : Inputs := {}
  /-- the preamble declares the fragment color as an output -/
  declaresFragOutput : Bool := false
  counters : Counters := {}
  extensions : List String := []
  globals : List AddedGlobal := []
  /-- helper functions with the shape that each was made for -/
  helpers : List (Shape × Function) := []
  log : List Event := []

namespace Scratch

/-- Adds an event to the log. -/
def report (event : Event) (s : Scratch) : Scratch := { s with log := s.log ++ [event] }

/-- The next name of a stem: names of one stem are numbered from zero. -/
def freshName (stem : Stem) (s : Scratch) : String × Scratch :=
  (stem.text ++ toString (s.counters.get stem), { s with counters := s.counters.bump stem })

/-- Names an extension, once. -/
def requireExtension (name : String) (s : Scratch) : Scratch :=
  if s.extensions.contains name then s else { s with extensions := s.extensions ++ [name] }

/-- Names an extension before all others. -/
def requireExtensionFirst (name : String) (s : Scratch) : Scratch :=
  { s with extensions := name :: s.extensions.filter (· != name) }

/-- Declares a global of the preamble; only the first declaration of a name counts. -/
def declareGlobal (d : Decl) (s : Scratch) : Scratch :=
  if s.globals.any (AddedGlobal.declares d.name) then s
  else { s.report (.addsGlobal d.name) with globals := s.globals ++ [.declared d] }

/-- Moves the origin of fragment coordinates to the upper left, once. -/
def declareUpperLeftOrigin (s : Scratch) : Scratch :=
  if s.globals.any AddedGlobal.isUpperLeftOrigin then s
  else { s with globals := s.globals ++ [.upperLeftOrigin] }

/-- Adds the helper function of a shape; only the first one for a shape counts. -/
def addHelper (shape : Shape) (helper : Function) (s : Scratch) : Scratch :=
  if s.helpers.any (fun h => h.1 == shape) then s
  else { s.report (.addsHelper helper.name) with helpers := s.helpers ++ [(shape, helper)] }

end Scratch

/-- Work that changes the scratch state and cannot fail. -/
abbrev ScratchM := StateM Scratch

/-- Work that changes the scratch state and can fail; what it did before it failed remains. -/
abbrev GenM := ExceptT Fault ScratchM

/-- The next name of a stem. -/
def freshName (stem : Stem) : ScratchM String := modifyGet (Scratch.freshName stem)

/-- Fails on a malformed program. -/
def liftMalformed {α : Type} : Except Malformation α → GenM α
  | .ok a => pure a
  | .error cause => throw (.malformed cause)

/-- Fails on what the target cannot express. -/
def liftUnsupported {α : Type} : Except Unsupported α → GenM α
  | .ok a => pure a
  | .error cause => throw (.unsupported cause)

end ShaderGen
