import ShaderGen.Profile.Basic
import ShaderGen.Program.Basic

/-! # Dialects

What the spelling of a program depends on: whether the generation of the language is a legacy one,
the stage, and which declarations carry a precision qualifier. -/

namespace ShaderGen.Glsl

/-- Which precision qualifiers are written. -/
inductive Qualifying where
  /-- none -/
  | off
  /-- the one that the type says -/
  | byType
  /-- the highest everywhere -/
  | highest
deriving DecidableEq, Repr

namespace Qualifying

/-- Qualifier in front of a type. -/
def qualifier? (q : Qualifying) (ty : Ty) : Option Precision :=
  if ty.takesPrecision then
    match q with
    | .off => none
    | .byType => some ty.precision
    | .highest => some .full
  else none

/-- Qualifiers that a profile asks for. -/
def ofProfile (p : Profile) : Qualifying :=
  if !p.usesPrecision then .off else if p.forcesHighPrecision then .highest else .byType

end Qualifying

/-- What decides how a program is spelled. -/
structure Dialect where
  legacy : Bool
  stage : Stage
  qualifying : Qualifying
deriving DecidableEq, Repr

namespace Dialect

/-- Dialect of a profile for a stage. -/
def ofProfile (p : Profile) (stage : Stage) : Dialect := ⟨p.isLegacy, stage, .ofProfile p⟩

/-- Whether a storage class has a spelling. Legacy fragment programs have no outputs of their
    own. -/
def hasStorage (d : Dialect) (storage : Storage) : Bool :=
  !(d.legacy && d.stage == .fragment && storage == .output)

/-- Keyword of a storage class, if it has one. -/
def storageKeyword? (d : Dialect) : Storage → Option String
  | .auto => none
  | .const => some "const"
  | .uniform => some "uniform"
  | .input =>
    match d.legacy, d.stage with
    | true, .fragment => some "varying"
    | true, .vertex => some "attribute"
    | _, _ => some "in"
  | .output =>
    match d.legacy, d.stage with
    | true, .vertex => some "varying"
    | _, _ => some "out"
  | .varying =>
    match d.legacy, d.stage with
    | true, .fragment | true, .vertex => some "varying"
    | false, .fragment => some "in"
    | _, _ => some "out"

end Dialect

end ShaderGen.Glsl
