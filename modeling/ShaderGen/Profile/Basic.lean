import ShaderGen.Profile.Workaround

/-! # Profiles

A profile says what a target understands: the version line to write, the generation of the
language, how fragment coordinates can be moved, the extensions that have to be named, and the
workarounds it needs. -/

namespace ShaderGen

/-- Generation of the shading language. -/
inductive Generation where
  | v110
  | v130
  | v140
  | v150
  | v330
  | v400
  | v420
  | v450
  | es100
  | es300
  | es310
  | es320
deriving DecidableEq, Repr

namespace Generation

/-- All generations. -/
def all : List Generation :=
  [.v110, .v130, .v140, .v150, .v330, .v400, .v420, .v450, .es100, .es300, .es310, .es320]

/-- Whether the generation has neither `in` and `out` nor one `texture` function for all
    samplers. -/
def isLegacy : Generation → Bool
  | .v110 | .es100 => true
  | _ => false

/-- Name of a generation in a configuration. -/
def name : Generation → String
  | .v110 => "v110"
  | .v130 => "v130"
  | .v140 => "v140"
  | .v150 => "v150"
  | .v330 => "v330"
  | .v400 => "v400"
  | .v420 => "v420"
  | .v450 => "v450"
  | .es100 => "es100"
  | .es300 => "es300"
  | .es310 => "es310"
  | .es320 => "es320"

/-- Generation of a name. -/
def ofName? (name : String) : Option Generation := all.find? fun g => g.name == name

/-- A generation is read back from its name. -/
@[simp] theorem ofName?_name (g : Generation) : ofName? g.name = some g := by
  cases g <;> decide

end Generation

/-- How a shader can move the origin of fragment coordinates to the upper left. -/
inductive CoordConvention where
  /-- not at all -/
  | none
  /-- with a layout qualifier that an extension brings -/
  | legacyExtension
  /-- with a layout qualifier -/
  | modernLayout
deriving DecidableEq, Repr

namespace CoordConvention

/-- All conventions. -/
def all : List CoordConvention := [.none, .legacyExtension, .modernLayout]

/-- Name of a convention in a configuration. -/
def name : CoordConvention → String
  | .none => "none"
  | .legacyExtension => "legacy_extension"
  | .modernLayout => "modern_layout"

/-- Convention of a name. -/
def ofName? (name : String) : Option CoordConvention := all.find? fun c => c.name == name

/-- A convention is read back from its name. -/
@[simp] theorem ofName?_name (c : CoordConvention) : ofName? c.name = some c := by
  cases c <;> decide

end CoordConvention

/-- What a target understands and needs. The fields that are not given have the values of the
    profile `default`. -/
structure Profile where
  /-- shown in error messages only -/
  name : String := "default"
  /-- first line of the text, written as it is -/
  versionLine : String := "#version 400"
  generation : Generation := .v400
  usesPrecision : Bool := false
  forcesHighPrecision : Bool := false
  coordConvention : CoordConvention := .none
  sharpensMipmaps : Bool := false
  hasGeometryShaders : Bool := false
  hasInvocations : Bool := true
  workarounds : Workarounds := .empty
  derivativesExtension : Option String := none
  geometryExtension : Option String := none
  invocationsExtension : Option String := none
deriving DecidableEq, Repr

namespace Profile

/-- Whether the target needs a workaround. -/
def needs (p : Profile) (w : Workaround) : Bool := p.workarounds.contains w

/-- Whether the target speaks a legacy generation. -/
def isLegacy (p : Profile) : Bool := p.generation.isLegacy

end Profile

end ShaderGen
