import ShaderGen.Profile.Basic

/-! # Profiles as configuration values

A profile is kept in a configuration as a table from field names to values. `Profile.toConfig`
writes the table, with all fields in order, and `Profile.ofConfig?` reads it: a field that is not
given has its default value, unknown fields are ignored, and a value that does not fit its field
spoils the profile. A list is read as the values of the fields in order, again with defaults for
those at the end that are not given. -/

namespace ShaderGen

/-- Configuration value. Numbers are decimal: `mantissa * 10 ^ -places`. -/
inductive Config where
  | null
  | bool (value : Bool)
  | number (mantissa : Int) (places : Nat)
  | text (value : String)
  | list (values : List Config)
  | table (fields : List (String × Config))
deriving Inhabited

namespace Config

/-- Reads a truth value. -/
def bool? : Config → Option Bool
  | .bool value => some value
  | _ => none

/-- Reads a text. -/
def text? : Config → Option String
  | .text value => some value
  | _ => none

/-- Reads a text that need not be there. -/
def optionalText? : Config → Option (Option String)
  | .null => some none
  | .text value => some (some value)
  | _ => none

/-- Reads a name: a text, or a table of one field with that name and no value. -/
def name? : Config → Option String
  | .text name => some name
  | .table [(name, .null)] => some name
  | _ => none

end Config

namespace Profile

/-- Names of the fields in a configuration, in order. -/
def fieldNames : List String :=
  ["name", "version_decl", "generation", "uses_precision_modifiers", "force_high_precision",
   "frag_coord_convention", "sharpen_mipmap_levels", "supports_geometry_shaders",
   "supports_native_gs_invocations", "quirks", "standard_derivatives_extension",
   "geometry_shader_extension", "gs_invocations_extension"]

/-- Reads one field; what is not given has its default value. -/
def field? {α : Type} (fields : List (String × Config)) (name : String)
    (read : Config → Option α) (default : α) : Option α :=
  match fields.lookup name with
  | some value => read value
  | none => some default

/-- Reads a profile from its fields. -/
def ofFields? (fields : List (String × Config)) : Option Profile := do
  let base : Profile := {}
  return {
    name := ← field? fields "name" Config.text? base.name
    versionLine := ← field? fields "version_decl" Config.text? base.versionLine
    generation := ←
      field? fields "generation" (fun v => v.name?.bind Generation.ofName?) base.generation
    usesPrecision := ← field? fields "uses_precision_modifiers" Config.bool? base.usesPrecision
    forcesHighPrecision := ←
      field? fields "force_high_precision" Config.bool? base.forcesHighPrecision
    coordConvention := ←
      field? fields "frag_coord_convention" (fun v => v.name?.bind CoordConvention.ofName?)
        base.coordConvention
    sharpensMipmaps := ← field? fields "sharpen_mipmap_levels" Config.bool? base.sharpensMipmaps
    hasGeometryShaders := ←
      field? fields "supports_geometry_shaders" Config.bool? base.hasGeometryShaders
    hasInvocations := ←
      field? fields "supports_native_gs_invocations" Config.bool? base.hasInvocations
    workarounds := ←
      field? fields "quirks" (fun v => v.text?.bind Workarounds.ofText?) base.workarounds
    derivativesExtension := ←
      field? fields "standard_derivatives_extension" Config.optionalText? base.derivativesExtension
    geometryExtension := ←
      field? fields "geometry_shader_extension" Config.optionalText? base.geometryExtension
    invocationsExtension := ←
      field? fields "gs_invocations_extension" Config.optionalText? base.invocationsExtension }

/-- Reads a profile from a table of its fields, or from a list of their values. -/
def ofConfig? : Config → Option Profile
  | .table fields => ofFields? fields
  | .list values =>
    if values.length ≤ fieldNames.length then ofFields? (fieldNames.zip values) else none
  | _ => none

/-- Table of all fields of a profile, in order. -/
def toConfig (p : Profile) : Config :=
  let optional : Option String → Config
    | some value => .text value
    | none => .null
  .table (fieldNames.zip [
    .text p.name,
    .text p.versionLine,
    .text p.generation.name,
    .bool p.usesPrecision,
    .bool p.forcesHighPrecision,
    .text p.coordConvention.name,
    .bool p.sharpensMipmaps,
    .bool p.hasGeometryShaders,
    .bool p.hasInvocations,
    .text p.workarounds.text,
    optional p.derivativesExtension,
    optional p.geometryExtension,
    optional p.invocationsExtension])

end Profile

end ShaderGen
