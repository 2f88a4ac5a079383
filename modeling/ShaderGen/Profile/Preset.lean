import ShaderGen.Profile.Basic

/-! # Preset profiles

Named profiles, each the default profile with one aspect changed. A preset carries its own name.
-/

namespace ShaderGen.Profile

/-- What each preset changes, by name. -/
def presets : List (String × (Profile → Profile)) :=
  let needing (w : Workaround) : Profile → Profile := ({ · with workarounds := .single w })
  let legacy : Profile → Profile :=
    ({ · with versionLine := "#version 110", generation := .v110 })
  let geometry : Profile → Profile := ({ · with hasGeometryShaders := true })
  [("default", id),
   ("version_450_core", ({ · with versionLine := "#version 450 core", generation := .v450 })),
   ("version_110", legacy),
   ("uses_precision_modifiers", ({ · with usesPrecision := true })),
   ("force_high_precision", ({ · with usesPrecision := true, forcesHighPrecision := true })),
   ("frag_coord_legacy_extension",
     fun p => { legacy p with coordConvention := .legacyExtension }),
   ("frag_coord_modern_layout", ({ · with coordConvention := .modernLayout })),
   ("cannot_use_frag_coord", needing .avoidFragCoord),
   ("sharpen_mipmap_levels", ({ · with sharpensMipmaps := true })),
   ("standard_derivatives_extension",
     ({ · with
        versionLine := "#version 100"
        generation := .es100
        usesPrecision := true
        derivativesExtension := some "GL_OES_standard_derivatives" })),
   ("geometry_shaders", geometry),
   ("no_gs_invocations", fun p => { geometry p with hasInvocations := false }),
   ("gs_invocations_extension",
     fun p => { geometry p with invocationsExtension := some "GL_ARB_gpu_shader5" }),
   ("geometry_shader_extension",
     fun p =>
      { geometry p with
        versionLine := "#version 310es"
        generation := .es310
        geometryExtension := some "GL_EXT_geometry_shader" }),
   ("loop_condition_and_true", needing .loopConditionAndTrue),
   ("unfold_short_circuit", needing .unfoldShortCircuit),
   ("rewrite_do_while", needing .replaceDoWhile),
   ("emulate_int_abs", needing .emulateIntAbs),
   ("min_abs_broken", needing .splitMinAbs),
   ("negative_fract_broken", needing .guardFract),
   ("negated_atan_operand", needing .multiplyAtanSign),
   ("remove_constant_exponent_pow", needing .expandConstantPow),
   ("lowers_ternary_lvalues", needing .splitTernaryTargets)]

/-- Names of the presets, in the order in which they are offered. -/
def presetNames : List String := presets.map Prod.fst

/-- The preset of a name. -/
def preset? (name : String) : Option Profile :=
  (presets.lookup name).map fun change => change { name }

end ShaderGen.Profile
