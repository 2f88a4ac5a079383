import ShaderGen.Program.Basic
import ShaderGen.Target

/-! # Events

What a generation reports about its progress. An event has a level, a message and named fields,
all of them text. -/

namespace ShaderGen

/-- How important an event is. -/
inductive Level where
  | debug
  | trace
deriving DecidableEq, Repr

/-- Name of a level in events. -/
def Level.label : Level → String
  | .debug => "DEBUG"
  | .trace => "TRACE"

/-- One report of a generation. -/
inductive Event where
  /-- an enabled rule of the pipeline starts -/
  | ruleStarts (rule : String)
  /-- how fragment coordinates will be read, and whether they are read at all -/
  | coordPolicy (policy : CoordPolicy) (usesCoord : Bool)
  | emulatesInvocations (count : Nat)
  /-- a new global declaration joins the preamble -/
  | addsGlobal (name : String)
  /-- a new function joins the preamble -/
  | addsHelper (name : String)
  | generated (profile : String) (stage : Stage) (bytes : Nat) (inputs : Inputs)
deriving DecidableEq, Repr

/-- Name of a stage in events. -/
def Stage.label : Stage → String
  | .vertex => "Vertex"
  | .fragment => "Fragment"
  | .geometry => "Geometry"

/-- Name of a policy in events. -/
def CoordPolicy.label : CoordPolicy → String
  | .direct upperLeft =>
    "Direct \x7b origin_upper_left: " ++ toString upperLeft ++ " \x7d"
  | .legacyExtension => "LegacyExtension"
  | .fromHeight => "NormalizeViaUniform"
  | .fromVarying => "WorkaroundViaVarying"

namespace Event

/-- Additions to the preamble are details; everything else is of interest on its own. -/
def level : Event → Level
  | .addsGlobal _ | .addsHelper _ => .trace
  | _ => .debug

/-- What happened, in words. -/
def message : Event → String
  | .ruleStarts _ => "applying rewrite rule"
  | .coordPolicy _ _ => "fragment coordinate policy"
  | .emulatesInvocations _ => "emulating geometry shader invocations"
  | .addsGlobal _ => "synthesized global"
  | .addsHelper _ => "synthesized helper function"
  | .generated _ _ _ _ => "generated GLSL"

/-- Names and values of the fields. -/
def fields : Event → List (String × String)
  | .ruleStarts rule => [("rule", rule)]
  | .coordPolicy policy usesCoord =>
    [("policy", policy.label), ("uses_coord", toString usesCoord)]
  | .emulatesInvocations count => [("invocations", toString count)]
  | .addsGlobal name | .addsHelper name => [("name", name)]
  | .generated profile stage bytes inputs =>
    [("profile", profile), ("stage", stage.label), ("bytes", toString bytes),
     ("render_target_height", toString inputs.height),
     ("render_target_width", toString inputs.width)]

end Event

end ShaderGen
