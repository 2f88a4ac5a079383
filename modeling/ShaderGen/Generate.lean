import ShaderGen.Glsl.Obstacle
import ShaderGen.Glsl.Printer
import ShaderGen.Legalize.Pipeline

/-! # Generating text

A generation checks that the program is well formed, runs the pipeline, and prints what comes out
of it. It starts from an empty scratch state, so the answer depends on the program and the target
alone. No text comes with an error. -/

namespace ShaderGen

/-- Generated text, with the uniforms that it declares on its own. -/
structure Output where
  text : String
  inputs : Inputs
deriving DecidableEq, Repr

/-- Refuses a program that is not well formed. -/
def checkM (p : Program) : GenM Unit :=
  match p.defect? with
  | some defect => throw (.malformed defect)
  | none => pure ()

/-- Prints a program that came out of the pipeline, if it can be printed. -/
def printM (profile : Profile) (p : Program) : GenM (List Glsl.Piece) := do
  let s ← get
  match Glsl.programObstacle? profile s p with
  | some fault => throw fault
  | none => pure (Glsl.programPieces profile s p)

/-- Checks, legalizes and prints a program. -/
def piecesM (t : Target) (p : Program) : GenM (List Glsl.Piece) := do
  checkM p
  let p ← Legalize.legalize t p
  printM t.profile p

/-- Generates the text of a program and reports it. -/
def generateM (t : Target) (p : Program) : GenM Output := do
  let pieces ← piecesM t p
  let text := Glsl.Piece.render pieces
  let s ← get
  modify (Scratch.report (.generated t.profile.name p.stage text.utf8ByteSize s.inputs))
  pure ⟨text, s.inputs⟩

/-- Generates the text of a program for a target, with the events on the way. -/
def generateWithEvents (t : Target) (p : Program) : Except GenError Output × List Event :=
  let (result, s) := (generateM t p).run.run {}
  (result.mapError (Fault.toError t.profile), s.log)

/-- Generates the text of a program for a target. -/
def generate (t : Target) (p : Program) : Except GenError Output := (generateWithEvents t p).1

end ShaderGen
