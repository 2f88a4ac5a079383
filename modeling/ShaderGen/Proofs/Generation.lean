import ShaderGen.Generate
import ShaderGen.Proofs.Yields

/-!
# Runs of a generation

A generation starts from an empty scratch state and does one thing after the other. What it answers
can be told from the run of the last thing that it comes to.

## Key results

- `generate_of_run`, `generate_of_fault`: the text, or the error
- `run_of_generate`: where a text comes from
-/

namespace ShaderGen

open Glsl

variable {t : Target} {p : Program}

/-- Pieces of the text of a program for a target, or why there is none. -/
def printed (t : Target) (p : Program) : Except Fault (List Piece) :=
  ((piecesM t p).run.run {}).1

/-- The text for a target is put together from what is printed for it. -/
theorem generate_of_run {ps : List Piece} {s : Scratch}
    (h : (piecesM t p).run.run {} = (.ok ps, s)) :
    generate t p = .ok ⟨Piece.render ps, s.inputs⟩ := by
  have hrun : (generateM t p).run.run {} = (.ok ⟨Piece.render ps, s.inputs⟩,
      s.report (.generated t.profile.name p.stage (Piece.render ps).utf8ByteSize s.inputs)) := by
    rw [generateM, run_bind_of_ok h]
    rfl
  rw [generate, generateWithEvents, hrun]
  rfl

/-- A run that fails gives its fault as an error. -/
theorem generate_of_fault {fault : Fault} {s : Scratch}
    (h : (piecesM t p).run.run {} = (.error fault, s)) :
    generate t p = .error (fault.toError t.profile) := by
  have hrun : (generateM t p).run.run {} = (.error fault, s) := run_bind_of_error h
  rw [generate, generateWithEvents, hrun]
  rfl

/-- What is printed of a program in a scratch state. -/
theorem run_printM (profile : Profile) (p : Program) (s : Scratch) :
    (printM profile p).run.run s = ((programObstacle? profile s p).elim
      (.ok (programPieces profile s p)) .error, s) := by
  have hget : (get : GenM Scratch).run.run s = (.ok s, s) := rfl
  rw [printM, run_bind_of_ok hget]
  cases programObstacle? profile s p <;> rfl

/-- What is printed of a program without a defect is what is printed of its legal form. -/
theorem run_piecesM (hp : p.defect? = none) {p' : Program} {s : Scratch}
    (h : (Legalize.legalize t p).run.run {} = (.ok p', s)) :
    (piecesM t p).run.run {} = (printM t.profile p').run.run s := by
  have hcheck : checkM p = pure () := by rw [checkM, hp]
  rw [piecesM, hcheck, pure_bind, run_bind_of_ok h]

/-- A program without a defect is refused where a rule refuses it. -/
theorem run_piecesM_of_fault (hp : p.defect? = none) {fault : Fault} {s : Scratch}
    (h : (Legalize.legalize t p).run.run {} = (.error fault, s)) :
    (piecesM t p).run.run {} = (.error fault, s) := by
  have hcheck : checkM p = pure () := by rw [checkM, hp]
  rw [piecesM, hcheck, pure_bind, run_bind_of_error h]

/-- A text is that of the legal form of a program without a defect. -/
theorem run_of_generate {out : Output} (h : generate t p = .ok out) :
    p.defect? = none ∧ ∃ p' s, (Legalize.legalize t p).run.run {} = (.ok p', s) ∧
      programObstacle? t.profile s p' = none ∧
      out = ⟨Piece.render (programPieces t.profile s p'), s.inputs⟩ := by
  have hfault : ∀ {fault s}, (piecesM t p).run.run {} ≠ (.error fault, s) := fun hrun =>
    absurd (h.symm.trans (generate_of_fault hrun)) nofun
  cases hdefect : p.defect? with
  | some defect =>
    have hrun : (piecesM t p).run.run {} = (.error (.malformed defect), {}) := by
      rw [piecesM, checkM, hdefect]
      rfl
    exact absurd hrun hfault
  | none =>
    refine ⟨rfl, ?_⟩
    -- The rules ran to their end, and then the printer found nothing to refuse.
    cases hrun : (Legalize.legalize t p).run.run {} with
    | mk result s =>
      cases result with
      | error fault => exact absurd (run_piecesM_of_fault hdefect hrun) hfault
      | ok p' =>
        have hprint := (run_piecesM hdefect hrun).trans (run_printM t.profile p' s)
        cases hobstacle : programObstacle? t.profile s p' with
        | some fault => exact absurd (hprint.trans (by rw [hobstacle]; rfl)) hfault
        | none =>
          rw [hobstacle] at hprint
          exact ⟨p', s, rfl, hobstacle, Except.ok.inj (h.symm.trans (generate_of_run hprint))⟩

end ShaderGen
