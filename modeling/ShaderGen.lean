import ShaderGen.Binary64.Basic
import ShaderGen.Binary64.Shortest
import ShaderGen.Error
import ShaderGen.Event
import ShaderGen.Expr.Basic
import ShaderGen.Expr.Build
import ShaderGen.Expr.Effect
import ShaderGen.Expr.Traverse
import ShaderGen.Generate
import ShaderGen.Glsl.Dialect
import ShaderGen.Glsl.Obstacle
import ShaderGen.Glsl.Piece
import ShaderGen.Glsl.Precedence
import ShaderGen.Glsl.Printer
import ShaderGen.Glsl.Spelling
import ShaderGen.Legalize.AtanOperand
import ShaderGen.Legalize.ConstantPow
import ShaderGen.Legalize.DoWhile
import ShaderGen.Legalize.FlipY
import ShaderGen.Legalize.Fract
import ShaderGen.Legalize.FragCoord
import ShaderGen.Legalize.HighPrecision
import ShaderGen.Legalize.HoistInit
import ShaderGen.Legalize.IntAbs
import ShaderGen.Legalize.Invocations
import ShaderGen.Legalize.LoopCondition
import ShaderGen.Legalize.MinAbs
import ShaderGen.Legalize.Pipeline
import ShaderGen.Legalize.Preamble
import ShaderGen.Legalize.ShortCircuit
import ShaderGen.Legalize.TargetSize
import ShaderGen.Legalize.Temporary
import ShaderGen.Legalize.TernaryTarget
import ShaderGen.Legalize.TextureLookup
import ShaderGen.Profile.Basic
import ShaderGen.Profile.Config
import ShaderGen.Profile.Preset
import ShaderGen.Profile.Workaround
import ShaderGen.Program.Basic
import ShaderGen.Program.Traverse
import ShaderGen.Program.WellFormed
import ShaderGen.Proofs.Binary64.Nearest
import ShaderGen.Proofs.Binary64.Numeral
import ShaderGen.Proofs.Glsl.Token
import ShaderGen.Proofs.Glsl.Tree
import ShaderGen.Scratch
import ShaderGen.Stmt.Basic
import ShaderGen.Stmt.Traverse
import ShaderGen.Swizzle.Mask
import ShaderGen.Swizzle.Normalize
import ShaderGen.Target
import ShaderGen.Text.Blank
import ShaderGen.Text.Hex
import ShaderGen.Ty
import ShaderGen.Vocabulary.Builtin
import ShaderGen.Vocabulary.Intrinsic
import ShaderGen.Vocabulary.Operator
import ShaderGen.Proofs.Glsl.Lexicon
import ShaderGen.Proofs.Glsl.Grammar
import ShaderGen.Proofs.Glsl.Descent
import ShaderGen.Proofs.Glsl.Neat
import ShaderGen.Proofs.Induction
import ShaderGen.Proofs.Glsl.Readable
import ShaderGen.Proofs.Glsl.ExprSpelling
import ShaderGen.Proofs.Glsl.ExprReading
import ShaderGen.Proofs.Semantics.Evaluation
import ShaderGen.Proofs.Semantics.Lookup
import ShaderGen.Proofs.Semantics.Alike
import ShaderGen.Proofs.Swizzle.Meaning
import ShaderGen.Proofs.Semantics.Behaviour
import ShaderGen.Proofs.Semantics.Execution
import ShaderGen.Proofs.Semantics.Hidden
import ShaderGen.Proofs.Semantics.Matching
import ShaderGen.Proofs.Semantics.Exchange
import ShaderGen.Proofs.Legalize.LoopFlag
import ShaderGen.Proofs.Legalize.DoWhile
import ShaderGen.Proofs.Glsl.StmtGrammar
import ShaderGen.Proofs.Glsl.StmtDescent
import ShaderGen.Proofs.Glsl.StmtSpelling
import ShaderGen.Proofs.Glsl.StmtReading
import ShaderGen.Proofs.Children
import ShaderGen.Proofs.Yields
import ShaderGen.Proofs.Rewriting
import ShaderGen.Proofs.Checked
import ShaderGen.Proofs.Generation
import ShaderGen.Proofs.Mirror
import ShaderGen.Proofs.Swizzle.Stable
import ShaderGen.Proofs.Legalize.Watch
import ShaderGen.Proofs.Legalize.Kept
import ShaderGen.Proofs.Legalize.Watched
import ShaderGen.Proofs.Legalize.Quirk
import ShaderGen.Proofs.Legalize.ChoiceTarget
import ShaderGen.Proofs.Semantics.Deterministic
import ShaderGen.Proofs.Semantics.Relational
import ShaderGen.Proofs.Semantics.Congruence
import ShaderGen.Proofs.Semantics.Tracking
import ShaderGen.Proofs.Semantics.Loading
import ShaderGen.Proofs.Semantics.Ordered
import ShaderGen.Proofs.Legalize.Minimum
import ShaderGen.Proofs.Legalize.Supply
import ShaderGen.Proofs.Legalize.HoistInit
import ShaderGen.Proofs.Legalize.MinAbs
import ShaderGen.Proofs.Legalize.Carried
import ShaderGen.Proofs.Legalize.Reworked
import ShaderGen.Proofs.Legalize.Helpers
import ShaderGen.Proofs.Legalize.FragCoord
import ShaderGen.Proofs.Semantics.Transition
import ShaderGen.Proofs.Legalize.PositionWrites
import ShaderGen.Proofs.Legalize.ClipPosition
import ShaderGen.Proofs.Semantics.Exits
import ShaderGen.Proofs.Semantics.Assigned
import ShaderGen.Proofs.Semantics.Refinement
import ShaderGen.Proofs.Semantics.ExprCompletion
import ShaderGen.Proofs.Semantics.StmtCompletion
import ShaderGen.Proofs.Legalize.FlipY
import ShaderGen.Proofs.Legalize.InvocationLoop
import ShaderGen.Proofs.Legalize.Invocations
import ShaderGen.Proofs.Legalize.InvocationStart
import ShaderGen.Proofs.Pairing
import ShaderGen.Proofs.Precision.Twins
import ShaderGen.Proofs.Precision.TwinPrograms
import ShaderGen.Proofs.Precision.Rules
import ShaderGen.Proofs.Precision.Pipeline
import ShaderGen.Proofs.Precision.Printing
import ShaderGen.Proofs.Typing.Shapes
import ShaderGen.Proofs.Typing.Nodes
import ShaderGen.Proofs.Typing.Swizzles
import ShaderGen.Proofs.Typing.Headers
import ShaderGen.Proofs.Typing.Opening
import ShaderGen.Proofs.Typing.Printing
import ShaderGen.Proofs.Scopes.Elements
import ShaderGen.Proofs.Scopes.Emitted
import ShaderGen.Proofs.Glsl.Declared
import ShaderGen.Proofs.Glsl.Words
import ShaderGen.Proofs.Legalize.Unfolded
import ShaderGen.Proofs.Legalize.Confined
import ShaderGen.Proofs.Legalize.Promises
import ShaderGen.Proofs.Legalize.Unnamed
import ShaderGen.Proofs.Legalize.TargetSize
import ShaderGen.Proofs.SizeUniforms
import ShaderGen.Proofs.Legalize.Calm
import ShaderGen.Proofs.Legalize.Globals
import ShaderGen.Proofs.Legalize.Initializers
import ShaderGen.Proofs.Legalize.Negates
import ShaderGen.Proofs.Legalize.Flipped
import ShaderGen.Proofs.Legalize.Operations
import ShaderGen.Proofs.Legalize.Layouts
import ShaderGen.Proofs.Legalize.Journal
import ShaderGen.Proofs.Events
import ShaderGen.Proofs.Legalize.Absence
import ShaderGen.Proofs.Legalize.Idle
import ShaderGen.Proofs.Workarounds
import ShaderGen.Proofs.Invocations
import ShaderGen.Proofs.Legalize.ShortCircuit
import ShaderGen.Proofs.Legalize.FractSize
import ShaderGen.Proofs.Semantics.Lanewise
import ShaderGen.Proofs.Legalize.Guarded
import ShaderGen.Proofs.Legalize.Fraction
import ShaderGen.Proofs.Legalize.ChosenArm
import ShaderGen.Proofs.Legalize.RetracedProgram
import ShaderGen.Proofs.Legalize.ScalarForms
import ShaderGen.Proofs.Legalize.Fractions
import ShaderGen.Proofs.Legalize.AbsHelper
import ShaderGen.Proofs.Legalize.ScalarIdentities
import ShaderGen.Proofs.Nodes
import ShaderGen.Proofs.WellFormed
import ShaderGen.Proofs.Typing.Derived
import ShaderGen.Proofs.Legalize.LoopCondition
import ShaderGen.Proofs.Semantics.Valued
import ShaderGen.Proofs.Legalize.LoopPlan
import ShaderGen.Proofs.Semantics.Steady
import ShaderGen.Proofs.Legalize.CoordPrologue
import ShaderGen.Proofs.Legalize.Reconstruction
import ShaderGen.Proofs.Typing.Leaves
import ShaderGen.Proofs.Replacement
import ShaderGen.Proofs.Legalize.TextureLookup
import ShaderGen.Proofs.Legalize.AbsOverloads
import ShaderGen.Proofs.Glsl.Refusal
import ShaderGen.Proofs.Requests
import ShaderGen.Proofs.ProfileRoundtrip
import ShaderGen.Proofs.Semantics.Effectless
import ShaderGen.Proofs.Header
import ShaderGen.Proofs.Traversal
import ShaderGen.Proofs.Binary64.Rounding
import ShaderGen.Proofs.Glsl.FloatText
