/-! # Types of shader values

A type is a `Shape` (what the value holds) together with the `Precision` class it comes from.
Precision classes form a two-element order; a value computed from several others has the
greatest class among them, which is `Precision.join`. -/

namespace ShaderGen

/-- Precision class a value comes from. -/
inductive Precision where
  | reduced
  | full
deriving DecidableEq, Repr

namespace Precision

/-- Class of a value computed from two others: full as soon as one of them is. -/
def join : Precision → Precision → Precision
  | .reduced, .reduced => .reduced
  | _, _ => .full

/-- A join is full if one side is. -/
@[simp] theorem join_eq_full_iff (a b : Precision) :
    a.join b = .full ↔ a = .full ∨ b = .full := by
  cases a <;> cases b <;> simp [join]

/-- Joins do not depend on the order. -/
theorem join_comm (a b : Precision) : a.join b = b.join a := by
  cases a <;> cases b <;> rfl

/-- Nor on how they are grouped. -/
theorem join_assoc (a b c : Precision) : (a.join b).join c = a.join (b.join c) := by
  cases a <;> cases b <;> cases c <;> rfl

end Precision

/-- Kind of one component. -/
inductive ScalarKind where
  | float
  | int
  | uint
  | bool
deriving DecidableEq, Repr

/-- Dimensionality of a sampler. -/
inductive SamplerDim where
  | d1
  | d2
  | rect
deriving DecidableEq, Repr

/-- Number of coordinate components that a direct (not projective) lookup takes. -/
def SamplerDim.coordinateCount : SamplerDim → Nat
  | .d1 => 1
  | .d2 | .rect => 2

/-- What a value holds, whatever its precision. Matrices are always matrices of floats. -/
inductive Shape where
  | void
  | scalar (kind : ScalarKind)
  | vector (kind : ScalarKind) (size : Nat)
  | matrix (columns rows : Nat)
  | sampler (dim : SamplerDim)
deriving DecidableEq, Repr

namespace Shape

/-- Kind of the components; `void` and samplers have none. -/
def scalarKind? : Shape → Option ScalarKind
  | .scalar kind | .vector kind _ => some kind
  | .matrix _ _ => some .float
  | .void | .sampler _ => none

/-- Number of components that a swizzle may address; `none` for what cannot be swizzled. -/
def swizzleWidth? : Shape → Option Nat
  | .scalar _ => some 1
  | .vector _ size => some size
  | _ => none

/-- Number of components in all. -/
def componentCount : Shape → Nat
  | .scalar _ => 1
  | .vector _ size => size
  | .matrix columns rows => columns * rows
  | .void | .sampler _ => 0

/-- Whether a declaration of this shape can carry a precision qualifier. Booleans never do. -/
def takesPrecision : Shape → Bool
  | .scalar kind | .vector kind _ => kind != .bool
  | .matrix _ _ => true
  | .void | .sampler _ => false

end Shape

/-- Type of a value: its shape and the precision class it comes from. -/
structure Ty where
  shape : Shape
  precision : Precision
deriving DecidableEq, Repr

namespace Ty

/-- Result type of a function that returns nothing. -/
def void : Ty := ⟨.void, .full⟩

/-- Scalar of a given kind. -/
def scalar (kind : ScalarKind) (precision : Precision) : Ty := ⟨.scalar kind, precision⟩

/-- Vector of a given kind. -/
def vector (kind : ScalarKind) (size : Nat) (precision : Precision) : Ty :=
  ⟨.vector kind size, precision⟩

/-- Sampler; samplers count as reduced. -/
def sampler (dim : SamplerDim) : Ty := ⟨.sampler dim, .reduced⟩

def float : Ty := scalar .float .full
def half : Ty := scalar .float .reduced
def int : Ty := scalar .int .full
def uint : Ty := scalar .uint .full
def bool : Ty := scalar .bool .full

/-- Full-precision float vector. -/
def vec (size : Nat) : Ty := vector .float size .full

/-- Reduced-precision float vector. -/
def halfVec (size : Nat) : Ty := vector .float size .reduced

/-- Type of `count` components of one kind: a scalar for at most one, else a vector. Vector sizes
    are bytes, so a larger count keeps its low eight bits. -/
def withComponents (kind : ScalarKind) (count : Nat) (precision : Precision) : Ty :=
  if count ≤ 1 then scalar kind precision else vector kind (count % 256) precision

/-- The same shape in another precision class. -/
def withPrecision (ty : Ty) (precision : Precision) : Ty := { ty with precision }

/-- Kind of the components of a value of the type. -/
def scalarKind? (ty : Ty) : Option ScalarKind := ty.shape.scalarKind?

/-- Whether the type is a scalar. -/
def isScalar (ty : Ty) : Bool :=
  match ty.shape with
  | .scalar _ => true
  | _ => false

/-- Whether the components are floats. -/
def isFloat (ty : Ty) : Bool := ty.scalarKind? == some .float

/-- Number of components that a swizzle may address. -/
def swizzleWidth? (ty : Ty) : Option Nat := ty.shape.swizzleWidth?

/-- Number of components in all. -/
def componentCount (ty : Ty) : Nat := ty.shape.componentCount

/-- Whether a declaration of the type can carry a precision qualifier. -/
def takesPrecision (ty : Ty) : Bool := ty.shape.takesPrecision

/-- Kind of the components, floats where there are none. -/
def componentKind (ty : Ty) : ScalarKind := ty.scalarKind?.getD .float

/-- A precision does not change a shape. -/
@[simp] theorem shape_withPrecision (ty : Ty) (p : Precision) :
    (ty.withPrecision p).shape = ty.shape := rfl

/-- The precision is the one that was given. -/
@[simp] theorem precision_withPrecision (ty : Ty) (p : Precision) :
    (ty.withPrecision p).precision = p := rfl

end Ty

end ShaderGen
