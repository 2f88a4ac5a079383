/-! # Swizzle masks

A mask is a list of selectors. Four selectors pick a lane of the value under the mask, the other
two stand for the constants zero and one. A mask has several spellings (`xyzw`, `rgba`, `stpq`)
but is always shown in the first. -/

namespace ShaderGen

/-- One position of a swizzle mask: a lane of the value, or a constant. -/
inductive Selector where
  | x
  | y
  | z
  | w
  | zero
  | one
deriving DecidableEq, Repr

namespace Selector

/-- Lane that the selector picks; constants pick none. -/
def lane? : Selector → Option Nat
  | .x => some 0
  | .y => some 1
  | .z => some 2
  | .w => some 3
  | .zero | .one => none

/-- Selector of a lane; lanes past the fourth have none of their own and give the fourth. -/
def ofLane : Nat → Selector
  | 0 => .x
  | 1 => .y
  | 2 => .z
  | _ => .w

/-- Whether the selector stands for a constant. -/
def isLiteral (s : Selector) : Bool := s.lane?.isNone

/-- Whether the selector picks a lane that a value of `width` components lacks. -/
def reachesPast (width : Nat) (s : Selector) : Bool :=
  match s.lane? with
  | some lane => width ≤ lane
  | none => false

/-- Reads a selector in any of the three lane spellings, or as a digit. -/
def ofChar? : Char → Option Selector
  | 'x' | 'r' | 's' => some .x
  | 'y' | 'g' | 't' => some .y
  | 'z' | 'b' | 'p' => some .z
  | 'w' | 'a' | 'q' => some .w
  | '0' => some .zero
  | '1' => some .one
  | _ => none

/-- The character that shows a selector. -/
def toChar : Selector → Char
  | .x => 'x'
  | .y => 'y'
  | .z => 'z'
  | .w => 'w'
  | .zero => '0'
  | .one => '1'

/-- A selector is read back from its letter. -/
@[simp] theorem ofChar?_toChar (s : Selector) : ofChar? s.toChar = some s := by
  cases s <;> rfl

/-- A letter for a lane stands for that lane. -/
theorem lane?_ofLane {lane : Nat} (h : lane < 4) : (ofLane lane).lane? = some lane := by
  match lane, h with
  | 0, _ => rfl
  | 1, _ => rfl
  | 2, _ => rfl
  | 3, _ => rfl

end Selector

/-- Selectors of a swizzle, in order. -/
abbrev Mask := List Selector

namespace Mask

/-- Greatest length of a mask in a well-formed program. -/
def maxLength : Nat := 4

/-- Reads a mask; one unknown character spoils it. -/
def parse? (text : String) : Option Mask := text.toList.mapM Selector.ofChar?

/-- The text that shows a mask. -/
def text (mask : Mask) : String := String.ofList (mask.map Selector.toChar)

/-- Whether the mask selects every lane of a value of `width` components in its place. -/
def isIdentity (mask : Mask) (width : Nat) : Bool :=
  mask.map Selector.lane? == (List.range width).map some

/-- The first selector that picks a lane which a value of `width` components lacks. -/
def firstPast? (mask : Mask) (width : Nat) : Option Selector :=
  mask.find? (Selector.reachesPast width)

/-- The single mask over `e` that selects what `outer` selects over `e.inner`; `none` when
    `outer` reaches past `inner`. -/
def compose? (inner outer : Mask) : Option Mask :=
  outer.mapM fun s =>
    match s.lane? with
    | some lane => inner[lane]?
    | none => some s

end Mask

end ShaderGen
