import ShaderGen.Text.Blank
import ShaderGen.Text.Hex

/-! # Workarounds

Each known bug of a target has a workaround: a change of the program that avoids the bug. A
profile names the workarounds it needs as a set of 32 bits, of which ten are known. The set has a
text form that keeps the unknown bits as well: `Workarounds.text` writes it and
`Workarounds.ofText?` reads it. -/

namespace ShaderGen

/-- Change of a program that avoids one bug of a target. -/
inductive Workaround where
  /-- the fragment coordinate cannot be read -/
  | avoidFragCoord
  /-- the condition of a loop has to end in `&& true` -/
  | loopConditionAndTrue
  /-- `&&` and `||` have to be spelled as choices -/
  | unfoldShortCircuit
  /-- `do`-loops do not work -/
  | replaceDoWhile
  /-- `abs` of integers is broken -/
  | emulateIntAbs
  /-- `abs` does not work as an operand of `min` -/
  | splitMinAbs
  /-- `fract` is wrong for negative numbers -/
  | guardFract
  /-- a minus sign on the second operand of `atan` is lost -/
  | multiplyAtanSign
  /-- `pow` with a constant exponent does not work -/
  | expandConstantPow
  /-- a choice cannot be assigned to -/
  | splitTernaryTargets
deriving DecidableEq, Repr

namespace Workaround

/-- All workarounds, by bit. -/
def all : List Workaround :=
  [.avoidFragCoord, .loopConditionAndTrue, .unfoldShortCircuit, .replaceDoWhile, .emulateIntAbs,
   .splitMinAbs, .guardFract, .multiplyAtanSign, .expandConstantPow, .splitTernaryTargets]

/-- Bit of a workaround in a set. -/
def bit : Workaround → Nat
  | .avoidFragCoord => 0
  | .loopConditionAndTrue => 1
  | .unfoldShortCircuit => 2
  | .replaceDoWhile => 3
  | .emulateIntAbs => 4
  | .splitMinAbs => 5
  | .guardFract => 6
  | .multiplyAtanSign => 7
  | .expandConstantPow => 8
  | .splitTernaryTargets => 9

/-- Name of a workaround in the text form of a set. -/
def name : Workaround → String
  | .avoidFragCoord => "CANNOT_USE_FRAG_COORD"
  | .loopConditionAndTrue => "REQUIRES_LOOP_CONDITION_AND_TRUE"
  | .unfoldShortCircuit => "UNFOLDS_SHORT_CIRCUIT"
  | .replaceDoWhile => "REWRITES_DO_WHILE"
  | .emulateIntAbs => "EMULATES_INT_ABS"
  | .splitMinAbs => "BREAKS_MIN_ABS_TOGETHER"
  | .guardFract => "BREAKS_NEGATIVE_FRACT"
  | .multiplyAtanSign => "FORCES_NEGATED_ATAN_OPERAND"
  | .expandConstantPow => "REMOVES_CONSTANT_EXPONENT_POW"
  | .splitTernaryTargets => "LOWERS_TERNARY_LVALUES"

/-- Workaround of a name. -/
def ofName? (name : List Char) : Option Workaround :=
  all.find? fun w => w.name.toList == name

/-- The list of workarounds is complete. -/
theorem mem_all (w : Workaround) : w ∈ all := by
  cases w <;> decide

end Workaround

/-- Set of workarounds, with bits that stand for none. -/
structure Workarounds where
  bits : BitVec 32
deriving DecidableEq, Repr

namespace Workarounds

/-- The set without any bits. -/
def empty : Workarounds := ⟨0⟩

/-- All bits of either set. -/
def union (s t : Workarounds) : Workarounds := ⟨s.bits ||| t.bits⟩

/-- The set of one workaround. -/
def single (w : Workaround) : Workarounds := ⟨1#32 <<< w.bit⟩

/-- Whether the bit of a workaround is set. -/
def contains (s : Workarounds) (w : Workaround) : Bool := s.bits.getLsbD w.bit

/-- Known workarounds in the set, by bit. -/
def toList (s : Workarounds) : List Workaround := Workaround.all.filter s.contains

/-- The union of several sets. -/
def unions (sets : List Workarounds) : Workarounds := sets.foldr union empty

/-- Bits of the known workarounds. -/
def known : Workarounds := unions (Workaround.all.map single)

/-- Bits of the set that stand for no known workaround. -/
def unknownBits (s : Workarounds) : BitVec 32 := s.bits &&& ~~~known.bits

/-- Start of a part of the text form that holds bits. -/
def hexMark : List Char := ['0', 'x']

/-- Parts of the text form: the names of the known workarounds by bit, then the unknown bits as
    one hexadecimal number. -/
def parts (s : Workarounds) : List (List Char) :=
  s.toList.map (fun w => w.name.toList) ++
    if s.unknownBits = 0 then [] else [hexMark ++ Text.hexNumeral s.unknownBits.toNat]

/-- Text form of a set, empty for the empty set. -/
def text (s : Workarounds) : String :=
  String.ofList (List.intercalate [' ', '|', ' '] s.parts)

/-- Reads one part of the text form, which is a known name or bits in hexadecimal. -/
def ofPart? : List Char → Option Workarounds
  | '0' :: 'x' :: digits =>
    match Text.hexValue? digits with
    | some n => if n ≤ 0xffffffff then some ⟨BitVec.ofNat 32 n⟩ else none
    | none => none
  | name => (Workaround.ofName? name).map single

/-- Reads the text form: parts between vertical bars, with blanks around them ignored. A blank
    text is the empty set, but no part of another text may be blank. -/
def ofText? (text : String) : Option Workarounds :=
  let body := text.toList
  if body.all Text.isBlank then some empty
  else
    ((Text.splitAt '|' body).mapM fun part => ofPart? (Text.trim part)).map unions

/-- A set of one holds that one. -/
@[simp] theorem contains_single (w v : Workaround) : (single w).contains v = decide (v = w) := by
  cases w <;> cases v <;> decide

/-- The empty set holds none. -/
@[simp] theorem contains_empty (w : Workaround) : empty.contains w = false := by
  cases w <;> decide

/-- A union holds what either set holds. -/
@[simp] theorem contains_union (s t : Workarounds) (w : Workaround) :
    (s.union t).contains w = (s.contains w || t.contains w) := by
  simp [union, contains]

/-- The list of a set holds its members. -/
theorem mem_toList (s : Workarounds) (w : Workaround) : w ∈ s.toList ↔ s.contains w = true := by
  simp [toList, Workaround.mem_all]

end Workarounds

end ShaderGen
