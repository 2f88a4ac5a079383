import ShaderGen.Glsl.Spelling
import ShaderGen.Proofs.Binary64.Numeral
import ShaderGen.Proofs.Glsl.Token
import ShaderGen.Proofs.Glsl.Tree

/-!
# Words of the language

What a single word or numeral stands for: the name of a type, of an intrinsic function or of a
built-in variable, a keyword, a literal, or else a name that a program chose.

## Key results

- `Shape.named?_spelling`: the spelling of a shape is the name of that shape
- `Glsl.numeral?_int`, `numeral?_uint`, `numeral?_float`: the numerals of literals read back
- `Glsl.mask?_text`: the text of a mask of lanes reads back
-/

namespace ShaderGen

/-! ### Names of types -/

/-- The first number in a word, and what stands after it. -/
def firstNumber (cs : List Char) : Nat × List Char :=
  let digits := cs.dropWhile (!·.isDigit)
  (Nat.ofDigitChars 10 (digits.takeWhile Char.isDigit) 0, digits.dropWhile Char.isDigit)

/-- Names of types with two given numbers in them. A matrix with as many rows as columns has two
    names. -/
def Shape.names (columns rows : Nat) : List (String × Shape) :=
  [("vec" ++ toString columns, .vector .float columns),
    ("ivec" ++ toString columns, .vector .int columns),
    ("uvec" ++ toString columns, .vector .uint columns),
    ("bvec" ++ toString columns, .vector .bool columns),
    ("mat" ++ toString columns, .matrix columns columns),
    ("mat" ++ toString columns ++ "x" ++ toString rows, .matrix columns rows),
    ("void", .void), ("float", .scalar .float), ("int", .scalar .int), ("uint", .scalar .uint),
    ("bool", .scalar .bool), ("sampler1D", .sampler .d1), ("sampler2D", .sampler .d2),
    ("sampler2DRect", .sampler .rect)]

/-- The shape that a word is the name of, judging by the numbers in it. -/
def Shape.named? (name : String) : Option Shape :=
  let (columns, rest) := firstNumber name.toList
  (Shape.names columns (firstNumber rest).1).lookup name

/-- A number between letters is the first number of the word. -/
theorem firstNumber_append {stem rest : List Char} (n : Nat)
    (hstem : stem.all (!·.isDigit) = true) (hrest : ∀ c ∈ rest.head?, c.isDigit = false) :
    firstNumber (stem ++ (Nat.toDigits 10 n ++ rest)) = (n, rest) := by
  have hdigits : ∀ c ∈ Nat.toDigits 10 n, c.isDigit = true :=
    fun c hc => Nat.isDigit_of_mem_toDigits (by decide) (by decide) hc
  -- The digits of the number end where the rest starts.
  have hstop : rest.takeWhile Char.isDigit = [] ∧ rest.dropWhile Char.isDigit = rest := by
    cases rest with
    | nil => exact ⟨rfl, rfl⟩
    | cons c cs =>
      have hc : c.isDigit = false := hrest c rfl
      simp [hc]
  -- The digits start where the stem ends.
  have hdrop : (stem ++ (Nat.toDigits 10 n ++ rest)).dropWhile (!·.isDigit) =
      Nat.toDigits 10 n ++ rest := by
    rw [List.dropWhile_append_of_pos (List.all_eq_true.mp hstem)]
    cases h : Nat.toDigits 10 n with
    | nil => exact absurd h Nat.toDigits_ne_nil
    | cons d ds =>
      have hd : d.isDigit = true := hdigits d (h ▸ List.mem_cons_self)
      simp [hd]
  rw [firstNumber, hdrop, List.takeWhile_append_of_pos hdigits,
    List.dropWhile_append_of_pos hdigits, hstop.1, hstop.2, List.append_nil,
    Nat.ofDigitChars_ten_toDigits]

/-- The characters of a stem with a number after it. -/
private theorem toList_append_toString (stem : String) (n : Nat) :
    (stem ++ toString n).toList = stem.toList ++ (Nat.toDigits 10 n ++ []) := by
  rw [String.toList_append, Nat.toString_eq_repr, Nat.toList_repr, List.append_nil]

/-- The spelling of a shape is the name of that shape. -/
@[simp] theorem Shape.named?_spelling (s : Shape) : Shape.named? s.spelling = some s := by
  cases s with
  | void => decide
  | scalar kind => cases kind <;> decide
  | sampler dim => cases dim <;> decide
  | vector kind size =>
    have hstem : kind.vectorSpelling.toList.all (!·.isDigit) = true := by cases kind <;> decide
    have htext : (Shape.vector kind size).spelling.toList = _ :=
      toList_append_toString kind.vectorSpelling size
    rw [named?, htext, firstNumber_append size hstem (by simp)]
    -- The names in front of that of the vector have other stems.
    refine List.lookup_eq_some_iff.mpr ?_
    cases kind with
    | float => exact ⟨[], _, rfl, by simp⟩
    | int => exact ⟨[_], _, rfl, by simp [Shape.spelling, ScalarKind.vectorSpelling]⟩
    | uint => exact ⟨[_, _], _, rfl, by simp [Shape.spelling, ScalarKind.vectorSpelling]⟩
    | bool => exact ⟨[_, _, _], _, rfl, by simp [Shape.spelling, ScalarKind.vectorSpelling]⟩
  -- A square matrix is spelled with one number, any other with two around an `x`.
  | matrix columns rows =>
    have hstem : "mat".toList.all (!·.isDigit) = true := by decide
    by_cases hsquare : columns = rows
    · subst hsquare
      have htext : (Shape.matrix columns columns).spelling = "mat" ++ toString columns :=
        if_pos rfl
      rw [named?, htext, toList_append_toString, firstNumber_append columns hstem (by simp)]
      exact List.lookup_eq_some_iff.mpr ⟨[_, _, _, _], _, rfl, by simp⟩
    · have htext : (Shape.matrix columns rows).spelling =
          "mat" ++ toString columns ++ "x" ++ toString rows := if_neg hsquare
      have hchars : ("mat" ++ toString columns ++ "x" ++ toString rows).toList =
          "mat".toList ++ (Nat.toDigits 10 columns ++
            ("x".toList ++ (Nat.toDigits 10 rows ++ []))) := by
        simp [Nat.toString_eq_repr, Nat.toList_repr]
      rw [named?, htext, hchars, firstNumber_append columns hstem (by simp)]
      dsimp only
      rw [firstNumber_append rows (by decide) (by simp)]
      exact List.lookup_eq_some_iff.mpr
        ⟨[_, _, _, _, _], _, rfl, by simp [← String.toList_inj]⟩

/-! ### Names of functions and variables -/

/-- Names of the intrinsic functions. -/
def Intrinsic.names : List (String × Intrinsic) :=
  [("abs", .abs), ("sign", .sign), ("floor", .floor), ("ceil", .ceil), ("fract", .fract),
    ("min", .min), ("max", .max), ("clamp", .clamp), ("mix", .mix), ("pow", .pow), ("exp", .exp),
    ("exp2", .exp2), ("log", .log), ("log2", .log2), ("sqrt", .sqrt),
    ("inversesqrt", .inverseSqrt), ("sin", .sin), ("cos", .cos), ("tan", .tan), ("atan", .atan),
    ("dot", .dot), ("length", .length), ("normalize", .normalize), ("dFdx", .dFdx),
    ("dFdy", .dFdy), ("sample", .sample), ("texture", .texture), ("textureProj", .textureProj),
    ("texture1D", .texture1D), ("texture1DProj", .texture1DProj), ("texture2D", .texture2D),
    ("texture2DProj", .texture2DProj), ("texture2DRect", .texture2DRect),
    ("texture2DRectProj", .texture2DRectProj)]

/-- The intrinsic function of a name. -/
def Intrinsic.named? (name : String) : Option Intrinsic := names.lookup name

/-- The name of an intrinsic function is that of no other. -/
@[simp] theorem Intrinsic.named?_name (f : Intrinsic) : Intrinsic.named? f.name = some f := by
  cases f <;> decide

/-- What has the name of an intrinsic function is called by it. -/
theorem Intrinsic.name_of_named? {name : String} {f : Intrinsic}
    (h : Intrinsic.named? name = some f) : f.name = name := by
  have hall : Intrinsic.names.all (fun entry => entry.2.name == entry.1) = true := by decide
  obtain ⟨before, after, heq, -⟩ := List.lookup_eq_some_iff.mp h
  have hmem : (name, f) ∈ Intrinsic.names := by simp [heq]
  simpa using List.all_eq_true.mp hall _ hmem

/-- The built-in variable of a name. Legacy generations call the fragment color by another name
    than the rest. The position of an input vertex has no name of its own. -/
def Builtin.named? : String → Option Builtin
  | "gl_FragColor" | "sk_FragColor" => some .fragColor
  | "gl_FragCoord" => some .fragCoord
  | "gl_Position" => some .position
  | "gl_InvocationID" => some .invocationId
  | _ => none

namespace Glsl

/-- Words with a meaning that no program can change, save the names of types, of intrinsic
    functions and of built-in variables. -/
def keywords : List String :=
  ["EmitVertex", "EndPrimitive", "attribute", "break", "case", "const", "continue", "default",
    "discard", "do", "else", "false", "for", "gl_in", "highp", "if", "in", "inout", "layout",
    "lowp", "mediump", "out", "precision", "return", "struct", "switch", "true", "uniform",
    "varying", "while"]

/-- Whether a word is the name of a type. -/
def isTypeName (name : String) : Bool := (Shape.named? name).isSome

/-- The spelling of a shape is the name of a type. -/
@[simp] theorem isTypeName_spelling (s : Shape) : isTypeName s.spelling = true := by
  rw [isTypeName, s.named?_spelling, Option.isSome_some]

/-- Whether a word has a meaning of its own. -/
def isReserved (name : String) : Bool :=
  keywords.contains name || isTypeName name || (Intrinsic.named? name).isSome ||
    (Builtin.named? name).isSome

/-- Whether a text is a name that a program can choose. -/
def isIdentifier (name : String) : Bool := Token.isName name && !isReserved name

/-- What is called by a name. -/
def callee? (name : String) : Option Callee :=
  match Intrinsic.named? name with
  | some f => some (.intrinsic f)
  | none => if isIdentifier name then some (.user name) else none

/-- Number of a decimal numeral without leading zeros. -/
def natural? (cs : List Char) : Option Nat :=
  if Nat.toDigits 10 (Nat.ofDigitChars 10 cs 0) = cs then some (Nat.ofDigitChars 10 cs 0) else none

/-- Value of a numeral. A whole number is unsigned if it ends in `u`, and any numeral with a point
    is a float. -/
def numeral? (text : String) : Option Literal :=
  match natural? text.toList with
  | some n => some (.int n)
  | none =>
    if text.toList.getLast? = some 'u' then (natural? text.toList.dropLast).map .uint
    else (Binary64.ofNumeral? text.toList).map .float

/-- Mask of lanes that a word spells. -/
def mask? (text : String) : Option Mask :=
  match Mask.parse? text with
  | some mask => if mask = [] || mask.any Selector.isLiteral then none else some mask
  | none => none

/-- What a token stands for that is an expression by itself. -/
def atom? : Token → Option Tree
  | .number text => (numeral? text).map .literal
  | .word name =>
    if name = "true" then some (.literal (.bool true))
    else if name = "false" then some (.literal (.bool false))
    else match Builtin.named? name with
      | some which => some (.builtin which)
      | none => if isIdentifier name then some (.var name) else none
  | .mark _ => none

/-! ### Spellings read back -/

/-- An identifier is no other kind of word. -/
theorem not_isReserved_of_isIdentifier {name : String} (h : isIdentifier name = true) :
    isReserved name = false := by
  rw [isIdentifier, Bool.and_eq_true, Bool.not_eq_true'] at h
  exact h.2

/-- What is called is no constructor. -/
theorem not_isTypeName_of_callee? {name : String} {callee : Callee}
    (h : callee? name = some callee) : isTypeName name = false := by
  unfold callee? at h
  split at h
  · next f hf =>
    rw [← Intrinsic.name_of_named? hf]
    cases f <;> decide
  · split at h
    · next hid =>
      -- No identifier is a type name, as all of these are reserved.
      have hres := not_isReserved_of_isIdentifier hid
      simp only [isReserved, Bool.or_eq_false_iff] at hres
      exact hres.1.1.2
    · exact absurd h (by simp)

/-- A function of the program is called by its name. -/
theorem callee?_user {name : String} (h : isIdentifier name = true) :
    callee? name = some (.user name) := by
  have hres := not_isReserved_of_isIdentifier h
  simp only [isReserved, Bool.or_eq_false_iff, Option.isSome_eq_false_iff,
    Option.isNone_iff_eq_none] at hres
  simp [callee?, hres.1.2, h]

/-- An intrinsic function is called by its name. -/
theorem callee?_intrinsic (f : Intrinsic) : callee? f.name = some (.intrinsic f) := by
  simp [callee?]

/-- A variable is read as itself. -/
theorem atom?_var {name : String} (h : isIdentifier name = true) :
    atom? (.word name) = some (.var name) := by
  have hres := not_isReserved_of_isIdentifier h
  simp only [isReserved, Bool.or_eq_false_iff, Option.isSome_eq_false_iff,
    Option.isNone_iff_eq_none] at hres
  have htrue : name ≠ "true" := by rintro rfl; exact absurd hres.1.1.1 (by decide)
  have hfalse : name ≠ "false" := by rintro rfl; exact absurd hres.1.1.1 (by decide)
  simp [atom?, htrue, hfalse, hres.2, h]

/-- A truth value is read as itself. -/
theorem atom?_bool (b : Bool) : atom? (.word (toString b)) = some (.literal (.bool b)) := by
  cases b <;> rfl

/-- The digits of a number are its numeral. -/
theorem natural?_toDigits (n : Nat) : natural? (Nat.toDigits 10 n) = some n := by
  simp [natural?]

/-- A decimal numeral has digits only. -/
theorem isDigit_of_natural? {cs : List Char} {n : Nat} (h : natural? cs = some n) :
    ∀ c ∈ cs, c.isDigit = true := by
  unfold natural? at h
  split at h
  · next heq =>
    intro c hc
    rw [← heq] at hc
    exact Nat.isDigit_of_mem_toDigits (by decide) (by decide) hc
  · exact absurd h (by simp)

/-- A whole number reads back. -/
theorem numeral?_int (n : Nat) : numeral? (toString n) = some (.int n) := by
  rw [numeral?, Nat.toString_eq_repr, Nat.toList_repr, natural?_toDigits]

/-- An unsigned number reads back. -/
theorem numeral?_uint (n : Nat) : numeral? (toString n ++ "u") = some (.uint n) := by
  have htext : (toString n ++ "u").toList = Nat.toDigits 10 n ++ ['u'] := by
    simp [Nat.toString_eq_repr, Nat.toList_repr]
  -- With the suffix it is no natural number, so the second form is tried.
  have hnone : natural? (Nat.toDigits 10 n ++ ['u']) = none := by
    cases h : natural? (Nat.toDigits 10 n ++ ['u']) with
    | none => rfl
    | some m => exact absurd (isDigit_of_natural? h 'u' (by simp)) (by decide)
  rw [numeral?, htext, hnone]
  simp [natural?_toDigits]

/-- A float numeral starts with a digit and has a point after its first digits, with no other
    character than digits around it. -/
theorem ofNumeral?_shape {cs : List Char} {v : Binary64} (h : Binary64.ofNumeral? cs = some v) :
    ∃ c whole places, cs = c :: whole ++ '.' :: places ∧ c.isDigit = true ∧
      (∀ d ∈ whole, d.isDigit = true) ∧ places ≠ [] ∧ ∀ d ∈ places, d.isDigit = true := by
  obtain ⟨ratio, hratio, -⟩ := Option.map_eq_some_iff.mp h
  rw [Decimal.ratio?] at hratio
  split at hratio
  · next places hdrop =>
    split at hratio
    · next hparts =>
      obtain ⟨hwhole, hplaces, hall⟩ := hparts
      have hdigits : ∀ d ∈ cs.takeWhile Char.isDigit, d.isDigit = true :=
        fun d hd => List.all_eq_true.mp List.all_takeWhile d hd
      -- The text is its digits, the point and what follows the point.
      have hsplit : cs = cs.takeWhile Char.isDigit ++ '.' :: places := by
        rw [← hdrop, List.takeWhile_append_dropWhile]
      cases hfirst : cs.takeWhile Char.isDigit with
      | nil => exact absurd hfirst hwhole
      | cons c whole =>
        rw [hfirst] at hdigits hsplit
        exact ⟨c, whole, places, hsplit, hdigits c List.mem_cons_self,
          fun d hd => hdigits d (List.mem_cons_of_mem _ hd), hplaces, List.all_eq_true.mp hall⟩
    · exact absurd hratio (by simp)
  · exact absurd hratio (by simp)

/-- The magnitude of a finite number reads back. -/
theorem numeral?_float {v : Binary64} (h : v.isFinite = true) :
    numeral? v.magnitudeText = some (.float v.magnitude) := by
  have hread := Binary64.ofNumeral?_magnitudeText h
  obtain ⟨c, whole, places, htext, -, -, hplaces, hdigits⟩ := ofNumeral?_shape hread
  have hnone : natural? v.magnitudeText.toList = none := by
    cases hn : natural? v.magnitudeText.toList with
    | none => rfl
    | some n => exact absurd (isDigit_of_natural? hn '.' (by simp [htext])) (by decide)
  -- The last character is one of the places, and so a digit.
  have hlast : v.magnitudeText.toList.getLast? ≠ some 'u' := by
    intro hu
    rw [htext, List.getLast?_append, List.getLast?_cons, List.getLast?_eq_some_getLast hplaces]
      at hu
    have hmem : 'u' ∈ places := by
      have hu' : places.getLast hplaces = 'u' := by simpa using hu
      exact hu' ▸ List.getLast_mem hplaces
    exact absurd (hdigits 'u' hmem) (by decide)
  rw [numeral?, hnone]
  simp only [if_neg hlast, hread, Option.map_some]

/-- The text of a mask is parsed as the mask. -/
theorem parse?_text (mask : Mask) : Mask.parse? mask.text = some mask := by
  rw [Mask.parse?, Mask.text, String.toList_ofList]
  induction mask with
  | nil => rfl
  | cons s ss ih => simp [ih]

/-- A mask of lanes reads back. -/
theorem mask?_text {mask : Mask} (hne : mask ≠ []) (h : mask.any Selector.isLiteral = false) :
    mask? mask.text = some mask := by
  simp [mask?, parse?_text, hne, h]

end Glsl

end ShaderGen
