import Mathlib.Data.List.DropRight
import ShaderGen.Profile.Config

/-!
# Profiles read back

The text form of a set of workarounds reads back as the set, with its unknown bits, and a profile
reads back from its configuration. A text that was not written by `Workarounds.text` may have blanks
and bits in other places, and known bits in hexadecimal; once read and written it has the form that
`Workarounds.IsWritten` tells.

## Key results

- `Text.map_trim_splitAt`: joined parts come apart again
- `Text.hexValue?_hexNumeral`: a hexadecimal numeral has the value it was made from
- `Workarounds.ofText?_text`: a set reads back from its text form
- `profile_and_workarounds_roundtrip`: a profile reads back from its configuration, and what was
  read as a set of workarounds is written so that it is read as that set
-/

namespace ShaderGen

namespace Text

/-! ### Joined parts come apart -/

section

variable {c sep : Char} {cs part : List Char}

/-- A character that separates nothing goes on with the first part. -/
theorem splitAt_cons_of_ne (h : c ≠ sep) :
    splitAt sep (c :: cs) = (splitAt sep cs).modifyHead (c :: ·) := by
  rw [splitAt, if_neg h]
  split
  · next hnil => exact absurd hnil (splitAt_ne_nil sep cs)
  · next hcons => rw [hcons, List.modifyHead_cons]

/-- The first part ends at the first separator. -/
theorem splitAt_append_cons (h : sep ∉ part) :
    splitAt sep (part ++ sep :: cs) = part :: splitAt sep cs := by
  induction part with
  | nil => simp [splitAt]
  | cons c part ih =>
    rw [List.mem_cons, not_or] at h
    rw [List.cons_append, splitAt_cons_of_ne (Ne.symm h.1), ih h.2, List.modifyHead_cons]

/-- A text without separators is one part. -/
theorem splitAt_of_notMem (h : sep ∉ part) : splitAt sep part = [part] := by
  induction part with
  | nil => rfl
  | cons c part ih =>
    rw [List.mem_cons, not_or] at h
    rw [splitAt_cons_of_ne (Ne.symm h.1), ih h.2, List.modifyHead_cons]

/-- Blanks at the front are dropped. -/
theorem trim_cons_blank (h : isBlank c = true) : trim (c :: cs) = trim cs := by
  simp [trim, h]

/-- Blanks at the end are dropped. -/
theorem trim_concat_blank (h : isBlank c = true) : trim (cs ++ [c]) = trim cs := by
  simp only [trim, List.dropWhile_append]
  split
  · next hnil =>
    rw [List.isEmpty_iff.mp hnil]
    simp [h]
  · simp [h]

/-- Characters that a part of the text form has: no blanks and no bars. -/
def IsPlain (cs : List Char) : Prop := ∀ c ∈ cs, isBlank c = false ∧ c ≠ '|'

instance (cs : List Char) : Decidable (IsPlain cs) :=
  List.decidableBAll (fun c => isBlank c = false ∧ c ≠ '|') cs

/-- A plain part has no separator in it. -/
theorem IsPlain.notMem (h : IsPlain part) : '|' ∉ part := fun hmem => (h '|' hmem).2 rfl

/-- A plain part has no blanks to drop. -/
theorem IsPlain.trim_eq (h : IsPlain part) : trim part = part := by
  have hdrop : ∀ {cs : List Char}, IsPlain cs → cs.dropWhile isBlank = cs := by
    intro cs hcs
    cases cs with
    | nil => rfl
    | cons c cs => simp [(hcs c List.mem_cons_self).1]
  rw [trim, hdrop h, hdrop fun c hc => h c (List.mem_reverse.mp hc), List.reverse_reverse]

/-- Parts that are joined with bars and blanks come apart at the bars. -/
theorem map_trim_splitAt {parts : List (List Char)} (hne : parts ≠ [])
    (h : ∀ part ∈ parts, IsPlain part) :
    (splitAt '|' (List.intercalate [' ', '|', ' '] parts)).map trim = parts := by
  induction parts with
  | nil => exact absurd rfl hne
  | cons part parts ih =>
    have hpart := h part List.mem_cons_self
    cases parts with
    | nil => rw [List.intercalate_singleton, splitAt_of_notMem hpart.notMem]; simp [hpart.trim_eq]
    | cons next parts =>
      have hrest := ih (List.cons_ne_nil _ _) fun p hp => h p (List.mem_cons_of_mem _ hp)
      have hhead : '|' ∉ part ++ [' '] := by simpa using hpart.notMem
      have hjoin : List.intercalate [' ', '|', ' '] (part :: next :: parts) =
          (part ++ [' ']) ++ '|' :: ' ' :: List.intercalate [' ', '|', ' '] (next :: parts) := by
        simp [List.intercalate_cons_cons]
      rw [hjoin, splitAt_append_cons hhead, List.map_cons, trim_concat_blank rfl, hpart.trim_eq,
        splitAt_cons_of_ne (by decide)]
      -- The blank after the bar belongs to the next part, which is trimmed.
      cases hsplit : splitAt '|' (List.intercalate [' ', '|', ' '] (next :: parts)) with
      | nil => exact absurd hsplit (splitAt_ne_nil _ _)
      | cons p ps =>
        rw [hsplit, List.map_cons] at hrest
        rw [List.modifyHead_cons, List.map_cons, trim_cons_blank rfl, hrest]

/-- Joined parts keep their characters. -/
theorem mem_intercalate {parts : List (List Char)} (sep : List Char) (hpart : part ∈ parts)
    (hc : c ∈ part) : c ∈ List.intercalate sep parts := by
  induction parts with
  | nil => cases hpart
  | cons p parts ih =>
    -- A single part stands without a separator.
    cases parts with
    | nil =>
      obtain rfl := List.mem_singleton.mp hpart
      simpa using hc
    | cons next parts =>
      rw [List.intercalate_cons_cons, List.mem_append]
      obtain rfl | hpart := List.mem_cons.mp hpart
      · exact .inl (List.mem_append_left _ hc)
      · exact .inr (ih hpart)

end

/-! ### Hexadecimal numerals -/

/-- A hexadecimal digit is read back. -/
theorem hexDigit?_digitChar : ∀ d < 16, hexDigit? (Nat.digitChar d) = some d := by
  decide

/-- The digits of a number in hexadecimal, from the highest to the lowest. -/
theorem hexNumeral_eq (n : Nat) : ∃ ds : List Nat, ds ≠ [] ∧ (∀ d ∈ ds, d < 16) ∧
    hexNumeral n = ds.map Nat.digitChar ∧ ds.foldl (fun n d => 16 * n + d) 0 = n := by
  induction n using Nat.strongRecOn with
  | ind n ih =>
    obtain hlt | hle := Nat.lt_or_ge n 16
    · exact ⟨[n], by simp, by simpa using hlt, by simp [hexNumeral, Nat.toDigits_of_lt_base hlt],
        by simp⟩
    · obtain ⟨ds, -, hds, hnumeral, hvalue⟩ := ih (n / 16) (by omega)
      refine ⟨ds ++ [n % 16], by simp, ?_, ?_, ?_⟩
      · -- The last digit is the remainder, and the others are those of the quotient.
        intro d hd
        obtain hd | hd := List.mem_append.mp hd
        · exact hds d hd
        · have := List.mem_singleton.mp hd
          omega
      · rw [hexNumeral, Nat.toDigits_of_base_le (by decide) hle, List.map_append]
        exact congrArg (· ++ _) hnumeral
      · rw [List.foldl_append, hvalue]
        simp only [List.foldl_cons, List.foldl_nil]
        omega

/-- A hexadecimal numeral has the value it was made from. -/
theorem hexValue?_hexNumeral (n : Nat) : hexValue? (hexNumeral n) = some n := by
  obtain ⟨ds, hne, hds, hnumeral, hvalue⟩ := hexNumeral_eq n
  have hdigits : (ds.map Nat.digitChar).mapM hexDigit? = some ds := by
    clear hne hnumeral hvalue
    induction ds with
    | nil => rfl
    | cons d ds ih =>
      rw [List.forall_mem_cons] at hds
      simp [hexDigit?_digitChar d hds.1, ih hds.2]
  -- A numeral with a sign would be read without it, but no digit is a sign.
  have hplus : ∀ rest, ds.map Nat.digitChar ≠ '+' :: rest := by
    intro rest hrest
    have hdigit : ∀ d < 16, Nat.digitChar d ≠ '+' := by decide
    obtain ⟨d, hd, heq⟩ := List.mem_map.mp (hrest ▸ List.mem_cons_self : '+' ∈ _)
    exact hdigit d (hds d hd) heq
  unfold hexValue?
  split
  · next rest hrest => exact absurd (hnumeral.symm.trans hrest) (hplus rest)
  · simp [hnumeral, hdigits, hvalue, hne]

/-- A hexadecimal numeral is plain. -/
theorem isPlain_hexNumeral (n : Nat) : IsPlain (hexNumeral n) := by
  obtain ⟨ds, -, hds, hnumeral, -⟩ := hexNumeral_eq n
  have hdigit : ∀ d < 16, isBlank (Nat.digitChar d) = false ∧ Nat.digitChar d ≠ '|' := by decide
  intro c hc
  rw [hnumeral] at hc
  obtain ⟨d, hd, rfl⟩ := List.mem_map.mp hc
  exact hdigit d (hds d hd)

end Text

namespace Workarounds

variable {s : Workarounds} {i : Nat} {w : Workaround}

/-! ### Bits -/

/-- The bits of the workarounds are within the word. -/
theorem bit_lt (w : Workaround) : w.bit < 32 := by
  cases w <;> decide

/-- A set of one has its bit alone. -/
theorem getLsbD_single (w : Workaround) (i : Nat) :
    (single w).bits.getLsbD i = decide (i = w.bit) := by
  have hw := bit_lt w
  simp only [single, BitVec.getLsbD_shiftLeft, BitVec.getLsbD_one]
  by_cases hi : i = w.bit
  · simp [hi, hw]
  · simp [hi]
    omega

/-- A union has a bit if one of the sets has it. -/
theorem getLsbD_unions (sets : List Workarounds) (i : Nat) :
    (unions sets).bits.getLsbD i = sets.any (·.bits.getLsbD i) := by
  induction sets with
  | nil => simp [unions, empty]
  | cons s sets ih =>
    rw [List.any_cons, ← ih]
    simp [unions, union]

/-- The known bits are those of the workarounds. -/
theorem getLsbD_known (i : Nat) : known.bits.getLsbD i = Workaround.all.any (i == ·.bit) := by
  rw [known, getLsbD_unions, List.any_map]
  exact congrArg Workaround.all.any (funext fun w => getLsbD_single w i)

/-- The unknown bits of a set are those that are not the bit of a workaround. -/
theorem getLsbD_unknownBits (s : Workarounds) (i : Nat) : s.unknownBits.getLsbD i =
    (s.bits.getLsbD i && !Workaround.all.any (i == ·.bit)) := by
  rw [unknownBits, BitVec.getLsbD_and, BitVec.getLsbD_not, getLsbD_known]
  by_cases hi : i < 32
  · simp [hi]
  · simp [BitVec.getLsbD_of_ge _ _ (Nat.le_of_not_lt hi)]

/-- The sets that the parts of the text form stand for. -/
def pieces (s : Workarounds) : List Workarounds :=
  s.toList.map single ++ if s.unknownBits = 0 then [] else [⟨s.unknownBits⟩]

/-- A set is made of its known workarounds and its unknown bits. -/
theorem unions_pieces (s : Workarounds) : unions s.pieces = s := by
  refine congrArg Workarounds.mk (BitVec.eq_of_getLsbD_eq fun i _ => ?_)
  -- A bit is that of a listed workaround, or it is unknown, and then written in digits.
  have hknown : s.toList.any (fun w => (single w).bits.getLsbD i) =
      (s.bits.getLsbD i && Workaround.all.any (i == ·.bit)) := by
    rw [toList, List.any_filter, List.and_any_distrib_left]
    refine congrArg Workaround.all.any (funext fun w => ?_)
    rw [getLsbD_single]
    by_cases hi : i = w.bit
    · rw [hi]
      rfl
    · simp [hi]
  have hunknown : (if s.unknownBits = 0 then [] else [(⟨s.unknownBits⟩ : Workarounds)]).any
      (·.bits.getLsbD i) = (s.bits.getLsbD i && !Workaround.all.any (i == ·.bit)) := by
    rw [← getLsbD_unknownBits]
    split
    · next h => simp [h]
    · simp
  have hbits := getLsbD_unions s.pieces i
  rw [pieces, List.any_append, List.any_map] at hbits
  refine hbits.trans ((congrArg₂ or hknown hunknown).trans ?_)
  rw [← Bool.and_or_distrib_left, Bool.or_not_self, Bool.and_true]

/-! ### Parts -/

/-- A workaround is read back from its name. -/
theorem ofPart?_name (w : Workaround) : ofPart? w.name.toList = some (single w) := by
  cases w <;> decide +kernel

/-- Other bits are read back from their digits. -/
theorem ofPart?_hexNumeral (bits : BitVec 32) :
    ofPart? (hexMark ++ Text.hexNumeral bits.toNat) = some ⟨bits⟩ := by
  have hlt := bits.isLt
  have hle : bits.toNat ≤ 0xffffffff := by omega
  simp [hexMark, ofPart?, Text.hexValue?_hexNumeral, hle]

/-- Each part reads back as the set that it stands for. -/
theorem mapM_parts (s : Workarounds) : s.parts.mapM ofPart? = some s.pieces := by
  -- Each name is read back as the bit it stands for.
  have hnames : (s.toList.map fun w => w.name.toList).mapM ofPart? =
      some (s.toList.map single) := by
    induction s.toList with
    | nil => rfl
    | cons w ws ih => simp [ofPart?_name, ih]
  rw [parts, pieces, List.mapM_append, hnames]
  split
  · rfl
  · simp [ofPart?_hexNumeral]

/-- No name of a workaround is empty or would be split. -/
theorem isPlain_name (w : Workaround) : w.name.toList ≠ [] ∧ Text.IsPlain w.name.toList := by
  cases w <;> decide +kernel

/-- Neither is any part of the text of a set. -/
theorem isPlain_parts (s : Workarounds) :
    ∀ part ∈ s.parts, part ≠ [] ∧ Text.IsPlain part := by
  intro part hpart
  obtain hpart | hpart := List.mem_append.mp hpart
  · obtain ⟨w, -, rfl⟩ := List.mem_map.mp hpart
    exact isPlain_name w
  · -- The last part holds the bits without a name, if there are any.
    split at hpart
    · cases hpart
    · obtain rfl := List.mem_singleton.mp hpart
      refine ⟨by simp [hexMark], fun c hc => ?_⟩
      obtain hc | hc := List.mem_append.mp hc
      · exact (by decide : Text.IsPlain hexMark) c hc
      · exact Text.isPlain_hexNumeral _ c hc

/-- A set reads back from its text form. -/
theorem ofText?_text (s : Workarounds) : ofText? s.text = some s := by
  have hread : s.parts.mapM ofPart? = some s.pieces := s.mapM_parts
  rw [ofText?, text, String.toList_ofList]
  cases hparts : s.parts with
  | nil =>
    -- The empty text is blank.
    have hpieces : s.pieces = [] := by
      rw [hparts] at hread
      exact (Option.some.inj hread).symm
    have hempty : s = empty := by
      rw [← s.unions_pieces, hpieces]
      rfl
    exact hempty ▸ rfl
  -- A part has a character that is no blank, so the text is read part by part.
  | cons part parts =>
    obtain ⟨hne, hplain⟩ := s.isPlain_parts part (hparts ▸ List.mem_cons_self)
    have hblank : (List.intercalate [' ', '|', ' '] (part :: parts)).all Text.isBlank = false := by
      obtain ⟨c, hc⟩ := List.exists_mem_of_ne_nil part hne
      rw [List.all_eq_false]
      exact ⟨c, Text.mem_intercalate _ List.mem_cons_self hc, by simp [(hplain c hc).1]⟩
    have hsplit : (Text.splitAt '|' (List.intercalate [' ', '|', ' '] (part :: parts))).map
        Text.trim = part :: parts :=
      Text.map_trim_splitAt (List.cons_ne_nil _ _) fun p hp =>
        (s.isPlain_parts p (hparts ▸ hp)).2
    simp only [hblank, Bool.false_eq_true, if_false]
    rw [show (fun p => ofPart? (Text.trim p)) = ofPart? ∘ Text.trim from rfl, ← List.mapM_map,
      hsplit, ← hparts, hread, Option.map_some, s.unions_pieces]

/-! ### The written form -/

/-- How a set is written: the names of its known workarounds by bit, then its other bits, if there
    are any, as one hexadecimal number, with bars between them. -/
structure IsWritten (s : Workarounds) (text : String) (ws : List Workaround)
    (rest : List String) : Prop where
  text_eq : text = " | ".intercalate (ws.map Workaround.name ++ rest)
  /-- the names are in the order of the bits -/
  ordered : ws.Pairwise (·.bit < ·.bit)
  mem_iff (w : Workaround) : w ∈ ws ↔ s.contains w = true
  rest_eq : rest = [] ∧ s.unknownBits = 0 ∨ s.unknownBits ≠ 0 ∧
    ∃ digits, rest = ["0x" ++ digits] ∧ Text.hexValue? digits.toList = some s.unknownBits.toNat

/-- The text of a set is written as the format says. -/
theorem isWritten_text (s : Workarounds) : ∃ rest, s.IsWritten s.text s.toList rest := by
  have hordered : s.toList.Pairwise (·.bit < ·.bit) :=
    List.Pairwise.filter _ (by decide : Workaround.all.Pairwise (·.bit < ·.bit))
  have htext {rest : List String} (hrest : rest.map String.toList =
      if s.unknownBits = 0 then [] else [hexMark ++ Text.hexNumeral s.unknownBits.toNat]) :
      s.text = " | ".intercalate (s.toList.map Workaround.name ++ rest) := by
    apply String.toList_inj.mp
    rw [text, parts, String.toList_ofList, String.toList_intercalate, List.map_append, List.map_map,
      hrest]
    rfl
  -- The digits stand last, and only if there are unknown bits.
  by_cases hunknown : s.unknownBits = 0
  · exact ⟨[], htext (by simp [hunknown]), hordered, s.mem_toList, .inl ⟨rfl, hunknown⟩⟩
  · let digits := String.ofList (Text.hexNumeral s.unknownBits.toNat)
    have hdigits : digits.toList = Text.hexNumeral s.unknownBits.toNat := String.toList_ofList
    refine ⟨["0x" ++ digits], htext ?_, hordered, s.mem_toList, .inr ⟨hunknown, digits, rfl, ?_⟩⟩
    · rw [if_neg hunknown, List.map_singleton, String.toList_append, hdigits]
      rfl
    · rw [hdigits, Text.hexValue?_hexNumeral]

end Workarounds

namespace Profile

/-- A field is read from the first entry of its name. -/
theorem field?_cons {α : Type} (key name : String) (value : Config)
    (fields : List (String × Config)) (read : Config → Option α) (default : α) :
    field? ((key, value) :: fields) name read default =
      if name = key then read value else field? fields name read default := by
  unfold field?
  rw [List.lookup_cons]
  by_cases hname : name = key
  · simp [hname]
  · rw [beq_eq_false_iff_ne.mpr hname, if_neg hname]

/-- A profile reads back from its configuration. -/
theorem ofConfig?_toConfig (p : Profile) : ofConfig? p.toConfig = some p := by
  obtain ⟨_, _, _, _, _, _, _, _, _, _, derivatives, geometry, invocations⟩ := p
  simp only [ofConfig?, toConfig, fieldNames, ofFields?, field?_cons, List.zip_cons_cons,
    ↓reduceIte, String.reduceEq, Config.text?, Config.name?, Config.bool?,
    Generation.ofName?_name, CoordConvention.ofName?_name, Workarounds.ofText?_text,
    Option.bind_some, Option.bind_eq_bind, Option.pure_def]
  -- An extension that is not named is written as no value, and not left out.
  cases derivatives <;> cases geometry <;> cases invocations <;> rfl

end Profile

/-- A profile reads back from its configuration, and so does a set of workarounds that was itself
    read from a text, of whatever form: it is written as one name for each known workaround and one
    number for all other bits, and that text is read as the same set. -/
theorem profile_and_workarounds_roundtrip :
    (∀ p : Profile, Profile.ofConfig? p.toConfig = some p) ∧
    ∀ (text : String) (s : Workarounds), Workarounds.ofText? text = some s →
      (∃ ws rest, s.IsWritten s.text ws rest) ∧ Workarounds.ofText? s.text = some s :=
  ⟨Profile.ofConfig?_toConfig, fun _ s _ => ⟨⟨_, s.isWritten_text⟩, s.ofText?_text⟩⟩

/-- Bits of a known workaround in hexadecimal, blanks, and a workaround out of order. -/
theorem profile_and_workarounds_roundtrip_mixed :
    Workarounds.ofText? "\t0x803 | LOWERS_TERNARY_LVALUES|0x+1000 " = some ⟨0x1a03⟩ ∧
      Workarounds.ofText? (Workarounds.text ⟨0x1a03⟩) = some ⟨0x1a03⟩ :=
  have hread : Workarounds.ofText? "\t0x803 | LOWERS_TERNARY_LVALUES|0x+1000 " = some ⟨0x1a03⟩ := by
    decide +kernel
  ⟨hread, (profile_and_workarounds_roundtrip.2 _ _ hread).2⟩

end ShaderGen
