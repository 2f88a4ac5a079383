/-! # Hexadecimal numerals -/

namespace ShaderGen.Text

/-- Value of a hexadecimal digit of either case. -/
def hexDigit? (c : Char) : Option Nat :=
  if '0' ≤ c && c ≤ '9' then some (c.toNat - '0'.toNat)
  else if 'a' ≤ c && c ≤ 'f' then some (c.toNat - 'a'.toNat + 10)
  else if 'A' ≤ c && c ≤ 'F' then some (c.toNat - 'A'.toNat + 10)
  else none

/-- Value of a hexadecimal numeral: at least one digit, with or without a plus sign before it. -/
def hexValue? (cs : List Char) : Option Nat :=
  let digits := match cs with
    | '+' :: rest => rest
    | rest => rest
  if digits.isEmpty then none
  else (digits.mapM hexDigit?).map (List.foldl (fun n d => 16 * n + d) 0)

/-- Lower-case hexadecimal numeral without leading zeros. -/
def hexNumeral (n : Nat) : List Char := Nat.toDigits 16 n

end ShaderGen.Text
