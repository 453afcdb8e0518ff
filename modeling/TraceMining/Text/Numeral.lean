/-!
# Numerals

SPEC_FULL.md, 4.1: the digits that `integer` parses.

Decimal numerals of whole numbers: a run of digits and its value. Main statement: the digits
written for a number are read back as that number (`value_digits`).
-/

namespace TraceMining.Text

/-- One more than the greatest number of 64 bits. -/
def wordLimit : Nat := UInt64.size

/-- One more than the greatest number of 32 bits. -/
def halfWordLimit : Nat := UInt32.size

/-- One more than the greatest number of 128 bits. -/
def doubleWordLimit : Nat := wordLimit * wordLimit

/-- The digits of a number, without leading zeros. -/
def digits (n : Nat) : List Char := Nat.toDigits 10 n

/-- The number that a run of digits stands for. -/
def value (ds : List Char) : Nat := Nat.ofDigitChars 10 ds 0

/-- The digits written for a number are read back as that number. -/
theorem value_digits (n : Nat) : value (digits n) = n :=
  Nat.ofDigitChars_toDigits (by decide) (by decide)

/-- The value of a hexadecimal digit of either case. -/
def hexValue? (c : Char) : Option Nat :=
  if c.isDigit then some (c.toNat - '0'.toNat)
  else if 'a' ≤ c ∧ c ≤ 'f' then some (c.toNat - 'a'.toNat + 10)
  else if 'A' ≤ c ∧ c ≤ 'F' then some (c.toNat - 'A'.toNat + 10)
  else none

/-- The number that hexadecimal digits stand for, if all of them are. -/
def hexNumber? (ds : List Char) : Option Nat :=
  ds.foldlM (fun n c => (hexValue? c).map (16 * n + ·)) 0

/-- Whether `fragment` stands somewhere in a text. -/
def occursIn (fragment : List Char) : List Char → Bool
  | [] => fragment.isEmpty
  | c :: s => fragment.isPrefixOf (c :: s) || occursIn fragment s

theorem occursIn_iff {fragment s : List Char} : occursIn fragment s = true ↔ fragment <:+: s := by
  induction s with
  | nil => simp [occursIn]
  | cons c s ih => simp [occursIn, ih, List.infix_cons_iff]

end TraceMining.Text
