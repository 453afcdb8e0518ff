/-!
# White space

SPEC_FULL.md, 4.1: what the parser takes for white space, and its trimming of lines and sections.

Texts are handled as lists of characters. White space is the Unicode property of that name, which
ends words and is trimmed at both ends of a line; a *blank* is a space or a tab, the only
characters that may stand between the parts of a directive. Main statements: every blank is white
(`isWhite_of_isBlank`), and trimming removes white space only, at the ends only
(`eq_append_trimEnd`).
-/

namespace TraceMining.Text

/-- The characters with the Unicode property `White_Space`, as inclusive ranges of code points. -/
def whiteRanges : List (Nat × Nat) :=
  [(0x09, 0x0D), (0x20, 0x20), (0x85, 0x85), (0xA0, 0xA0), (0x1680, 0x1680), (0x2000, 0x200A),
    (0x2028, 0x2029), (0x202F, 0x202F), (0x205F, 0x205F), (0x3000, 0x3000)]

/-- Whether a character is white space. -/
def isWhite (c : Char) : Bool := whiteRanges.any fun r => r.1 ≤ c.toNat && c.toNat ≤ r.2

/-- Whether a character is a space or a tab. -/
def isBlank (c : Char) : Bool := c == ' ' || c == '\t'

theorem isWhite_of_isBlank {c : Char} (h : isBlank c = true) : isWhite c = true := by
  simp only [isBlank, Bool.or_eq_true, beq_iff_eq] at h
  rcases h with rfl | rfl <;> decide

/-- The text without the white space in front of it. -/
def trimStart (s : List Char) : List Char := s.dropWhile isWhite

/-- The text without the white space behind it. -/
def trimEnd : List Char → List Char
  | [] => []
  | c :: s =>
    match trimEnd s with
    | [] => if isWhite c then [] else [c]
    | d :: t => c :: d :: t

/-- The text without the white space around it. -/
def trim (s : List Char) : List Char := trimEnd (trimStart s)

/-- Whether a text holds nothing but white space. -/
def isWhiteOnly (s : List Char) : Bool := s.all isWhite

/-- The first word of a text: what stands before the first white space behind the leading one. -/
def firstWord (s : List Char) : List Char := (trimStart s).takeWhile (!isWhite ·)

theorem eq_append_trimEnd (s : List Char) :
    ∃ t, s = trimEnd s ++ t ∧ ∀ c ∈ t, isWhite c = true := by
  induction s with
  | nil => exact ⟨[], rfl, by simp⟩
  | cons c s ih =>
    obtain ⟨t, ht, hw⟩ := ih
    rw [trimEnd]
    split
    · rename_i h
      rw [h, List.nil_append] at ht
      subst ht
      split
      · rename_i hc
        exact ⟨c :: s, rfl, fun d hd => (List.mem_cons.1 hd).elim (· ▸ hc) (hw d)⟩
      · exact ⟨s, rfl, hw⟩
    · rename_i h
      rw [h] at ht
      exact ⟨t, by rw [List.cons_append, ← ht], hw⟩

end TraceMining.Text
