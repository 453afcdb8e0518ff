/-!
# UTF-8

SPEC_FULL.md, 6: the files of `read_trace`, `MinerResult::load` and `MinerConfig::load` as text.

A file is a list of bytes. Reading it as text gives a list in which every character stands as
itself and every longest run of bytes that begins a character but does not finish it, or that no
character begins with, stands as one `none`. Main statement: what was encoded is read back without
loss (`decode_encode`).
-/

namespace TraceMining.Text

/-- The bytes of a text. -/
def encode (s : List Char) : List UInt8 := s.flatMap String.utf8EncodeChar

/-- A character of which some bytes have been read: its bits so far, how many bytes are still
owed, and the least and the greatest byte that may come next. -/
structure Pending where
  bits : Nat
  owed : Nat
  least : Nat
  greatest : Nat

/-- What a byte is at the beginning of a character. -/
inductive Lead where
  /-- A character of its own, or no character at all. -/
  | whole (c : Option Char)
  /-- The first byte of a longer character. -/
  | opens (p : Pending)

/-- The bounds on the second byte shut out longer codings than needed, surrogates, and code points
above the last one. -/
def lead (b : Nat) : Lead :=
  if b ≤ 0x7F then .whole (some (Char.ofNat b))
  else if b < 0xC2 then .whole none
  else if b ≤ 0xDF then .opens ⟨b - 0xC0, 1, 0x80, 0xBF⟩
  else if b = 0xE0 then .opens ⟨0, 2, 0xA0, 0xBF⟩
  else if b = 0xED then .opens ⟨0xD, 2, 0x80, 0x9F⟩
  else if b ≤ 0xEF then .opens ⟨b - 0xE0, 2, 0x80, 0xBF⟩
  else if b = 0xF0 then .opens ⟨0, 3, 0x90, 0xBF⟩
  else if b ≤ 0xF3 then .opens ⟨b - 0xF0, 3, 0x80, 0xBF⟩
  else if b = 0xF4 then .opens ⟨4, 3, 0x80, 0x8F⟩
  else .whole none

/-- The byte `b` added to a pending character, if it may come next. -/
def Pending.accept (p : Pending) (b : Nat) : Option Pending :=
  if p.least ≤ b ∧ b ≤ p.greatest then
    some ⟨64 * p.bits + (b - 0x80), p.owed - 1, 0x80, 0xBF⟩
  else none

/-- Reads bytes while a character may be pending. -/
def decodeFrom : Option Pending → List UInt8 → List (Option Char)
  | none, [] => []
  | some _, [] => [none]
  | none, b :: bytes =>
    match lead b.toNat with
    | .whole c => c :: decodeFrom none bytes
    | .opens p => decodeFrom (some p) bytes
  | some p, b :: bytes =>
    match p.accept b.toNat with
    | some q =>
      if q.owed = 0 then some (Char.ofNat q.bits) :: decodeFrom none bytes
      else decodeFrom (some q) bytes
    | none =>
      match lead b.toNat with
      | .whole c => none :: c :: decodeFrom none bytes
      | .opens q => none :: decodeFrom (some q) bytes

/-- The characters of a file, `none` standing for bytes that form none. -/
def decode (bytes : List UInt8) : List (Option Char) := decodeFrom none bytes

/-- The text of a file, if all its bytes form characters. -/
def decode? (bytes : List UInt8) : Option (List Char) := (decode bytes).mapM id

/-- The text of a file with the replacement character for bytes that form none. -/
def decodeReplacing (bytes : List UInt8) : List Char :=
  (decode bytes).map (·.getD '\uFFFD')

theorem toNat_ofNat_byte {n : Nat} (h : n < 256) : (UInt8.ofNat n).toNat = n := by
  simp [UInt8.toNat_ofNat', Nat.mod_eq_of_lt h]

theorem accept_tail {p : Pending} {n : Nat} (hl : p.least ≤ n % 64 + 128)
    (hg : n % 64 + 128 ≤ p.greatest) :
    p.accept (n % 64 + 128) = some ⟨64 * p.bits + n % 64, p.owed - 1, 0x80, 0xBF⟩ := by
  rw [Pending.accept, if_pos ⟨hl, hg⟩, Nat.add_sub_cancel]

theorem lead_three {n : Nat} (h : 0x7FF < n) (h' : n ≤ 0xFFFF) (hs : n < 0xD800 ∨ 0xDFFF < n) :
    ∃ lo hi, lead (n / 4096 % 16 + 0xE0) = .opens ⟨n / 4096, 2, lo, hi⟩ ∧
      lo ≤ n / 64 % 64 + 128 ∧ n / 64 % 64 + 128 ≤ hi := by
  have hm : n / 4096 % 16 = n / 4096 := Nat.mod_eq_of_lt (by omega)
  rw [hm, lead, if_neg (by omega), if_neg (by omega), if_neg (by omega)]
  by_cases h0 : n / 4096 = 0
  · exact ⟨0xA0, 0xBF, by rw [if_pos (by omega), h0], by omega, by omega⟩
  by_cases hd : n / 4096 = 0xD
  · exact ⟨0x80, 0x9F, by rw [if_neg (by omega), if_pos (by omega), hd], by omega, by omega⟩
  · exact ⟨0x80, 0xBF, by
      rw [if_neg (by omega), if_neg (by omega), if_pos (by omega), Nat.add_sub_cancel],
      by omega, by omega⟩

theorem lead_four {n : Nat} (h : 0xFFFF < n) (h' : n < 0x110000) :
    ∃ lo hi, lead (n / 262144 % 8 + 0xF0) = .opens ⟨n / 262144, 3, lo, hi⟩ ∧
      lo ≤ n / 4096 % 64 + 128 ∧ n / 4096 % 64 + 128 ≤ hi := by
  have hm : n / 262144 % 8 = n / 262144 := Nat.mod_eq_of_lt (by omega)
  rw [hm, lead, if_neg (by omega), if_neg (by omega), if_neg (by omega), if_neg (by omega),
    if_neg (by omega), if_neg (by omega)]
  by_cases h0 : n / 262144 = 0
  · exact ⟨0x90, 0xBF, by rw [if_pos (by omega), h0], by omega, by omega⟩
  by_cases h4 : n / 262144 = 4
  · exact ⟨0x80, 0x8F, by
      rw [if_neg (by omega), if_neg (by omega), if_pos (by omega), h4], by omega, by omega⟩
  · exact ⟨0x80, 0xBF, by
      rw [if_neg (by omega), if_pos (by omega), Nat.add_sub_cancel], by omega, by omega⟩

theorem decodeFrom_encodeChar (c : Char) (bytes : List UInt8) :
    decodeFrom none (String.utf8EncodeChar c ++ bytes) = some c :: decodeFrom none bytes := by
  have hv : c.val.toNat = c.toNat := rfl
  have hc := Char.ofNat_toNat c
  have hvalid := c.valid
  simp only [UInt32.isValidChar, Nat.isValidChar, hv] at hvalid
  generalize hn : c.toNat = n at hc hvalid
  rw [String.utf8EncodeChar, hv, hn]
  split
  · rename_i h
    have e := toNat_ofNat_byte (show n < 256 by omega)
    simp only [List.cons_append, List.nil_append, decodeFrom, lead, e, if_pos h, hc]
  have tail (m : Nat) := toNat_ofNat_byte (show m % 0x40 + 0x80 < 256 by omega)
  have join (m : Nat) : 64 * (m / 64) + m % 64 = m := Nat.div_add_mod m 64
  split
  · rename_i h0 h
    have hl : lead (n / 64 % 32 + 192) = .opens ⟨n / 64, 1, 0x80, 0xBF⟩ := by
      rw [Nat.mod_eq_of_lt (by omega), lead, if_neg (by omega), if_neg (by omega),
        if_pos (by omega), Nat.add_sub_cancel]
    simp only [List.cons_append, List.nil_append, decodeFrom, tail, hl,
      toNat_ofNat_byte (show n / 64 % 32 + 192 < 256 by omega)]
    rw [accept_tail (by simp only; omega) (by simp only; omega)]
    simp [join, hc]
  split
  · rename_i h0 h1 h
    obtain ⟨lo, hi, hl, hlo, hhi⟩ := lead_three (n := n) (by omega) h (by omega)
    simp only [List.cons_append, List.nil_append, decodeFrom, tail, hl,
      toNat_ofNat_byte (show n / 4096 % 16 + 224 < 256 by omega)]
    rw [accept_tail hlo hhi]
    simp only [Nat.reduceSub, if_neg (show ¬ 1 = 0 by decide)]
    rw [accept_tail (by simp only; omega) (by simp only; omega)]
    have : 64 * (n / 4096) + n / 64 % 64 = n / 64 := by omega
    simp [join, this, hc]
  · rename_i h0 h1 h
    obtain ⟨lo, hi, hl, hlo, hhi⟩ := lead_four (n := n) (by omega) (by omega)
    simp only [List.cons_append, List.nil_append, decodeFrom, tail, hl,
      toNat_ofNat_byte (show n / 262144 % 8 + 240 < 256 by omega)]
    rw [accept_tail hlo hhi]
    simp only [Nat.reduceSub, if_neg (show ¬ 2 = 0 by decide)]
    rw [accept_tail (by simp only; omega) (by simp only; omega)]
    simp only [Nat.reduceSub, if_neg (show ¬ 1 = 0 by decide)]
    rw [accept_tail (by simp only; omega) (by simp only; omega)]
    have h1 : 64 * (n / 262144) + n / 4096 % 64 = n / 4096 := by omega
    have h2 : 64 * (n / 4096) + n / 64 % 64 = n / 64 := by omega
    simp [join, h1, h2, hc]

/-- What was encoded is read back without loss. -/
theorem decode_encode (s : List Char) : decode (encode s) = s.map some := by
  induction s with
  | nil => rfl
  | cons c s ih =>
    rw [decode, encode, List.flatMap_cons, decodeFrom_encodeChar, List.map_cons]
    exact congrArg (some c :: ·) ih

theorem decode?_encode (s : List Char) : decode? (encode s) = some s := by
  rw [decode?, decode_encode]
  induction s with
  | nil => rfl
  | cons c s ih => simp_all [List.mapM_cons]

end TraceMining.Text
