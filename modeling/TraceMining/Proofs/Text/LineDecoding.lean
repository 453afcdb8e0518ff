import Mathlib.Algebra.Group.Nat.Defs
import TraceMining.Text.Lines
import TraceMining.Text.Utf8

/-!
# Decoding line by line

A file can be decoded as a whole or line by line. If it is text as a whole, so is each of its lines,
and they are the lines of that text (`map_decode?_byteLines`). The reason is that a line end stands
for itself: no byte below 0x80 is a part of a longer character, and no longer character is a line
end (`Spelling`).
-/

namespace TraceMining.Text

/-! ## The first character -/

/-- A pending character takes no byte below 0x80 and will not be one of those that such bytes stand
for: the least number it can come to is too large. -/
structure Pending.Long (p : Pending) : Prop where
  owes : 0 < p.owed
  least : 0x80 ≤ p.least
  large : 0x80 ≤ (64 * p.bits + (p.least - 0x80)) * 64 ^ (p.owed - 1)

/-- What a byte at the beginning of a character can be. -/
theorem lead_cases (b : Nat) :
    (b ≤ 0x7F ∧ lead b = .whole (some (Char.ofNat b))) ∨ lead b = .whole none ∨
      ∃ p, lead b = .opens p ∧ p.Long ∧ 0x80 ≤ b := by
  by_cases h7F : b ≤ 0x7F
  · exact .inl ⟨h7F, by rw [lead, if_pos h7F]⟩
  refine .inr ?_
  rw [lead, if_neg h7F]
  by_cases hC2 : b < 0xC2
  · exact .inl (by rw [if_pos hC2])
  have opens (p : Pending) (hp : p.Long) {l : Lead} (hl : l = .opens p) :
      l = .whole none ∨ ∃ p, l = .opens p ∧ p.Long ∧ 0x80 ≤ b :=
    .inr ⟨p, hl, hp, by omega⟩
  rw [if_neg hC2]
  by_cases hDF : b ≤ 0xDF
  · exact opens _ ⟨by simp, by simp, by simp only; omega⟩ (if_pos hDF)
  rw [if_neg hDF]
  by_cases hE0 : b = 0xE0
  · exact opens _ ⟨by simp, by simp, by simp⟩ (if_pos hE0)
  rw [if_neg hE0]
  by_cases hED : b = 0xED
  · exact opens _ ⟨by simp, by simp, by simp⟩ (if_pos hED)
  rw [if_neg hED]
  by_cases hEF : b ≤ 0xEF
  · exact opens _ ⟨by simp, by simp, by simp only; omega⟩ (if_pos hEF)
  rw [if_neg hEF]
  by_cases hF0 : b = 0xF0
  · exact opens _ ⟨by simp, by simp, by simp⟩ (if_pos hF0)
  rw [if_neg hF0]
  by_cases hF3 : b ≤ 0xF3
  · exact opens _ ⟨by simp, by simp, by simp only; omega⟩ (if_pos hF3)
  rw [if_neg hF3]
  by_cases hF4 : b = 0xF4
  · exact opens _ ⟨by simp, by simp, by simp⟩ (if_pos hF4)
  · exact .inl (if_neg hF4)

theorem Pending.Long.accept {p q : Pending} {b : Nat} (hp : p.Long) (h : p.accept b = some q) :
    0x80 ≤ b ∧ (q.owed = 0 → 0x80 ≤ q.bits) ∧ (q.owed ≠ 0 → q.Long) := by
  by_cases hb : p.least ≤ b ∧ b ≤ p.greatest
  · rw [Pending.accept, if_pos hb, Option.some.injEq] at h
    subst h
    have hleast := hp.least
    have hgrows : (64 * p.bits + (p.least - 0x80)) * 64 ^ (p.owed - 1) ≤
        (64 * p.bits + (b - 0x80)) * 64 ^ (p.owed - 1) :=
      Nat.mul_le_mul_right _ (by omega)
    have hlarge := Nat.le_trans hp.large hgrows
    refine ⟨by omega, fun hdone => ?_, fun hmore => ⟨Nat.pos_of_ne_zero hmore, Nat.le_refl _, ?_⟩⟩
    · simp only at hdone ⊢
      rwa [hdone, pow_zero, Nat.mul_one] at hlarge
    · simp only at hmore ⊢
      obtain ⟨n, hn⟩ := Nat.exists_eq_succ_of_ne_zero hmore
      rw [hn, Nat.succ_eq_add_one, pow_succ'] at hlarge
      rw [hn, Nat.succ_eq_add_one, Nat.add_sub_cancel, Nat.sub_self, Nat.add_zero]
      calc 0x80 ≤ (64 * p.bits + (b - 0x80)) * (64 * 64 ^ n) := hlarge
        _ = 64 * (64 * p.bits + (b - 0x80)) * 64 ^ n := by
          rw [Nat.mul_left_comm, ← Nat.mul_assoc]
  · rw [Pending.accept, if_neg hb] at h
    cases h

/-- How a character stands in a file. A line feed and a carriage return are one byte each, and no
other character has these bytes in it. -/
inductive Spelling : Char → List UInt8 → Prop where
  | lineFeed : Spelling '\n' [0x0A]
  | carriageReturn : Spelling '\r' [0x0D]
  | plain {c : Char} {head : List UInt8} (hc : c ≠ '\n' ∧ c ≠ '\r')
    (hhead : head ≠ [] ∧ 0x0A ∉ head ∧ 0x0D ∉ head) : Spelling c head

theorem toNat_ofNat_of_le {n : Nat} (hn : n ≤ 0x7F) : (Char.ofNat n).toNat = n := by
  have hvalid : n.isValidChar := .inl (by omega)
  rw [Char.ofNat, dif_pos hvalid]
  rfl

theorem Spelling.single {b : UInt8} (hb : b.toNat ≤ 0x7F) : Spelling (Char.ofNat b.toNat) [b] := by
  by_cases hlf : b = 0x0A
  · rw [hlf]
    exact .lineFeed
  by_cases hcr : b = 0x0D
  · rw [hcr]
    exact .carriageReturn
  -- the number of the character is the byte
  have hne : ∀ {d : Char} {e : UInt8}, d.toNat = e.toNat → b ≠ e → Char.ofNat b.toNat ≠ d := by
    rintro d e hde hbe rfl
    rw [toNat_ofNat_of_le hb] at hde
    exact hbe (UInt8.toNat_inj.1 hde)
  refine .plain ⟨hne rfl hlf, hne rfl hcr⟩ ⟨by simp, ?_, ?_⟩
  · exact fun h => hlf (List.mem_singleton.1 h).symm
  · exact fun h => hcr (List.mem_singleton.1 h).symm

theorem Spelling.long {c : Char} {head : List UInt8} (hne : head ≠ [])
    (hhead : ∀ b ∈ head, 0x80 ≤ b.toNat) (hc : c ≠ '\n' ∧ c ≠ '\r') : Spelling c head :=
  .plain hc ⟨hne, fun h => absurd (hhead _ h) (by decide), fun h => absurd (hhead _ h) (by decide)⟩

theorem ofNat_ne_of_le {n : Nat} (hn : 0x80 ≤ n) {d : Char} (hd : d.toNat ≤ 0x7F)
    (h0 : d.toNat ≠ 0) : Char.ofNat n ≠ d := by
  rintro rfl
  by_cases hvalid : n.isValidChar
  · rw [Char.ofNat, dif_pos hvalid] at hd
    have hn' : (Char.ofNatAux n hvalid).toNat = n := rfl
    omega
  · rw [Char.ofNat, dif_neg hvalid] at h0
    exact h0 rfl

theorem exists_long_of_decodeFrom {c : Char} {text : List Char} :
    ∀ {bytes : List UInt8} {p : Pending}, p.Long →
      decodeFrom (some p) bytes = some c :: text.map some →
      ∃ head tail, bytes = head ++ tail ∧ head ≠ [] ∧ (∀ b ∈ head, 0x80 ≤ b.toNat) ∧
        (c ≠ '\n' ∧ c ≠ '\r') ∧ decodeFrom none tail = text.map some ∧
        ∀ other, decodeFrom (some p) (head ++ other) = some c :: decodeFrom none other
  | [], p, hp, h => by cases h
  | b :: bytes, p, hp, h => by
    rw [decodeFrom] at h
    cases haccept : p.accept b.toNat with
    | none =>
      rw [haccept] at h
      simp only at h
      split at h <;> cases h
    | some q =>
      obtain ⟨hb, hdone, hmore⟩ := hp.accept haccept
      rw [haccept] at h
      simp only at h
      by_cases howed : q.owed = 0
      · rw [if_pos howed, List.cons.injEq, Option.some.injEq] at h
        obtain ⟨rfl, htail⟩ := h
        refine ⟨[b], bytes, rfl, by simp, by simpa using hb, ?_, htail, fun other => ?_⟩
        · exact ⟨ofNat_ne_of_le (hdone howed) (by decide) (by decide),
            ofNat_ne_of_le (hdone howed) (by decide) (by decide)⟩
        · rw [List.singleton_append, decodeFrom, haccept]
          simp only [if_pos howed]
      · rw [if_neg howed] at h
        obtain ⟨head, tail, rfl, -, hhead, hc, htail, hother⟩ :=
          exists_long_of_decodeFrom (hmore howed) h
        refine ⟨b :: head, tail, rfl, by simp, ?_, hc, htail, fun other => ?_⟩
        · exact List.forall_mem_cons.2 ⟨hb, hhead⟩
        · rw [List.cons_append, decodeFrom, haccept]
          simp only [if_neg howed, hother]

/-- The first character of a file that is text, and what is left. -/
theorem exists_spelling {c : Char} {text : List Char} {bytes : List UInt8}
    (h : decode bytes = some c :: text.map some) :
    ∃ head tail, bytes = head ++ tail ∧ Spelling c head ∧ decode tail = text.map some ∧
      ∀ other, decode (head ++ other) = some c :: decode other := by
  unfold decode at h ⊢
  cases bytes with
  | nil => cases h
  | cons b bytes =>
    rw [decodeFrom] at h
    rcases lead_cases b.toNat with ⟨hb, hlead⟩ | hlead | ⟨p, hlead, hp, hb⟩
    · rw [hlead, List.cons.injEq, Option.some.injEq] at h
      obtain ⟨rfl, htail⟩ := h
      refine ⟨[b], bytes, rfl, .single hb, htail, fun other => ?_⟩
      rw [List.singleton_append, decodeFrom, hlead]
    · rw [hlead] at h
      cases h
    · rw [hlead] at h
      obtain ⟨head, tail, rfl, -, hhead, hc, htail, hother⟩ := exists_long_of_decodeFrom hp h
      refine ⟨b :: head, tail, rfl, .long (by simp) ?_ hc, htail, fun other => ?_⟩
      · exact List.forall_mem_cons.2 ⟨hb, hhead⟩
      · rw [List.cons_append, decodeFrom, hlead]
        exact hother other

/-! ## Decoding -/

theorem decode?_eq_some_iff {bytes : List UInt8} {text : List Char} :
    decode? bytes = some text ↔ decode bytes = text.map some := by
  unfold decode?
  generalize decode bytes = cs
  induction cs generalizing text with
  | nil => cases text <;> simp
  | cons c cs ih =>
    rw [List.mapM_cons, Option.bind_eq_bind, Option.bind_eq_some_iff]
    simp only [Option.pure_def, Option.bind_eq_bind, Option.bind_eq_some_iff, ih, id_eq]
    constructor
    · rintro ⟨c, rfl, text, rfl, hcons⟩
      rw [← Option.some.inj hcons, List.map_cons]
    · intro h
      cases text with
      | nil => cases h
      | cons c text =>
        rw [List.map_cons, List.cons.injEq] at h
        exact ⟨c, h.1, text, h.2, rfl⟩

theorem decode?_of_cons {c : Char} {bytes rest : List UInt8} (h : decode bytes = some c :: decode rest) :
    decode? bytes = (decode? rest).map (c :: ·) := by
  rw [decode?, h, List.mapM_cons]
  cases hrest : decode? rest <;> rw [decode?] at hrest <;> rw [hrest] <;> rfl

theorem decodeFrom_some_ne_nil : ∀ (bytes : List UInt8) (p : Pending), decodeFrom (some p) bytes ≠ []
  | [], p, h => by cases h
  | b :: bytes, p, h => by
    rw [decodeFrom] at h
    cases haccept : p.accept b.toNat with
    | none =>
      rw [haccept] at h
      simp only at h
      split at h <;> cases h
    | some q =>
      rw [haccept] at h
      simp only at h
      by_cases howed : q.owed = 0
      · rw [if_pos howed] at h
        cases h
      · rw [if_neg howed] at h
        exact decodeFrom_some_ne_nil bytes q h

theorem eq_nil_of_decode {bytes : List UInt8} (h : decode bytes = []) : bytes = [] := by
  cases bytes with
  | nil => rfl
  | cons b bytes =>
    rw [decode, decodeFrom] at h
    split at h
    · cases h
    · exact absurd h (decodeFrom_some_ne_nil bytes _)

theorem head?_eq_lineFeed_iff {bytes : List UInt8} {text : List Char}
    (h : decode bytes = text.map some) : bytes.head? = some 0x0A ↔ text.head? = some '\n' := by
  cases text with
  | nil => simp [eq_nil_of_decode h]
  | cons c text =>
    obtain ⟨head, tail, rfl, hspelling, -⟩ := exists_spelling h
    cases hspelling with
    | lineFeed => simp
    | carriageReturn => simp
    | plain hc hhead =>
      obtain ⟨b, head, rfl⟩ := List.exists_cons_of_ne_nil hhead.1
      have hb : b ≠ 0x0A := fun hb => hhead.2.1 (hb ▸ List.mem_cons_self)
      simp [hb, hc.1]

/-! ## Lines -/

section

variable {α : Type} [DecidableEq α] {lf cr : α}

/-- The lines with something in front of the first one. -/
def extendFirst (front : List α) : List (List α) → List (List α)
  | [] => [front]
  | line :: rest => (front ++ line) :: rest

theorem cut_cons_of_ne {c : α} {s : List α} (hlf : c ≠ lf) (hcr : ¬(c = cr ∧ s.head? = some lf)) :
    cut lf cr (c :: s) = extendFirst [c] (cut lf cr s) := by
  rw [cut, if_neg hlf, if_neg hcr]
  cases cut lf cr s <;> rfl

theorem cut_append_of_not_mem {front s : List α} (hne : front ≠ []) (hlf : lf ∉ front)
    (hcr : cr ∉ front) : cut lf cr (front ++ s) = extendFirst front (cut lf cr s) := by
  induction front with
  | nil => exact absurd rfl hne
  | cons c front ih =>
    have hc : c ≠ lf := fun h => hlf (h ▸ List.mem_cons_self)
    have hc' : c ≠ cr := fun h => hcr (h ▸ List.mem_cons_self)
    rw [List.cons_append, cut_cons_of_ne hc fun h => hc' h.1]
    cases front with
    | nil => rfl
    | cons d front =>
      rw [ih (by simp) (fun h => hlf (List.mem_cons_of_mem _ h))
        (fun h => hcr (List.mem_cons_of_mem _ h))]
      cases cut lf cr s <;> rfl

end

theorem map_decode?_extendFirst {c : Char} {front : List UInt8} {raw : List (List UInt8)}
    {ls : List (List Char)} (h : raw.map decode? = ls.map some)
    (hfront : ∀ rest, decode (front ++ rest) = some c :: decode rest) :
    (extendFirst front raw).map decode? = (extendFirst [c] ls).map some := by
  have hfirst : ∀ rest, decode? (front ++ rest) = (decode? rest).map (c :: ·) :=
    fun rest => decode?_of_cons (hfront rest)
  cases raw with
  | nil =>
    cases ls with
    | nil =>
      have hnil := hfirst []
      rw [List.append_nil] at hnil
      simp only [extendFirst, List.map_cons, List.map_nil, hnil]
      rfl
    | cons l ls => simp at h
  | cons line raw =>
    cases ls with
    | nil => simp at h
    | cons l ls =>
      rw [List.map_cons, List.map_cons, List.cons.injEq] at h
      simp only [extendFirst, List.map_cons, hfirst, h.1, h.2, Option.map_some,
        List.singleton_append]

/-- The lines of a file that is text are the lines of that text. -/
theorem map_decode?_byteLines {bytes : List UInt8} {text : List Char}
    (h : decode? bytes = some text) : (byteLines bytes).map decode? = (lines text).map some := by
  rw [decode?_eq_some_iff] at h
  unfold byteLines lines
  induction text generalizing bytes with
  | nil =>
    rw [eq_nil_of_decode h]
    rfl
  | cons c text ih =>
    obtain ⟨head, tail, rfl, hspelling, htail, hhead⟩ := exists_spelling h
    have hrest := ih htail
    cases hspelling with
    | lineFeed =>
      rw [List.singleton_append, cut, if_pos rfl, cut, if_pos rfl, List.map_cons, List.map_cons, hrest]
      rfl
    | carriageReturn =>
      -- both lose the carriage return in front of a line feed, or both keep it
      have hnext := head?_eq_lineFeed_iff htail
      by_cases hlf : tail.head? = some 0x0A
      · rw [List.singleton_append, cut, if_neg (by decide), if_pos ⟨rfl, hlf⟩, cut,
          if_neg (by decide), if_pos ⟨rfl, hnext.1 hlf⟩, hrest]
      · rw [List.singleton_append, cut_cons_of_ne (by decide) fun h => hlf h.2,
          cut_cons_of_ne (by decide) fun h => hlf (hnext.2 h.2)]
        exact map_decode?_extendFirst hrest hhead
    | plain hc hplain =>
      rw [cut_append_of_not_mem hplain.1 hplain.2.1 hplain.2.2,
        cut_cons_of_ne hc.1 fun h => hc.2 h.1]
      exact map_decode?_extendFirst hrest hhead

end TraceMining.Text
