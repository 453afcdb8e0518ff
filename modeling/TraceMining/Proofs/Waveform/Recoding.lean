import Mathlib.Algebra.BigOperators.Intervals
import Mathlib.Algebra.BigOperators.Ring.Finset
import Mathlib.Algebra.Ring.Nat
import Mathlib.Logic.Relation
import TraceMining.Proofs.Waveform.Acceptance
import TraceMining.Proofs.Waveform.Grammar
import TraceMining.Proofs.Waveform.Refusal

/-!
# Two ways to write a change

The change of a wire to one bit can be written as a bit in front of the code or as a row of one bit,
and a row may begin with any bits that count as 0. A line that is written one way or the other does
the same (`Recoded.feed_eq`), and it is one line of the text in both cases
(`exists_lines_append`), so the answer to a text does not depend on how its changes are written
(`changes_recoded`). The value of a row is the sum of the powers of two at its ones
(`bitsValue_eq_sum`).

A row of bits is decoded by writing every bit as a binary digit and reading the digits as a number
(`decodeBits?`). Reading fails if there are none, but no line with an empty row is accepted
(`ne_nil_of_command?`).
-/

namespace TraceMining.Waveform

open Text Progress

/-! ## The value of a row of bits -/

variable {bits extra : List Char}

theorem bitsValue_concat (bits : List Char) (bit : Char) :
    bitsValue (bits ++ [bit]) = 2 * bitsValue bits + bitValue bit := List.foldl_concat ..

/-- Positions count from the last bit, which has position 0. -/
theorem bitsValue_eq_sum (bits : List Char) : bitsValue bits =
    ∑ i ∈ Finset.range bits.length with bits.reverse[i]? = some '1', 2 ^ i := by
  induction bits using List.reverseRecOn with
  | nil => rfl
  | append_singleton bits bit ih =>
    have hshift : ∀ i, (if bits.reverse[i]? = some '1' then 2 ^ (i + 1) else 0) =
        2 * if bits.reverse[i]? = some '1' then 2 ^ i else 0 := by
      intro i
      split
      · exact Nat.pow_succ'
      · rfl
    rw [Finset.sum_filter] at ih
    rw [bitsValue_concat, ih, Finset.sum_filter, List.length_append, List.length_singleton,
      Finset.sum_range_succ', List.reverse_append, List.reverse_singleton, List.singleton_append,
      Finset.mul_sum]
    simp only [List.getElem?_cons_succ, List.getElem?_cons_zero, hshift, Option.some.injEq,
      Nat.pow_zero]
    rfl

theorem bitsValue_append_of_not_mem (h : '1' ∉ extra) (bits : List Char) :
    bitsValue (extra ++ bits) = bitsValue bits := by
  induction extra with
  | nil => rfl
  | cons bit extra ih =>
    obtain ⟨hbit, hextra⟩ := not_or.1 (mt List.mem_cons.2 h)
    have hzero : 2 * 0 + bitValue bit = 0 := by
      rw [bitValue, if_neg (Ne.symm hbit)]
    rw [← ih hextra]
    unfold bitsValue
    rw [List.cons_append, List.foldl_cons, hzero]

/-! ## A line in a text -/

/-- No line feed and no carriage return is in the text. -/
def Unbroken (s : List Char) : Prop := ∀ c ∈ s, c ≠ '\n' ∧ c ≠ '\r'

instance (s : List Char) : Decidable (Unbroken s) :=
  List.decidableBAll (fun c => c ≠ '\n' ∧ c ≠ '\r') s

namespace Unbroken

variable {s t : List Char}

theorem append (hs : Unbroken s) (ht : Unbroken t) : Unbroken (s ++ t) :=
  List.forall_mem_append.2 ⟨hs, ht⟩

theorem of_word (h : Word s) : Unbroken s := by
  intro c hc
  have hblack := h.2 c hc
  constructor <;> rintro rfl <;> cases hblack

theorem of_blanks (h : Blanks s) : Unbroken s := by
  intro c hc
  rcases isBlank_iff.1 (h c hc) with rfl | rfl <;> decide

theorem of_bits (h : ∀ c ∈ s, c ∈ ['0', '1', 'x', 'X', 'z', 'Z']) : Unbroken s := by
  have hbit : Unbroken ['0', '1', 'x', 'X', 'z', 'Z'] := by decide
  exact fun c hc => hbit c (h c hc)

theorem row {sign : Char} {bits g code : List Char} (hsign : sign = 'b' ∨ sign = 'B')
    (hbits : ∀ c ∈ bits, c ∈ ['0', '1', 'x', 'X', 'z', 'Z']) (hg : Gap g) (hcode : Word code) :
    Unbroken (sign :: (bits ++ (g ++ code))) := by
  have hrest := (of_bits hbits).append ((of_blanks hg.2).append (of_word hcode))
  refine List.forall_mem_cons.2 ⟨?_, hrest⟩
  rcases hsign with rfl | rfl <;> decide

theorem endable (h : Unbroken s) : Endable s :=
  endable_of_not_mem (fun hc => (h _ hc).1 rfl) fun hc => (h _ hc).2 rfl

end Unbroken

/-- Behind a line, a text or the line ends. -/
def EndsLine (back : List Char) : Prop :=
  back = [] ∨ ∃ eol rest, LineEnd eol ∧ back = eol ++ rest

/-- Where the line ends does not depend on what it says. -/
theorem exists_lines_append {back : List Char} (h : EndsLine back) :
    ∃ later, ∀ line, Endable line → isWhiteOnly line = false →
      lines (line ++ back) = line :: later := by
  have hends : ∀ line : List Char, Endable line → isWhiteOnly line = false →
      line.getLast? ≠ some '\r' := by
    intro line hline hblack
    exact hline.2.resolve_left (by simp [hblack])
  rcases h with rfl | ⟨eol, rest, rfl | rfl, rfl⟩
  · refine ⟨[], fun line hline hblack => ?_⟩
    have hne : line ≠ [] := by
      rintro rfl
      cases hblack
    rw [List.append_nil]
    exact cut_of_not_mem hline.1 hne
  · exact ⟨lines rest, fun line hline hblack =>
      cut_append_lf hline.1 (hends line hline hblack) rest⟩
  · exact ⟨lines rest, fun line hline _ => cut_append_cr_lf hline.1 (by decide) rest⟩

theorem lines_ne_nil {text : List Char} (h : text ≠ []) : lines text ≠ [] := by
  unfold lines
  induction text with
  | nil => exact absurd rfl h
  | cons c s ih =>
    rw [cut]
    split
    · exact List.cons_ne_nil _ _
    · split
      · rename_i hcr
        exact ih (by rintro rfl; cases hcr.2)
      · split <;> exact List.cons_ne_nil _ _

/-- Behind a line feed a new line begins. -/
theorem lines_append {front : List Char} (h : front = [] ∨ front.getLast? = some '\n')
    (s : List Char) : lines (front ++ s) = lines front ++ lines s := by
  induction front with
  | nil => rfl
  | cons c front ih =>
    cases front with
    | nil =>
      have hlf : c = '\n' := by simpa using h
      rw [hlf]
      rfl
    | cons d front =>
      rw [List.getLast?_cons_cons] at h
      obtain ⟨line, later, hcut⟩ :=
        List.exists_cons_of_ne_nil (lines_ne_nil (List.cons_ne_nil d front))
      have hrest := ih (.inr (h.resolve_left (List.cons_ne_nil c _)))
      rw [hcut, List.cons_append] at hrest
      unfold lines at hrest hcut ⊢
      rw [List.cons_append, List.cons_append]
      by_cases hlf : c = '\n'
      · rw [cut, if_pos hlf, hrest, cut, if_pos hlf, hcut]
        rfl
      · by_cases hcr : c = '\r' ∧ d = '\n'
        · have hhead : ∀ t : List Char, c = '\r' ∧ (d :: t).head? = some '\n' :=
            fun t => ⟨hcr.1, congrArg some hcr.2⟩
          rw [cut, if_neg hlf, if_pos (hhead _), hrest, cut, if_neg hlf, if_pos (hhead _), hcut]
        · have hhead : ∀ t : List Char, ¬(c = '\r' ∧ (d :: t).head? = some '\n') :=
            fun t e => hcr ⟨e.1, Option.some.inj e.2⟩
          rw [cut_cons_of_ne hlf (hhead _), hrest, cut_cons_of_ne hlf (hhead _), hcut]
          rfl

/-! ## Lines that do the same -/

/-- The second line is the first one with its change written in another way. -/
inductive Recoded : List Char → List Char → Prop
  /-- A bit in front of the code becomes a row of one bit. -/
  | scalar {w b code : List Char} {bit sign : Char} (hw : Indent w) (hb : Blanks b)
      (hbit : bit ∈ ['0', '1', 'x', 'X', 'z', 'Z']) (hsign : sign = 'b' ∨ sign = 'B')
      (hcode : Word code) :
    Recoded (w ++ (bit :: code) ++ b) (w ++ (sign :: ([bit] ++ ([' '] ++ code))) ++ b)
  /-- Bits that count as 0 are put in front of a row. -/
  | vector {w b extra bits g code : List Char} {sign : Char} (hw : Indent w) (hb : Blanks b)
      (hsign : sign = 'b' ∨ sign = 'B') (hextra : ∀ c ∈ extra, c ∈ ['0', 'x', 'X', 'z', 'Z'])
      (hne : bits ≠ []) (hbits : ∀ c ∈ bits, c ∈ ['0', '1', 'x', 'X', 'z', 'Z']) (hg : Gap g)
      (hcode : Word code) :
    Recoded (w ++ (sign :: (bits ++ (g ++ code))) ++ b)
      (w ++ (sign :: ((extra ++ bits) ++ (g ++ code))) ++ b)

theorem not_isWhiteOnly_of_command? {line : List Char} {c : Command}
    (h : command? line = some c) : isWhiteOnly line = false := by
  refine Bool.eq_false_iff.2 fun hwhite => ?_
  rw [command?_of_isWhiteOnly hwhite] at h
  cases h

theorem gap_space : Gap [' '] := ⟨List.cons_ne_nil _ _, by decide⟩

/-- Bits in front of a row make a row. -/
theorem mem_bits_append (hextra : ∀ c ∈ extra, c ∈ ['0', 'x', 'X', 'z', 'Z'])
    (hbits : ∀ c ∈ bits, c ∈ ['0', '1', 'x', 'X', 'z', 'Z']) :
    ∀ c ∈ extra ++ bits, c ∈ ['0', '1', 'x', 'X', 'z', 'Z'] := by
  have hsub : ['0', 'x', 'X', 'z', 'Z'] ⊆ ['0', '1', 'x', 'X', 'z', 'Z'] := by decide
  exact List.forall_mem_append.2 ⟨fun c hc => hsub (hextra c hc), hbits⟩

namespace Recoded

variable {line line' : List Char}

/-- Both lines are accepted, and what they say has the same effect. -/
theorem exists_commands (h : Recoded line line') :
    ∃ c c', command? line = some c ∧ command? line' = some c' ∧
      ∀ p : Progress, p.obey c' = p.obey c := by
  cases h with
  | @scalar w b code bit sign hw hb hbit hsign hcode =>
    have hbits : ∀ c ∈ [bit], c ∈ ['0', '1', 'x', 'X', 'z', 'Z'] := by simpa using hbit
    refine ⟨_, _, command?_of_phrase hw.isWhite hb (.scalar hbit hcode),
      command?_of_phrase hw.isWhite hb (.vector hsign (by simp) hbits gap_space hcode),
      fun p => ?_⟩
    have hvalue : bitsValue [bit] = bitValue bit := Nat.zero_add _
    rw [obey_vector (List.cons_ne_nil _ _), hvalue]
    rfl
  | @vector w b extra bits g code sign hw hb hsign hextra hne hbits hg hcode =>
    have hrow := mem_bits_append hextra hbits
    have hones : '1' ∉ extra := fun hc => absurd (hextra _ hc) (by decide)
    refine ⟨_, _, command?_of_phrase hw.isWhite hb (.vector hsign hne hbits hg hcode),
      command?_of_phrase hw.isWhite hb (.vector hsign (by simp [hne]) hrow hg hcode), fun p => ?_⟩
    rw [obey_vector (by simp [hne]), obey_vector hne, bitsValue_append_of_not_mem hones]

theorem feed_eq (h : Recoded line line') {p : Progress} (hp : p.pending = none) :
    p.feed line' = p.feed line := by
  obtain ⟨c, c', hc, hc', hobey⟩ := h.exists_commands
  rw [feed_of_command? hp hc, feed_of_command? hp hc', hobey]

theorem endable (h : Recoded line line') : Endable line ∧ Endable line' := by
  cases h with
  | @scalar w b code bit sign hw hb hbit hsign hcode =>
    have hbits : ∀ c ∈ [bit], c ∈ ['0', '1', 'x', 'X', 'z', 'Z'] := by simpa using hbit
    have hbody : Unbroken ([bit] ++ code) := (Unbroken.of_bits hbits).append (.of_word hcode)
    exact ⟨hbody.endable.pad hw hb, (Unbroken.row hsign hbits gap_space hcode).endable.pad hw hb⟩
  | vector hw hb hsign hextra hne hbits hg hcode =>
    exact ⟨(Unbroken.row hsign hbits hg hcode).endable.pad hw hb,
      (Unbroken.row hsign (mem_bits_append hextra hbits) hg hcode).endable.pad hw hb⟩

theorem not_isWhiteOnly (h : Recoded line line') :
    isWhiteOnly line = false ∧ isWhiteOnly line' = false := by
  obtain ⟨c, c', hc, hc', -⟩ := h.exists_commands
  exact ⟨not_isWhiteOnly_of_command? hc, not_isWhiteOnly_of_command? hc'⟩

end Recoded

/-- One line outside sections is written in another way. -/
inductive RecodedOnce : List Char → List Char → Prop
  | line {front line line' back : List Char}
      (hfront : front = [] ∨ front.getLast? = some '\n')
      (hsection : openSection front = none) (h : Recoded line line') (hback : EndsLine back) :
    RecodedOnce (front ++ (line ++ back)) (front ++ (line' ++ back))

theorem pending_eq_none_of_openSection {front : List Char} {p : Progress}
    (h : (lines front).foldlM feed .start = .ok p) (hsection : openSection front = none) :
    p.pending = none := by
  have hrun : run front = .ok p := foldlM_feedNumbered h 1
  rw [openSection_eq_of_run hrun] at hsection
  exact Option.map_eq_none_iff.1 hsection

theorem RecodedOnce.answer_eq [CodeOrder] {text text' : List Char} (h : RecodedOnce text text') :
    answer text' = answer text := by
  cases h with
  | @line front line line' back hfront hsection h hback =>
    obtain ⟨later, hlater⟩ := exists_lines_append hback
    have hline := hlater line h.endable.1 h.not_isWhiteOnly.1
    have hline' := hlater line' h.endable.2 h.not_isWhiteOnly.2
    rw [Waveform.answer_eq, Waveform.answer_eq, lines_append hfront, lines_append hfront, hline,
      hline', List.foldlM_append, List.foldlM_append]
    cases hrun : (lines front).foldlM feed .start with
    | error fault => rfl
    | ok p =>
      have hfeed := h.feed_eq (pending_eq_none_of_openSection hrun hsection)
      show (line' :: later).foldlM feed p >>= finish = (line :: later).foldlM feed p >>= finish
      rw [List.foldlM_cons, List.foldlM_cons, hfeed]

/-- **A bit and a row of one bit are the same change.** However many changes outside sections are
written as rows instead of bits, or as longer rows with bits in front that count as 0, the same is
read, or the text is refused for the same fault. A row is decoded to the sum of the powers of two at
its ones, and every row that is accepted can be decoded. -/
theorem changes_recoded [CodeOrder] :
    (∀ text text', Relation.ReflTransGen RecodedOnce text text' → answer text' = answer text) ∧
    (∀ bits, bits ≠ [] → decodeBits? bits =
      some (∑ i ∈ Finset.range bits.length with bits.reverse[i]? = some '1', 2 ^ i)) ∧
    ∀ line bits code, command? line = some (.vector bits code) → bits ≠ [] ∧
      ∀ p : Progress, p.pending = none →
        ∃ v, decodeBits? bits = some v ∧ p.feed line = p.change code v := by
  refine ⟨fun text text' h => ?_, fun bits hne => ?_, fun line bits code h => ?_⟩
  · induction h with
    | refl => rfl
    | tail _ hstep ih => exact hstep.answer_eq.trans ih
  · rw [decodeBits?_of_ne_nil hne, bitsValue_eq_sum]
  · have hne := ne_nil_of_command? h
    refine ⟨hne, fun p hp => ⟨bitsValue bits, decodeBits?_of_ne_nil hne, ?_⟩⟩
    rw [feed_of_command? hp h, obey_vector hne]

/-- The declarations of two wires. -/
def twoWires : List Char :=
  ofLines ["$scope module TOP $end", "$var wire 1 ! a $end", "$var wire 3 # b $end",
    "$upscope $end"]

/-- A change to a bit and, behind another line end, one to a row. -/
def bitAndRow : List Char := twoWires ++ ("\t1!".toList ++ "\r\nb1x0 #".toList)

/-- The same changes as rows, with two bits in front of the second one. -/
def bothRows : List Char := (twoWires ++ "\tB1 !\r\n".toList) ++ ("bz01x0 #".toList ++ [])

theorem recodedOnce_bitAndRow : Relation.ReflTransGen RecodedOnce bitAndRow bothRows := by
  have hbit : Recoded "\t1!".toList "\tB1 !".toList :=
    @Recoded.scalar ['\t'] [] ['!'] '1' 'B' (by decide) .nil (by decide) (.inr rfl) (by decide)
  have hrow : Recoded "b1x0 #".toList "bz01x0 #".toList :=
    @Recoded.vector [] [] ['z', '0'] ['1', 'x', '0'] [' '] ['#'] 'b' (by decide) .nil (.inl rfl)
      (by simp) (by decide) (by simp) gap_space (by decide)
  have hfirst : RecodedOnce bitAndRow (twoWires ++ ("\tB1 !".toList ++ "\r\nb1x0 #".toList)) :=
    .line (.inr (by decide +kernel)) (by decide +kernel) hbit (.inr ⟨['\r', '\n'], _, .inr rfl, rfl⟩)
  have hagain : twoWires ++ ("\tB1 !".toList ++ "\r\nb1x0 #".toList) =
      (twoWires ++ "\tB1 !\r\n".toList) ++ ("b1x0 #".toList ++ []) := by
    decide +kernel
  have hsecond : RecodedOnce
      ((twoWires ++ "\tB1 !\r\n".toList) ++ ("b1x0 #".toList ++ [])) bothRows :=
    .line (.inr (by decide +kernel)) (by decide +kernel) hrow (.inl rfl)
  exact .tail (.single hfirst) (hagain ▸ hsecond)

/-- Both texts hold the same changes; the row without ones in front is decoded to 4. -/
theorem changes_recoded_bitAndRow :
    Relation.ReflTransGen RecodedOnce bitAndRow bothRows ∧ answer bothRows = answer bitAndRow ∧
      (answer bitAndRow).toOption.map (fun dump => dump.store.values.map OrderedMap.entries) =
        some [[(0, 1)], [(0, 4)]] ∧
      command? "bz01x0 #".toList = some (.vector "z01x0".toList ['#']) ∧
      "z01x0".toList ≠ [] ∧ decodeBits? "z01x0".toList = some 4 ∧
      Progress.start.feed "bz01x0 #".toList = .error (.undeclaredCode "#") := by
  have hcommand : command? "bz01x0 #".toList = some (.vector "z01x0".toList ['#']) := by decide
  obtain ⟨hne, hfeed⟩ := changes_recoded.2.2 _ _ _ hcommand
  obtain ⟨v, hv, hstart⟩ := hfeed .start rfl
  refine ⟨recodedOnce_bitAndRow, changes_recoded.1 _ _ recodedOnce_bitAndRow, by decide +kernel,
    hcommand, hne, ?_, hstart⟩
  rw [changes_recoded.2.1 _ hne]
  decide

end TraceMining.Waveform
