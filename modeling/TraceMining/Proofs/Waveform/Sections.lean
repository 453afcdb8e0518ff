import Mathlib.Data.List.Basic
import TraceMining.Proofs.Text.Words
import TraceMining.Proofs.Waveform.Acceptance
import TraceMining.Proofs.Waveform.Grammar
import TraceMining.Proofs.Waveform.Refusal

/-!
# Sections of free text

A line outside sections that begins with one of four keywords begins a section, which ends with the
first line, this one included, whose last word is the closing keyword. A section that ends in the
line it begins in is read by the grammar of lines and a longer one by the reader, but both take the
lines apart in the same way (`Piece.closed_iff`), so one is read like the other
(`FreeText.Proper.foldlM_feed`). Accepted lines can therefore be cut into sections and other lines
(`exists_cut`), and nothing is kept of the sections but the text of the last time scale
(`CutInto.readLines_iff`), whose words are those between its keyword and the closing one
(`FreeText.words_text`).
-/

namespace TraceMining.Waveform

open Text Progress

/-! ## The end of a section -/

/-- The last word of the text is the closing keyword. -/
def Closing (text : List Char) : Prop := (words text).getLast? = some "$end".toList

instance (text : List Char) : Decidable (Closing text) :=
  inferInstanceAs (Decidable ((words text).getLast? = some "$end".toList))

theorem word_end : Word "$end".toList := by decide

theorem closing_iff {text : List Char} : Closing text ↔ EndsIn text "$end".toList :=
  getLast?_words_iff word_end.1 word_end.2

namespace Piece

variable {text body : List Char} {closed : Bool}

theorem closed_iff (h : Piece text body closed) : closed = true ↔ Closing text := by
  rw [closing_iff]
  cases h with
  | @closing front back htext hfront hback =>
    exact ⟨fun _ => ⟨front, back, htext, hfront, hback⟩, fun _ => rfl⟩
  | going h =>
    refine ⟨fun hclosed => (by cases hclosed), ?_⟩
    rintro ⟨front, back, htext, hfront, hback⟩
    obtain ⟨c, hc, hblack⟩ := h front back htext hback
    rw [hfront c hc] at hblack
    cases hblack

/-- The words of a piece are those of the text, the closing keyword apart. -/
theorem words_eq (h : Piece text body closed) :
    words body = if closed then (words text).dropLast else words text := by
  cases h with
  | @closing front back htext hfront hback =>
    rw [htext, words_append_word hfront word_end.1 word_end.2 hback, words_trim, if_pos rfl,
      List.dropLast_concat]
  | going h => exact words_trim text

theorem trimmed (h : Piece text body closed) : Trimmed body := by
  cases h <;> exact trimmed_trim _

end Piece

/-! ## Sections and other lines -/

/-- The keywords that begin a section. -/
def sectionKeywords : List String := ["$date", "$version", "$timescale", "$comment"]

/-- The lines of a section: the first one is white space, a keyword and text, the further ones are
text. -/
structure FreeText where
  indent : List Char
  keyword : String
  opening : List Char
  further : List (List Char)

namespace FreeText

def lines (s : FreeText) : List (List Char) :=
  (s.indent ++ (s.keyword.toList ++ s.opening)) :: s.further

/-- What stands behind the keyword, line by line. -/
def texts (s : FreeText) : List (List Char) := s.opening :: s.further

/-- The words between the keyword and the closing keyword. -/
def words (s : FreeText) : List (List Char) := (s.texts.flatMap Text.words).dropLast

/-- Behind the keyword stands a blank or nothing, and the section ends with the first line that
closes it. -/
structure Proper (s : FreeText) : Prop where
  indent : ∀ c ∈ s.indent, isWhite c = true
  keyword : s.keyword ∈ sectionKeywords
  opening : ∀ c ∈ s.opening.head?, isBlank c = true
  closed : ∃ before last, s.texts = before ++ [last] ∧ (∀ t ∈ before, ¬Closing t) ∧ Closing last

end FreeText

/-- The line does not begin with the keyword of a section. -/
def BeginsNoSection (line : List Char) : Prop :=
  ∀ k ∈ sectionKeywords, ¬k.toList <+: trimStart line

instance (line : List Char) : Decidable (BeginsNoSection line) :=
  List.decidableBAll (fun k : String => ¬k.toList <+: trimStart line) sectionKeywords

/-- A part of a dump: a section, or a line outside sections. -/
inductive Part where
  | line (l : List Char)
  | freeText (s : FreeText)

namespace Part

def lines : Part → List (List Char)
  | .line l => [l]
  | .freeText s => s.lines

/-- A section is one as it should be, and any other line does not begin one. -/
def Proper : Part → Prop
  | .line l => BeginsNoSection l
  | .freeText s => s.Proper

def plain? : Part → Option (List Char)
  | .line l => some l
  | .freeText _ => none

def timescale? : Part → Option FreeText
  | .line _ => none
  | .freeText s => if s.keyword = "$timescale" then some s else none

end Part

/-- The lines are those of the parts, one after the other. -/
def CutInto (ls : List (List Char)) (parts : List Part) : Prop :=
  (∀ part ∈ parts, part.Proper) ∧ parts.flatMap Part.lines = ls

/-- The lines outside sections. -/
def plainLines (parts : List Part) : List (List Char) := parts.filterMap Part.plain?

/-- The time scale sections. -/
def timescales (parts : List Part) : List FreeText := parts.filterMap Part.timescale?

/-! ## Reading a section -/

/-- The progress with another text of a time scale. -/
def Progress.withTimescale (p : Progress) (t : Option String) : Progress :=
  { p with timescale := t }

variable {p q : Progress} {line : List Char} {ls : List (List Char)}

theorem sectionText_closed_iff {text : List Char} : (sectionText text).2 = true ↔ Closing text :=
  (piece_iff.1 rfl).closed_iff

/-- Lines that do not close an open section become pieces of it; the next one closes it. -/
theorem foldlM_feed_of_pending {s : Section} {before : List (List Char)} {last : List Char}
    (hp : p.pending = some s) (hbefore : ∀ t ∈ before, ¬Closing t) (hlast : Closing last) :
    (before ++ [last]).foldlM feed p = .ok (p.closeSection
      { s with pieces := s.pieces ++ (before ++ [last]).map fun t => (sectionText t).1 }) := by
  induction before generalizing p s with
  | nil =>
    rw [List.nil_append, List.foldlM_cons, feed_of_pending hp, sectionText_closed_iff.2 hlast]
    rfl
  | cons t before ih =>
    obtain ⟨ht, hrest⟩ := List.forall_mem_cons.1 hbefore
    have hopen : (sectionText t).2 = false :=
      Bool.eq_false_iff.2 fun h => ht (sectionText_closed_iff.1 h)
    rw [List.cons_append, List.foldlM_cons, feed_of_pending hp, hopen]
    have hnext := ih (p := p.extend s (sectionText t).1 false) rfl hrest
    refine hnext.trans ?_
    rw [List.append_assoc]
    rfl

namespace FreeText

/-- The text of the section in one line. -/
def text (s : FreeText) : List Char :=
  [' '].intercalate ((s.texts.map fun t => (sectionText t).1).filter (!·.isEmpty))

/-- The line that begins a section says so. -/
theorem Proper.command? {s : FreeText} (h : s.Proper) :
    command? (s.indent ++ (s.keyword.toList ++ s.opening)) =
      some (.header s.keyword.toList (sectionText s.opening).1 (sectionText s.opening).2) := by
  have hphrase := command?_of_phrase h.indent .nil (.header h.keyword h.opening (piece_iff.1 rfl))
  rwa [List.append_nil] at hphrase

/-- A section is read to its end, and only the text of a time scale is kept. -/
theorem Proper.foldlM_feed {s : FreeText} (h : s.Proper) (hp : p.pending = none) :
    s.lines.foldlM feed p = .ok (p.withTimescale
      (if s.keyword = "$timescale" then some (String.ofList s.text) else p.timescale)) := by
  obtain ⟨before, last, htexts, hbefore, hlast⟩ := h.closed
  have hopening : p.feed (s.indent ++ (s.keyword.toList ++ s.opening)) =
      { p with pending := some ⟨s.keyword.toList, []⟩ }.feed s.opening := by
    rw [feed_of_command? hp h.command?, feed_of_pending rfl]
    cases (sectionText s.opening).2 <;> rfl
  calc s.lines.foldlM feed p
      = s.texts.foldlM feed { p with pending := some ⟨s.keyword.toList, []⟩ } := by
        rw [lines, texts, List.foldlM_cons, List.foldlM_cons, hopening]
    _ = .ok (p.closeSection ⟨s.keyword.toList, s.texts.map fun t => (sectionText t).1⟩) := by
        rw [htexts, foldlM_feed_of_pending rfl hbefore hlast]
        rfl
    _ = .ok (p.withTimescale _) := by
        simp only [closeSection, withTimescale, String.toList_inj, hp]
        rfl

/-- The words of the text are those of the lines up to the closing keyword. -/
theorem words_text {s : FreeText} (h : s.Proper) : Text.words s.text = s.words := by
  obtain ⟨before, last, htexts, hbefore, hlast⟩ := h.closed
  have hpiece : ∀ t, Text.words (sectionText t).1 =
      if (sectionText t).2 then (Text.words t).dropLast else Text.words t :=
    fun t => (piece_iff.1 rfl).words_eq
  have hgoing : before.flatMap (fun t => Text.words (sectionText t).1) =
      before.flatMap Text.words := by
    refine List.flatMap_congr fun t ht => ?_
    rw [hpiece, if_neg fun h => hbefore t ht (sectionText_closed_iff.1 h)]
  have hne : Text.words last ≠ [] := by
    intro hnil
    rw [Closing, hnil] at hlast
    cases hlast
  rw [text, words_intercalate, flatMap_words_filter, List.flatMap_map, words, htexts,
    List.flatMap_append, List.flatMap_append, hgoing, List.flatMap_singleton,
    List.flatMap_singleton, hpiece, if_pos (sectionText_closed_iff.2 hlast),
    List.dropLast_append_of_ne_nil hne]

theorem trimmed_text (s : FreeText) : Trimmed s.text := by
  refine trimmed_intercalate (fun p hp => ?_) fun p hp => ?_
  · simpa using (List.mem_filter.1 hp).2
  · obtain ⟨t, -, rfl⟩ := List.mem_map.1 (List.mem_filter.1 hp).1
    exact (piece_iff.1 rfl).trimmed

end FreeText

/-! ## Reading lines outside sections -/

theorem BeginsNoSection.ne_header {c : Command} (h : BeginsNoSection line)
    (hc : command? line = some c) : ∀ keyword text closed, c ≠ .header keyword text closed := by
  rintro keyword text closed rfl
  obtain ⟨body, b, hline, -, hphrase⟩ := command?_eq_some_iff.1 hc
  cases hphrase with
  | header hkeyword htext hbody =>
    rw [List.append_assoc] at hline
    exact h _ hkeyword ⟨_, hline.symm⟩

theorem BeginsNoSection.opensSection_eq_false {c : Command} (h : BeginsNoSection line)
    (hc : command? line = some c) : c.opensSection = false := by
  have hne := h.ne_header hc
  cases c with
  | header keyword text closed => exact absurd rfl (hne keyword text closed)
  | _ => rfl

theorem change_withTimescale (p : Progress) (t : Option String) (code : List Char) (v : Value) :
    (p.withTimescale t).change code v = (p.change code v).map (·.withTimescale t) := by
  unfold change withTimescale
  dsimp only
  cases p.wires.lookup code <;> rfl

theorem obey_withTimescale {c : Command} (t : Option String)
    (h : ∀ keyword text closed, c ≠ .header keyword text closed) :
    (p.withTimescale t).obey c = (p.obey c).map (·.withTimescale t) := by
  cases c with
  | header keyword text closed => exact absurd rfl (h keyword text closed)
  | closeScope =>
    unfold obey closeScope withTimescale
    dsimp only
    cases p.scopes with
    | nil => rfl
    | cons scope outer => cases outer <;> rfl
  | declare =>
    unfold obey declare withTimescale
    dsimp only
    cases p.definitionsDone <;> rfl
  | scalar bit code => exact change_withTimescale p t code (bitValue bit)
  | vector bits code =>
    unfold obey
    dsimp only
    cases decodeBits? bits with
    | none => rfl
    | some v => exact change_withTimescale p t code v
  | openScope | endDefinitions | marker | timestamp | real => rfl

theorem feed_withTimescale (h : BeginsNoSection line) (hp : p.pending = none)
    (t : Option String) :
    (p.withTimescale t).feed line = (p.feed line).map (·.withTimescale t) := by
  have hp' : (p.withTimescale t).pending = none := hp
  cases hc : command? line with
  | some c =>
    rw [feed_of_command? hp' hc, feed_of_command? hp hc, obey_withTimescale t (h.ne_header hc)]
  | none =>
    cases hwhite : isWhiteOnly line with
    | true =>
      rw [feed_of_isWhiteOnly hp' hwhite, feed_of_isWhiteOnly hp hwhite]
      rfl
    | false =>
      rw [feed_of_command?_eq_none hp' hwhite hc, feed_of_command?_eq_none hp hwhite hc]
      rfl

/-- No section is open behind the line. -/
theorem pending_feed (h : BeginsNoSection line) (hp : p.pending = none)
    (hq : p.feed line = .ok q) : q.pending = none := by
  rcases feed_cases hq with ⟨s, hs, -⟩ | ⟨-, -, rfl⟩ | ⟨-, c, hc, hobey⟩
  · rw [hp] at hs
    cases hs
  · exact hp
  · have hpending := isSome_pending_obey hp hobey
    rw [h.opensSection_eq_false hc, Option.isSome_eq_false_iff, Option.isNone_iff_eq_none] at hpending
    exact hpending

/-! ## Reading the parts -/

/-- The text of the last time scale. -/
def lastTimescale (parts : List Part) : Option String :=
  (timescales parts).getLast?.map fun s => String.ofList s.text

theorem lastTimescale_cons (s : FreeText) (parts : List Part) (t : Option String) :
    (lastTimescale (.freeText s :: parts)).or t = (lastTimescale parts).or
      (if s.keyword = "$timescale" then some (String.ofList s.text) else t) := by
  unfold lastTimescale timescales
  by_cases h : s.keyword = "$timescale"
  · have hkept : (Part.freeText s).timescale? = some s := if_pos h
    rw [List.filterMap_cons_some hkept, List.getLast?_cons, if_pos h]
    cases (parts.filterMap Part.timescale?).getLast? <;> rfl
  · have hdropped : (Part.freeText s).timescale? = none := if_neg h
    rw [List.filterMap_cons_none hdropped, if_neg h]

theorem mem_of_mem_timescales {s : FreeText} {parts : List Part} (h : s ∈ timescales parts) :
    .freeText s ∈ parts := by
  obtain ⟨part, hpart, hs⟩ := List.mem_filterMap.1 h
  cases part with
  | line l => cases hs
  | freeText s' =>
    obtain ⟨-, hs'⟩ := Option.ite_none_right_eq_some.1 hs
    cases hs'
    exact hpart

/-- Of the sections, nothing is kept but the text of the last time scale. -/
theorem foldlM_feed_parts {parts : List Part} (h : ∀ part ∈ parts, part.Proper)
    (hp : p.pending = none) (t : Option String) :
    (parts.flatMap Part.lines).foldlM feed (p.withTimescale t) =
      ((plainLines parts).foldlM feed p).map
        (·.withTimescale ((lastTimescale parts).or t)) := by
  induction parts generalizing p t with
  | nil => rfl
  | cons part parts ih =>
    obtain ⟨hpart, hrest⟩ := List.forall_mem_cons.1 h
    rw [List.flatMap_cons, List.foldlM_append]
    cases part with
    | line l =>
      have hplain : plainLines (.line l :: parts) = l :: plainLines parts := rfl
      rw [Part.lines, List.foldlM_cons, feed_withTimescale hpart hp, hplain, List.foldlM_cons]
      cases hq : p.feed l with
      | error fault => rfl
      | ok q => exact ih hrest (pending_feed hpart hp hq) t
    | freeText s =>
      have hread := FreeText.Proper.foldlM_feed hpart (p := p.withTimescale t) hp
      rw [Part.lines, hread, lastTimescale_cons]
      exact ih hrest hp _

theorem finish_withTimescale [CodeOrder] (p : Progress) (t : Option String) :
    (p.withTimescale t).finish = p.finish.map fun dump => { dump with timescale := t } := by
  unfold finish withTimescale
  dsimp only
  cases p.pending with
  | some s => rfl
  | none =>
    dsimp only
    split
    · split <;> rfl
    · rfl

/-- What is read is decided by the lines outside sections and the last time scale. -/
theorem CutInto.outcome [CodeOrder] {parts : List Part} (h : CutInto ls parts) :
    ls.foldlM feed .start >>= finish = ((plainLines parts).foldlM feed .start >>= finish).map
      fun dump => { dump with timescale := lastTimescale parts } := by
  obtain ⟨hproper, rfl⟩ := h
  have hread := foldlM_feed_parts hproper (p := .start) rfl none
  rw [show Progress.start.withTimescale none = .start from rfl, Option.or_none] at hread
  rw [hread]
  cases (plainLines parts).foldlM feed .start with
  | error fault => rfl
  | ok p => exact finish_withTimescale p _

/-! ## Cutting accepted lines -/

theorem word_of_sectionKeyword {keyword : String} (h : keyword ∈ sectionKeywords) :
    Word keyword.toList := by
  have hall : ∀ k ∈ sectionKeywords, Word k.toList := by decide
  exact hall keyword h

/-- Only the keyword of a section stands at the beginning of a line that begins one. -/
theorem openings_section : ∀ i < 10, ∀ w ∈ openings.getD i [], ∀ k ∈ sectionKeywords,
    k.toList <+: w → i = 4 := by
  decide

theorem prefix_opening {keyword : String} {s : List Char} (hkeyword : keyword ∈ sectionKeywords)
    (h : keyword.toList <+: s) : keyword.toList <+: opening s := by
  have hdollar : ∀ k ∈ sectionKeywords, k.toList.head? = some '$' := by decide
  have hblack : ∀ c ∈ keyword.toList, (!isWhite c) = true :=
    fun c hc => by rw [(word_of_sectionKeyword hkeyword).2 c hc]; rfl
  obtain ⟨rest, rfl⟩ := h
  obtain ⟨tail, htail⟩ := List.head?_eq_some_iff.1 (hdollar keyword hkeyword)
  have hopening : opening (keyword.toList ++ rest) =
      (keyword.toList ++ rest).takeWhile (!isWhite ·) := by
    rw [htail, List.cons_append, opening, if_pos rfl]
  rw [hopening, List.takeWhile_append_of_pos hblack]
  exact List.prefix_append _ _

/-- An accepted line that begins with the keyword of a section is the first line of one. -/
theorem exists_header {c : Command} (hc : command? line = some c) (h : ¬BeginsNoSection line) :
    ∃ indent keyword opening, line = indent ++ (keyword.toList ++ opening) ∧
      (∀ ch ∈ indent, isWhite ch = true) ∧ keyword ∈ sectionKeywords ∧
      (∀ ch ∈ opening.head?, isBlank ch = true) ∧
      c = .header keyword.toList (sectionText opening).1 (sectionText opening).2 := by
  simp only [BeginsNoSection, not_forall, not_not] at h
  obtain ⟨k, hk, hprefix⟩ := h
  have hsays := command?_eq_some_iff.1 hc
  have hplace : c.place = 4 :=
    openings_section _ c.place_lt _ hsays.opening_mem k hk (prefix_opening hk hprefix)
  obtain ⟨body, b, hline, hb, hphrase⟩ := hsays
  cases hphrase with
  | @header keyword text body closed hkeyword htext hbody =>
    refine ⟨line.takeWhile isWhite, keyword, text ++ b, ?_,
      List.all_eq_true.1 List.all_takeWhile, hkeyword, fun ch hch => ?_, ?_⟩
    · rw [← List.append_assoc keyword.toList, ← hline]
      exact List.takeWhile_append_dropWhile.symm
    · cases text with
      | nil => exact hb ch (List.mem_of_head? hch)
      | cons d text => exact htext ch hch
    · rw [sectionText_append_white hb.isWhite, sectionText_of_piece hbody]
  | _ => cases hplace

theorem CutInto.cons {parts : List Part} (h : CutInto ls parts) (part : Part)
    (hpart : part.Proper) : CutInto (part.lines ++ ls) (part :: parts) :=
  ⟨List.forall_mem_cons.2 ⟨hpart, h.1⟩, by rw [List.flatMap_cons, h.2]⟩

/-- The first lines are text up to one that closes a section, and parts stand behind it. -/
def ClosedWithin (ls : List (List Char)) : Prop :=
  ∃ before last rest parts, ls = before ++ last :: rest ∧ (∀ t ∈ before, ¬Closing t) ∧
    Closing last ∧ CutInto rest parts

/-- A line of text closes the section, or one behind it does. -/
theorem closedWithin_cons {s : Section} {text : List Char}
    (hclosed : (p.extend s (sectionText text).1 (sectionText text).2).pending = none →
      ∃ parts, CutInto ls parts)
    (hopen : (p.extend s (sectionText text).1 (sectionText text).2).pending ≠ none →
      ClosedWithin ls) :
    ClosedWithin (text :: ls) := by
  by_cases h : Closing text
  · rw [sectionText_closed_iff.2 h] at hclosed
    obtain ⟨parts, hparts⟩ := hclosed rfl
    exact ⟨[], text, ls, parts, rfl, fun _ ht => absurd ht List.not_mem_nil, h, hparts⟩
  · have hgoing : (sectionText text).2 = false :=
      Bool.eq_false_iff.2 fun hclosing => h (sectionText_closed_iff.1 hclosing)
    rw [hgoing] at hopen
    obtain ⟨before, last, rest, parts, rfl, hbefore, hlast, hparts⟩ :=
      hopen (Option.some_ne_none _)
    exact ⟨text :: before, last, rest, parts, rfl, List.forall_mem_cons.2 ⟨h, hbefore⟩, hlast,
      hparts⟩

theorem ClosedWithin.exists_cut {indent opening : List Char} {keyword : String}
    (hindent : ∀ c ∈ indent, isWhite c = true) (hkeyword : keyword ∈ sectionKeywords)
    (hopening : ∀ c ∈ opening.head?, isBlank c = true) (h : ClosedWithin (opening :: ls)) :
    ∃ parts, CutInto ((indent ++ (keyword.toList ++ opening)) :: ls) parts := by
  obtain ⟨before, last, rest, parts, hls, hbefore, hlast, hparts⟩ := h
  cases before with
  | nil =>
    cases hls
    let s : FreeText := ⟨indent, keyword, opening, []⟩
    have hs : s.Proper := ⟨hindent, hkeyword, hopening, [], opening, rfl, hbefore, hlast⟩
    exact ⟨.freeText s :: parts, hparts.cons _ hs⟩
  | cons text before =>
    cases hls
    let s : FreeText := ⟨indent, keyword, opening, before ++ [last]⟩
    have hs : s.Proper :=
      ⟨hindent, hkeyword, hopening, opening :: before, last, rfl, hbefore, hlast⟩
    have hcut := hparts.cons (.freeText s) hs
    refine ⟨.freeText s :: parts, ?_⟩
    rwa [Part.lines, FreeText.lines, List.cons_append, List.append_assoc] at hcut

theorem beginsNoSection_of_isWhiteOnly (h : isWhiteOnly line = true) : BeginsNoSection line := by
  have hne : ∀ k ∈ sectionKeywords, k.toList ≠ [] := by decide
  intro k hk hprefix
  rw [trimStart_eq_nil h, List.prefix_nil] at hprefix
  exact hne k hk hprefix

/-- If lines are accepted and no section is open behind them, they can be cut into parts; if one is
open in front of them, this is possible behind the line that closes it. -/
theorem exists_cut : ∀ {ls : List (List Char)} {p q : Progress}, ls.foldlM feed p = .ok q →
    q.pending = none →
    (p.pending = none → ∃ parts, CutInto ls parts) ∧ (p.pending ≠ none → ClosedWithin ls)
  | [], p, q, h, hq => by
    cases h
    exact ⟨fun _ => ⟨[], fun _ hpart => absurd hpart List.not_mem_nil, rfl⟩,
      fun hp => absurd hq hp⟩
  | line :: ls, p, q, h, hq => by
    rw [List.foldlM_cons] at h
    obtain ⟨p', hline, hrest⟩ := bind_eq_ok_iff.1 h
    obtain ⟨hcut, hclosed⟩ := exists_cut hrest hq
    rcases feed_cases hline with ⟨s, hs, rfl⟩ | ⟨hnone, hwhite, rfl⟩ | ⟨hnone, c, hc, hobey⟩
    · exact ⟨fun hp => (by rw [hs] at hp; cases hp), fun _ => closedWithin_cons hcut hclosed⟩
    · obtain ⟨parts, hparts⟩ := hcut hnone
      exact ⟨fun _ => ⟨_, hparts.cons (.line line) (beginsNoSection_of_isWhiteOnly hwhite)⟩,
        fun hp => absurd hnone hp⟩
    · refine ⟨fun _ => ?_, fun hp => absurd hnone hp⟩
      by_cases hplain : BeginsNoSection line
      · obtain ⟨parts, hparts⟩ := hcut (pending_feed hplain hnone hline)
        exact ⟨_, hparts.cons (.line line) hplain⟩
      · obtain ⟨indent, keyword, opening, rfl, hindent, hkeyword, hopening, rfl⟩ :=
          exists_header hc hplain
        cases hobey
        exact (closedWithin_cons hcut hclosed).exists_cut hindent hkeyword hopening

theorem readLines_eq_ok_iff [CodeOrder] {dump : Dump} :
    readLines ls = .ok dump ↔ ls.foldlM feed .start >>= finish = .ok dump := by
  rw [← mapError_fault_readLines, mapError_eq_ok_iff]

theorem pending_of_finish [CodeOrder] {dump : Dump} (h : p.finish = .ok dump) :
    p.pending = none := by
  unfold finish at h
  split at h
  · cases h
  · assumption

theorem CutInto.readLines_iff [CodeOrder] {parts : List Part} {dump : Dump} (h : CutInto ls parts) :
    readLines ls = .ok dump ↔ ∃ plain, readLines (plainLines parts) = .ok plain ∧
      dump = { plain with timescale := lastTimescale parts } := by
  rw [readLines_eq_ok_iff, h.outcome]
  simp only [readLines_eq_ok_iff]
  cases (plainLines parts).foldlM feed .start >>= finish with
  | error fault => simp [Except.map]
  | ok plain => simp [Except.map, eq_comm]

/-- **Sections end with their closing word, and only the time scale is kept.** The lines of an
accepted text can be cut into sections and other lines. However this is done, the root and the store
are those of all lines that are the same outside sections, whatever the sections hold, and so of
these lines alone. There is a time scale exactly if there is a time scale section; its words are
those of the last one between the keyword and the closing keyword, and it has no white space around
it. -/
theorem sections_of_read [CodeOrder] {text : List Char} {dump : Dump} (h : read text = .ok dump) :
    (∃ parts, CutInto (lines text) parts) ∧
    ∀ parts, CutInto (lines text) parts →
      (∀ ls parts', CutInto ls parts' → plainLines parts' = plainLines parts →
        ∃ dump', readLines ls = .ok dump' ∧ dump'.root = dump.root ∧ dump'.store = dump.store) ∧
      dump.timescale.map (fun t => words t.toList) =
        (timescales parts).getLast?.map FreeText.words ∧
      ∀ t ∈ dump.timescale, Trimmed t.toList := by
  constructor
  · obtain ⟨p, hrun, hfinish⟩ := bind_eq_ok_iff.1 (readLines_eq_ok_iff.1 h)
    exact (exists_cut hrun (pending_of_finish hfinish)).1 rfl
  · intro parts hparts
    obtain ⟨plain, hplain, rfl⟩ := hparts.readLines_iff.1 h
    refine ⟨fun ls parts' hcut hsame => ?_, ?_, fun t ht => ?_⟩
    · rw [← hsame] at hplain
      exact ⟨_, hcut.readLines_iff.2 ⟨plain, hplain, rfl⟩, rfl, rfl⟩
    · show (lastTimescale parts).map (fun t => words t.toList) = _
      unfold lastTimescale
      cases hlast : (timescales parts).getLast? with
      | none => rfl
      | some s =>
        have hs : s.Proper :=
          hparts.1 _ (mem_of_mem_timescales (List.mem_of_getLast? hlast))
        simp only [Option.map_some, String.toList_ofList, FreeText.words_text hs]
    · obtain ⟨s, -, rfl⟩ := Option.map_eq_some_iff.1 ht
      rw [String.toList_ofList]
      exact s.trimmed_text

/-- A section with a command in it and the closing keyword inside a line and inside a word, and two
time scales. -/
def sheltered : List Char :=
  ofLines ["$date $scope module X $end today", "1!", "text$end", "\u3000$end\u00a0",
    "$timescale 1 s $end", "$scope module TOP $end", "\t$timescale", "1 $end x", "", " ns\t$end ",
    "$upscope $end"]

def shelteredParts : List Part :=
  [.freeText ⟨[], "$date", " $scope module X $end today".toList,
      ["1!".toList, "text$end".toList, "\u3000$end\u00a0".toList]⟩,
    .freeText ⟨[], "$timescale", " 1 s $end".toList, []⟩,
    .line "$scope module TOP $end".toList,
    .freeText ⟨['\t'], "$timescale", [], ["1 $end x".toList, [], " ns\t$end ".toList]⟩,
    .line "$upscope $end".toList]

/-- The same lines outside sections, with another section among them. -/
def otherParts : List Part :=
  [.line "$scope module TOP $end".toList,
    .freeText ⟨[], "$comment", [], ["$upscope $end of nothing".toList, "$end".toList]⟩,
    .line "$upscope $end".toList]

theorem cutInto_sheltered : CutInto (lines sheltered) shelteredParts := by
  have hscope : BeginsNoSection "$scope module TOP $end".toList := by decide
  have hupscope : BeginsNoSection "$upscope $end".toList := by decide
  have hnone : Indent [] := by decide
  have htab : Indent ['\t'] := by decide
  refine ⟨?_, by decide +kernel⟩
  simp only [shelteredParts, List.forall_mem_cons]
  refine ⟨?date, ?seconds, hscope, ?nanoseconds, hupscope, List.forall_mem_nil _⟩
  case date =>
    exact ⟨hnone.isWhite, by decide, fun c hc => (by cases hc; rfl), [_, _, _], _, rfl, by decide,
      by decide⟩
  case seconds =>
    exact ⟨hnone.isWhite, by decide, fun c hc => (by cases hc; rfl), [], _, rfl, by decide,
      by decide⟩
  case nanoseconds =>
    exact ⟨htab.isWhite, by decide, fun c hc => (by cases hc), [_, _, _], _, rfl, by decide,
      by decide⟩

theorem cutInto_other : CutInto (otherParts.flatMap Part.lines) otherParts := by
  have hscope : BeginsNoSection "$scope module TOP $end".toList := by decide
  have hupscope : BeginsNoSection "$upscope $end".toList := by decide
  have hnone : Indent [] := by decide
  refine ⟨?_, rfl⟩
  simp only [otherParts, List.forall_mem_cons]
  exact ⟨hscope, ⟨hnone.isWhite, by decide, fun c hc => (by cases hc), [_, _], _, rfl, by decide,
    by decide⟩, hupscope, List.forall_mem_nil _⟩

/-- The time scale is the second one, and the other section hides nothing but itself. -/
theorem sections_of_read_sheltered : ∃ dump, read sheltered = .ok dump ∧
    CutInto (lines sheltered) shelteredParts ∧
    CutInto (otherParts.flatMap Part.lines) otherParts ∧
    plainLines otherParts = plainLines shelteredParts ∧
    dump.timescale.map (fun t => words t.toList) =
      some ["1".toList, "$end".toList, "x".toList, "ns".toList] ∧
    ∃ dump', readLines (otherParts.flatMap Part.lines) = .ok dump' ∧ dump'.root = dump.root ∧
      dump'.store = dump.store := by
  have haccepted : (read sheltered).toOption.isSome = true := by decide +kernel
  obtain ⟨dump, hsome⟩ := Option.isSome_iff_exists.1 haccepted
  have hread := toOption_eq_some_iff.1 hsome
  obtain ⟨hsame, htimescale, -⟩ := (sections_of_read hread).2 _ cutInto_sheltered
  refine ⟨dump, hread, cutInto_sheltered, cutInto_other, rfl, ?_,
    hsame _ _ cutInto_other rfl⟩
  rw [htimescale]
  decide +kernel

end TraceMining.Waveform
