import TraceMining.Proofs.Waveform.Parts

/-!
# The language of lines

What a line may look like, and what it then says, is told by the phrases (`Phrase`), each a row of
pieces that follow each other without anything between them. A line is accepted if it is a phrase
with white space in front of it and blanks behind it, so nothing of it is left over.

The alternatives that read a line need not be tried in order. Each of them reads lines that begin
in a few ways (`openings`), and no two of them read lines that begin alike: a keyword is followed by
white space or the end, so that `$end` is not taken for the beginning of `$enddefinitions`, and only
keywords begin with a dollar sign. So at most one alternative accepts a line (`command_exact`).
-/

namespace TraceMining.Waveform

open Text

variable {s b line : List Char} {c : Command}

/-! ## Phrases -/

/-- What a text in a section comes to: `body`, and whether it closes the section. It does if its
last word is the closing keyword, and the body is what stands in front of that, without the white
space around it. -/
inductive Piece (text : List Char) : List Char → Bool → Prop
  | closing {front back : List Char} (htext : text = front ++ ("$end".toList ++ back))
      (hfront : ∀ c ∈ front.getLast?, isWhite c = true) (hback : ∀ c ∈ back, isWhite c = true) :
    Piece text (trim front) true
  | going (h : ∀ front back, text = front ++ ("$end".toList ++ back) →
      (∀ c ∈ back, isWhite c = true) → ∃ c ∈ front.getLast?, isWhite c = false) :
    Piece text (trim text) false

/-- The ten kinds of lines, without the white space in front of them and the blanks behind them,
and what they say. -/
inductive Phrase : List Char → Command → Prop
  | openScope {kind : String} {g₁ g₂ g₃ name : List Char}
      (hkind : kind ∈ ["module", "begin", "fork", "function", "task"])
      (h₁ : Gap g₁) (h₂ : Gap g₂) (hname : Word name) (h₃ : Gap g₃) :
    Phrase ("$scope".toList ++ (g₁ ++ (kind.toList ++ (g₂ ++ (name ++ (g₃ ++ "$end".toList))))))
      (.openScope kind.toList name)
  | closeScope {g : List Char} (h : Gap g) :
    Phrase ("$upscope".toList ++ (g ++ "$end".toList)) .closeScope
  | declare {type ds code name more g₁ g₂ g₃ g₄ g₅ : List Char} (h₁ : Gap g₁) (htype : Word type)
      (h₂ : Gap g₂) (hds : Digits ds) (hwidth : value ds < halfWordLimit) (h₃ : Gap g₃)
      (hcode : Word code) (h₄ : Gap g₄) (hname : Word name) (hmore : Words more) (h₅ : Gap g₅) :
    Phrase ("$var".toList ++ (g₁ ++ (type ++ (g₂ ++ (ds ++ (g₃ ++ (code ++ (g₄ ++ (name ++
      (more ++ (g₅ ++ "$end".toList))))))))))) (.declare (value ds) code name)
  | endDefinitions {g : List Char} (h : Gap g) :
    Phrase ("$enddefinitions".toList ++ (g ++ "$end".toList)) .endDefinitions
  | header {keyword : String} {text body : List Char} {closed : Bool}
      (hkeyword : keyword ∈ ["$date", "$version", "$timescale", "$comment"])
      (htext : ∀ c ∈ text.head?, isBlank c = true) (hbody : Piece text body closed) :
    Phrase (keyword.toList ++ text) (.header keyword.toList body closed)
  | marker {keyword : String}
      (hkeyword : keyword ∈ ["$dumpvars", "$dumpall", "$dumpon", "$dumpoff", "$end"]) :
    Phrase keyword.toList .marker
  | markerClosed {keyword : String} {g : List Char}
      (hkeyword : keyword ∈ ["$dumpvars", "$dumpall", "$dumpon", "$dumpoff", "$end"]) (h : Gap g) :
    Phrase (keyword.toList ++ (g ++ "$end".toList)) .marker
  | timestamp {ds : List Char} (hds : Digits ds) (htime : value ds < wordLimit) :
    Phrase ('#' :: ds) (.timestamp (value ds))
  | vector {sign : Char} {bits g code : List Char} (hsign : sign = 'b' ∨ sign = 'B')
      (hne : bits ≠ []) (hbits : ∀ c ∈ bits, c ∈ ['0', '1', 'x', 'X', 'z', 'Z']) (h : Gap g)
      (hcode : Word code) :
    Phrase (sign :: (bits ++ (g ++ code))) (.vector bits code)
  | real {sign : Char} {number g code : List Char} (hsign : sign = 'r' ∨ sign = 'R')
      (hnumber : Word number) (h : Gap g) (hcode : Word code) :
    Phrase (sign :: (number ++ (g ++ code))) (.real code)
  | scalar {bit : Char} {code : List Char} (hbit : bit ∈ ['0', '1', 'x', 'X', 'z', 'Z'])
      (hcode : Word code) :
    Phrase (bit :: code) (.scalar bit code)

/-- The line is a phrase with blanks behind it. -/
def Says (s : List Char) (c : Command) : Prop := ∃ body b, s = body ++ b ∧ Blanks b ∧ Phrase body c

/-! ## Texts in sections -/

theorem trim_append_white {w : List Char} (hw : ∀ c ∈ w, isWhite c = true) (s : List Char) :
    trim (s ++ w) = trim s := by
  unfold trim trimStart
  rw [List.dropWhile_append]
  split
  · rename_i hnil
    rw [List.isEmpty_iff.1 hnil, dropWhile_eq_nil_of_forall hw]
  · exact trimEnd_append_white hw _

theorem sectionText_of_piece {text body : List Char} {closed : Bool} (h : Piece text body closed) :
    sectionText text = (body, closed) := by
  cases h with
  | @closing front back htext hfront hback =>
    have hend : trimEnd text = front ++ "$end".toList := by
      rw [htext, ← List.append_assoc, trimEnd_append_white hback]
      exact trimEnd_append_of_ne_nil (by decide) front
    rw [sectionText_of_suffix hend, if_pos]
    cases hlast : front.getLast? with
    | none => rfl
    | some c => exact hfront c hlast
  | going h =>
    obtain ⟨back, htext, hback⟩ := eq_append_trimEnd text
    have htrim := trim_append_white hback (trimEnd text)
    rw [← htext] at htrim
    by_cases hsuffix : "$end".toList <:+ trimEnd text
    · obtain ⟨front, hfront⟩ := hsuffix
      have hsplit : text = front ++ ("$end".toList ++ back) := by
        rw [← List.append_assoc, hfront]
        exact htext
      obtain ⟨c, hc, hblack⟩ := h front back hsplit hback
      rw [sectionText_of_suffix hfront.symm, hc, hfront, htrim]
      simp [hblack]
    · rw [sectionText_of_not_suffix hsuffix, htrim]

theorem exists_piece (text : List Char) : ∃ body closed, Piece text body closed := by
  by_cases h : ∃ front back, text = front ++ ("$end".toList ++ back) ∧
      (∀ c ∈ front.getLast?, isWhite c = true) ∧ ∀ c ∈ back, isWhite c = true
  · obtain ⟨front, back, htext, hfront, hback⟩ := h
    exact ⟨_, _, .closing htext hfront hback⟩
  · refine ⟨_, _, .going fun front back htext hback => ?_⟩
    refine Classical.byContradiction fun hnone => h ⟨front, back, htext, fun c hc => ?_, hback⟩
    cases hwhite : isWhite c with
    | true => rfl
    | false => exact absurd ⟨c, hc, hwhite⟩ hnone

theorem piece_iff {text body : List Char} {closed : Bool} :
    sectionText text = (body, closed) ↔ Piece text body closed := by
  refine ⟨fun h => ?_, sectionText_of_piece⟩
  obtain ⟨body', closed', hpiece⟩ := exists_piece text
  rw [sectionText_of_piece hpiece] at h
  cases h
  exact hpiece

/-! ## What the alternatives accept -/

/-- The place of the alternative that reads the command. -/
def Command.place : Command → Nat
  | .openScope .. => 0
  | .closeScope => 1
  | .declare .. => 2
  | .endDefinitions => 3
  | .header .. => 4
  | .marker => 5
  | .timestamp _ => 6
  | .vector .. => 7
  | .real _ => 8
  | .scalar .. => 9

theorem says_of_openScope? (h : openScope? s = some c) : Says s c ∧ c.place = 0 := by
  unfold openScope? at h
  obtain ⟨r, hscope, h⟩ := Option.bind_eq_some_iff.1 h
  obtain ⟨r, hblanks, h⟩ := Option.bind_eq_some_iff.1 h
  obtain ⟨⟨kind, r⟩, hkind, h⟩ := Option.bind_eq_some_iff.1 h
  obtain ⟨⟨name, r⟩, hname, h⟩ := Option.bind_eq_some_iff.1 h
  obtain ⟨hcloses, h⟩ := Option.ite_none_right_eq_some.1 h
  cases h
  obtain rfl := after?_eq_some_iff.1 hscope
  obtain ⟨g₁, rfl, h₁, -⟩ := blanks?_eq_some_iff.1 hblanks
  obtain ⟨kind, hmem, rfl, rfl⟩ := (keyword?_eq_some_iff (by decide)).1 hkind
  obtain ⟨g₂, rfl, h₂, hw, -⟩ := argument?_eq_some_iff.1 hname
  obtain ⟨g₃, b, rfl, h₃, hb⟩ := closes_iff.1 hcloses
  exact ⟨⟨_, b, by simp, hb, .openScope hmem h₁ h₂ hw h₃⟩, rfl⟩

theorem says_of_closeScope? (h : closeScope? s = some c) : Says s c ∧ c.place = 1 := by
  unfold closeScope? at h
  obtain ⟨r, hupscope, h⟩ := Option.bind_eq_some_iff.1 h
  obtain ⟨hcloses, h⟩ := Option.ite_none_right_eq_some.1 h
  cases h
  obtain rfl := after?_eq_some_iff.1 hupscope
  obtain ⟨g, b, rfl, hg, hb⟩ := closes_iff.1 hcloses
  exact ⟨⟨_, b, by simp, hb, .closeScope hg⟩, rfl⟩

theorem says_of_declare? (h : declare? s = some c) : Says s c ∧ c.place = 2 := by
  unfold declare? at h
  obtain ⟨r, hvar, h⟩ := Option.bind_eq_some_iff.1 h
  obtain ⟨⟨type, r⟩, htype, h⟩ := Option.bind_eq_some_iff.1 h
  obtain ⟨r, hblanks, h⟩ := Option.bind_eq_some_iff.1 h
  obtain ⟨⟨width, r⟩, hwidth, h⟩ := Option.bind_eq_some_iff.1 h
  obtain ⟨⟨code, r⟩, hcode, h⟩ := Option.bind_eq_some_iff.1 h
  obtain ⟨⟨name, r⟩, hname, h⟩ := Option.bind_eq_some_iff.1 h
  obtain ⟨hmore, h⟩ := Option.ite_none_right_eq_some.1 h
  cases h
  obtain rfl := after?_eq_some_iff.1 hvar
  obtain ⟨g₁, rfl, h₁, wtype, -⟩ := argument?_eq_some_iff.1 htype
  obtain ⟨g₂, rfl, h₂, -⟩ := blanks?_eq_some_iff.1 hblanks
  obtain ⟨ds, rfl, hds, rfl, hlt, -⟩ := number?_eq_some_iff.1 hwidth
  obtain ⟨g₃, rfl, h₃, wcode, -⟩ := argument?_eq_some_iff.1 hcode
  obtain ⟨g₄, rfl, h₄, wname, -⟩ := argument?_eq_some_iff.1 hname
  obtain ⟨more, r, rfl, wmore, hcloses⟩ := closesAfterWords_iff.1 hmore
  obtain ⟨g₅, b, rfl, h₅, hb⟩ := closes_iff.1 hcloses
  exact ⟨⟨_, b, by simp, hb, .declare h₁ wtype h₂ hds hlt h₃ wcode h₄ wname wmore h₅⟩, rfl⟩

theorem says_of_endDefinitions? (h : endDefinitions? s = some c) : Says s c ∧ c.place = 3 := by
  unfold endDefinitions? at h
  obtain ⟨r, hkeyword, h⟩ := Option.bind_eq_some_iff.1 h
  obtain ⟨hcloses, h⟩ := Option.ite_none_right_eq_some.1 h
  cases h
  obtain rfl := after?_eq_some_iff.1 hkeyword
  obtain ⟨g, b, rfl, hg, hb⟩ := closes_iff.1 hcloses
  exact ⟨⟨_, b, by simp, hb, .endDefinitions hg⟩, rfl⟩

theorem says_of_header? (h : header? s = some c) : Says s c ∧ c.place = 4 := by
  unfold header? at h
  obtain ⟨⟨keyword, r⟩, hkeyword, htext⟩ := Option.bind_eq_some_iff.1 h
  obtain ⟨keyword, hmem, rfl, rfl⟩ := (keyword?_eq_some_iff (by decide)).1 hkeyword
  dsimp only at htext
  split at htext
  · rename_i hnil
    obtain rfl := List.isEmpty_iff.1 hnil
    cases htext
    refine ⟨⟨_, [], (List.append_nil _).symm, .nil, .header hmem ?_ (piece_iff.1 rfl)⟩, rfl⟩
    exact fun c hc => absurd hc (Option.not_mem_none c)
  · obtain ⟨text, hblanks, hsome⟩ := Option.bind_eq_some_iff.1 htext
    obtain ⟨g, rfl, hg, -⟩ := blanks?_eq_some_iff.1 hblanks
    cases hsome
    have hpiece := sectionText_white_append hg.2.isWhite text
    refine ⟨⟨_, [], (List.append_nil _).symm, .nil, .header hmem ?_ (piece_iff.1 hpiece)⟩, rfl⟩
    obtain ⟨d, g, rfl⟩ := List.exists_cons_of_ne_nil hg.1
    exact fun c hc => by cases hc; exact hg.2 d List.mem_cons_self

theorem says_of_marker? (h : marker? s = some c) : Says s c ∧ c.place = 5 := by
  unfold marker? at h
  obtain ⟨⟨keyword, r⟩, hkeyword, h⟩ := Option.bind_eq_some_iff.1 h
  obtain ⟨hend, h⟩ := Option.ite_none_right_eq_some.1 h
  cases h
  obtain ⟨keyword, hmem, rfl, rfl⟩ := (keyword?_eq_some_iff (by decide)).1 hkeyword
  rcases Bool.or_eq_true_iff.1 hend with hcloses | hblanks
  · obtain ⟨g, b, rfl, hg, hb⟩ := closes_iff.1 hcloses
    exact ⟨⟨_, b, by simp, hb, .markerClosed hmem hg⟩, rfl⟩
  · exact ⟨⟨_, r, rfl, endsHere_iff.1 hblanks, .marker hmem⟩, rfl⟩

theorem says_of_timestamp? (h : timestamp? s = some c) : Says s c ∧ c.place = 6 := by
  unfold timestamp? at h
  split at h
  · rename_i r
    obtain ⟨⟨time, r⟩, htime, h⟩ := Option.bind_eq_some_iff.1 h
    obtain ⟨hend, h⟩ := Option.ite_none_right_eq_some.1 h
    cases h
    obtain ⟨ds, rfl, hds, rfl, hlt, -⟩ := number?_eq_some_iff.1 htime
    exact ⟨⟨_, r, rfl, endsHere_iff.1 hend, .timestamp hds hlt⟩, rfl⟩
  · cases h

theorem isBit_iff {bit : Char} : isBit bit = true ↔ bit ∈ ['0', '1', 'x', 'X', 'z', 'Z'] :=
  decide_eq_true_iff

theorem says_of_vector? (h : vector? s = some c) : Says s c ∧ c.place = 7 := by
  cases s with
  | nil => cases h
  | cons sign s =>
    unfold vector? at h
    dsimp only at h
    obtain ⟨hhead, h⟩ := Option.ite_none_right_eq_some.1 h
    obtain ⟨⟨code, r⟩, hcode, h⟩ := Option.bind_eq_some_iff.1 h
    obtain ⟨hend, h⟩ := Option.ite_none_right_eq_some.1 h
    cases h
    obtain ⟨g, hrest, hg, wcode, -⟩ := argument?_eq_some_iff.1 hcode
    obtain ⟨hs, hbits, -⟩ := run_iff.1 ⟨rfl, hrest⟩
    obtain ⟨hsign, hne⟩ : (sign = 'b' ∨ sign = 'B') ∧ s.takeWhile isBit ≠ [] := by
      simpa using hhead
    refine ⟨⟨_, r, ?_, endsHere_iff.1 hend,
      .vector hsign hne (fun c hc => isBit_iff.1 (hbits c hc)) hg wcode⟩, rfl⟩
    rw [List.cons_append, List.append_assoc, List.append_assoc, ← hs]

theorem says_of_real? (h : real? s = some c) : Says s c ∧ c.place = 8 := by
  cases s with
  | nil => cases h
  | cons sign s =>
    unfold real? at h
    obtain ⟨hsign, h⟩ := Option.ite_none_right_eq_some.1 h
    obtain ⟨⟨number, r⟩, hnumber, h⟩ := Option.bind_eq_some_iff.1 h
    obtain ⟨⟨code, r⟩, hcode, h⟩ := Option.bind_eq_some_iff.1 h
    obtain ⟨hend, h⟩ := Option.ite_none_right_eq_some.1 h
    cases h
    obtain ⟨rfl, wnumber, -⟩ := word?_eq_some_iff.1 hnumber
    obtain ⟨g, rfl, hg, wcode, -⟩ := argument?_eq_some_iff.1 hcode
    have hsign : sign = 'r' ∨ sign = 'R' := by simpa using hsign
    exact ⟨⟨_, r, by simp, endsHere_iff.1 hend, .real hsign wnumber hg wcode⟩, rfl⟩

theorem says_of_scalar? (h : scalar? s = some c) : Says s c ∧ c.place = 9 := by
  cases s with
  | nil => cases h
  | cons bit s =>
    unfold scalar? at h
    obtain ⟨hbit, h⟩ := Option.ite_none_right_eq_some.1 h
    obtain ⟨⟨code, r⟩, hcode, h⟩ := Option.bind_eq_some_iff.1 h
    obtain ⟨hend, h⟩ := Option.ite_none_right_eq_some.1 h
    cases h
    obtain ⟨rfl, wcode, -⟩ := word?_eq_some_iff.1 hcode
    exact ⟨⟨_, r, rfl, endsHere_iff.1 hend, .scalar (isBit_iff.1 hbit) wcode⟩, rfl⟩

theorem says_of_mem_zipIdx_alternatives :
    ∀ f ∈ alternatives.zipIdx, f.1 s = some c → Says s c ∧ c.place = f.2 := by
  simp only [alternatives, List.zipIdx_cons, List.zipIdx_nil, List.forall_mem_cons]
  exact ⟨says_of_openScope?, says_of_closeScope?, says_of_declare?, says_of_endDefinitions?,
    says_of_header?, says_of_marker?, says_of_timestamp?, says_of_vector?, says_of_real?,
    says_of_scalar?, List.forall_mem_nil _⟩

theorem says_of_getElem_alternatives {i : Nat} (hi : i < alternatives.length)
    (h : alternatives[i] s = some c) : Says s c ∧ c.place = i :=
  says_of_mem_zipIdx_alternatives (alternatives[i], i)
    (List.mk_mem_zipIdx_iff_getElem?.2 (List.getElem?_eq_getElem hi)) h

/-! ## Every phrase is accepted -/

theorem closes_gap {g : List Char} (hg : Gap g) : closes (g ++ "$end".toList) = true :=
  closes_iff.2 ⟨g, [], by rw [List.append_nil], hg, .nil⟩

section

variable {keyword : String} {g g₁ g₂ g₃ g₄ g₅ name code type ds more : List Char}

theorem openScope?_phrase {kind : String}
    (hkind : kind ∈ ["module", "begin", "fork", "function", "task"]) (h₁ : Gap g₁) (h₂ : Gap g₂)
    (hname : Word name) (h₃ : Gap g₃) :
    openScope? ("$scope".toList ++ (g₁ ++ (kind.toList ++ (g₂ ++ (name ++ (g₃ ++ "$end".toList))))))
      = some (.openScope kind.toList name) := by
  have hkinds : ∀ kind ∈ ["module", "begin", "fork", "function", "task"], Word kind.toList := by
    decide
  unfold openScope?
  refine Option.bind_eq_some_iff.2 ⟨_, after?_eq_some_iff.2 rfl, ?_⟩
  refine Option.bind_eq_some_iff.2
    ⟨_, blanks?_eq_some_iff.2 ⟨g₁, rfl, h₁, (hkinds kind hkind).head _⟩, ?_⟩
  refine Option.bind_eq_some_iff.2
    ⟨_, (keyword?_eq_some_iff (by decide)).2 ⟨kind, hkind, rfl, rfl⟩, ?_⟩
  refine Option.bind_eq_some_iff.2
    ⟨_, argument?_eq_some_iff.2 ⟨g₂, rfl, h₂, hname, h₃.endsWord _⟩, ?_⟩
  exact if_pos (closes_gap h₃)

theorem closeScope?_phrase (hg : Gap g) :
    closeScope? ("$upscope".toList ++ (g ++ "$end".toList)) = some .closeScope := by
  unfold closeScope?
  exact Option.bind_eq_some_iff.2 ⟨_, after?_eq_some_iff.2 rfl, if_pos (closes_gap hg)⟩

theorem declare?_phrase (h₁ : Gap g₁) (htype : Word type) (h₂ : Gap g₂) (hds : Digits ds)
    (hwidth : value ds < halfWordLimit) (h₃ : Gap g₃) (hcode : Word code) (h₄ : Gap g₄)
    (hname : Word name) (hmore : Words more) (h₅ : Gap g₅) :
    declare? ("$var".toList ++ (g₁ ++ (type ++ (g₂ ++ (ds ++ (g₃ ++ (code ++ (g₄ ++ (name ++
      (more ++ (g₅ ++ "$end".toList))))))))))) = some (.declare (value ds) code name) := by
  unfold declare?
  refine Option.bind_eq_some_iff.2 ⟨_, after?_eq_some_iff.2 rfl, ?_⟩
  refine Option.bind_eq_some_iff.2
    ⟨_, argument?_eq_some_iff.2 ⟨g₁, rfl, h₁, htype, h₂.endsWord _⟩, ?_⟩
  refine Option.bind_eq_some_iff.2
    ⟨_, blanks?_eq_some_iff.2 ⟨g₂, rfl, h₂, hds.word.head _⟩, ?_⟩
  refine Option.bind_eq_some_iff.2 ⟨_, number?_eq_some_iff.2 ⟨ds, rfl, hds, rfl, hwidth,
    fun c hc => isDigit_of_isBlank (h₃.head _ c hc)⟩, ?_⟩
  refine Option.bind_eq_some_iff.2
    ⟨_, argument?_eq_some_iff.2 ⟨g₃, rfl, h₃, hcode, h₄.endsWord _⟩, ?_⟩
  refine Option.bind_eq_some_iff.2
    ⟨_, argument?_eq_some_iff.2 ⟨g₄, rfl, h₄, hname, hmore.endsWord (h₅.endsWord _)⟩, ?_⟩
  exact if_pos (closesAfterWords_iff.2 ⟨more, _, rfl, hmore, closes_gap h₅⟩)

theorem endDefinitions?_phrase (hg : Gap g) :
    endDefinitions? ("$enddefinitions".toList ++ (g ++ "$end".toList)) = some .endDefinitions := by
  unfold endDefinitions?
  exact Option.bind_eq_some_iff.2 ⟨_, after?_eq_some_iff.2 rfl, if_pos (closes_gap hg)⟩

theorem header?_phrase {text body : List Char} {closed : Bool}
    (hkeyword : keyword ∈ ["$date", "$version", "$timescale", "$comment"])
    (htext : ∀ c ∈ text.head?, isBlank c = true) (hbody : Piece text body closed) :
    header? (keyword.toList ++ text) = some (.header keyword.toList body closed) := by
  have hread := sectionText_of_piece hbody
  unfold header?
  refine Option.bind_eq_some_iff.2
    ⟨_, (keyword?_eq_some_iff (by decide)).2 ⟨keyword, hkeyword, rfl, rfl⟩, ?_⟩
  cases text with
  | nil => simp [hread]
  | cons d text =>
    have hblank : isBlank d = true := htext d rfl
    -- the blanks that are skipped are no part of the piece
    have hskip : sectionText (text.dropWhile isBlank) = (body, closed) := by
      have hgap : Blanks (d :: text.takeWhile isBlank) :=
        List.forall_mem_cons.2 ⟨hblank, List.all_eq_true.1 List.all_takeWhile⟩
      have hfront := sectionText_white_append hgap.isWhite (text.dropWhile isBlank)
      rw [List.cons_append, List.takeWhile_append_dropWhile, hread] at hfront
      exact hfront.symm
    simp [blanks?, hblank, hskip]

theorem marker?_phrase {rest : List Char}
    (hkeyword : keyword ∈ ["$dumpvars", "$dumpall", "$dumpon", "$dumpoff", "$end"])
    (hrest : (closes rest || endsHere rest) = true) :
    marker? (keyword.toList ++ rest) = some .marker := by
  unfold marker?
  exact Option.bind_eq_some_iff.2
    ⟨_, (keyword?_eq_some_iff (by decide)).2 ⟨keyword, hkeyword, rfl, rfl⟩, if_pos hrest⟩

theorem timestamp?_phrase (hds : Digits ds) (htime : value ds < wordLimit) :
    timestamp? ('#' :: ds) = some (.timestamp (value ds)) := by
  have hread : number? wordLimit ds = some (value ds, []) := by
    refine number?_eq_some_iff.2 ⟨ds, (List.append_nil ds).symm, hds, rfl, htime, fun c hc => ?_⟩
    exact absurd hc (Option.not_mem_none c)
  unfold timestamp?
  exact Option.bind_eq_some_iff.2 ⟨_, hread, rfl⟩

theorem argument?_end (hg : Gap g) (hcode : Word code) :
    argument? (g ++ code) = some (code, []) :=
  argument?_eq_some_iff.2 ⟨g, by rw [List.append_nil], hg, hcode, .of_blanks .nil⟩

theorem vector?_phrase {sign : Char} {bits : List Char} (hsign : sign = 'b' ∨ sign = 'B')
    (hne : bits ≠ []) (hbits : ∀ c ∈ bits, c ∈ ['0', '1', 'x', 'X', 'z', 'Z']) (hg : Gap g)
    (hcode : Word code) :
    vector? (sign :: (bits ++ (g ++ code))) = some (.vector bits code) := by
  obtain ⟨htake, hdrop⟩ := run_iff.2 ⟨rfl, fun c hc => isBit_iff.2 (hbits c hc),
    fun c hc => isBit_of_isBlank (hg.head code c hc)⟩
  have hhead : ((sign == 'b' || sign == 'B') && !bits.isEmpty) = true := by simp [hsign, hne]
  unfold vector?
  dsimp only
  rw [htake, hdrop]
  refine Option.ite_none_right_eq_some.2 ⟨hhead, ?_⟩
  exact Option.bind_eq_some_iff.2 ⟨_, argument?_end hg hcode, rfl⟩

theorem real?_phrase {sign : Char} {number : List Char} (hsign : sign = 'r' ∨ sign = 'R')
    (hnumber : Word number) (hg : Gap g) (hcode : Word code) :
    real? (sign :: (number ++ (g ++ code))) = some (.real code) := by
  unfold real?
  refine Option.ite_none_right_eq_some.2 ⟨by simpa using hsign, ?_⟩
  refine Option.bind_eq_some_iff.2 ⟨_, word?_eq_some_iff.2 ⟨rfl, hnumber, hg.endsWord code⟩, ?_⟩
  exact Option.bind_eq_some_iff.2 ⟨_, argument?_end hg hcode, rfl⟩

theorem scalar?_phrase {bit : Char} (hbit : bit ∈ ['0', '1', 'x', 'X', 'z', 'Z'])
    (hcode : Word code) : scalar? (bit :: code) = some (.scalar bit code) := by
  have hread : word? code = some (code, []) :=
    word?_eq_some_iff.2 ⟨(List.append_nil code).symm, hcode, .of_blanks .nil⟩
  unfold scalar?
  refine Option.ite_none_right_eq_some.2 ⟨isBit_iff.2 hbit, ?_⟩
  exact Option.bind_eq_some_iff.2 ⟨_, hread, rfl⟩

end

/-- Some alternative reads the phrase. -/
theorem Phrase.exists_alternative (h : Phrase s c) : ∃ f ∈ alternatives, f s = some c := by
  cases h with
  | openScope hkind h₁ h₂ hname h₃ =>
    exact ⟨openScope?, by simp [alternatives], openScope?_phrase hkind h₁ h₂ hname h₃⟩
  | closeScope hg => exact ⟨closeScope?, by simp [alternatives], closeScope?_phrase hg⟩
  | declare h₁ htype h₂ hds hwidth h₃ hcode h₄ hname hmore h₅ =>
    exact ⟨declare?, by simp [alternatives],
      declare?_phrase h₁ htype h₂ hds hwidth h₃ hcode h₄ hname hmore h₅⟩
  | endDefinitions hg => exact ⟨endDefinitions?, by simp [alternatives], endDefinitions?_phrase hg⟩
  | header hkeyword htext hbody =>
    exact ⟨header?, by simp [alternatives], header?_phrase hkeyword htext hbody⟩
  | @marker keyword hkeyword =>
    refine ⟨marker?, by simp [alternatives], ?_⟩
    rw [← List.append_nil keyword.toList]
    exact marker?_phrase hkeyword rfl
  | markerClosed hkeyword hg =>
    exact ⟨marker?, by simp [alternatives],
      marker?_phrase hkeyword (Bool.or_eq_true_iff.2 (.inl (closes_gap hg)))⟩
  | timestamp hds htime => exact ⟨timestamp?, by simp [alternatives], timestamp?_phrase hds htime⟩
  | vector hsign hne hbits hg hcode =>
    exact ⟨vector?, by simp [alternatives], vector?_phrase hsign hne hbits hg hcode⟩
  | real hsign hnumber hg hcode =>
    exact ⟨real?, by simp [alternatives], real?_phrase hsign hnumber hg hcode⟩
  | scalar hbit hcode => exact ⟨scalar?, by simp [alternatives], scalar?_phrase hbit hcode⟩

theorem Says.exists_alternative (h : Says s c) : ∃ f ∈ alternatives, f s = some c := by
  obtain ⟨body, b, rfl, hb, hphrase⟩ := h
  obtain ⟨f, hf, hread⟩ := hphrase.exists_alternative
  exact ⟨f, hf, (ignoresBlanks_of_mem_alternatives f hf body b hb).trans hread⟩

/-! ## No phrase is accepted twice -/

/-- How the lines begin that an alternative reads, for each of them. -/
def openings : List (List (List Char)) :=
  [["$scope"], ["$upscope"], ["$var"], ["$enddefinitions"],
    ["$date", "$version", "$timescale", "$comment"],
    ["$dumpvars", "$dumpall", "$dumpon", "$dumpoff", "$end"], ["#"], ["b", "B"], ["r", "R"],
    ["0", "1", "x", "X", "z", "Z"]].map (·.map String.toList)

/-- How a text begins: with a whole word if that is a keyword, else with a character. -/
def opening : List Char → List Char
  | [] => []
  | c :: s => if c = '$' then (c :: s).takeWhile (!isWhite ·) else [c]

theorem head?_opening (s : List Char) : (opening s).head? = s.head? := by
  cases s with
  | nil => rfl
  | cons c s =>
    rw [opening]
    split
    · rename_i hc
      subst hc
      rfl
    · rfl

theorem openings_keyword : ∀ i < 6, ∀ w ∈ openings.getD i [], Word w ∧ w.head? = some '$' := by
  decide

theorem openings_head : ∀ i < 10, ∀ w ∈ openings.getD i [], w.head?.any (!isWhite ·) = true := by
  decide

/-- The beginning of a line tells by which alternative it is read. -/
theorem openings_disjoint : ∀ i < 10, ∀ j < 10, ∀ w ∈ openings.getD i [],
    w ∈ openings.getD j [] → i = j := by
  decide

theorem Command.place_lt (c : Command) : c.place < 10 := by
  cases c <;> simp [Command.place]

/-- A directive opens a line as a whole. -/
theorem opening_word (hw : Word w) (hdollar : w.head? = some '$') (hs : EndsWord s) :
    opening (w ++ s) = w := by
  obtain ⟨tail, rfl⟩ := List.head?_eq_some_iff.1 hdollar
  have hrun := hw.takeWhile_append hs
  rwa [List.cons_append, opening, if_pos rfl]

theorem opening_keyword (i : Nat) (hi : i < 6) (hw : w ∈ openings.getD i []) (hs : EndsWord s) :
    opening (w ++ s) ∈ openings.getD i [] := by
  obtain ⟨hword, hhead⟩ := openings_keyword i hi w hw
  rwa [opening_word hword hhead hs]

theorem opening_sign (i : Nat) {d : Char} (hd : d ≠ '$') (h : [d] ∈ openings.getD i []) :
    opening (d :: s) ∈ openings.getD i [] := by
  rw [opening, if_neg hd]
  exact h

theorem Phrase.opening_mem (h : Phrase s c) (hb : EndsWord b) :
    opening (s ++ b) ∈ openings.getD c.place [] := by
  cases h with
  | openScope hkind h₁ h₂ hname h₃ =>
    rw [List.append_assoc]
    exact opening_keyword 0 (by decide) (by decide) ((h₁.endsWord _).append hb)
  | closeScope hg =>
    rw [List.append_assoc]
    exact opening_keyword 1 (by decide) (by decide) ((hg.endsWord _).append hb)
  | declare h₁ htype h₂ hds hwidth h₃ hcode h₄ hname hmore h₅ =>
    rw [List.append_assoc]
    exact opening_keyword 2 (by decide) (by decide) ((h₁.endsWord _).append hb)
  | endDefinitions hg =>
    rw [List.append_assoc]
    exact opening_keyword 3 (by decide) (by decide) ((hg.endsWord _).append hb)
  | @header keyword text body closed hkeyword htext hbody =>
    have hends : EndsWord text := fun c hc => isWhite_of_isBlank (htext c hc)
    rw [List.append_assoc]
    exact opening_keyword 4 (by decide) (List.mem_map_of_mem hkeyword) (hends.append hb)
  | marker hkeyword => exact opening_keyword 5 (by decide) (List.mem_map_of_mem hkeyword) hb
  | markerClosed hkeyword hg =>
    rw [List.append_assoc]
    exact opening_keyword 5 (by decide) (List.mem_map_of_mem hkeyword) ((hg.endsWord _).append hb)
  | timestamp hds htime => exact opening_sign 6 (by decide) (by decide)
  | vector hsign hne hbits hg hcode =>
    rcases hsign with rfl | rfl <;> exact opening_sign 7 (by decide) (by decide)
  | real hsign hnumber hg hcode =>
    rcases hsign with rfl | rfl <;> exact opening_sign 8 (by decide) (by decide)
  | scalar hbit hcode =>
    simp only [List.mem_cons, List.not_mem_nil, or_false] at hbit
    rcases hbit with rfl | rfl | rfl | rfl | rfl | rfl <;>
      exact opening_sign 9 (by decide) (by decide)

theorem Says.opening_mem (h : Says s c) : opening s ∈ openings.getD c.place [] := by
  obtain ⟨body, b, rfl, hb, hphrase⟩ := h
  exact hphrase.opening_mem (.of_blanks hb)

/-- Two commands that one line says are read by the same alternative. -/
theorem Says.place_eq {d : Command} (hc : Says s c) (hd : Says s d) : c.place = d.place :=
  openings_disjoint _ c.place_lt _ d.place_lt _ hc.opening_mem hd.opening_mem

/-- There is no white space in front of a phrase. -/
theorem Says.trimStart_eq (h : Says s c) : trimStart s = s := by
  have hhead := openings_head _ c.place_lt _ h.opening_mem
  rw [head?_opening] at hhead
  cases s with
  | nil => rfl
  | cons d s => exact List.dropWhile_cons_of_neg (by simpa using hhead)

theorem alternatives_exclusive (s : List Char) :
    alternatives.Pairwise fun f g => f s = none ∨ g s = none := by
  refine List.pairwise_iff_getElem.2 fun i j hi hj hij => ?_
  cases hf : alternatives[i] s with
  | none => exact .inl rfl
  | some c =>
    cases hg : alternatives[j] s with
    | none => exact .inr rfl
    | some d =>
      obtain ⟨hc, hplacec⟩ := says_of_getElem_alternatives hi hf
      obtain ⟨hd, hplaced⟩ := says_of_getElem_alternatives hj hg
      have hplace := hc.place_eq hd
      omega

/-- If no two members have a result, the first result is the only one. -/
theorem filterMap_eq_findSome? {α β : Type} {f : α → Option β} {l : List α}
    (h : l.Pairwise fun x y => f x = none ∨ f y = none) :
    l.filterMap f = (l.findSome? f).toList := by
  induction h with
  | nil => rfl
  | @cons x l hx hl ih =>
    rw [List.filterMap_cons, List.findSome?_cons]
    cases hfx : f x with
    | none => exact ih
    | some r =>
      have hrest : l.filterMap f = [] :=
        List.filterMap_eq_nil_iff.2 fun y hy => (hx y hy).resolve_left (by simp [hfx])
      simp only [hrest, Option.toList_some]

theorem command?_eq_some_iff : command? line = some c ↔ Says (trimStart line) c := by
  constructor
  · intro h
    obtain ⟨f, hf, hread⟩ := List.exists_of_findSome?_eq_some h
    obtain ⟨i, hi, rfl⟩ := List.getElem_of_mem hf
    exact (says_of_getElem_alternatives hi hread).1
  · intro h
    obtain ⟨f, hf, hread⟩ := h.exists_alternative
    have hmem : c ∈ alternatives.filterMap (· (trimStart line)) :=
      List.mem_filterMap.2 ⟨f, hf, hread⟩
    rw [filterMap_eq_findSome? (alternatives_exclusive _), Option.mem_toList] at hmem
    exact hmem

theorem ne_nil_of_command? {bits code : List Char}
    (h : command? line = some (.vector bits code)) : bits ≠ [] := by
  obtain ⟨body, b, -, -, hphrase⟩ := command?_eq_some_iff.1 h
  cases hphrase with
  | vector hsign hne hbits hg hcode => exact hne

theorem command?_of_phrase {w body : List Char} (hw : ∀ ch ∈ w, isWhite ch = true) (hb : Blanks b)
    (h : Phrase body c) : command? (w ++ body ++ b) = some c := by
  have hsays : Says (body ++ b) c := ⟨body, b, rfl, hb, h⟩
  rw [command?_eq_some_iff, List.append_assoc, trimStart_white_append hw, hsays.trimStart_eq]
  exact hsays

/-- A line is accepted if and only if it is a phrase with white space in front of it and blanks
behind it, and then says what the phrase says; no alternative but one accepts it. -/
theorem command_exact (line : List Char) :
    (∀ c, command? line = some c ↔ ∃ white body blanks, line = white ++ (body ++ blanks) ∧
      (∀ ch ∈ white, isWhite ch = true) ∧ Blanks blanks ∧ Phrase body c) ∧
    alternatives.filterMap (· (trimStart line)) = (command? line).toList := by
  have hunique := filterMap_eq_findSome? (alternatives_exclusive (trimStart line))
  refine ⟨fun c => ⟨fun h => ?_, ?_⟩, hunique⟩
  · obtain ⟨f, hf, hread⟩ := List.exists_of_findSome?_eq_some h
    obtain ⟨i, hi, rfl⟩ := List.getElem_of_mem hf
    obtain ⟨⟨body, b, hline, hb, hphrase⟩, -⟩ := says_of_getElem_alternatives hi hread
    refine ⟨line.takeWhile isWhite, body, b, ?_, List.all_eq_true.1 List.all_takeWhile, hb,
      hphrase⟩
    rw [← hline]
    exact List.takeWhile_append_dropWhile.symm
  · rintro ⟨white, body, b, rfl, hwhite, hb, hphrase⟩
    have hsays : Says (body ++ b) c := ⟨body, b, rfl, hb, hphrase⟩
    obtain ⟨f, hf, hread⟩ := hsays.exists_alternative
    have hmem : c ∈ alternatives.filterMap (· (body ++ b)) := List.mem_filterMap.2 ⟨f, hf, hread⟩
    rw [filterMap_eq_findSome? (alternatives_exclusive _), Option.mem_toList] at hmem
    rw [command?, trimStart_white_append hwhite, hsays.trimStart_eq]
    exact hmem

/-- The closing keyword is a word like others where a word is expected. -/
example : command? "$scope task $end $end\t".toList =
    some (.openScope "task".toList "$end".toList) := by
  decide

end TraceMining.Waveform
