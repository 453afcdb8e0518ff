import TraceMining.Proofs.Waveform.Sections

/-!
# What a refused line is taken for

A line that no alternative reads is reported by its first word. A word that begins with a dollar sign
is a directive, and the report tells known directives from others. Known should be those with which
some line begins that is read (`opens_iff`), and of these the report knows all but the four that begin
a section. A line that begins with one of the four is refused only if white space stands behind the
keyword that is no blank (`command?_section_eq_none_iff`), and is then reported as a directive that is
not known (`refused_line_fault`).
-/

namespace TraceMining.Waveform

open Text

variable {line indent rest k : List Char}

/-! ## First words -/

theorem trimStart_of_word (hindent : ∀ c ∈ indent, isWhite c = true) (hk : Word k) :
    trimStart (indent ++ (k ++ rest)) = k ++ rest := by
  rw [trimStart_white_append hindent]
  obtain ⟨c, k, rfl⟩ := List.exists_cons_of_ne_nil hk.1
  have hc : isWhite c = false := hk.2 c List.mem_cons_self
  exact List.dropWhile_cons_of_neg (by simp [hc])

/-- A line falls into its first word and what stands around it. -/
theorem exists_of_head?_words (h : (words line).head? = some k) :
    Word k ∧ ∃ indent rest, line = indent ++ (k ++ rest) ∧ (∀ c ∈ indent, isWhite c = true) ∧
      EndsWord rest := by
  obtain ⟨indent, rest, hline, hindent, hne, hk, hrest⟩ := head?_words_iff.1 h
  exact ⟨⟨hne, hk⟩, indent, rest, hline, hindent, hrest⟩

theorem firstWord_eq (h : (words line).head? = some k) : firstWord line = k := by
  obtain ⟨hk, indent, rest, rfl, hindent, hrest⟩ := exists_of_head?_words h
  rw [firstWord, trimStart_of_word hindent hk, hk.takeWhile_append hrest]

/-- A line opens with its first word if this is a directive. -/
theorem opening_trimStart (h : (words line).head? = some k) (hdollar : k.head? = some '$') :
    opening (trimStart line) = k := by
  obtain ⟨hk, indent, rest, rfl, hindent, hrest⟩ := exists_of_head?_words h
  rw [trimStart_of_word hindent hk, opening_word hk hdollar hrest]

theorem isWhiteOnly_of_head?_words (h : (words line).head? = some k) :
    isWhiteOnly line = false := by
  refine Bool.eq_false_iff.2 fun hwhite => ?_
  rw [words_of_white (List.all_eq_true.1 hwhite)] at h
  cases h

/-! ## Known directives -/

/-- Some line that is read begins with the word. -/
def Opens (k : List Char) : Prop :=
  ∃ line c, (words line).head? = some k ∧ command? line = some c

theorem directive_of_openings : ∀ i < 10, ∀ w ∈ openings.getD i [], w.head? = some '$' →
    String.ofList w ∈ knownDirectives ++ sectionKeywords := by
  decide

/-- Every keyword begins a line that is read. -/
theorem opens_of_mem {keyword : String} (h : keyword ∈ knownDirectives ++ sectionKeywords) :
    Opens keyword.toList := by
  have hread : ∀ keyword ∈ knownDirectives ++ sectionKeywords,
      ∃ rest ∈ [" $end", " module TOP $end", " wire 1 ! clock $end"],
        (words (keyword.toList ++ rest.toList)).head? = some keyword.toList ∧
          (command? (keyword.toList ++ rest.toList)).isSome = true := by
    decide +kernel
  obtain ⟨rest, -, hfirst, hsome⟩ := hread keyword h
  obtain ⟨c, hc⟩ := Option.isSome_iff_exists.1 hsome
  exact ⟨_, c, hfirst, hc⟩

theorem opens_iff (hdollar : k.head? = some '$') :
    Opens k ↔ String.ofList k ∈ knownDirectives ++ sectionKeywords := by
  constructor
  · rintro ⟨line, c, hfirst, hread⟩
    have hopening := (command?_eq_some_iff.1 hread).opening_mem
    rw [opening_trimStart hfirst hdollar] at hopening
    exact directive_of_openings _ c.place_lt k hopening hdollar
  · intro h
    have hopens := opens_of_mem h
    rwa [String.toList_ofList] at hopens

/-! ## Lines that begin a section -/

/-- A line that begins with the keyword of a section is read unless a character stands behind the
keyword that is no blank. -/
theorem command?_section_eq_none_iff {keyword : String} (hkeyword : keyword ∈ sectionKeywords)
    (hindent : ∀ c ∈ indent, isWhite c = true) (hrest : EndsWord rest) :
    command? (indent ++ (keyword.toList ++ rest)) = none ↔
      ∃ c ∈ rest.head?, isBlank c = false := by
  have hword := word_of_sectionKeyword hkeyword
  constructor
  · intro hnone
    by_contra hblank
    simp only [not_exists, not_and, Bool.not_eq_false] at hblank
    obtain ⟨body, closed, hpiece⟩ := exists_piece rest
    have hread := command?_of_phrase hindent .nil (.header hkeyword hblank hpiece)
    rw [List.append_nil, hnone] at hread
    cases hread
  · rintro ⟨c, hc, hnotblank⟩
    by_contra hsome
    obtain ⟨said, hread⟩ := Option.ne_none_iff_exists'.1 hsome
    have htrim : trimStart (indent ++ (keyword.toList ++ rest)) = keyword.toList ++ rest :=
      trimStart_of_word hindent hword
    obtain ⟨indent', keyword', opening, hline, hindent', hkeyword', hopening, -⟩ :=
      exists_header hread fun h => h keyword hkeyword ⟨rest, htrim.symm⟩
    -- The line is taken apart in one way only, for both keywords are its first word.
    have hword' := word_of_sectionKeyword hkeyword'
    have hends : EndsWord opening := fun d hd => isWhite_of_isBlank (hopening d hd)
    rw [hline, trimStart_of_word hindent' hword'] at htrim
    have hsame : keyword'.toList = keyword.toList := by
      rw [← hword'.takeWhile_append hends, htrim, hword.takeWhile_append hrest]
    rw [hsame] at htrim
    have hblank := hopening c (List.append_cancel_left htrim ▸ hc)
    rw [hnotblank] at hblank
    cases hblank

/-! ## The report -/

theorem malformed_eq (h : (words line).head? = some k) :
    malformed line = if String.ofList k ∈ knownDirectives then
        .malformedDirective (String.ofList k)
      else if k.head? = some '$' then .unknownDirective (String.ofList k)
      else .malformedChange := by
  unfold malformed
  dsimp only
  rw [firstWord_eq h, String.toList_ofList]

theorem head?_of_mem {keyword : String} (h : keyword ∈ knownDirectives ++ sectionKeywords) :
    keyword.toList.head? = some '$' := by
  have hall : ∀ keyword ∈ knownDirectives ++ sectionKeywords,
      keyword.toList.head? = some '$' := by
    decide
  exact hall keyword h

/-- The report tells directives from each other as it should, those that begin a section apart. -/
theorem malformed_of_not_section (hfirst : (words line).head? = some k)
    (hplain : String.ofList k ∉ sectionKeywords) :
    (malformed line = .unknownDirective (String.ofList k) ↔ k.head? = some '$' ∧ ¬Opens k) ∧
    (malformed line = .malformedDirective (String.ofList k) ↔ k.head? = some '$' ∧ Opens k) ∧
    (malformed line = .malformedChange ↔ k.head? ≠ some '$') := by
  rw [malformed_eq hfirst]
  by_cases hknown : String.ofList k ∈ knownDirectives
  · have hmem := List.mem_append_left sectionKeywords hknown
    have hdollar := head?_of_mem hmem
    have hopens := opens_of_mem hmem
    rw [String.toList_ofList] at hdollar hopens
    simp [hknown, hdollar, hopens]
  · by_cases hdollar : k.head? = some '$'
    · have hopens : ¬Opens k := by
        rw [opens_iff hdollar, List.mem_append, not_or]
        exact ⟨hknown, hplain⟩
      simp [hknown, hdollar, hopens]
    · simp [hknown, hdollar]

theorem malformed_of_section (hfirst : (words line).head? = some k)
    (hsection : String.ofList k ∈ sectionKeywords) :
    malformed line = .unknownDirective (String.ofList k) ∧ Opens k := by
  have hmem := List.mem_append_right knownDirectives hsection
  have hknown : ∀ keyword ∈ sectionKeywords, keyword ∉ knownDirectives := by decide
  have hdollar := head?_of_mem hmem
  have hopens := opens_of_mem hmem
  rw [String.toList_ofList] at hdollar hopens
  refine ⟨?_, hopens⟩
  rw [malformed_eq hfirst, if_neg (hknown _ hsection), if_pos hdollar]

theorem exists_white_of_section (hfirst : (words line).head? = some k)
    (hrefused : command? line = none) (hsection : String.ofList k ∈ sectionKeywords) :
    ∃ indent c rest, line = indent ++ (k ++ c :: rest) ∧ (∀ ch ∈ indent, isWhite ch = true) ∧
      isWhite c = true ∧ isBlank c = false := by
  obtain ⟨-, indent, rest, rfl, hindent, hrest⟩ := exists_of_head?_words hfirst
  have hbehind := (command?_section_eq_none_iff hsection hindent hrest).1
  rw [String.toList_ofList] at hbehind
  obtain ⟨c, hc, hblank⟩ := hbehind hrefused
  obtain ⟨rest, rfl⟩ := List.head?_eq_some_iff.1 hc
  exact ⟨indent, c, rest, rfl, hindent, hrest c rfl, hblank⟩

/-- **What a refused line is reported as.** A line that begins with a word and that no alternative
reads is refused outside sections with the fault that the word decides. Unless the word is the keyword
of a section, it is a directive that is not known if it begins with a dollar sign and no line is read
that begins with it, a malformed directive if it begins with a dollar sign and some line is, and
otherwise a malformed change. The keyword of a section is reported as a directive that is not known,
although lines are read that begin with it; white space stands behind it in the line that is no
blank. -/
theorem refused_line_fault (hfirst : (words line).head? = some k) (hrefused : command? line = none) :
    (∀ p : Progress, p.pending = none → p.feed line = .error (malformed line)) ∧
    (String.ofList k ∉ sectionKeywords →
      (malformed line = .unknownDirective (String.ofList k) ↔ k.head? = some '$' ∧ ¬Opens k) ∧
      (malformed line = .malformedDirective (String.ofList k) ↔ k.head? = some '$' ∧ Opens k) ∧
      (malformed line = .malformedChange ↔ k.head? ≠ some '$')) ∧
    (String.ofList k ∈ sectionKeywords →
      malformed line = .unknownDirective (String.ofList k) ∧ Opens k ∧
      ∃ indent c rest, line = indent ++ (k ++ c :: rest) ∧
        (∀ ch ∈ indent, isWhite ch = true) ∧ isWhite c = true ∧ isBlank c = false) := by
  refine ⟨fun p hp => ?fed, malformed_of_not_section hfirst, fun hsection => ?opening⟩
  case fed =>
    exact Progress.feed_of_command?_eq_none hp (isWhiteOnly_of_head?_words hfirst) hrefused
  case opening =>
    obtain ⟨hfault, hopens⟩ := malformed_of_section hfirst hsection
    exact ⟨hfault, hopens, exists_white_of_section hfirst hrefused hsection⟩

/-- A scope of a kind that there is not, a directive that there is not, a change of no wire, and a
version behind a space that is no blank. -/
theorem refused_line_fault_kinds :
    malformed "$scope widget TOP $end".toList = .malformedDirective "$scope" ∧
    malformed "\t$attrbegin misc $end".toList = .unknownDirective "$attrbegin" ∧
    malformed "1 ?!".toList = .malformedChange ∧
    malformed "$version\u30001.0 $end".toList = .unknownDirective "$version" := by
  have hscope := (@refused_line_fault "$scope widget TOP $end".toList "$scope".toList
    (by decide +kernel) (by decide +kernel)).2.1 (by decide)
  have hattribute := (@refused_line_fault "\t$attrbegin misc $end".toList "$attrbegin".toList
    (by decide +kernel) (by decide +kernel)).2.1 (by decide)
  have hchange := (@refused_line_fault "1 ?!".toList "1".toList
    (by decide +kernel) (by decide +kernel)).2.1 (by decide)
  have hversion := (@refused_line_fault "$version\u30001.0 $end".toList "$version".toList
    (by decide +kernel) (by decide +kernel)).2.2 (by decide)
  have hnotopens : ¬Opens "$attrbegin".toList := by
    rw [opens_iff (by decide)]
    decide
  exact ⟨hscope.2.1.2 ⟨by decide, opens_of_mem (by decide)⟩,
    hattribute.1.2 ⟨by decide, hnotopens⟩, hchange.2.2.2 (by decide), hversion.1⟩

/-- Behind the keyword of a section stands a space that does not break. The line is refused and
reported as a directive that is not known, although one with another space there is read. -/
theorem section_keyword_unrecognized :
    command? "$date\u00a0Monday".toList = none ∧
    (words "$date\u00a0Monday".toList).head? = some "$date".toList ∧
    Progress.start.feed "$date\u00a0Monday".toList = .error (.unknownDirective "$date") ∧
    (words "$date Monday".toList).head? = some "$date".toList ∧
    command? "$date Monday".toList = some (.header "$date".toList "Monday".toList false) := by
  have hrefused : command? "$date\u00a0Monday".toList = none := by decide +kernel
  have hfault : malformed "$date\u00a0Monday".toList = .unknownDirective "$date" := by decide +kernel
  refine ⟨hrefused, by decide +kernel, ?_, by decide +kernel, by decide +kernel⟩
  rw [Progress.feed_of_command?_eq_none rfl (by decide +kernel) hrefused, hfault]

end TraceMining.Waveform
