import TraceMining.Proofs.Waveform.Blanks

/-!
# The layout of a text

White lines, white space in front of a line, blanks behind it and the choice of the line ends do
not change what is read from a text, nor the fault for which it is refused (`answer_relaid`). A line
with white space around it is read like the line itself, so only white lines have to be followed:
outside a section they say nothing, and in a section they add empty pieces of text, which are
dropped when the section is closed. What has been read is therefore compared up to these pieces
(`Progress.tidy`), and every line keeps what is alike so (`ReadTheSame.cons`).
-/

namespace TraceMining.Waveform

open Text

/-! ## Empty pieces of text -/

namespace Progress

/-- The progress without the empty pieces of text of an open section. -/
def tidy (p : Progress) : Progress :=
  { p with pending := p.pending.map fun s => { s with pieces := s.pieces.filter (!·.isEmpty) } }

variable {p q : Progress} {s : Section} {line line' : List Char}

theorem tidy_of_pending_eq_none (h : p.pending = none) : p.tidy = p := by
  unfold tidy
  rw [h, Option.map_none, ← h]

theorem pending_tidy (h : p.pending = some s) :
    p.tidy.pending = some { s with pieces := s.pieces.filter (!·.isEmpty) } := by
  unfold tidy
  rw [h]
  rfl

/-- Sections are told apart by the pieces that count. -/
theorem tidy_extend (p : Progress) (s : Section) (piece : List Char) (closed : Bool) :
    (p.tidy.extend { s with pieces := s.pieces.filter (!·.isEmpty) } piece closed).tidy =
      (p.extend s piece closed).tidy := by
  have hpieces : (s.pieces.filter (!·.isEmpty) ++ [piece]).filter (!·.isEmpty) =
      (s.pieces ++ [piece]).filter (!·.isEmpty) := by
    simp only [List.filter_append, List.filter_filter, Bool.and_self]
  cases closed with
  | false =>
    simp only [extend, tidy, Bool.false_eq_true, if_false, Option.map_some, hpieces]
  | true =>
    simp only [extend, if_true, closeSection, hpieces]
    rfl

/-- An empty piece that does not close a section leaves it as it is. -/
theorem tidy_extend_nil (h : p.pending = some s) : (p.extend s [] false).tidy = p.tidy := by
  simp [extend, tidy, h, List.filter_append]

theorem feed_tidy (p : Progress) (line : List Char) :
    (p.tidy.feed line).map tidy = (p.feed line).map tidy := by
  cases h : p.pending with
  | none => rw [tidy_of_pending_eq_none h]
  | some s =>
    rw [feed_of_pending h, feed_of_pending (pending_tidy h)]
    exact congrArg Except.ok (tidy_extend p s _ _)

theorem finish_tidy [CodeOrder] (p : Progress) : p.tidy.finish = p.finish := by
  cases h : p.pending with
  | none => rw [tidy_of_pending_eq_none h]
  | some s =>
    unfold finish
    rw [h, pending_tidy h]

/-- Two lines of which the same is read do the same. -/
theorem feed_of_readAlike (h : ReadAlike line line') (p : Progress) :
    p.feed line' = p.feed line := by
  unfold feed
  rw [h.command, h.white, h.text, h.fault]

theorem feed_alike (hpq : p.tidy = q.tidy) (h : ReadAlike line line') :
    (q.feed line').map tidy = (p.feed line).map tidy := by
  rw [feed_of_readAlike h, ← feed_tidy, ← hpq, feed_tidy]

/-- A white line says nothing, wherever it stands. -/
theorem exists_feed_of_isWhiteOnly (p : Progress) (h : isWhiteOnly line = true) :
    ∃ q, p.feed line = .ok q ∧ q.tidy = p.tidy := by
  cases hp : p.pending with
  | none => exact ⟨p, feed_of_isWhiteOnly hp h, rfl⟩
  | some s =>
    refine ⟨_, feed_of_pending hp line, ?_⟩
    rw [sectionText_of_isWhiteOnly h]
    exact tidy_extend_nil hp

end Progress

/-! ## Reading up to empty pieces -/

open Progress

/-- What is known after some lines, up to empty pieces of text. -/
def readOn (p : Progress) (ls : List (List Char)) : Except Fault Progress :=
  (ls.foldlM feed p).map tidy

/-- From two lists of lines the same is read. -/
def ReadTheSame (ls ls' : List (List Char)) : Prop :=
  ∀ p q : Progress, p.tidy = q.tidy → readOn p ls = readOn q ls'

/-- The lines that are not white. -/
def written (ls : List (List Char)) : List (List Char) := ls.filter (!isWhiteOnly ·)

variable {l l' : List Char} {ls ls' ls'' : List (List Char)}

namespace ReadTheSame

theorem nil : ReadTheSame [] [] := fun _ _ h => congrArg Except.ok h

theorem symm (h : ReadTheSame ls ls') : ReadTheSame ls' ls :=
  fun p q hpq => (h q p hpq.symm).symm

theorem trans (h : ReadTheSame ls ls') (h' : ReadTheSame ls' ls'') : ReadTheSame ls ls'' :=
  fun p q hpq => (h p q hpq).trans (h' q q rfl)

theorem cons_white (hl : isWhiteOnly l = true) (h : ReadTheSame ls ls') :
    ReadTheSame (l :: ls) ls' := by
  intro p q hpq
  obtain ⟨p', hp, htidy⟩ := exists_feed_of_isWhiteOnly p hl
  rw [← h p' q (htidy.trans hpq)]
  unfold readOn
  rw [List.foldlM_cons, hp]
  rfl

theorem cons (hl : ReadAlike l l') (h : ReadTheSame ls ls') :
    ReadTheSame (l :: ls) (l' :: ls') := by
  intro p q hpq
  have hfeed := feed_alike hpq hl
  unfold readOn
  rw [List.foldlM_cons, List.foldlM_cons]
  cases hp : p.feed l with
  | error e =>
    cases hq : q.feed l' with
    | error e' =>
      rw [hp, hq] at hfeed
      exact hfeed.symm
    | ok q' =>
      rw [hp, hq] at hfeed
      cases hfeed
  | ok p' =>
    cases hq : q.feed l' with
    | error e' =>
      rw [hp, hq] at hfeed
      cases hfeed
    | ok q' =>
      rw [hp, hq] at hfeed
      exact h p' q' (Except.ok.inj hfeed).symm

end ReadTheSame

theorem written_cons (l : List Char) (ls : List (List Char)) :
    written (l :: ls) = written [l] ++ written ls :=
  List.filter_append [l] ls

theorem written_cons_of_isWhiteOnly (hl : isWhiteOnly l = true) (ls : List (List Char)) :
    written (l :: ls) = written ls :=
  List.filter_cons_of_neg (by simp [hl])

theorem written_cons_of_not_isWhiteOnly (hl : isWhiteOnly l = false) (ls : List (List Char)) :
    written (l :: ls) = l :: written ls :=
  List.filter_cons_of_pos (by simp [hl])

/-- White lines need not be read. -/
theorem readTheSame_written (ls : List (List Char)) : ReadTheSame ls (written ls) := by
  induction ls with
  | nil => exact .nil
  | cons l ls ih =>
    cases hl : isWhiteOnly l with
    | true =>
      rw [written_cons_of_isWhiteOnly hl]
      exact .cons_white hl ih
    | false =>
      rw [written_cons_of_not_isWhiteOnly hl]
      exact .cons (.refl l) ih

/-! ## Laying out lines -/

/-- White space that may stand in front of a line. -/
def Indent (w : List Char) : Prop := ∀ c ∈ w, isWhite c = true ∧ c ≠ '\n'

instance (w : List Char) : Decidable (Indent w) :=
  List.decidableBAll (fun c => isWhite c = true ∧ c ≠ '\n') w

theorem Indent.isWhite {w : List Char} (hw : Indent w) : ∀ c ∈ w, isWhite c = true :=
  fun c hc => (hw c hc).1

/-- The lines of the second list are those of the first, in their order, with white space in front
of them and blanks behind them, and white lines among them. -/
inductive Relaid : List (List Char) → List (List Char) → Prop where
  | nil : Relaid [] []
  /-- A white line that stands in front of the others. -/
  | insert {w : List Char} {ls ls' : List (List Char)} (hw : Indent w) (h : Relaid ls ls') :
    Relaid ls (w :: ls')
  /-- White space around the first line. -/
  | pad (front line back : List Char) {ls ls' : List (List Char)}
    (hfront : Indent front) (hback : Blanks back) (h : Relaid ls ls') :
    Relaid (line :: ls) ((front ++ line ++ back) :: ls')

theorem Relaid.readTheSame (h : Relaid ls ls') : ReadTheSame ls' ls := by
  induction h with
  | nil => exact .nil
  | insert hw h ih => exact .cons_white (List.all_eq_true.2 hw.isWhite) ih
  | pad front line back hfront hback h ih =>
    exact (ReadTheSame.cons (.pad hfront.isWhite hback line) ih.symm).symm

/-! ## Lines and line ends -/

/-- A line that a line end does not change: it has no line feed, and a carriage return at its end
only if it is white. -/
def Endable (line : List Char) : Prop :=
  '\n' ∉ line ∧ (isWhiteOnly line = true ∨ line.getLast? ≠ some '\r')

/-- The two ends of a line. -/
def LineEnd (eol : List Char) : Prop := eol = ['\n'] ∨ eol = ['\r', '\n']

theorem written_lines_of_not_mem (h : '\n' ∉ l) : written (lines l) = written [l] := by
  cases l with
  | nil => rfl
  | cons c l =>
    unfold lines
    rw [cut_of_not_mem h (List.cons_ne_nil _ _)]

theorem written_lines_append {eol : List Char} (heol : LineEnd eol) (h : Endable l)
    (text : List Char) : written (lines (l ++ eol ++ text)) = written (l :: lines text) := by
  obtain ⟨hlf, hlast⟩ := h
  unfold lines
  rw [List.append_assoc]
  rcases heol with rfl | rfl
  · by_cases hcr : l.getLast? = some '\r'
    · obtain ⟨line, rfl⟩ := List.getLast?_eq_some_iff.1 hcr
      have hwhite : isWhiteOnly (line ++ ['\r']) = true := hlast.resolve_right (absurd hcr)
      have hline : isWhiteOnly line = true := by
        rw [isWhiteOnly, List.all_append, Bool.and_eq_true] at hwhite
        exact hwhite.1
      have hcut : cut '\n' '\r' (line ++ ['\r'] ++ (['\n'] ++ text)) =
          line :: cut '\n' '\r' text := by
        rw [List.append_assoc]
        exact cut_append_cr_lf (fun hc => hlf (List.mem_append_left _ hc)) (by decide) text
      rw [hcut, written_cons_of_isWhiteOnly hline, written_cons_of_isWhiteOnly hwhite]
    · exact congrArg written (cut_append_lf hlf hcr text)
  · exact congrArg written (cut_append_cr_lf hlf (by decide) text)

/-- The lines of a text that is put together from lines, white ones apart. -/
theorem written_lines_intercalate {eol : List Char} (heol : LineEnd eol) :
    ∀ {ls : List (List Char)}, (∀ l ∈ ls, Endable l) →
      written (lines (eol.intercalate ls)) = written ls
  | [], _ => rfl
  | [l], h => by
    rw [List.intercalate_singleton]
    exact written_lines_of_not_mem (h l List.mem_cons_self).1
  | l :: m :: ls, h => by
    have ih := written_lines_intercalate heol fun k hk => h k (List.mem_cons_of_mem l hk)
    rw [List.intercalate_cons_cons, written_lines_append heol (h l List.mem_cons_self),
      written_cons, ih, ← written_cons]

theorem not_mem_of_mem_splitOn {x : Char} {text : List Char} :
    ∀ l ∈ text.splitOn x, x ∉ l ∧ ∀ c ∈ l, c ∈ text := by
  rw [List.splitOn_eq_splitOnP]
  induction text with
  | nil =>
    intro l hl
    rw [List.splitOnP_nil, List.mem_singleton] at hl
    subst hl
    exact ⟨List.not_mem_nil, fun _ h => h⟩
  | cons c text ih =>
    intro l hl
    have hlater : ∀ l ∈ text.splitOnP (· == x), x ∉ l ∧ ∀ d ∈ l, d ∈ c :: text :=
      fun l hl => ⟨(ih l hl).1, fun d hd => List.mem_cons_of_mem _ ((ih l hl).2 d hd)⟩
    rw [List.splitOnP_cons_eq_if_modifyHead] at hl
    split at hl
    · rcases List.mem_cons.1 hl with rfl | hl
      · exact ⟨List.not_mem_nil, fun _ h => absurd h List.not_mem_nil⟩
      · exact hlater l hl
    · rename_i hc
      cases hsplit : text.splitOnP (· == x) with
      | nil => exact absurd hsplit (List.splitOnP_ne_nil _ _)
      | cons first rest =>
        rw [hsplit] at hl hlater
        rcases List.mem_cons.1 hl with rfl | hl
        · obtain ⟨hfirst, hmem⟩ := hlater first List.mem_cons_self
          refine ⟨?_, ?_⟩
          · simp only [beq_iff_eq] at hc
            exact fun h => (List.mem_cons.1 h).elim (fun e => hc e.symm) hfirst
          · exact fun d hd => (List.mem_cons.1 hd).elim (· ▸ List.mem_cons_self) (hmem d)
        · exact hlater l (List.mem_cons_of_mem _ hl)

theorem endable_of_not_mem (hlf : '\n' ∉ l) (hcr : '\r' ∉ l) : Endable l :=
  ⟨hlf, .inr fun h => hcr (List.mem_of_getLast? h)⟩

theorem Indent.endable (h : Indent l) : Endable l :=
  ⟨fun hc => (h _ hc).2 rfl, .inl (List.all_eq_true.2 h.isWhite)⟩

theorem Endable.pad {front back : List Char} (h : Endable l) (hfront : Indent front)
    (hback : Blanks back) : Endable (front ++ l ++ back) := by
  obtain ⟨hlf, hlast⟩ := h
  refine ⟨fun hmem => ?_, ?_⟩
  · rcases List.mem_append.1 hmem with hmem | hmem
    · rcases List.mem_append.1 hmem with hmem | hmem
      · exact (hfront _ hmem).2 rfl
      · exact hlf hmem
    · exact absurd (hback _ hmem) (by decide)
  · rw [isWhiteOnly_append_white hback.isWhite,
      isWhiteOnly_white_append hfront.isWhite]
    refine Decidable.or_iff_not_imp_left.2 fun hblack => ?_
    have hcr := hlast.resolve_left hblack
    rw [List.getLast?_append]
    cases hb : back.getLast? with
    | some c =>
      rintro ⟨⟩
      exact absurd (hback _ (List.mem_of_getLast? hb)) (by decide)
    | none =>
      -- a line that is not white has a last character of its own
      obtain ⟨c, hc⟩ : ∃ c, l.getLast? = some c := by
        cases l with
        | nil => exact absurd rfl hblack
        | cons d l => exact ⟨_, List.getLast?_eq_some_getLast (List.cons_ne_nil d l)⟩
      rw [Option.none_or, List.getLast?_append, hc, Option.some_or, ← hc]
      exact hcr

theorem Relaid.endable (h : Relaid ls ls') (hls : ∀ l ∈ ls, Endable l) : ∀ l ∈ ls', Endable l := by
  induction h with
  | nil => exact hls
  | insert hw h ih => exact List.forall_mem_cons.2 ⟨hw.endable, ih hls⟩
  | pad front line back hfront hback h ih =>
    obtain ⟨hline, hrest⟩ := List.forall_mem_cons.1 hls
    exact List.forall_mem_cons.2 ⟨hline.pad hfront hback, ih hrest⟩

/-! ## The answer to a text -/

/-- The dump that a text holds, or the fault for which it is refused, wherever it was found. -/
def answer [CodeOrder] (text : List Char) : Except Fault Dump :=
  (read text).mapError ReadError.fault

theorem mapError_fault_foldlM (ls : List (List Char)) :
    ∀ (p : Progress) (n : Nat),
      ((ls.zipIdx n).foldlM feedNumbered p).mapError ReadError.fault = ls.foldlM feed p := by
  induction ls with
  | nil => exact fun _ _ => rfl
  | cons l ls ih =>
    intro p n
    rw [List.zipIdx_cons, List.foldlM_cons, List.foldlM_cons, feedNumbered]
    cases p.feed l with
    | error e => rfl
    | ok q => exact ih q (n + 1)

theorem mapError_fault_readLines [CodeOrder] (ls : List (List Char)) :
    (readLines ls).mapError ReadError.fault = ls.foldlM feed .start >>= finish := by
  rw [readLines, ← mapError_fault_foldlM _ _ 1]
  cases (ls.zipIdx 1).foldlM feedNumbered .start with
  | error e => rfl
  | ok p =>
    show (p.conclude ls).mapError ReadError.fault = p.finish
    unfold conclude
    cases p.finish <;> rfl

theorem answer_eq [CodeOrder] (text : List Char) :
    answer text = (lines text).foldlM feed .start >>= finish :=
  mapError_fault_readLines (lines text)

/-- What is known after the last line decides, up to empty pieces of text. -/
theorem answer_eq_of_readTheSame [CodeOrder] {text text' : List Char}
    (h : ReadTheSame (lines text) (lines text')) : answer text = answer text' := by
  have hreadOn : ∀ text, answer text = readOn .start (lines text) >>= finish := by
    intro text
    rw [answer_eq, readOn]
    cases (lines text).foldlM feed .start with
    | error e => rfl
    | ok p => exact (finish_tidy p).symm
  rw [hreadOn, hreadOn, h .start .start rfl]

theorem readTheSame_lines_intercalate {eol : List Char} (heol : LineEnd eol)
    (h : ∀ l ∈ ls, Endable l) : ReadTheSame (lines (eol.intercalate ls)) ls := by
  have hwritten := readTheSame_written (lines (eol.intercalate ls))
  rw [written_lines_intercalate heol h] at hwritten
  exact hwritten.trans (readTheSame_written ls).symm

/-- **Layout does not matter.** Take the lines of a text without carriage returns, put white space
in front of them and blanks behind them, insert white lines, and end all lines with a line feed or
all with a carriage return and a line feed: the same dump is read, or the text is refused for the
same fault. -/
theorem answer_relaid [CodeOrder] {text eol : List Char} {ls : List (List Char)} (hcr : '\r' ∉ text)
    (h : Relaid (text.splitOn '\n') ls) (heol : LineEnd eol) :
    answer (eol.intercalate ls) = answer text := by
  have hlines : ∀ l ∈ text.splitOn '\n', Endable l := fun l hl =>
    have ⟨hlf, hmem⟩ := not_mem_of_mem_splitOn l hl
    endable_of_not_mem hlf fun hc => hcr (hmem _ hc)
  have htext := readTheSame_lines_intercalate (.inl rfl) hlines
  rw [List.intercalate_splitOn] at htext
  have hrelaid := readTheSame_lines_intercalate heol (h.endable hlines)
  exact answer_eq_of_readTheSame ((hrelaid.trans h.readTheSame).trans htext.symm)

/-- A text with a section of three lines. -/
def compact : List Char :=
  "$timescale\n1 ns\n$end\n$scope module TOP $end\n$upscope $end".toList

/-- Its lines with white space around them and white lines among them, also inside the section. -/
def spread : List (List Char) :=
  [['\u00a0'] ++ "$timescale".toList ++ ['\t'], ['\u3000'], [' '] ++ "1 ns".toList ++ [' ', ' '],
    [] ++ "$end".toList ++ [], [' ', '\t'], ['\t'] ++ "$scope module TOP $end".toList ++ [' '],
    [] ++ "$upscope $end".toList ++ [], []]

theorem relaid_spread : Relaid (compact.splitOn '\n') spread := by
  have hlines : compact.splitOn '\n' = ["$timescale".toList, "1 ns".toList, "$end".toList,
      "$scope module TOP $end".toList, "$upscope $end".toList] := by
    decide +kernel
  rw [hlines]
  refine .pad _ _ _ (by decide) (by decide) ?_
  refine .insert (by decide) ?_
  refine .pad _ _ _ (by decide) (by decide) ?_
  refine .pad _ _ _ (by decide) (by decide) ?_
  refine .insert (by decide) ?_
  refine .pad _ _ _ (by decide) (by decide) ?_
  refine .pad _ _ _ (by decide) (by decide) ?_
  exact .insert (by decide) .nil

/-- The spread text with the other line ends, and a text that is refused. -/
theorem answer_relaid_spread :
    '\r' ∉ compact ∧ Relaid (compact.splitOn '\n') spread ∧
      answer (['\r', '\n'].intercalate spread) = answer compact ∧
      (answer compact).toOption.map Dump.timescale = some (some "1 ns") ∧
      answer (['\r', '\n'].intercalate [[' '], [' '] ++ "$scope module TOP".toList ++ ['\t']]) =
        .error (.malformedDirective "$scope") := by
  have hcompact : '\r' ∉ compact := by decide +kernel
  refine ⟨hcompact, relaid_spread, answer_relaid hcompact relaid_spread (.inr rfl),
    by decide +kernel, ?_⟩
  have hline : "$scope module TOP".toList.splitOn '\n' = ["$scope module TOP".toList] := by
    decide +kernel
  have hrefused : Relaid ("$scope module TOP".toList.splitOn '\n')
      [[' '], [' '] ++ "$scope module TOP".toList ++ ['\t']] := by
    rw [hline]
    exact .insert (by decide) (.pad _ _ _ (by decide) (by decide) .nil)
  rw [answer_relaid (by decide +kernel) hrefused (.inr rfl)]
  rfl

end TraceMining.Waveform
