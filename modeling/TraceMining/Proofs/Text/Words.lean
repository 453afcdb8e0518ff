import TraceMining.Text.Blank

/-!
# Words

The words of a text are what stands between its white space. White space parts a text into two
whose words follow each other (`words_append_cons`), from which everything else about words is
taken: white space around a text adds none (`words_trim`), texts with a space between them have the
words of all of them (`words_intercalate`). The first word is what a text begins with, and the last
word what it ends in, up to white space (`head?_words_iff`, `getLast?_words_iff`).
-/

namespace TraceMining.Text

/-- The words of a text, in their order. -/
def words (s : List Char) : List (List Char) := (s.splitOnP isWhite).filter (!·.isEmpty)

variable {s w front back : List Char}

theorem words_nil : words [] = [] := rfl

theorem words_append_cons {c : Char} (hc : isWhite c = true) (s t : List Char) :
    words (s ++ c :: t) = words s ++ words t := by
  unfold words
  rw [List.splitOnP_append_cons s t hc, List.filter_append]

theorem words_of_black (hne : w ≠ []) (hw : ∀ c ∈ w, isWhite c = false) : words w = [w] := by
  unfold words
  rw [List.splitOnP_eq_singleton hw, List.filter_cons_of_pos (by simpa using hne), List.filter_nil]

theorem words_white_append (hw : ∀ c ∈ w, isWhite c = true) (s : List Char) :
    words (w ++ s) = words s := by
  induction w with
  | nil => rfl
  | cons c w ih =>
    have hcons : words (c :: (w ++ s)) = words (w ++ s) :=
      words_append_cons (hw c List.mem_cons_self) [] (w ++ s)
    rw [List.cons_append, hcons, ih fun d hd => hw d (List.mem_cons_of_mem c hd)]

theorem words_of_white (hw : ∀ c ∈ w, isWhite c = true) : words w = [] := by
  have h := words_white_append hw []
  rwa [List.append_nil] at h

theorem words_append_white (hw : ∀ c ∈ w, isWhite c = true) (s : List Char) :
    words (s ++ w) = words s := by
  cases w with
  | nil => rw [List.append_nil]
  | cons c w =>
    rw [words_append_cons (hw c List.mem_cons_self),
      words_of_white fun d hd => hw d (List.mem_cons_of_mem c hd), List.append_nil]

theorem words_trimEnd (s : List Char) : words (trimEnd s) = words s := by
  obtain ⟨t, ht, hwhite⟩ := eq_append_trimEnd s
  have h := words_append_white hwhite (trimEnd s)
  rwa [← ht, eq_comm] at h

theorem words_trim (s : List Char) : words (trim s) = words s := by
  have hfront : ∀ c ∈ s.takeWhile isWhite, isWhite c = true :=
    List.all_eq_true.1 List.all_takeWhile
  have h := words_white_append hfront (s.dropWhile isWhite)
  rw [List.takeWhile_append_dropWhile] at h
  rw [trim, words_trimEnd, trimStart, h]

theorem words_intercalate (ps : List (List Char)) :
    words ([' '].intercalate ps) = ps.flatMap words := by
  induction ps with
  | nil => rfl
  | cons p ps ih =>
    cases ps with
    | nil => rw [List.intercalate_singleton, List.flatMap_singleton]
    | cons q ps =>
      rw [List.intercalate_cons_cons, List.append_assoc, List.singleton_append,
        words_append_cons (by decide), ih]
      rfl

/-- Empty pieces of a text have no words. -/
theorem flatMap_words_filter (ps : List (List Char)) :
    (ps.filter (!·.isEmpty)).flatMap words = ps.flatMap words := by
  induction ps with
  | nil => rfl
  | cons p ps ih =>
    cases p with
    | nil => exact ih
    | cons c p => exact congrArg (words (c :: p) ++ ·) ih

/-! ## The first word -/

theorem head?_words_append (hfront : ∀ c ∈ front, isWhite c = true) (hne : w ≠ [])
    (hw : ∀ c ∈ w, isWhite c = false) (hback : ∀ c ∈ back.head?, isWhite c = true) :
    (words (front ++ (w ++ back))).head? = some w := by
  rw [words_white_append hfront]
  cases back with
  | nil => rw [List.append_nil, words_of_black hne hw, List.head?_cons]
  | cons c back =>
    rw [words_append_cons (hback c rfl), words_of_black hne hw]
    rfl

/-- The first word has only white space in front of it, and ends before white space or with the
text. -/
theorem head?_words_iff : (words s).head? = some w ↔
    ∃ front back, s = front ++ (w ++ back) ∧ (∀ c ∈ front, isWhite c = true) ∧ w ≠ [] ∧
      (∀ c ∈ w, isWhite c = false) ∧ ∀ c ∈ back.head?, isWhite c = true := by
  constructor
  · intro h
    induction s with
    | nil => cases h
    | cons c s ih =>
      by_cases hc : isWhite c = true
      · have hwhite : ∀ d ∈ [c], isWhite d = true := by simpa using hc
        rw [← List.singleton_append, words_white_append hwhite] at h
        obtain ⟨front, back, rfl, hfront, hrest⟩ := ih h
        exact ⟨c :: front, back, rfl, List.forall_mem_cons.2 ⟨hc, hfront⟩, hrest⟩
      · have hw : ∀ d ∈ (c :: s).takeWhile (!isWhite ·), isWhite d = false := by
          simpa using List.all_eq_true.1 (List.all_takeWhile (p := (!isWhite ·)) (l := c :: s))
        have hback : ∀ d ∈ ((c :: s).dropWhile (!isWhite ·)).head?, isWhite d = true := by
          intro d hd
          have hnot := List.head?_dropWhile_not (!isWhite ·) (c :: s)
          rw [hd] at hnot
          simpa using hnot
        have hne : (c :: s).takeWhile (!isWhite ·) ≠ [] := by simp [hc]
        have hsplit := List.takeWhile_append_dropWhile (p := (!isWhite ·)) (l := c :: s)
        have hhead := head?_words_append (fun _ hd => absurd hd List.not_mem_nil) hne hw hback
        rw [hsplit, List.nil_append, h] at hhead
        cases hhead
        exact ⟨[], _, hsplit.symm, fun _ hd => absurd hd List.not_mem_nil, hne, hw, hback⟩
  · rintro ⟨front, back, rfl, hfront, hne, hw, hback⟩
    exact head?_words_append hfront hne hw hback

/-! ## The last word -/

/-- The text ends in the word, up to white space. -/
def EndsIn (s w : List Char) : Prop :=
  ∃ front back, s = front ++ (w ++ back) ∧ (∀ c ∈ front.getLast?, isWhite c = true) ∧
    ∀ c ∈ back, isWhite c = true

theorem words_append_word (hfront : ∀ c ∈ front.getLast?, isWhite c = true) (hne : w ≠ [])
    (hw : ∀ c ∈ w, isWhite c = false) (hback : ∀ c ∈ back, isWhite c = true) :
    words (front ++ (w ++ back)) = words front ++ [w] := by
  rw [← List.append_assoc, words_append_white hback]
  rcases List.eq_nil_or_concat front with rfl | ⟨front, c, rfl⟩
  · exact words_of_black hne hw
  · rw [List.concat_eq_append] at hfront ⊢
    have hc : isWhite c = true := hfront c List.getLast?_concat
    rw [List.append_assoc, List.singleton_append, words_append_cons hc, words_of_black hne hw,
      words_append_cons hc, words_nil, List.append_nil]

/-- A text is white, or it ends in a word. -/
theorem white_or_endsIn (s : List Char) :
    (∀ c ∈ s, isWhite c = true) ∨
      ∃ w, w ≠ [] ∧ (∀ c ∈ w, isWhite c = false) ∧ EndsIn s w := by
  induction s with
  | nil => exact .inl fun c hc => absurd hc List.not_mem_nil
  | cons c s ih =>
    cases hc : isWhite c with
    | true =>
      rcases ih with hwhite | ⟨w, hne, hw, front, back, rfl, hfront, hback⟩
      · exact .inl (List.forall_mem_cons.2 ⟨hc, hwhite⟩)
      · refine .inr ⟨w, hne, hw, c :: front, back, rfl, fun d hd => ?_, hback⟩
        cases front with
        | nil =>
          cases hd
          exact hc
        | cons e front => exact hfront d hd
    | false =>
      rcases ih with hwhite | ⟨w, hne, hw, front, back, rfl, hfront, hback⟩
      · refine .inr ⟨[c], List.cons_ne_nil c [], fun d hd => ?_, [], s, rfl, fun d hd => ?_, hwhite⟩
        · rwa [List.mem_singleton.1 hd]
        · cases hd
      · cases front with
        | nil =>
          exact .inr ⟨c :: w, List.cons_ne_nil c w, List.forall_mem_cons.2 ⟨hc, hw⟩, [], back, rfl,
            hfront, hback⟩
        | cons e front => exact .inr ⟨w, hne, hw, c :: e :: front, back, rfl, hfront, hback⟩

theorem getLast?_words_iff (hne : w ≠ []) (hw : ∀ c ∈ w, isWhite c = false) :
    (words s).getLast? = some w ↔ EndsIn s w := by
  constructor
  · intro hlast
    rcases white_or_endsIn s with hwhite | ⟨v, hv, hblack, front, back, hs, hfront, hback⟩
    · rw [words_of_white hwhite] at hlast
      cases hlast
    · rw [hs, words_append_word hfront hv hblack hback, List.getLast?_concat] at hlast
      cases hlast
      exact ⟨front, back, hs, hfront, hback⟩
  · rintro ⟨front, back, rfl, hfront, hback⟩
    rw [words_append_word hfront hne hw hback, List.getLast?_concat]

/-! ## Texts without white space around them -/

/-- No white space stands at either end. -/
structure Trimmed (s : List Char) : Prop where
  head : ∀ c ∈ s.head?, isWhite c = false
  last : ∀ c ∈ s.getLast?, isWhite c = false

theorem Trimmed.nil : Trimmed [] := ⟨fun _ h => (by cases h), fun _ h => (by cases h)⟩

theorem isWhite_getLast?_trimEnd (s : List Char) :
    ∀ c ∈ (trimEnd s).getLast?, isWhite c = false := by
  induction s with
  | nil => exact fun c hc => by cases hc
  | cons d s ih =>
    rw [trimEnd]
    split
    · split
      · exact fun c hc => by cases hc
      · rename_i hd
        rintro c ⟨⟩
        exact Bool.eq_false_iff.2 hd
    · rename_i h
      rw [h] at ih
      exact ih

theorem isWhite_head?_trimStart (s : List Char) :
    ∀ c ∈ (trimStart s).head?, isWhite c = false := by
  intro c hc
  have h := List.head?_dropWhile_not isWhite s
  rwa [show (s.dropWhile isWhite).head? = some c from hc] at h

theorem trimmed_trim (s : List Char) : Trimmed (trim s) := by
  refine ⟨fun c hc => ?_, isWhite_getLast?_trimEnd (trimStart s)⟩
  obtain ⟨t, ht, -⟩ := eq_append_trimEnd (trimStart s)
  refine isWhite_head?_trimStart s c ?_
  rw [ht, List.head?_append, show (trimEnd (trimStart s)).head? = some c from hc]
  rfl

theorem Trimmed.append {t : List Char} (hs : Trimmed s) (ht : Trimmed t) (hne : s ≠ [])
    (hne' : t ≠ []) (between : List Char) : Trimmed (s ++ (between ++ t)) := by
  have hlast := ht.last
  obtain ⟨c, s, rfl⟩ := List.exists_cons_of_ne_nil hne
  rw [List.getLast?_eq_some_getLast hne'] at hlast
  refine ⟨fun d hd => hs.head d hd, ?_⟩
  rw [List.getLast?_append, List.getLast?_append, List.getLast?_eq_some_getLast hne']
  exact hlast

theorem intercalate_ne_nil {p : List Char} (h : p ≠ []) (ps : List (List Char)) :
    [' '].intercalate (p :: ps) ≠ [] := by
  cases ps with
  | nil => rwa [List.intercalate_singleton]
  | cons q ps =>
    rw [List.intercalate_cons_cons, List.append_assoc]
    exact List.append_ne_nil_of_left_ne_nil h _

theorem trimmed_intercalate {ps : List (List Char)} (hne : ∀ p ∈ ps, p ≠ [])
    (h : ∀ p ∈ ps, Trimmed p) : Trimmed ([' '].intercalate ps) := by
  induction ps with
  | nil => exact .nil
  | cons p ps ih =>
    cases ps with
    | nil =>
      rw [List.intercalate_singleton]
      exact h p List.mem_cons_self
    | cons q ps =>
      obtain ⟨hp, hrest⟩ := List.forall_mem_cons.1 h
      obtain ⟨hnep, hnerest⟩ := List.forall_mem_cons.1 hne
      rw [List.intercalate_cons_cons, List.append_assoc]
      exact hp.append (ih hnerest hrest) hnep
        (intercalate_ne_nil (hnerest q List.mem_cons_self) ps) [' ']

end TraceMining.Text
