import TraceMining.Proofs.Waveform.Blanks

/-!
# What the parts of a line read

Every part of a line takes a piece from the front of the text and leaves the rest. Which piece is
not a matter of trying: a run of characters is taken as far as it goes (`run_iff`), and the
literals among which one is looked for do not begin with each other (`keyword?_eq_some_iff`). So
for every part there is one statement of what it takes, in both directions, and a line that is put
together from such pieces is taken apart into them again.
-/

namespace TraceMining.Waveform

open Text

variable {s w g ds rest : List Char} {limit n : Nat}

/-! ## Pieces -/

/-- Blanks, at least one. -/
def Gap (g : List Char) : Prop := g ≠ [] ∧ Blanks g

/-- Characters that are not white, at least one. -/
def Word (w : List Char) : Prop := w ≠ [] ∧ ∀ c ∈ w, isWhite c = false

/-- A word ends before this text: it is empty or begins with white space. -/
def EndsWord (rest : List Char) : Prop := ∀ c ∈ rest.head?, isWhite c = true

/-- Decimal digits, at least one. -/
def Digits (ds : List Char) : Prop := ds ≠ [] ∧ ∀ c ∈ ds, c.isDigit = true

/-- Words behind blanks, any number of them. -/
inductive Words : List Char → Prop
  | nil : Words []
  | cons {g w more : List Char} (hg : Gap g) (hw : Word w) (hmore : Words more) :
    Words (g ++ (w ++ more))

instance (w : List Char) : Decidable (Word w) :=
  @instDecidableAnd _ _ inferInstance (List.decidableBAll (fun c => isWhite c = false) w)

theorem Gap.head (hg : Gap g) (rest : List Char) : ∀ c ∈ (g ++ rest).head?, isBlank c = true := by
  obtain ⟨d, g, rfl⟩ := List.exists_cons_of_ne_nil hg.1
  intro c hc
  cases hc
  exact hg.2 d List.mem_cons_self

theorem Gap.endsWord (hg : Gap g) (rest : List Char) : EndsWord (g ++ rest) :=
  fun c hc => isWhite_of_isBlank (hg.head rest c hc)

theorem EndsWord.of_blanks (hb : Blanks rest) : EndsWord rest :=
  fun c hc => isWhite_of_isBlank (hb c (List.mem_of_head? hc))

theorem EndsWord.append (hs : EndsWord s) (hrest : EndsWord rest) : EndsWord (s ++ rest) := by
  cases s with
  | nil => exact hrest
  | cons c s => exact hs

theorem Words.endsWord (h : Words s) (hrest : EndsWord rest) : EndsWord (s ++ rest) := by
  cases h with
  | nil => exact hrest
  | cons hg hw hmore =>
    rw [List.append_assoc]
    exact hg.endsWord _

theorem isBlank_of_not_isWhite {c : Char} (h : isWhite c = false) : isBlank c = false := by
  cases hc : isBlank c with
  | false => rfl
  | true => rw [isWhite_of_isBlank hc] at h; exact h

theorem isWhite_of_isDigit {c : Char} (h : c.isDigit = true) : isWhite c = false := by
  simp only [Char.isDigit, Bool.and_eq_true, decide_eq_true_eq] at h
  have hlow : 48 ≤ c.toNat := h.1
  have hhigh : c.toNat ≤ 57 := h.2
  simp [isWhite, whiteRanges]
  omega

/-- Blanks are skipped no further than to a word. -/
theorem Word.head (hw : Word w) (rest : List Char) :
    ∀ c ∈ (w ++ rest).head?, isBlank c = false := by
  obtain ⟨d, w, rfl⟩ := List.exists_cons_of_ne_nil hw.1
  intro c hc
  cases hc
  exact isBlank_of_not_isWhite (hw.2 d List.mem_cons_self)

theorem Digits.word (hds : Digits ds) : Word ds :=
  ⟨hds.1, fun c hc => isWhite_of_isDigit (hds.2 c hc)⟩

/-! ## Runs -/

/-- A run of characters is taken as far as it goes. -/
theorem run_iff {p : Char → Bool} : s.takeWhile p = w ∧ s.dropWhile p = rest ↔
    s = w ++ rest ∧ (∀ c ∈ w, p c = true) ∧ ∀ c ∈ rest.head?, p c = false := by
  constructor
  · rintro ⟨rfl, rfl⟩
    refine ⟨List.takeWhile_append_dropWhile.symm, fun c hc => ?_, fun c hc => ?_⟩
    · exact List.all_eq_true.1 List.all_takeWhile c hc
    · have hnot := List.head?_dropWhile_not p s
      rw [hc] at hnot
      exact hnot
  · rintro ⟨rfl, hw, hrest⟩
    rw [List.takeWhile_append_of_pos hw, List.dropWhile_append_of_pos hw]
    cases rest with
    | nil => simp
    | cons c rest =>
      have hc : p c = false := hrest c rfl
      simp [hc]

theorem Word.takeWhile_append (hw : Word w) (hrest : EndsWord rest) :
    (w ++ rest).takeWhile (!isWhite ·) = w := by
  refine (run_iff.2 ⟨rfl, fun c hc => ?_, fun c hc => ?_⟩).1
  · rw [hw.2 c hc]
    rfl
  · rw [hrest c hc]
    rfl

/-! ## Parts -/

theorem word?_eq_some_iff : word? s = some (w, rest) ↔ s = w ++ rest ∧ Word w ∧ EndsWord rest := by
  have hrun : s.takeWhile (!isWhite ·) = w ∧ s.dropWhile (!isWhite ·) = rest ↔
      s = w ++ rest ∧ (∀ c ∈ w, isWhite c = false) ∧ ∀ c ∈ rest.head?, isWhite c = true := by
    simp [run_iff]
  have hread : word? s = some (w, rest) ↔
      w ≠ [] ∧ s.takeWhile (!isWhite ·) = w ∧ s.dropWhile (!isWhite ·) = rest := by
    unfold word?
    dsimp only
    split <;> grind
  rw [hread, hrun, Word, EndsWord]
  grind

theorem number?_eq_some_iff : number? limit s = some (n, rest) ↔
    ∃ ds, s = ds ++ rest ∧ Digits ds ∧ value ds = n ∧ n < limit ∧
      ∀ c ∈ rest.head?, c.isDigit = false := by
  have hread : number? limit s = some (n, rest) ↔ ∃ ds, ds ≠ [] ∧ value ds = n ∧ n < limit ∧
      s.takeWhile Char.isDigit = ds ∧ s.dropWhile Char.isDigit = rest := by
    unfold number?
    dsimp only
    split
    · grind
    · split <;> grind
  simp only [hread, run_iff, Digits]
  grind

theorem blanks?_eq_some_iff : blanks? s = some rest ↔
    ∃ g, s = g ++ rest ∧ Gap g ∧ ∀ c ∈ rest.head?, isBlank c = false := by
  cases s with
  | nil => simp [blanks?, Gap]
  | cons c s =>
    have hrun : ∀ g, s.takeWhile isBlank = g ∧ s.dropWhile isBlank = rest ↔
        s = g ++ rest ∧ Blanks g ∧ ∀ c ∈ rest.head?, isBlank c = false := fun g => run_iff
    constructor
    · intro h
      rw [blanks?] at h
      split at h
      · rename_i hc
        obtain ⟨hs, hg, hrest⟩ := (hrun _).1 ⟨rfl, Option.some.inj h⟩
        refine ⟨c :: s.takeWhile isBlank, congrArg (c :: ·) hs, ⟨by simp, ?_⟩, hrest⟩
        exact List.forall_mem_cons.2 ⟨hc, hg⟩
      · cases h
    · rintro ⟨g, hs, ⟨hne, hg⟩, hrest⟩
      obtain ⟨d, g, rfl⟩ := List.exists_cons_of_ne_nil hne
      cases hs
      obtain ⟨hd, hg⟩ := List.forall_mem_cons.1 hg
      rw [blanks?, if_pos hd, ((hrun g).2 ⟨rfl, hg, hrest⟩).2]

theorem argument?_eq_some_iff : argument? s = some (w, rest) ↔
    ∃ g, s = g ++ (w ++ rest) ∧ Gap g ∧ Word w ∧ EndsWord rest := by
  rw [argument?, Option.bind_eq_some_iff]
  constructor
  · rintro ⟨text, hblanks, hword⟩
    obtain ⟨g, rfl, hg, -⟩ := blanks?_eq_some_iff.1 hblanks
    obtain ⟨rfl, hw, hrest⟩ := word?_eq_some_iff.1 hword
    exact ⟨g, rfl, hg, hw, hrest⟩
  · rintro ⟨g, rfl, hg, hw, hrest⟩
    exact ⟨w ++ rest, blanks?_eq_some_iff.2 ⟨g, rfl, hg, hw.head rest⟩,
      word?_eq_some_iff.2 ⟨rfl, hw, hrest⟩⟩

theorem after?_eq_some_iff {l : List Char} : after? l s = some rest ↔ s = l ++ rest := by
  induction l generalizing s with
  | nil => simp [after?]
  | cons c l ih =>
    cases s with
    | nil => simp [after?]
    | cons d s =>
      rw [after?]
      split
      · rename_i hcd
        simp [ih, hcd]
      · rename_i hcd
        simp [Ne.symm hcd]

/-- None of the literals begins with another one. -/
def PrefixFree (literals : List String) : Prop :=
  ∀ l ∈ literals, ∀ m ∈ literals, l.toList <+: m.toList → l = m

instance (literals : List String) : Decidable (PrefixFree literals) :=
  inferInstanceAs (Decidable (∀ l ∈ literals, ∀ m ∈ literals, l.toList <+: m.toList → l = m))

theorem keyword?_eq_some_iff {literals : List String} (h : PrefixFree literals) :
    keyword? literals s = some (w, rest) ↔ ∃ l ∈ literals, l.toList = w ∧ s = w ++ rest := by
  have hread : ∀ (l : String) (r : List Char × List Char),
      ((after? l.toList s).map fun rest => (l.toList, rest)) = some r ↔
        l.toList = r.1 ∧ s = l.toList ++ r.2 := by
    intro l r
    simp only [Option.map_eq_some_iff, after?_eq_some_iff]
    grind
  unfold keyword?
  constructor
  · intro hfound
    obtain ⟨l, hl, hsome⟩ := List.exists_of_findSome?_eq_some hfound
    obtain ⟨rfl, hs⟩ := (hread l _).1 hsome
    exact ⟨l, hl, rfl, hs⟩
  · rintro ⟨l, hl, rfl, hs⟩
    have hsome : (keyword? literals s).isSome = true :=
      List.findSome?_isSome_iff.2 ⟨l, hl, by rw [(hread l (_, rest)).2 ⟨rfl, hs⟩]; rfl⟩
    obtain ⟨r, hr⟩ := Option.isSome_iff_exists.1 hsome
    obtain ⟨m, hm, hsome⟩ := List.exists_of_findSome?_eq_some hr
    obtain ⟨hmr, hs'⟩ := (hread m r).1 hsome
    -- of the two literals at the beginning of the text, one begins with the other
    have hlm : l = m := by
      rcases List.prefix_or_prefix_of_prefix ⟨rest, hs.symm⟩ ⟨r.2, hs'.symm⟩ with hp | hp
      · exact h l hl m hm hp
      · exact (h m hm l hl hp).symm
    subst hlm
    rw [keyword?] at hr
    rw [hr, List.append_cancel_left (hs.symm.trans hs'), hmr]

/-! ## The end of a line -/

theorem endsHere_iff : endsHere s = true ↔ Blanks s := List.all_eq_true

theorem closes_iff : closes s = true ↔
    ∃ g b, s = g ++ ("$end".toList ++ b) ∧ Gap g ∧ Blanks b := by
  have hread : closes s = true ↔
      ∃ rest, (blanks? s).bind (after? "$end".toList) = some rest ∧ endsHere rest = true := by
    unfold closes
    cases (blanks? s).bind (after? "$end".toList) <;> simp only [Option.some.injEq, exists_eq_left',
      reduceCtorEq, false_and, exists_false, Bool.false_eq_true]
  rw [hread]
  constructor
  · rintro ⟨b, h, hb⟩
    obtain ⟨text, hblanks, hend⟩ := Option.bind_eq_some_iff.1 h
    obtain ⟨g, rfl, hg, -⟩ := blanks?_eq_some_iff.1 hblanks
    rw [after?_eq_some_iff] at hend
    exact ⟨g, b, by rw [hend], hg, endsHere_iff.1 hb⟩
  · rintro ⟨g, b, rfl, hg, hb⟩
    have hword : Word "$end".toList := by decide
    have hblanks : blanks? (g ++ ("$end".toList ++ b)) = some ("$end".toList ++ b) :=
      blanks?_eq_some_iff.2 ⟨g, rfl, hg, hword.head b⟩
    exact ⟨b, Option.bind_eq_some_iff.2 ⟨_, hblanks, after?_eq_some_iff.2 rfl⟩,
      endsHere_iff.2 hb⟩

theorem endsWord_of_closes (h : closes s = true) : EndsWord s := by
  obtain ⟨g, b, rfl, hg, -⟩ := closes_iff.1 h
  exact hg.endsWord _

theorem closesAfterWords_iff : closesAfterWords s = true ↔
    ∃ more rest, s = more ++ rest ∧ Words more ∧ closes rest = true := by
  constructor
  · fun_induction closesAfterWords s with
    | case1 s h => exact fun _ => ⟨[], s, rfl, .nil, h⟩
    | case2 s h word rest hword _ ih =>
      intro hrest
      obtain ⟨g, rfl, hg, hw, -⟩ := argument?_eq_some_iff.1 hword
      obtain ⟨more, tail, rfl, hmore, htail⟩ := ih hrest
      exact ⟨g ++ (word ++ more), tail, by simp, .cons hg hw hmore, htail⟩
    | case3 s h hword => exact fun hfalse => absurd hfalse Bool.false_ne_true
  · rintro ⟨more, rest, rfl, hmore, hrest⟩
    induction hmore with
    | nil =>
      rw [IgnoresBlanks.closesAfterWords_eq, List.nil_append, hrest, Bool.true_or]
    | @cons g w more hg hw hmore ih =>
      have hread : argument? (g ++ (w ++ more) ++ rest) = some (w, more ++ rest) :=
        argument?_eq_some_iff.2 ⟨g, by simp, hg, hw, hmore.endsWord (endsWord_of_closes hrest)⟩
      rw [IgnoresBlanks.closesAfterWords_eq, hread, Option.any_some, ih, Bool.or_true]

end TraceMining.Waveform
