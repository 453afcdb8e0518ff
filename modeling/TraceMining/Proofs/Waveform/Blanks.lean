import TraceMining.Proofs.Waveform.Script

/-!
# White space around a line

White space in front of a line and blanks behind it do not change what the line says, neither as a
command nor as a piece of text in a section, and not the fault for which it is refused
(`ReadAlike.pad`). In front there is nothing to show but that trimming removes it. Behind, every
part of a command either stops before the blanks, which then stand behind what it leaves
(`KeepsBlanks`), or is the last part, which does not notice them (`IgnoresBlanks`); the ten
alternatives are chains of such parts.
-/

namespace TraceMining.Waveform

open Text

variable {α γ : Type} {s b w line : List Char}

/-! ## Runs of characters -/

theorem takeWhile_append_of_forall_not {p : Char → Bool} (hb : ∀ c ∈ b, p c = false)
    (s : List Char) : (s ++ b).takeWhile p = s.takeWhile p := by
  have hnone : b.takeWhile p = [] := by
    cases b with
    | nil => rfl
    | cons c b => exact List.takeWhile_cons_of_neg (by simp [hb c List.mem_cons_self])
  rw [List.takeWhile_append, hnone, List.append_nil]
  split
  · rename_i hall
    exact ((List.takeWhile_sublist p).eq_of_length hall).symm
  · rfl

theorem dropWhile_append_of_forall_not {p : Char → Bool} (hb : ∀ c ∈ b, p c = false)
    (s : List Char) : (s ++ b).dropWhile p = s.dropWhile p ++ b := by
  have hall : b.dropWhile p = b := by
    cases b with
    | nil => rfl
    | cons c b => exact List.dropWhile_cons_of_neg (by simp [hb c List.mem_cons_self])
  rw [List.dropWhile_append, hall]
  split
  · rename_i hnone
    rw [List.isEmpty_iff.1 hnone, List.nil_append]
  · rfl

theorem dropWhile_eq_nil_of_forall {p : Char → Bool} (hb : ∀ c ∈ b, p c = true) :
    b.dropWhile p = [] := by
  rw [← List.append_nil b, List.dropWhile_append_of_pos hb]
  rfl

/-! ## Parts of a line -/

/-- The text holds blanks only. -/
def Blanks (b : List Char) : Prop := ∀ c ∈ b, isBlank c = true

instance (b : List Char) : Decidable (Blanks b) :=
  List.decidableBAll (fun c => isBlank c = true) b

/-- Blanks behind a text do not change what is read from it. -/
def IgnoresBlanks (f : List Char → γ) : Prop := ∀ s b, Blanks b → f (s ++ b) = f s

/-- Blanks behind a text do not change what a part reads and stand behind what it leaves; a part
that skips the last character of the text may skip some of them. -/
def KeepsBlanks (part : List Char → Option (α × List Char)) : Prop :=
  ∀ s b, Blanks b → ∃ b', Blanks b' ∧
    part (s ++ b) = (part s).map fun (a, rest) => (a, rest ++ b')

theorem Blanks.nil : Blanks [] := fun _ h => absurd h List.not_mem_nil

theorem Blanks.isWhite (hb : Blanks b) : ∀ c ∈ b, isWhite c = true :=
  fun c hc => isWhite_of_isBlank (hb c hc)

theorem isBlank_iff {c : Char} : isBlank c = true ↔ c = ' ' ∨ c = '\t' := by
  simp only [isBlank, Bool.or_eq_true, beq_iff_eq]

theorem isDigit_of_isBlank {c : Char} (h : isBlank c = true) : c.isDigit = false := by
  rcases isBlank_iff.1 h with rfl | rfl <;> decide

theorem isBit_of_isBlank {c : Char} (h : isBlank c = true) : isBit c = false := by
  rcases isBlank_iff.1 h with rfl | rfl <;> decide

/-- A literal without blanks does not reach into blanks. -/
theorem after?_append (hb : Blanks b) :
    ∀ {l : List Char}, l.any isBlank = false → ∀ s : List Char,
      after? l (s ++ b) = (after? l s).map (· ++ b)
  | [], _, _ => rfl
  | d :: l, hl, [] => by
    rw [List.any_cons, Bool.or_eq_false_iff] at hl
    cases b with
    | nil => rfl
    | cons c b =>
      have hne : d ≠ c := by
        rintro rfl
        exact Bool.false_ne_true (hl.1.symm.trans (hb d List.mem_cons_self))
      exact if_neg hne
  | d :: l, hl, c :: s => by
    rw [List.any_cons, Bool.or_eq_false_iff] at hl
    rw [List.cons_append, after?, after?]
    split
    · exact after?_append hb hl.2 s
    · rfl

/-- Behind the first character, blanks are skipped or stand behind what is left. -/
theorem exists_blanks?_append (hb : Blanks b) (c : Char) (s : List Char) :
    ∃ b', Blanks b' ∧ blanks? (c :: s ++ b) = (blanks? (c :: s)).map (· ++ b') := by
  rw [List.cons_append, blanks?, blanks?, List.dropWhile_append]
  split
  · by_cases hs : (s.dropWhile isBlank).isEmpty
    · refine ⟨[], Blanks.nil, ?_⟩
      rw [if_pos hs, dropWhile_eq_nil_of_forall hb, List.isEmpty_iff.1 hs]
      rfl
    · exact ⟨b, hb, by rw [if_neg hs]; rfl⟩
  · exact ⟨b, hb, rfl⟩

theorem blanks?_of_blanks {c : Char} (hb : Blanks (c :: b)) : blanks? (c :: b) = some [] := by
  rw [blanks?, if_pos (hb c List.mem_cons_self),
    dropWhile_eq_nil_of_forall fun d hd => hb d (List.mem_cons_of_mem _ hd)]

/-- Nothing is behind blanks that are all there is. -/
theorem bind_blanks?_eq_none {f : List Char → Option γ} (hnil : f [] = none) (hb : Blanks b) :
    (blanks? b).bind f = none := by
  cases b with
  | nil => rfl
  | cons c b => rw [blanks?_of_blanks hb, Option.bind_some, hnil]

/-! ### Parts that leave something -/

theorem keepsBlanks_word? : KeepsBlanks word? := by
  intro s b hb
  have hword : ∀ c ∈ b, (!isWhite c) = false := fun c hc => by simp [hb.isWhite c hc]
  refine ⟨b, hb, ?_⟩
  unfold word?
  rw [takeWhile_append_of_forall_not hword, dropWhile_append_of_forall_not hword]
  dsimp only
  split <;> rfl

theorem keepsBlanks_number? (limit : Nat) : KeepsBlanks (number? limit) := by
  intro s b hb
  have hdigit : ∀ c ∈ b, c.isDigit = false := fun c hc => isDigit_of_isBlank (hb c hc)
  refine ⟨b, hb, ?_⟩
  unfold number?
  rw [takeWhile_append_of_forall_not hdigit, dropWhile_append_of_forall_not hdigit]
  dsimp only
  split
  · rfl
  · split <;> rfl

theorem keepsBlanks_keyword? {literals : List String}
    (h : ∀ l ∈ literals, l.toList.any isBlank = false) : KeepsBlanks (keyword? literals) := by
  intro s b hb
  refine ⟨b, hb, ?_⟩
  unfold keyword?
  induction literals with
  | nil => rfl
  | cons l literals ih =>
    rw [List.findSome?_cons, List.findSome?_cons, after?_append hb (h l List.mem_cons_self),
      ih fun m hm => h m (List.mem_cons_of_mem _ hm)]
    cases after? l.toList s <;> rfl

/-- Blanks that must stand before a part may be all that is there. -/
theorem KeepsBlanks.behind_blanks {part : List Char → Option (α × List Char)}
    (h : KeepsBlanks part) (hnil : part [] = none) :
    KeepsBlanks fun s => (blanks? s).bind part := by
  intro s b hb
  cases s with
  | nil => exact ⟨b, hb, bind_blanks?_eq_none hnil hb⟩
  | cons c s =>
    obtain ⟨b₁, hb₁, hblanks⟩ := exists_blanks?_append hb c s
    dsimp only
    rw [hblanks]
    cases blanks? (c :: s) with
    | none => exact ⟨b, hb, rfl⟩
    | some rest => exact h rest b₁ hb₁

theorem keepsBlanks_argument? : KeepsBlanks argument? :=
  keepsBlanks_word?.behind_blanks rfl

/-! ### Parts that end a line -/

namespace IgnoresBlanks

theorem of_part {part : List Char → Option (α × List Char)} {f : α × List Char → Option γ}
    (hpart : KeepsBlanks part) (hf : ∀ a, IgnoresBlanks fun rest => f (a, rest)) :
    IgnoresBlanks fun s => (part s).bind f := by
  intro s b hb
  obtain ⟨b', hb', hs⟩ := hpart s b hb
  dsimp only
  rw [hs]
  cases part s with
  | none => rfl
  | some r => exact hf r.1 r.2 b' hb'

theorem of_after? {l : List Char} {f : List Char → Option γ} (hl : l.any isBlank = false)
    (hf : IgnoresBlanks f) : IgnoresBlanks fun s => (after? l s).bind f := by
  intro s b hb
  dsimp only
  rw [after?_append hb hl]
  cases after? l s with
  | none => rfl
  | some rest => exact hf rest b hb

theorem of_blanks? {f : List Char → Option γ} (hf : IgnoresBlanks f) (hnil : f [] = none) :
    IgnoresBlanks fun s => (blanks? s).bind f := by
  intro s b hb
  cases s with
  | nil => exact bind_blanks?_eq_none hnil hb
  | cons c s =>
    obtain ⟨b₁, hb₁, hblanks⟩ := exists_blanks?_append hb c s
    dsimp only
    rw [hblanks]
    cases blanks? (c :: s) with
    | none => rfl
    | some rest => exact hf rest b₁ hb₁

theorem endsHere : IgnoresBlanks Waveform.endsHere := by
  intro s b hb
  unfold Waveform.endsHere
  rw [List.all_append, List.all_eq_true.2 hb, Bool.and_true]

theorem ite {c : List Char → Bool} {x y : γ} (hc : IgnoresBlanks c) :
    IgnoresBlanks fun s => if c s then x else y := by
  intro s b hb
  dsimp only
  rw [hc s b hb]

theorem comp {f : List Char → α} (hf : IgnoresBlanks f) (g : α → γ) :
    IgnoresBlanks fun s => g (f s) :=
  fun s b hb => congrArg g (hf s b hb)

theorem ite_const {p : Prop} [Decidable p] {f g : List Char → γ} (hf : IgnoresBlanks f)
    (hg : IgnoresBlanks g) : IgnoresBlanks fun s => if p then f s else g s := by
  by_cases hp : p
  · simpa only [hp, if_true] using hf
  · simpa only [hp, if_false] using hg

theorem const (x : γ) : IgnoresBlanks fun _ => x := fun _ _ _ => rfl

theorem findSome? {fs : List (List Char → Option γ)} (h : ∀ f ∈ fs, IgnoresBlanks f) :
    IgnoresBlanks fun s => fs.findSome? (· s) := by
  intro s b hb
  dsimp only
  induction fs with
  | nil => rfl
  | cons f fs ih =>
    rw [List.findSome?_cons, List.findSome?_cons, h f List.mem_cons_self s b hb,
      ih fun g hg => h g (List.mem_cons_of_mem _ hg)]

theorem closes : IgnoresBlanks Waveform.closes := by
  have hchain : IgnoresBlanks fun s => (blanks? s).bind fun rest =>
      (after? "$end".toList rest).bind fun rest => some (Waveform.endsHere rest) :=
    of_blanks? (of_after? (by decide) (endsHere.comp some)) rfl
  have hcloses : ∀ s, Waveform.closes s = ((blanks? s).bind fun rest =>
      (after? "$end".toList rest).bind fun rest =>
        some (Waveform.endsHere rest)).getD false := by
    intro s
    unfold Waveform.closes
    rw [← Option.bind_assoc]
    cases (blanks? s).bind (after? "$end".toList) <;> rfl
  intro s b hb
  rw [hcloses, hcloses]
  exact congrArg (·.getD false) (hchain s b hb)

theorem closesAfterWords_eq (s : List Char) : Waveform.closesAfterWords s =
    (Waveform.closes s || (argument? s).any fun r => Waveform.closesAfterWords r.2) := by
  rw [Waveform.closesAfterWords]
  split
  · rename_i h
    rw [h, Bool.true_or]
  · rename_i h
    rw [Bool.not_eq_true] at h
    rw [h, Bool.false_or]
    split
    · rename_i hword
      simp only [hword, Option.any_some]
    · rename_i hword
      simp only [hword, Option.any_none]

theorem closesAfterWords : IgnoresBlanks Waveform.closesAfterWords := by
  intro s
  fun_induction Waveform.closesAfterWords s with
  | case1 s h =>
    intro b hb
    rw [closesAfterWords_eq, closes s b hb, h, Bool.true_or]
  | case2 s h word rest hword hlt ih =>
    intro b hb
    obtain ⟨b', hb', hs⟩ := keepsBlanks_argument? s b hb
    rw [closesAfterWords_eq, closes s b hb, hs, hword, Bool.eq_false_iff.2 h]
    exact ih b' hb'
  | case3 s h hword =>
    intro b hb
    obtain ⟨b', -, hs⟩ := keepsBlanks_argument? s b hb
    rw [closesAfterWords_eq, closes s b hb, hs, hword, Bool.eq_false_iff.2 h]
    rfl

end IgnoresBlanks

/-! ## Trimming -/

theorem trimStart_white_append (hw : ∀ c ∈ w, isWhite c = true) (s : List Char) :
    trimStart (w ++ s) = trimStart s :=
  List.dropWhile_append_of_pos hw

theorem exists_trimStart_append (hb : Blanks b) (s : List Char) :
    ∃ b', Blanks b' ∧ trimStart (s ++ b) = trimStart s ++ b' := by
  unfold trimStart
  rw [List.dropWhile_append]
  split
  · rename_i hnone
    refine ⟨[], Blanks.nil, ?_⟩
    rw [dropWhile_eq_nil_of_forall hb.isWhite, List.isEmpty_iff.1 hnone]
    rfl
  · exact ⟨b, hb, rfl⟩

theorem trimEnd_of_white (hw : ∀ c ∈ w, isWhite c = true) : trimEnd w = [] := by
  induction w with
  | nil => rfl
  | cons c w ih =>
    rw [trimEnd, ih fun d hd => hw d (List.mem_cons_of_mem _ hd)]
    exact if_pos (hw c List.mem_cons_self)

theorem trimEnd_append_white (hw : ∀ c ∈ w, isWhite c = true) (s : List Char) :
    trimEnd (s ++ w) = trimEnd s := by
  induction s with
  | nil => exact trimEnd_of_white hw
  | cons c s ih => rw [List.cons_append, trimEnd, trimEnd, ih]

theorem trimEnd_append_of_ne_nil (h : trimEnd s ≠ []) (w : List Char) :
    trimEnd (w ++ s) = w ++ trimEnd s := by
  induction w with
  | nil => rfl
  | cons c w ih =>
    rw [List.cons_append, trimEnd, ih]
    split
    · rename_i hnil
      exact absurd (List.append_eq_nil_iff.1 hnil).2 h
    · rename_i heq
      rw [← heq]
      rfl

theorem isWhiteOnly_append_white (hw : ∀ c ∈ w, isWhite c = true) (s : List Char) :
    isWhiteOnly (s ++ w) = isWhiteOnly s := by
  unfold isWhiteOnly
  rw [List.all_append, List.all_eq_true.2 hw, Bool.and_true]

theorem isWhiteOnly_white_append (hw : ∀ c ∈ w, isWhite c = true) (s : List Char) :
    isWhiteOnly (w ++ s) = isWhiteOnly s := by
  unfold isWhiteOnly
  rw [List.all_append, List.all_eq_true.2 hw, Bool.true_and]

/-! ## Pieces of text -/

theorem sectionText_append_white (hw : ∀ c ∈ w, isWhite c = true) (s : List Char) :
    sectionText (s ++ w) = sectionText s := by
  unfold sectionText
  rw [trimEnd_append_white hw]

theorem sectionText_of_isWhiteOnly (h : isWhiteOnly line = true) :
    sectionText line = ([], false) := by
  unfold sectionText
  rw [trimEnd_of_white (List.all_eq_true.1 h)]
  decide +kernel

theorem sectionText_of_suffix {body : List Char} (h : trimEnd s = body ++ "$end".toList) :
    sectionText s = if (body.getLast?.map isWhite).getD true then (trim body, true)
      else (trim (body ++ "$end".toList), false) := by
  have hbody : (body ++ "$end".toList).take ((body ++ "$end".toList).length - 4) = body := by
    have hlength : "$end".toList.length = 4 := by decide
    rw [List.length_append, hlength, Nat.add_sub_cancel, List.take_left]
  have hsuffix : "$end".toList.isSuffixOf (body ++ "$end".toList) = true :=
    List.isSuffixOf_iff_suffix.2 (List.suffix_append _ _)
  unfold sectionText
  rw [h]
  simp only [hbody, hsuffix, Bool.true_and]

theorem sectionText_of_not_suffix (h : ¬"$end".toList <:+ trimEnd s) :
    sectionText s = (trim (trimEnd s), false) := by
  have hsuffix : "$end".toList.isSuffixOf (trimEnd s) = false := by
    rw [Bool.eq_false_iff, ne_eq, List.isSuffixOf_iff_suffix]
    exact h
  unfold sectionText
  simp only [hsuffix, Bool.false_and, Bool.false_eq_true, if_false]

/-- The closing keyword does not reach into white space in front of it. -/
theorem suffix_of_suffix_append (hw : ∀ c ∈ w, isWhite c = true) (hs : s ≠ [])
    (h : "$end".toList <:+ w ++ s) : "$end".toList <:+ s := by
  obtain ⟨front, hfront⟩ := h
  rcases List.append_eq_append_iff.1 hfront with ⟨mid, rfl, hend⟩ | ⟨mid, -, rfl⟩
  · have hblack : "$end".toList.any isWhite = false := by decide
    cases mid with
    | nil => exact ⟨[], hend⟩
    | cons c mid =>
      rw [hend, List.cons_append, List.any_cons, hw c (by simp)] at hblack
      cases hblack
  · exact ⟨mid, rfl⟩

theorem getLast?_white_append (hw : ∀ c ∈ w, isWhite c = true) (s : List Char) :
    ((w ++ s).getLast?.map isWhite).getD true = (s.getLast?.map isWhite).getD true := by
  rw [List.getLast?_append]
  cases hs : s.getLast? with
  | some c => rfl
  | none =>
    cases hlast : w.getLast? with
    | none => rfl
    | some c => exact hw c (List.mem_of_getLast? hlast)

theorem sectionText_white_append (hw : ∀ c ∈ w, isWhite c = true) (s : List Char) :
    sectionText (w ++ s) = sectionText s := by
  have htrim : ∀ t, trim (w ++ t) = trim t := fun t =>
    congrArg trimEnd (trimStart_white_append hw t)
  by_cases hnil : trimEnd s = []
  · have hs : isWhiteOnly s = true := by
      obtain ⟨t, ht, hwhite⟩ := eq_append_trimEnd s
      rw [hnil, List.nil_append] at ht
      exact List.all_eq_true.2 (ht ▸ hwhite)
    rw [sectionText_of_isWhiteOnly hs, sectionText_of_isWhiteOnly]
    rw [isWhiteOnly_white_append hw, hs]
  · have hfront := trimEnd_append_of_ne_nil hnil w
    by_cases hsuffix : "$end".toList <:+ trimEnd s
    · obtain ⟨body, hbody⟩ := hsuffix
      rw [← hbody, ← List.append_assoc] at hfront
      rw [sectionText_of_suffix hbody.symm, sectionText_of_suffix hfront,
        getLast?_white_append hw, htrim, List.append_assoc, htrim]
    · have hnot : ¬"$end".toList <:+ trimEnd (w ++ s) := by
        rw [hfront]
        exact fun h => hsuffix (suffix_of_suffix_append hw hnil h)
      rw [sectionText_of_not_suffix hsuffix, sectionText_of_not_suffix hnot, hfront, htrim]

/-! ## The ten alternatives -/

namespace IgnoresBlanks

theorem sectionText : IgnoresBlanks Waveform.sectionText :=
  fun s _ hb => sectionText_append_white hb.isWhite s

theorem openScope? : IgnoresBlanks Waveform.openScope? := by
  refine of_after? (by decide) ?_
  refine of_blanks? ?_ rfl
  refine of_part (keepsBlanks_keyword? (by decide)) fun kind => ?_
  refine of_part keepsBlanks_argument? fun name => ?_
  exact closes.ite

theorem closeScope? : IgnoresBlanks Waveform.closeScope? :=
  of_after? (by decide) closes.ite

theorem declare? : IgnoresBlanks Waveform.declare? := by
  refine of_after? (by decide) ?_
  refine of_part keepsBlanks_argument? fun type => ?_
  refine of_blanks? ?_ rfl
  refine of_part (keepsBlanks_number? _) fun width => ?_
  refine of_part keepsBlanks_argument? fun code => ?_
  refine of_part keepsBlanks_argument? fun name => ?_
  exact closesAfterWords.ite

theorem endDefinitions? : IgnoresBlanks Waveform.endDefinitions? :=
  of_after? (by decide) closes.ite

theorem header? : IgnoresBlanks Waveform.header? := by
  refine of_part (keepsBlanks_keyword? (by decide)) fun keyword s b hb => ?_
  cases s with
  | nil =>
    cases b with
    | nil => rfl
    | cons c b =>
      simp only [List.nil_append, List.isEmpty_cons, blanks?_of_blanks hb]
      rfl
  | cons c s =>
    obtain ⟨b', hb', hrest⟩ := exists_blanks?_append hb c s
    simp only [List.cons_append, List.isEmpty_cons] at hrest ⊢
    rw [hrest]
    cases blanks? (c :: s) with
    | none => rfl
    | some text =>
      simp [sectionText text b' hb']

theorem marker? : IgnoresBlanks Waveform.marker? := by
  refine of_part (keepsBlanks_keyword? (by decide)) fun _ s b hb => ?_
  simp only [closes s b hb, endsHere s b hb]

/-- Of a line that does not begin with a blank, the blanks behind the first character count. -/
theorem of_cons {f : List Char → Option γ} (hnil : f [] = none) (hspace : ∀ s, f (' ' :: s) = none)
    (htab : ∀ s, f ('\t' :: s) = none) (hcons : ∀ c, IgnoresBlanks fun s => f (c :: s)) :
    IgnoresBlanks f := by
  intro s b hb
  cases s with
  | nil =>
    cases b with
    | nil => rfl
    | cons c b =>
      rw [List.nil_append, hnil]
      rcases isBlank_iff.1 (hb c List.mem_cons_self) with rfl | rfl
      · exact hspace b
      · exact htab b
  | cons c s => exact hcons c s b hb

theorem timestamp? : IgnoresBlanks Waveform.timestamp? := by
  refine of_cons rfl (fun _ => rfl) (fun _ => rfl) fun c => ?_
  by_cases hc : c = '#'
  · subst hc
    exact of_part (keepsBlanks_number? _) fun _ => endsHere.ite
  · have hnone : ∀ s, Waveform.timestamp? (c :: s) = none := by
      intro s
      unfold Waveform.timestamp?
      split
      · rename_i heq
        exact absurd (List.cons.inj heq).1 hc
      · rfl
    exact fun s b _ => (hnone (s ++ b)).trans (hnone s).symm

theorem vector? : IgnoresBlanks Waveform.vector? := by
  refine of_cons rfl (fun _ => rfl) (fun _ => rfl) fun c s b hb => ?_
  have hbit : ∀ d ∈ b, isBit d = false := fun d hd => isBit_of_isBlank (hb d hd)
  obtain ⟨b', hb', hcode⟩ := keepsBlanks_argument? (s.dropWhile isBit) b hb
  simp only [Waveform.vector?]
  rw [takeWhile_append_of_forall_not hbit, dropWhile_append_of_forall_not hbit, hcode]
  split
  · cases argument? (s.dropWhile isBit) with
    | none => rfl
    | some r => exact endsHere.ite r.2 b' hb'
  · rfl

theorem real? : IgnoresBlanks Waveform.real? := by
  refine of_cons rfl (fun _ => rfl) (fun _ => rfl) fun c => ?_
  refine ite_const ?_ (const none)
  refine of_part keepsBlanks_word? fun number => ?_
  refine of_part keepsBlanks_argument? fun code => ?_
  exact endsHere.ite

theorem scalar? : IgnoresBlanks Waveform.scalar? := by
  refine of_cons rfl (fun _ => rfl) (fun _ => rfl) fun bit => ?_
  refine ite_const ?_ (const none)
  refine of_part keepsBlanks_word? fun code => ?_
  exact endsHere.ite

end IgnoresBlanks

theorem ignoresBlanks_of_mem_alternatives : ∀ f ∈ alternatives, IgnoresBlanks f := by
  simp only [alternatives, List.forall_mem_cons]
  exact ⟨.openScope?, .closeScope?, .declare?, .endDefinitions?, .header?, .marker?, .timestamp?,
    .vector?, .real?, .scalar?, List.forall_mem_nil _⟩

/-! ## The whole line -/

/-- Two lines of which the same is read, wherever they stand. -/
structure ReadAlike (line line' : List Char) : Prop where
  command : command? line' = command? line
  white : isWhiteOnly line' = isWhiteOnly line
  text : sectionText line' = sectionText line
  fault : malformed line' = malformed line

namespace ReadAlike

theorem refl (line : List Char) : ReadAlike line line := ⟨rfl, rfl, rfl, rfl⟩

theorem trans {line₁ line₂ line₃ : List Char} (h : ReadAlike line₁ line₂)
    (h' : ReadAlike line₂ line₃) : ReadAlike line₁ line₃ :=
  ⟨h'.command.trans h.command, h'.white.trans h.white, h'.text.trans h.text,
    h'.fault.trans h.fault⟩

theorem white_append (hw : ∀ c ∈ w, isWhite c = true) (line : List Char) :
    ReadAlike line (w ++ line) := by
  refine ⟨?_, isWhiteOnly_white_append hw line, sectionText_white_append hw line, ?_⟩
  · unfold command?
    rw [trimStart_white_append hw]
  · unfold malformed firstWord
    rw [trimStart_white_append hw]

theorem append_blanks (hb : Blanks b) (line : List Char) : ReadAlike line (line ++ b) := by
  obtain ⟨b', hb', hstart⟩ := exists_trimStart_append hb line
  have hword : ∀ c ∈ b', (!isWhite c) = false := fun c hc => by simp [hb'.isWhite c hc]
  refine ⟨?_, isWhiteOnly_append_white hb.isWhite line, sectionText_append_white hb.isWhite line,
    ?_⟩
  · unfold command?
    rw [hstart]
    exact IgnoresBlanks.findSome? ignoresBlanks_of_mem_alternatives _ b' hb'
  · unfold malformed firstWord
    rw [hstart, takeWhile_append_of_forall_not hword]

/-- White space in front of a line and blanks behind it do not change what is read of it. -/
theorem pad (hw : ∀ c ∈ w, isWhite c = true) (hb : Blanks b) (line : List Char) :
    ReadAlike line (w ++ line ++ b) :=
  (white_append hw line).trans (append_blanks hb (w ++ line))

end ReadAlike

end TraceMining.Waveform
