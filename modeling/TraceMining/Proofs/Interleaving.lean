import TraceMining.Interleaving
import TraceMining.Proofs.Ordered

/-!
# What merging keeps

One step of merging takes the head of one side or of both (`next?_cases`). So the changes of either
wire come out of the merged sequence as they went in (`filterMap_left?_toList`,
`filterMap_right?_toList`), and a joint change is a change of both wires at one time
(`exists_lookup_of_both_mem`).

What is taken is earlier than everything that is left (`lt_time_of_next?`). So the merged sequence
has each time of either wire once, in increasing order (`pairwise_time_cooccurrences`,
`exists_mem_cooccurrences_iff`), and its sides tell to which wires the time belongs
(`ofLeft_iff`, `ofRight_iff`).
-/

namespace TraceMining

namespace Cooccurrence

/-- The first wire changed. -/
def ofLeft (c : Cooccurrence) : Bool := c.left?.isSome

/-- The second wire changed. -/
def ofRight (c : Cooccurrence) : Bool := c.right?.isSome

theorem time_of_left? {c : Cooccurrence} {x : Change} (h : c.left? = some x) : c.time = x.1 := by
  cases c <;> cases h <;> rfl

end Cooccurrence

namespace Interleaving

/-- Which changes a step takes: the earlier one, or both at one time. -/
theorem next?_cases {m n : Interleaving} {c : Cooccurrence} (h : m.next? = some (c, n)) :
    (∃ x, c = .left x ∧ m.left = x :: n.left ∧ m.right = n.right ∧
      ∀ y ∈ m.right.head?, x.1 < y.1) ∨
    (∃ y, c = .right y ∧ m.left = n.left ∧ m.right = y :: n.right ∧
      ∀ x ∈ m.left.head?, y.1 < x.1) ∨
    (∃ x y, c = .both x y ∧ m.left = x :: n.left ∧ m.right = y :: n.right ∧ x.1 = y.1) := by
  obtain ⟨as, bs⟩ := m
  rcases as with _ | ⟨a, as⟩ <;> rcases bs with _ | ⟨b, bs⟩
  · simp [next?] at h
  · simp only [next?, Option.some.injEq, Prod.mk.injEq] at h
    obtain ⟨rfl, rfl⟩ := h
    exact .inr (.inl ⟨b, rfl, rfl, rfl, by simp⟩)
  · simp only [next?, Option.some.injEq, Prod.mk.injEq] at h
    obtain ⟨rfl, rfl⟩ := h
    exact .inl ⟨a, rfl, rfl, rfl, by simp⟩
  · simp only [next?] at h
    by_cases hab : a.1 < b.1
    · rw [if_pos hab] at h
      cases h
      exact .inl ⟨a, rfl, rfl, rfl, by simpa using hab⟩
    · rw [if_neg hab] at h
      by_cases hba : b.1 < a.1
      · rw [if_pos hba] at h
        cases h
        exact .inr (.inl ⟨b, rfl, rfl, rfl, by simpa using hba⟩)
      · rw [if_neg hba] at h
        cases h
        have htime : a.1 = b.1 := Nat.le_antisymm (Nat.not_lt.1 hba) (Nat.not_lt.1 hab)
        exact .inr (.inr ⟨a, b, rfl, rfl, rfl, htime⟩)

theorem eq_nil_of_next?_eq_none {m : Interleaving} (h : m.next? = none) :
    m.left = [] ∧ m.right = [] := by
  obtain ⟨as, bs⟩ := m
  rcases as with _ | ⟨a, as⟩ <;> rcases bs with _ | ⟨b, bs⟩
  · exact ⟨rfl, rfl⟩
  · simp [next?] at h
  · simp [next?] at h
  · simp only [next?] at h
    split at h
    · cases h
    · split at h <;> cases h

theorem toList_of_none {m : Interleaving} (h : m.next? = none) : m.toList = [] := by
  rw [toList]
  split
  · rfl
  · rename_i h'
    rw [h] at h'
    cases h'

theorem toList_of_some {m n : Interleaving} {c : Cooccurrence} (h : m.next? = some (c, n)) :
    m.toList = c :: n.toList := by
  rw [toList]
  split
  · rename_i h'
    rw [h] at h'
    cases h'
  · rename_i h'
    rw [h] at h'
    cases h'
    rfl

theorem filterMap_left?_toList (m : Interleaving) :
    m.toList.filterMap Cooccurrence.left? = m.left := by
  induction m using toList.induct with
  | case1 m h => rw [toList_of_none h, (eq_nil_of_next?_eq_none h).1, List.filterMap_nil]
  | case2 m c n h _ ih =>
    rw [toList_of_some h]
    rcases next?_cases h with ⟨x, rfl, hl, -, -⟩ | ⟨y, rfl, hl, -, -⟩ | ⟨x, y, rfl, hl, -, -⟩
    · simp only [List.filterMap_cons, Cooccurrence.left?, ih, hl]
    · simp only [List.filterMap_cons, Cooccurrence.left?, ih, hl]
    · simp only [List.filterMap_cons, Cooccurrence.left?, ih, hl]

theorem filterMap_right?_toList (m : Interleaving) :
    m.toList.filterMap Cooccurrence.right? = m.right := by
  induction m using toList.induct with
  | case1 m h => rw [toList_of_none h, (eq_nil_of_next?_eq_none h).2, List.filterMap_nil]
  | case2 m c n h _ ih =>
    rw [toList_of_some h]
    rcases next?_cases h with ⟨x, rfl, -, hr, -⟩ | ⟨y, rfl, -, hr, -⟩ | ⟨x, y, rfl, -, hr, -⟩
    · simp only [List.filterMap_cons, Cooccurrence.right?, ih, hr]
    · simp only [List.filterMap_cons, Cooccurrence.right?, ih, hr]
    · simp only [List.filterMap_cons, Cooccurrence.right?, ih, hr]

theorem mem_left_of_mem {m : Interleaving} {c : Cooccurrence} {x : Change} (h : c ∈ m.toList)
    (hc : c.left? = some x) : x ∈ m.left := by
  rw [← filterMap_left?_toList]
  exact List.mem_filterMap.2 ⟨c, h, hc⟩

theorem mem_right_of_mem {m : Interleaving} {c : Cooccurrence} {y : Change} (h : c ∈ m.toList)
    (hc : c.right? = some y) : y ∈ m.right := by
  rw [← filterMap_right?_toList]
  exact List.mem_filterMap.2 ⟨c, h, hc⟩

theorem eq_time_of_both_mem {m : Interleaving} {x y : Change} (h : .both x y ∈ m.toList) :
    x.1 = y.1 := by
  induction m using toList.induct with
  | case1 m hm =>
    rw [toList_of_none hm] at h
    cases h
  | case2 m c n hm _ ih =>
    rw [toList_of_some hm] at h
    rcases List.mem_cons.1 h with rfl | h
    · rcases next?_cases hm with ⟨z, hz, -⟩ | ⟨z, hz, -⟩ | ⟨z, w, hz, -, -, htime⟩
      · cases hz
      · cases hz
      · cases hz
        exact htime
    · exact ih h

/-! ### The order of what is taken -/

/-- What comes before the head comes before all. -/
theorem lt_of_lt_head? {t : Time} : ∀ {entries : List Change}, KeysIncrease entries →
    (∀ x ∈ entries.head?, t < x.1) → ∀ x ∈ entries, t < x.1
  | [], _, _, _, hx => by cases hx
  | _ :: _, h, ht, _, hx => by
    rcases List.mem_cons.1 hx with rfl | hx
    · exact ht _ rfl
    · exact Nat.lt_trans (ht _ rfl) (h.lt_of_mem hx)

variable {m n : Interleaving} {c : Cooccurrence}

theorem lt_time_of_next? (h : m.next? = some (c, n)) (hl : KeysIncrease m.left)
    (hr : KeysIncrease m.right) :
    (∀ x ∈ n.left, c.time < x.1) ∧ ∀ y ∈ n.right, c.time < y.1 := by
  rcases next?_cases h with ⟨x, rfl, hleft, hright, hx⟩ | ⟨y, rfl, hleft, hright, hy⟩ |
    ⟨x, y, rfl, hleft, hright, hxy⟩
  · rw [hleft] at hl
    exact ⟨fun _ => hl.lt_of_mem, hright ▸ lt_of_lt_head? hr hx⟩
  · rw [hright] at hr
    exact ⟨hleft ▸ lt_of_lt_head? hl hy, fun _ => hr.lt_of_mem⟩
  · rw [hleft] at hl
    rw [hright] at hr
    have hle : x.1 ≤ y.1 := Nat.le_of_eq hxy
    exact ⟨fun _ => hl.lt_of_mem, fun _ hz => Nat.lt_of_le_of_lt hle (hr.lt_of_mem hz)⟩

/-- What is left is in order, as what was taken from. -/
theorem keysIncrease_of_next? (h : m.next? = some (c, n)) (hl : KeysIncrease m.left)
    (hr : KeysIncrease m.right) : KeysIncrease n.left ∧ KeysIncrease n.right := by
  rcases next?_cases h with ⟨x, -, hl', hr', -⟩ | ⟨y, -, hl', hr', -⟩ | ⟨x, y, -, hl', hr', -⟩
  · exact ⟨(List.pairwise_cons.1 (hl' ▸ hl)).2, hr' ▸ hr⟩
  · exact ⟨hl' ▸ hl, (List.pairwise_cons.1 (hr' ▸ hr)).2⟩
  · exact ⟨(List.pairwise_cons.1 (hl' ▸ hl)).2, (List.pairwise_cons.1 (hr' ▸ hr)).2⟩

/-- Every co-occurrence has its time from a change that was merged. -/
theorem exists_time_of_mem (h : c ∈ m.toList) :
    (∃ x ∈ m.left, x.1 = c.time) ∨ ∃ y ∈ m.right, y.1 = c.time := by
  cases c with
  | left x => exact .inl ⟨x, mem_left_of_mem h rfl, rfl⟩
  | right y => exact .inr ⟨y, mem_right_of_mem h rfl, rfl⟩
  | both x y => exact .inl ⟨x, mem_left_of_mem h rfl, rfl⟩

theorem pairwise_time_toList (m : Interleaving) (hl : KeysIncrease m.left)
    (hr : KeysIncrease m.right) : m.toList.Pairwise (·.time < ·.time) := by
  induction m using toList.induct with
  | case1 m h => rw [toList_of_none h]; exact .nil
  | case2 m c n h _ ih =>
    obtain ⟨hleft, hright⟩ := lt_time_of_next? h hl hr
    obtain ⟨hnl, hnr⟩ := keysIncrease_of_next? h hl hr
    rw [toList_of_some h]
    refine List.pairwise_cons.2 ⟨fun d hd => ?_, ih hnl hnr⟩
    rcases exists_time_of_mem hd with ⟨x, hx, htime⟩ | ⟨y, hy, htime⟩
    · exact htime ▸ hleft x hx
    · exact htime ▸ hright y hy

end Interleaving

theorem pairwise_times (a : DeltaTrace) : a.keys.Pairwise (· < ·) :=
  a.pairwise_keys.imp Nat.compare_eq_lt.1

/-- A joint change is a change of both wires at one time. -/
theorem exists_lookup_of_both_mem {a b : DeltaTrace} {x y : Change}
    (h : .both x y ∈ cooccurrences a b) : a.lookup x.1 = some x.2 ∧ b.lookup x.1 = some y.2 := by
  have hx : x ∈ a.entries := Interleaving.mem_left_of_mem h rfl
  have hy : y ∈ b.entries := Interleaving.mem_right_of_mem h rfl
  have htime := Interleaving.eq_time_of_both_mem h
  refine ⟨OrderedMap.mem_entries_iff.1 hx, OrderedMap.mem_entries_iff.1 ?_⟩
  rw [htime]
  exact hy

section

variable {a b : DeltaTrace} {c : Cooccurrence} {t : Time}

theorem pairwise_time_cooccurrences (a b : DeltaTrace) :
    (cooccurrences a b).Pairwise (·.time < ·.time) :=
  Interleaving.pairwise_time_toList _ a.increasing b.increasing

/-- What comes before a co-occurrence is earlier, and what comes after it is later. -/
theorem times_of_split {before after : List Cooccurrence}
    (h : cooccurrences a b = before ++ c :: after) :
    (∀ d ∈ before, d.time < c.time) ∧ ∀ d ∈ after, c.time < d.time := by
  have hordered := pairwise_time_cooccurrences a b
  rw [h] at hordered
  obtain ⟨-, hafter, hbefore⟩ := List.pairwise_append.1 hordered
  exact ⟨fun d hd => hbefore d hd c List.mem_cons_self, (List.pairwise_cons.1 hafter).1⟩

theorem eq_of_time_eq (hc : c ∈ cooccurrences a b) {d : Cooccurrence} (hd : d ∈ cooccurrences a b)
    (h : c.time = d.time) : c = d := by
  obtain ⟨before, after, hsplit⟩ := List.append_of_mem hc
  rcases mem_split_cases (hsplit ▸ pairwise_time_cooccurrences a b) (hsplit ▸ hd) with
    ⟨-, hlt⟩ | rfl | ⟨-, hlt⟩
  · exact absurd h.symm (Nat.ne_of_lt hlt)
  · rfl
  · exact absurd h (Nat.ne_of_lt hlt)

theorem exists_ofLeft (h : t ∈ a.keys) (b : DeltaTrace) :
    ∃ c ∈ cooccurrences a b, c.ofLeft = true ∧ c.time = t := by
  obtain ⟨x, hx, rfl⟩ := List.mem_map.1 h
  have hmem : x ∈ (cooccurrences a b).filterMap Cooccurrence.left? := by
    rw [cooccurrences, Interleaving.filterMap_left?_toList]
    exact hx
  obtain ⟨c, hc, hleft⟩ := List.mem_filterMap.1 hmem
  exact ⟨c, hc, by rw [Cooccurrence.ofLeft, hleft]; rfl, Cooccurrence.time_of_left? hleft⟩

theorem exists_ofRight (h : t ∈ b.keys) (a : DeltaTrace) :
    ∃ c ∈ cooccurrences a b, c.ofRight = true ∧ c.time = t := by
  obtain ⟨y, hy, rfl⟩ := List.mem_map.1 h
  have hmem : y ∈ (cooccurrences a b).filterMap Cooccurrence.right? := by
    rw [cooccurrences, Interleaving.filterMap_right?_toList]
    exact hy
  obtain ⟨c, hc, hright⟩ := List.mem_filterMap.1 hmem
  refine ⟨c, hc, by rw [Cooccurrence.ofRight, hright]; rfl, ?_⟩
  cases c with
  | left x => cases hright
  | right z => cases hright; rfl
  | both x z =>
    cases hright
    exact Interleaving.eq_time_of_both_mem hc

/-- The sides tell to which wires the time belongs. -/
theorem ofLeft_iff (hc : c ∈ cooccurrences a b) : c.ofLeft = true ↔ c.time ∈ a.keys := by
  constructor
  · intro h
    obtain ⟨x, hx⟩ := Option.isSome_iff_exists.1 h
    rw [Cooccurrence.time_of_left? hx]
    exact List.mem_map_of_mem (Interleaving.mem_left_of_mem hc hx)
  · intro h
    obtain ⟨d, hd, hleft, htime⟩ := exists_ofLeft h b
    rw [← eq_of_time_eq hd hc htime]
    exact hleft

theorem ofRight_iff (hc : c ∈ cooccurrences a b) : c.ofRight = true ↔ c.time ∈ b.keys := by
  constructor
  · intro h
    cases c with
    | left x => cases h
    | right y => exact List.mem_map_of_mem (Interleaving.mem_right_of_mem hc rfl)
    | both x y =>
      rw [show (Cooccurrence.both x y).time = y.1 from Interleaving.eq_time_of_both_mem hc]
      exact List.mem_map_of_mem (Interleaving.mem_right_of_mem hc rfl)
  · intro h
    obtain ⟨d, hd, hright, htime⟩ := exists_ofRight h a
    rw [← eq_of_time_eq hd hc htime]
    exact hright

/-- There is a co-occurrence for every time at which either wire changes. -/
theorem exists_mem_cooccurrences_iff :
    (∃ c ∈ cooccurrences a b, c.time = t) ↔ t ∈ a.keys ∨ t ∈ b.keys := by
  constructor
  · rintro ⟨c, hc, rfl⟩
    exact (Interleaving.exists_time_of_mem hc).imp (List.mem_map.2 ·) (List.mem_map.2 ·)
  · rintro (h | h)
    · obtain ⟨c, hc, -, htime⟩ := exists_ofLeft h b
      exact ⟨c, hc, htime⟩
    · obtain ⟨c, hc, -, htime⟩ := exists_ofRight h a
      exact ⟨c, hc, htime⟩

/-- Counting changes of the first wire by their times. -/
theorem countP_keys (a b : DeltaTrace) (p : Time → Bool) :
    a.keys.countP p = (cooccurrences a b).countP fun c => c.ofLeft && p c.time := by
  have hentries : a.entries = (cooccurrences a b).filterMap Cooccurrence.left? :=
    (Interleaving.filterMap_left?_toList ⟨a.entries, b.entries⟩).symm
  rw [OrderedMap.keys, hentries, List.countP_map, List.countP_filterMap]
  refine List.countP_congr fun c _ => ?_
  cases c <;> simp [Cooccurrence.left?, Cooccurrence.ofLeft, Cooccurrence.time]

/-- Counting changes of the second wire by their times. -/
theorem countP_keys_right (a b : DeltaTrace) (p : Time → Bool) :
    b.keys.countP p = (cooccurrences a b).countP fun c => c.ofRight && p c.time := by
  have hentries : b.entries = (cooccurrences a b).filterMap Cooccurrence.right? :=
    (Interleaving.filterMap_right?_toList ⟨a.entries, b.entries⟩).symm
  rw [OrderedMap.keys, hentries, List.countP_map, List.countP_filterMap]
  refine List.countP_congr fun c hc => ?_
  cases c with
  | left x => simp [Cooccurrence.right?, Cooccurrence.ofRight]
  | right y => simp [Cooccurrence.right?, Cooccurrence.ofRight, Cooccurrence.time]
  | both x y =>
    have htime : x.1 = y.1 := Interleaving.eq_time_of_both_mem hc
    simp [Cooccurrence.right?, Cooccurrence.ofRight, Cooccurrence.time, htime]

/-- The changes of the first wire, counted in the merged sequence. -/
theorem size_left (a b : DeltaTrace) : a.size = (cooccurrences a b).countP (·.ofLeft) := by
  have hcount := countP_keys a b fun _ => true
  simpa [OrderedMap.size, OrderedMap.keys] using hcount

/-- The changes of the second wire, counted in the merged sequence. -/
theorem size_right (a b : DeltaTrace) : b.size = (cooccurrences a b).countP (·.ofRight) := by
  have hcount := countP_keys_right a b fun _ => true
  simpa [OrderedMap.size, OrderedMap.keys] using hcount

end

end TraceMining
