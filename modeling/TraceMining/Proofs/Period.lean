import TraceMining.Proofs.Sampling

/-!
# The period of a clock

A clock rises where its value becomes 1 (`mem_posedges_iff`). Its period is the distance that lies
most often between neighbouring edges, and the smallest such distance if there are several
(`clockPeriod_eq_some_iff`). The counts are visited by increasing distance and a count gives way to
a greater one only, so the first of the greatest counts is kept (`mostFrequent_spec`). Edges that
strictly increase lie a positive distance apart, and so do those of a clock (`clock_period_exact`).
-/

namespace TraceMining

/-! ## Rising edges -/

/-- The clock is 1 at `t`, and the event before, if there is one, has another value. -/
def RisesAt (clock : DeltaTrace) (t : Time) : Prop :=
  ∃ before after, clock.entries = before ++ (t, 1) :: after ∧ ∀ e ∈ before.getLast?, e.2 ≠ 1

/-- The rising edges among some events: a first event of 1 counts unless it was 1 before. -/
theorem mem_risingFrom_iff {t : Time} {events : List (Time × Value)} : ∀ {high : Bool},
    t ∈ risingFrom high events ↔ ∃ before after, events = before ++ (t, 1) :: after ∧
      (∀ e ∈ before.getLast?, e.2 ≠ 1) ∧ (before = [] → high = false) := by
  induction events with
  | nil => simp [risingFrom]
  | cons e rest ih =>
    obtain ⟨u, v⟩ := e
    intro high
    -- a rising edge is the head, or it rises from what the head leaves behind
    have hcons : (∃ before after, (u, v) :: rest = before ++ (t, 1) :: after ∧
        (∀ e ∈ before.getLast?, e.2 ≠ 1) ∧ (before = [] → high = false)) ↔
        (u = t ∧ v = 1 ∧ high = false) ∨ t ∈ risingFrom (decide (v = 1)) rest := by
      rw [ih]
      constructor
      · rintro ⟨before, after, hsplit, hlast, hhigh⟩
        cases before with
        | nil =>
          cases hsplit
          exact .inl ⟨rfl, rfl, hhigh rfl⟩
        | cons d before =>
          cases hsplit
          refine .inr ⟨before, after, rfl, fun e he => hlast e ?_, fun hnil => ?_⟩
          · rw [List.getLast?_cons, Option.mem_def.1 he]
            rfl
          · subst hnil
            exact decide_eq_false (hlast (u, v) rfl)
      · rintro (⟨rfl, rfl, hhigh⟩ | ⟨before, after, rfl, hlast, hhigh⟩)
        · exact ⟨[], rest, rfl, by simp, fun _ => hhigh⟩
        · refine ⟨(u, v) :: before, after, rfl, fun e he => ?_, fun hnil => by cases hnil⟩
          cases before with
          | nil =>
            cases he
            exact of_decide_eq_false (hhigh rfl)
          | cons d before => exact hlast e he
    rw [hcons, risingFrom]
    by_cases hv : v = 1
    · cases high <;> simp [hv, eq_comm]
    · simp [hv]

theorem mem_posedges_iff {clock : DeltaTrace} {t : Time} :
    t ∈ posedges clock ↔ RisesAt clock t := by
  simp [posedges, mem_risingFrom_iff, RisesAt]

/-! ## The most frequent count -/

theorem mostFrequent_concat (counts : List (Nat × Nat)) (e : Nat × Nat) :
    mostFrequent (counts ++ [e]) =
      some (match mostFrequent counts with
        | some b => if b.2 ≥ e.2 then b else e
        | none => e) := by
  have hstep : mostFrequent (counts ++ [e]) = match mostFrequent counts with
      | some b => if b.2 ≥ e.2 then some b else some e
      | none => some e := List.foldl_concat ..
  rw [hstep]
  cases mostFrequent counts with
  | none => rfl
  | some b => exact (apply_ite some (b.2 ≥ e.2) b e).symm

/-- The entry that is kept has the greatest count, and the least key among those that have it. -/
theorem mostFrequent_spec {counts : List (Nat × Nat)} (h : KeysIncrease counts) {p : Nat × Nat}
    (hp : mostFrequent counts = some p) :
    p ∈ counts ∧ ∀ e ∈ counts, e.2 ≤ p.2 ∧ (e.2 = p.2 → p.1 ≤ e.1) := by
  induction counts using List.reverseRecOn generalizing p with
  | nil => cases hp
  | append_singleton counts e ih =>
    obtain ⟨hcounts, -, hbefore⟩ := List.pairwise_append.1 h
    rw [mostFrequent_concat] at hp
    cases hkept : mostFrequent counts with
    | none =>
      have hnil : counts = [] := by
        have hsome := isSome_mostFrequent counts
        rw [hkept] at hsome
        simpa using hsome
      subst hnil
      rw [hkept] at hp
      cases hp
      simp
    | some b =>
      obtain ⟨hb, hmost⟩ := ih hcounts hkept
      have hbe : b.1 < e.1 := Nat.compare_eq_lt.1 (hbefore b hb e List.mem_cons_self)
      rw [hkept] at hp
      simp only [Option.some.injEq] at hp
      split at hp
      · rename_i hle
        subst hp
        refine ⟨List.mem_append_left _ hb, fun d hd => ?_⟩
        rcases List.mem_append.1 hd with hd | hd
        · exact hmost d hd
        · rw [List.mem_singleton.1 hd]
          exact ⟨hle, fun _ => Nat.le_of_lt hbe⟩
      · rename_i hlt
        subst hp
        refine ⟨List.mem_append_right _ List.mem_cons_self, fun d hd => ?_⟩
        rcases List.mem_append.1 hd with hd | hd
        · have hdb := (hmost d hd).1
          exact ⟨by omega, by omega⟩
        · rw [List.mem_singleton.1 hd]
          exact ⟨Nat.le_refl _, fun _ => Nat.le_refl _⟩

/-! ## Distances between edges -/

/-- How many neighbouring edges lie the distance `g` apart. -/
def timesApart (edges : List Time) (g : Time) : Nat :=
  (edges.zip edges.tail).countP fun e => e.1 + g = e.2

theorem timesApart_cons_cons (s t : Time) (rest : List Time) (g : Time) :
    timesApart (s :: t :: rest) g =
      timesApart (t :: rest) g + if s + g = t then 1 else 0 := by
  unfold timesApart
  rw [List.tail_cons, List.zip_cons_cons, List.countP_cons]
  simp

theorem count_gaps {edges : List Time} (h : edges.Pairwise (· ≤ ·)) (g : Time) :
    (gaps edges).count g = timesApart edges g := by
  induction edges with
  | nil => rfl
  | cons s edges ih =>
    obtain ⟨hs, hedges⟩ := List.pairwise_cons.1 h
    cases edges with
    | nil => rfl
    | cons t rest =>
      have hst : s ≤ t := hs t List.mem_cons_self
      have hdistance : t - s = g ↔ s + g = t := by
        rw [Nat.sub_eq_iff_eq_add' hst, eq_comm]
      rw [gaps, List.count_cons, ih hedges, timesApart_cons_cons]
      simp only [beq_iff_eq, hdistance]

/-- The distance `p` lies between neighbouring edges most often, and no smaller one does. -/
structure MostFrequentGap (edges : List Time) (p : Time) : Prop where
  occurs : 0 < timesApart edges p
  most : ∀ g, timesApart edges g ≤ timesApart edges p
  least : ∀ g, timesApart edges g = timesApart edges p → p ≤ g

theorem MostFrequentGap.unique {edges : List Time} {p q : Time} (hp : MostFrequentGap edges p)
    (hq : MostFrequentGap edges q) : p = q := by
  have hcount : timesApart edges p = timesApart edges q := Nat.le_antisymm (hq.most p) (hp.most q)
  exact Nat.le_antisymm (hp.least q hcount.symm) (hq.least p hcount)

theorem mostFrequentGap_of_clockPeriod {edges : List Time} (h : edges.Pairwise (· ≤ ·)) {p : Time}
    (hp : clockPeriod edges = some p) : MostFrequentGap edges p := by
  obtain ⟨⟨g, n⟩, hkept, rfl⟩ := Option.map_eq_some_iff.1 hp
  obtain ⟨hmem, hmost⟩ := mostFrequent_spec (occurrences (gaps edges)).increasing hkept
  -- the counts of the distances that occur are the entries
  have hentry : ∀ g n, (g, n) ∈ (occurrences (gaps edges)).entries ↔
      0 < n ∧ timesApart edges g = n := by
    intro g n
    rw [OrderedMap.mem_entries_iff, lookup_occurrences, count_gaps h]
    split <;> simp <;> omega
  obtain ⟨hpos, hcount⟩ := (hentry g n).1 hmem
  refine ⟨hcount ▸ hpos, fun d => ?_, fun d hd => ?_⟩
  · rcases Nat.eq_zero_or_pos (timesApart edges d) with hzero | hd
    · exact hzero ▸ Nat.zero_le _
    · exact hcount ▸ (hmost _ ((hentry d _).2 ⟨hd, rfl⟩)).1
  · have hdn : timesApart edges d = n := hd.trans hcount
    exact (hmost _ ((hentry d n).2 ⟨hpos, hdn⟩)).2 rfl

theorem clockPeriod_eq_some_iff {edges : List Time} (h : edges.Pairwise (· ≤ ·)) {p : Time} :
    clockPeriod edges = some p ↔ MostFrequentGap edges p := by
  refine ⟨mostFrequentGap_of_clockPeriod h, fun hp => ?_⟩
  -- a distance occurs, so there are two edges and thus a period
  have hgaps : gaps edges ≠ [] := by
    have hoccurs := hp.occurs
    rw [← count_gaps h, List.count_pos_iff] at hoccurs
    exact List.ne_nil_of_mem hoccurs
  obtain ⟨q, hq⟩ := Option.isSome_iff_exists.1
    ((isSome_clockPeriod_iff edges).2 ((gaps_ne_nil_iff edges).1 hgaps))
  rw [hq, hp.unique (mostFrequentGap_of_clockPeriod h hq)]

theorem clockPeriod_eq_none_iff (edges : List Time) :
    clockPeriod edges = none ↔ edges.length < 2 := by
  rw [← Option.isNone_iff_eq_none, ← Option.isSome_eq_false_iff, Bool.eq_false_iff, ne_eq,
    isSome_clockPeriod_iff, Nat.not_le]

/-- Different edges are not the distance 0 apart. -/
theorem timesApart_zero {edges : List Time} (h : edges.Pairwise (· < ·)) :
    timesApart edges 0 = 0 := by
  induction edges with
  | nil => rfl
  | cons s edges ih =>
    obtain ⟨hs, hedges⟩ := List.pairwise_cons.1 h
    cases edges with
    | nil => rfl
    | cons t rest =>
      have hst : s ≠ t := Nat.ne_of_lt (hs t List.mem_cons_self)
      rw [timesApart_cons_cons, ih hedges, Nat.add_zero, if_neg hst]

/-- **The rising edges of a clock and its period.** The edges strictly increase and are exactly the
times at which the clock becomes 1. Of edges that do not decrease there is no period exactly if
there are fewer than two, and the period is otherwise the smallest of the distances that lie between
neighbouring edges most often. The period of a clock's own edges is positive. -/
theorem clock_period_exact (clock : DeltaTrace) (edges : List Time) :
    (posedges clock).Pairwise (· < ·) ∧ (∀ t, t ∈ posedges clock ↔ RisesAt clock t) ∧
    (edges.Pairwise (· ≤ ·) →
      (clockPeriod edges = none ↔ edges.length < 2) ∧
      ∀ p, clockPeriod edges = some p ↔ MostFrequentGap edges p) ∧
    ∀ p, clockPeriod (posedges clock) = some p → 0 < p := by
  refine ⟨pairwise_posedges clock, fun t => mem_posedges_iff, fun h => ?_, fun p hp => ?_⟩
  · exact ⟨clockPeriod_eq_none_iff edges, fun p => clockPeriod_eq_some_iff h⟩
  · have hincreasing := pairwise_posedges clock
    have hgap := mostFrequentGap_of_clockPeriod (hincreasing.imp Nat.le_of_lt) hp
    refine Nat.pos_of_ne_zero fun hzero => ?_
    have hoccurs := hgap.occurs
    rw [hzero, timesApart_zero hincreasing] at hoccurs
    exact Nat.lt_irrefl 0 hoccurs

/-- A clock that is high at first and stays so for a while. -/
def lazyClock : DeltaTrace :=
  .ofList [(0, 1), (2, 1), (4, 0), (6, 1), (7, 2), (9, 1), (10, 0), (15, 1)]

/-- Two of the distances 4, 4, 2, 2, 3 occur twice, and the rising edges 0, 6, 9, 15 of a clock lie
6 apart twice. -/
theorem clock_period_exact_tied :
    [0, 4, 8, 10, 12, 15].Pairwise (· ≤ ·) ∧ clockPeriod [0, 4, 8, 10, 12, 15] = some 2 ∧
    (∀ g, timesApart [0, 4, 8, 10, 12, 15] g ≤ 2) ∧
    posedges lazyClock = [0, 6, 9, 15] ∧ RisesAt lazyClock 9 ∧ ¬ RisesAt lazyClock 2 ∧
    clockPeriod (posedges lazyClock) = some 6 ∧ 0 < 6 := by
  obtain ⟨-, hrises, hperiod, hpositive⟩ := clock_period_exact lazyClock [0, 4, 8, 10, 12, 15]
  have hincreasing : [0, 4, 8, 10, 12, 15].Pairwise (· ≤ ·) := by decide
  have htied : clockPeriod [0, 4, 8, 10, 12, 15] = some 2 := by decide +kernel
  have hedges : posedges lazyClock = [0, 6, 9, 15] := by decide +kernel
  have hsix : clockPeriod (posedges lazyClock) = some 6 := by decide +kernel
  have hmost := (((hperiod hincreasing).2 2).1 htied).most
  refine ⟨hincreasing, htied, hmost, hedges, ?_, ?_, hsix, hpositive 6 hsix⟩
  · rw [← hrises, hedges]
    decide
  · rw [← hrises, hedges]
    decide

end TraceMining
