import TraceMining.Proofs.EdgeOrder

/-!
# Sampling what was latched

A register that is driven by the clock changes at an edge, and its change is seen by the next edge.
So the samples of any wire can be read as the changes of such a register: each sample belongs to
the edge in front of it, at which the value was latched, and the first one to time 0. This latched
wire holds right before every edge what the original wire held there (`valueBefore_latch`), so
sampling it again gives the same samples (`sample_latch`).

What was left out as a repetition does no harm, since the last sample up to an edge tells what that
edge saw (`lastValue_changesSeen`). If the first edge is at time 0, the first two samples may be
latched at one time, and the later one counts; the edge at time 0 sees neither.
-/

namespace TraceMining

variable {edges : List Time} {x y : DeltaTrace} {d e : Time}

/-- The edge in front of `t`, and time 0 if `t` is the first one. -/
def edgeBefore (edges : List Time) (t : Time) : Time :=
  (edges.takeWhile (· ≠ t)).getLast?.getD 0

/-- The changes of a wire that is latched at the edges and has the given samples: each sample is
moved to the edge in front of it. -/
def latch (edges : List Time) (samples : DeltaTrace) : DeltaTrace :=
  .ofList (samples.entries.map fun s => (edgeBefore edges s.1, s.2))

/-! ## Edges in front of edges -/

theorem edgeBefore_of_split {before after : List Time}
    (h : (before ++ d :: after).Pairwise (· < ·)) :
    edgeBefore (before ++ d :: after) d = before.getLast?.getD 0 := by
  have hbefore : ∀ c ∈ before, decide (c ≠ d) = true := fun c hc =>
    decide_eq_true (Nat.ne_of_lt ((List.pairwise_append.1 h).2.2 c hc d List.mem_cons_self))
  have htake : (before ++ d :: after).takeWhile (· ≠ d) = before := by
    rw [List.takeWhile_append_of_pos hbefore, List.takeWhile_cons_of_neg (by simp),
      List.append_nil]
  rw [edgeBefore, htake]

/-- The edge in front of `d` is earlier than `e` if `d` itself is not later than `e`. -/
theorem edgeBefore_lt_iff (hincr : edges.Pairwise (· < ·)) (hd : d ∈ edges) (he : e ∈ edges)
    (hpos : 0 < e) : edgeBefore edges d < e ↔ d ≤ e := by
  obtain ⟨before, after, rfl⟩ := List.append_of_mem hd
  have hbefore := (List.pairwise_append.1 hincr).2.2
  rw [edgeBefore_of_split hincr]
  rcases List.eq_nil_or_concat' before with rfl | ⟨before, c, rfl⟩
  · rcases mem_split_cases hincr he with ⟨h, -⟩ | rfl | ⟨-, hde⟩
    · cases h
    · simp [hpos]
    · simp [hpos, Nat.le_of_lt hde]
  · rw [List.getLast?_concat, Option.getD_some]
    have hcd : c < d := hbefore c (by simp) d List.mem_cons_self
    rcases mem_split_cases hincr he with ⟨h, -⟩ | rfl | ⟨-, hde⟩
    · -- `c` is the last one in front of `d`
      have hec : e ≤ c := by
        rcases mem_split_cases (List.pairwise_append.1 hincr).1 h with ⟨-, hlt⟩ | rfl | ⟨h', -⟩
        · exact Nat.le_of_lt hlt
        · exact Nat.le_refl _
        · cases h'
      exact iff_of_false (Nat.not_lt.2 hec) (Nat.not_le.2 (Nat.lt_of_le_of_lt hec hcd))
    · simp [hcd]
    · simp [Nat.lt_trans hcd hde, Nat.le_of_lt hde]

theorem edgeBefore_le (hincr : edges.Pairwise (· < ·)) (hd : d ∈ edges) :
    edgeBefore edges d ≤ d := by
  obtain ⟨before, after, rfl⟩ := List.append_of_mem hd
  have hbefore := (List.pairwise_append.1 hincr).2.2
  rw [edgeBefore_of_split hincr]
  cases hlast : before.getLast? with
  | none => exact Nat.zero_le d
  | some c => exact Nat.le_of_lt (hbefore c (List.mem_of_getLast? hlast) d List.mem_cons_self)

theorem edgeBefore_mono (hincr : edges.Pairwise (· < ·)) (hd : d ∈ edges) (he : e ∈ edges)
    (hde : d < e) : edgeBefore edges d ≤ edgeBefore edges e := by
  have hle := edgeBefore_le hincr hd
  rcases Nat.eq_zero_or_pos d with rfl | hpos
  · exact Nat.le_trans hle (Nat.zero_le _)
  · have hge : d ≤ edgeBefore edges e :=
      Nat.not_lt.1 fun h => Nat.not_le.2 hde ((edgeBefore_lt_iff hincr he hd hpos).1 h)
    exact Nat.le_trans hle hge

/-! ## The samples -/

theorem changesSeen_congr {seen seen' : Time → Value} :
    ∀ {edges : List Time} {last : Option Time}, (∀ t ∈ edges, seen t = seen' t) →
      (∀ t ∈ last, seen t = seen' t) → changesSeen seen last edges = changesSeen seen' last edges
  | [], _, _, _ => rfl
  | e :: edges, last, h, hlast => by
    have he := h e List.mem_cons_self
    have hmap : last.map seen = last.map seen' := Option.map_congr hlast
    have ih : changesSeen seen (some e) edges = changesSeen seen' (some e) edges :=
      changesSeen_congr (fun t ht => h t (List.mem_cons_of_mem _ ht)) (by simpa using he)
    rw [changesSeen, changesSeen, he, hmap, ih]

theorem sublist_changesSeen (seen : Time → Value) :
    ∀ (edges : List Time) (last : Option Time),
      ((changesSeen seen last edges).map (·.1)).Sublist edges
  | [], _ => List.Sublist.refl _
  | e :: edges, last => by
    have ih := sublist_changesSeen seen edges (some e)
    rw [changesSeen]
    split
    · exact ih.cons e
    · exact ih.cons_cons e

theorem keysIncrease_changesSeen {seen : Time → Value} {last : Option Time}
    (hincr : edges.Pairwise (· < ·)) : KeysIncrease (changesSeen seen last edges) := by
  have hkeys := hincr.sublist (sublist_changesSeen seen edges last)
  exact (List.pairwise_map.1 hkeys).imp Nat.compare_eq_lt.2

/-- The last sample up to an edge has the value that the edge sees; `held` is what the edge before
all of these saw. -/
theorem lastValue_changesSeen {seen : Time → Value} (he : e ∈ edges) :
    ∀ {last : Option Time} {held : Value}, edges.Pairwise (· < ·) → (∀ t ∈ last, held = seen t) →
      lastValue held ((changesSeen seen last edges).filter (·.1 ≤ e)) = seen e := by
  induction edges with
  | nil => cases he
  | cons c edges ih =>
    intro last held hincr hheld
    obtain ⟨hc, hrest⟩ := List.pairwise_cons.1 hincr
    have hce : c ≤ e := by
      rcases List.mem_cons.1 he with rfl | he
      · exact Nat.le_refl _
      · exact Nat.le_of_lt (hc e he)
    -- the samples behind `c`, with what `c` sees as the value held
    have hbehind : lastValue (seen c) ((changesSeen seen (some c) edges).filter (·.1 ≤ e)) =
        seen e := by
      rcases List.mem_cons.1 he with rfl | he
      · have hnone : (changesSeen seen (some e) edges).filter (·.1 ≤ e) = [] := by
          refine List.filter_eq_nil_iff.2 fun s hs => ?_
          have hmem := (sublist_changesSeen seen edges (some e)).subset (List.mem_map_of_mem hs)
          simpa using hc s.1 hmem
        rw [hnone]
        rfl
      · exact ih he hrest (by simp)
    rw [changesSeen]
    split
    · rename_i hsame
      obtain ⟨t, ht, hseen⟩ := Option.map_eq_some_iff.1 hsame
      rw [hheld t ht, hseen]
      exact hbehind
    · rw [List.filter_cons_of_pos (by simpa using hce), lastValue_cons]
      exact hbehind

/-! ## Events in a list -/

/-- In a list of events in chronological order, in which the last event of a time counts, the value
before a time is that of the last event before it. -/
theorem valueBefore_ofList {events : List (Time × Value)}
    (h : events.Pairwise fun d e => d.1 ≤ e.1) (t : Time) :
    valueBefore (.ofList events) t = lastValue 0 (events.filter (·.1 < t)) := by
  rcases List.eq_nil_or_concat' (events.filter (·.1 < t)) with hnil | ⟨front, ⟨u, v⟩, hfront⟩
  · have hnone : (OrderedMap.ofList events).entries.filter (·.1 < t) = [] := by
      refine List.filter_eq_nil_iff.2 ?_
      rintro ⟨s, w⟩ hs
      rw [OrderedMap.mem_entries_iff, OrderedMap.lookup_ofList] at hs
      exact List.filter_eq_nil_iff.1 hnil (s, w) (mem_of_lastEntry hs)
    rw [valueBefore, hnone, hnil]
  · have hlast : (u, v) ∈ events.filter (·.1 < t) := by simp [hfront]
    have hut : u < t := by simpa using (List.mem_filter.1 hlast).2
    -- what is stored at `u` is the last of its events, and they are all before `t`
    have hlookup : (OrderedMap.ofList events).lookup u = some v := by
      have hsame : events.filter (·.1 = u) = (events.filter (·.1 < t)).filter (·.1 = u) := by
        rw [List.filter_filter]
        refine List.filter_congr fun s _ => ?_
        by_cases hs : s.1 = u <;> simp [hs, hut]
      rw [OrderedMap.lookup_ofList, lastEntry, hsame, hfront, List.filter_append,
        List.filter_cons_of_pos (by simp), List.filter_nil, List.getLast?_concat]
      rfl
    have hnone : ∀ s, u < s → s < t → (OrderedMap.ofList events).lookup s = none := by
      intro s hus hst
      refine Option.eq_none_iff_forall_not_mem.2 fun w hw => ?_
      rw [Option.mem_def, OrderedMap.lookup_ofList] at hw
      have hs : (s, w) ∈ events.filter (·.1 < t) :=
        List.mem_filter.2 ⟨mem_of_lastEntry hw, by simpa using hst⟩
      have hsorted := h.filter (·.1 < t)
      rw [hfront] at hs hsorted
      rcases List.mem_append.1 hs with hs | hs
      · have hle := (List.pairwise_append.1 hsorted).2.2 _ hs _ List.mem_cons_self
        exact absurd hus (Nat.not_lt.2 hle)
      · cases List.mem_singleton.1 hs
        exact Nat.lt_irrefl u hus
    rw [valueBefore_of_lookup hlookup hut hnone, hfront, lastValue, List.getLast?_concat]
    rfl

/-! ## The latched wire -/

theorem lastValue_map {f : Time → Time} (held : Value) (events : List (Time × Value)) :
    lastValue held (events.map fun s => (f s.1, s.2)) = lastValue held events := by
  rw [lastValue, lastValue, List.getLast?_map, Option.map_map]
  rfl

variable (hincr : edges.Pairwise (· < ·)) (hy : y.entries = changesSeen (valueBefore x) none edges)
include hincr hy

/-- The latched wire holds right before every edge what the wire held there. -/
theorem valueBefore_latch (he : e ∈ edges) :
    valueBefore (latch edges y) e = valueBefore x e := by
  have hmem : ∀ s ∈ y.entries, s.1 ∈ edges := fun s hs =>
    (sublist_changesSeen _ _ none).subset (hy ▸ List.mem_map_of_mem hs)
  have hsorted : (y.entries.map fun s => (edgeBefore edges s.1, s.2)).Pairwise
      fun d e => d.1 ≤ e.1 := by
    refine List.pairwise_map.2 (y.increasing.imp_of_mem fun hs hs' hlt => ?_)
    exact edgeBefore_mono hincr (hmem _ hs) (hmem _ hs') (Nat.compare_eq_lt.1 hlt)
  rcases Nat.eq_zero_or_pos e with rfl | hpos
  · -- an edge at time 0 sees no event
    simp [valueBefore]
  · have hfilter : (y.entries.map fun s => (edgeBefore edges s.1, s.2)).filter (·.1 < e) =
        (y.entries.filter (·.1 ≤ e)).map fun s => (edgeBefore edges s.1, s.2) := by
      rw [List.filter_map]
      refine congrArg (List.map _) (List.filter_congr fun s hs => ?_)
      exact decide_eq_decide.2 (edgeBefore_lt_iff hincr (hmem s hs) he hpos)
    calc valueBefore (latch edges y) e
        = lastValue 0 ((y.entries.filter (·.1 ≤ e)).map fun s => (edgeBefore edges s.1, s.2)) := by
          rw [latch, valueBefore_ofList hsorted, hfilter]
      _ = lastValue 0 (y.entries.filter (·.1 ≤ e)) := lastValue_map 0 _
      _ = valueBefore x e := by
          rw [hy]
          exact lastValue_changesSeen he hincr (by simp)

theorem startsAtZero_latch (hne : edges ≠ []) : StartsAtZero (latch edges y) := by
  obtain ⟨first, later, rfl⟩ := List.exists_cons_of_ne_nil hne
  have hfirst : (first, valueBefore x first) ∈ y.entries := by
    rw [hy, changesSeen]
    simp
  have hmoved : (0, valueBefore x first) ∈
      y.entries.map fun s => (edgeBefore (first :: later) s.1, s.2) :=
    List.mem_map.2 ⟨_, hfirst, by simp [edgeBefore]⟩
  obtain ⟨v, hv⟩ := Option.isSome_iff_exists.1 (isSome_lastEntry hmoved)
  rw [← OrderedMap.lookup_ofList] at hv
  exact ⟨v, OrderedMap.first?_eq_some hv fun t _ => by simp [Nat.compare_eq_lt]⟩

omit hincr hy

/-- **Sampling what was latched.** Let the samples of a wire at increasing edges be moved back: the
sample at the first edge to time 0, every other one to the edge in front of it. The wire with these
changes has a value from time 0 on, and sampled at the same edges it gives the same samples. -/
theorem sample_latch (hne : edges ≠ []) (hincr : edges.IsChain (· < ·)) (hx : StartsAtZero x) :
    ∃ y, sample edges x = .ok y ∧ StartsAtZero (latch edges y) ∧
      sample edges (latch edges y) = .ok y := by
  have hpairwise := List.isChain_iff_pairwise.1 hincr
  have hsample := sample_of_startsAtZero hx hpairwise
  have hkeys : KeysIncrease (changesSeen (valueBefore x) none edges) :=
    keysIncrease_changesSeen hpairwise
  have hentries := OrderedMap.entries_ofList hkeys
  have hzero := startsAtZero_latch hpairwise hentries hne
  refine ⟨_, hsample, hzero, ?_⟩
  rw [sample_of_startsAtZero hzero hpairwise]
  congr 2
  exact changesSeen_congr (fun t ht => valueBefore_latch hpairwise hentries ht) (by simp)

/-- The edge at time 0 sees no event, and the edge at time 5 sees 7. Both samples are moved to time
0, where the later one stays. -/
theorem sample_latch_collision :
    [0, 5, 9, 12] ≠ [] ∧ [0, 5, 9, 12].IsChain (· < ·) ∧
    StartsAtZero (.ofList [(0, 7), (5, 3), (11, 3)]) ∧
    ∃ y, sample [0, 5, 9, 12] (.ofList [(0, 7), (5, 3), (11, 3)]) = .ok y ∧
      y = .ofList [(0, 0), (5, 7), (9, 3)] ∧
      latch [0, 5, 9, 12] y = .ofList [(0, 7), (5, 3)] ∧
      sample [0, 5, 9, 12] (latch [0, 5, 9, 12] y) = .ok y := by
  have hne : [0, 5, 9, 12] ≠ [] := by decide
  have hincr : [0, 5, 9, 12].IsChain (· < ·) := by decide
  have hstarts : StartsAtZero (.ofList [(0, 7), (5, 3), (11, 3)]) := ⟨7, by decide +kernel⟩
  obtain ⟨y, hy, -, hagain⟩ := sample_latch hne hincr hstarts
  have hcomputed : sample [0, 5, 9, 12] (.ofList [(0, 7), (5, 3), (11, 3)]) =
      .ok (.ofList [(0, 0), (5, 7), (9, 3)]) := by decide +kernel
  obtain rfl : y = .ofList [(0, 0), (5, 7), (9, 3)] := Except.ok.inj (hy.symm.trans hcomputed)
  exact ⟨hne, hincr, hstarts, _, hy, rfl, by decide +kernel, hagain⟩

end TraceMining
