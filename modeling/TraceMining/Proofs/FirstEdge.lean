import TraceMining.Proofs.Mining
import TraceMining.Proofs.Preparation
import TraceMining.Proofs.Timing

/-!
# What the first edge of the clock does

Every wire is sampled at the first edge, whatever the edge sees of it. If the start time is earlier,
all prepared wires therefore begin with a change at that edge (`TrimmedSamples.head?_keys`), and no
wire alternates with another one (`no_alternating_of_untrimmed`).

If these samples are trimmed, a wire that never changes has nothing left, with one exception. An
edge at time 0 sees no event yet and takes the value for 0, so that the second edge seems to see a
change of a wire that has another value all the time (`still_wire_unmined`).
-/

namespace TraceMining

open Waveform (Dump)

variable {dump : Dump} {settings : Settings} {p : Prepared} {x y : DeltaTrace} {v w : Value}
  {first second e : Time} {later edges : List Time}

theorem exists_edges_of_prepare (h : prepare dump settings = .ok p) :
    ∃ events first second later, dump.store.lookup p.clock = some events ∧
      posedges events = first :: second :: later := by
  obtain ⟨-, events, hc, hperiod, -⟩ := prepare_eq_ok_iff.1 h
  have htwo : 2 ≤ (posedges events).length := (isSome_clockPeriod_iff _).1 (by simp [hperiod])
  match hedges : posedges events, htwo with
  | first :: second :: later, _ => exact ⟨events, first, second, later, hc.stored, hedges⟩

/-! ## The first samples -/

theorem SampledAt.mem_edges (h : SampledAt x edges e v) : e ∈ edges := by
  obtain ⟨before, after, rfl, -, -⟩ := h
  simp

theorem sampledAt_first : SampledAt x (first :: later) first (valueBefore x first) :=
  ⟨[], later, rfl, rfl, by simp⟩

/-- Samples that are not trimmed begin at the first edge. -/
theorem TrimmedSamples.head?_keys (hedges : (first :: later).Pairwise (· < ·))
    (hy : TrimmedSamples settings (first :: later) x y) (hstart : settings.startTime < first) :
    y.keys.head? = some first := by
  have hfirst : y.lookup first = some (valueBefore x first) :=
    (hy _ _).2 ⟨hstart, sampledAt_first⟩
  have hleast : ∀ t ∈ y.keys, compare t first ≠ .lt := by
    intro t ht
    obtain ⟨w, hw⟩ := OrderedMap.mem_keys_iff.1 ht
    have hmem := ((hy t w).1 hw).2.mem_edges
    rw [ne_eq, Nat.compare_eq_lt, Nat.not_lt]
    rcases List.mem_cons.1 hmem with rfl | hlater
    · exact Nat.le_refl _
    · exact Nat.le_of_lt ((List.pairwise_cons.1 hedges).1 t hlater)
  rw [OrderedMap.keys, List.head?_map, ← OrderedMap.first?,
    OrderedMap.first?_eq_some hfirst hleast]
  rfl

/-- **Without trimming, nothing alternates.** A dump that can be prepared has a clock with a first
edge. If the start time is earlier than this edge, every alternation of two prepared wires is
violated at this very edge and was never completed; and mining, which asks for some support, finds
no alternation at all. -/
theorem no_alternating_of_untrimmed (h : prepare dump settings = .ok p)
    (hsupport : 1 ≤ settings.minSupport) :
    ∃ events first later, dump.store.lookup p.clock = some events ∧
      posedges events = first :: later ∧ (settings.startTime < first →
        (∀ a b, (mine p settings).lookup ⟨.alternating, a, b⟩ = none) ∧
        ∀ a b x y, p.store.lookup a = some x → p.store.lookup b = some y →
          (Pattern.alternating.check x y p.period).stats.support = 0 ∧
          (Pattern.alternating.check x y p.period).stats.falsified = true ∧
          (Pattern.alternating.check x y p.period).falsifiedAt = some first) := by
  obtain ⟨events, first, second, later, hclock, hedges⟩ := exists_edges_of_prepare h
  refine ⟨events, first, second :: later, hclock, hedges, fun hstart => ?_⟩
  have hhead : ∀ {k y}, p.store.lookup k = some y → y.keys.head? = some first := by
    intro k y hy
    obtain ⟨-, x, -, -, -, -, -, htrimmed⟩ := keptAs_of_prepare h hclock hy
    have hincreasing := pairwise_posedges events
    rw [hedges] at htrimmed hincreasing
    exact htrimmed.head?_keys hincreasing hstart
  constructor
  · intro a b
    by_contra hfound
    obtain ⟨stats, hstats⟩ := Option.ne_none_iff_exists'.1 hfound
    obtain ⟨-, -, o, ho, hs, -⟩ := lookup_mine_iff.1 hstats
    obtain ⟨x, y, hx, hy, rfl⟩ := Property.outcome?_eq_some_iff.1 ho
    rw [check_alternating_of_head? (hhead hx) (hhead hy)] at hs
    simp at hs
    omega
  · intro a b x y hx hy
    rw [check_alternating_of_head? (hhead hx) (hhead hy)]
    exact ⟨rfl, rfl, rfl⟩

theorem posedges_ticking {events : DeltaTrace}
    (h : ticking.store.lookup clockWire = some events) : posedges events = [5, 15, 25] := by
  have hticks : (ticking.store.lookup clockWire).map posedges = some [5, 15, 25] := by
    decide +kernel
  rw [h] at hticks
  exact Option.some.inj hticks

theorem no_alternating_of_untrimmed_ticking :
    1 ≤ Settings.default.minSupport ∧ Settings.default.startTime < 5 ∧
    ∃ p, prepare ticking .default = .ok p ∧
      (mine p .default).lookup
        ⟨.alternating, .ofList [⟨"TOP.valid", 1⟩], .ofList [⟨"TOP.ready", 1⟩]⟩ = none ∧
      (Pattern.alternating.check (.ofList [(5, 0), (15, 1), (25, 0)]) (.ofList [(5, 0)])
        p.period).falsifiedAt = some 5 := by
  have hvalue : (prepare ticking .default).toOption.map (fun p => (p.clock, p.store)) =
      some (clockWire, tickingSeen) := by
    decide +kernel
  obtain ⟨p, hp, hfields⟩ := map_toOption_eq_some_iff.1 hvalue
  simp only [Prod.mk.injEq] at hfields
  obtain ⟨hclock, hseen⟩ := hfields
  obtain ⟨events, first, later, hevents, hedges, huntrimmed⟩ :=
    no_alternating_of_untrimmed hp (by decide)
  have hticks := posedges_ticking (hclock ▸ hevents)
  rw [hedges] at hticks
  obtain ⟨rfl, -⟩ := List.cons.inj hticks
  obtain ⟨hmined, hpairs⟩ := huntrimmed (by decide)
  refine ⟨by decide, by decide, p, hp, hmined _ _, ?_⟩
  exact (hpairs (.ofList [⟨"TOP.valid", 1⟩]) (.ofList [⟨"TOP.ready", 1⟩]) _ _
    (by rw [hseen]; decide +kernel) (by rw [hseen]; decide +kernel)).2.2

/-! ## Wires that never change -/

/-- All events of the wire carry the value `v`. -/
def Still (v : Value) (x : DeltaTrace) : Prop := ∀ t w, x.lookup t = some w → w = v

theorem still_singleton {t : Time} : Still v (.ofList [(t, v)]) := fun _ _ h =>
  (OrderedMap.lookup_ofList_singleton_iff.1 h).2

theorem lastValue_of_forall {held : Value} {events : List (Time × Value)} (hne : events ≠ [])
    (h : ∀ e ∈ events, e.2 = v) : lastValue held events = v := by
  simp [lastValue, List.getLast?_eq_some_getLast hne, h _ (List.getLast_mem hne)]

/-- An edge sees the value of a still wire, but an edge at time 0 sees nothing yet. -/
theorem Still.valueBefore_eq (h : Still v x) (hx : StartsAtZero x) (t : Time) :
    valueBefore x t = if t = 0 then 0 else v := by
  obtain ⟨w, hw⟩ := hx
  unfold valueBefore
  by_cases ht : t = 0
  · subst ht
    simp [lastValue]
  · rw [if_neg ht]
    apply lastValue_of_forall
    · have hmem : (0, w) ∈ x.entries := List.mem_of_head? hw
      exact List.ne_nil_of_mem (List.mem_filter.2 ⟨hmem, by simpa using Nat.pos_of_ne_zero ht⟩)
    · intro e he
      exact h e.1 e.2 (OrderedMap.mem_entries_iff.1 (List.mem_filter.1 he).1)

theorem changesSeen_of_forall {seen : Time → Value} :
    ∀ {edges : List Time} {last : Time}, seen last = v → (∀ e ∈ edges, seen e = v) →
      changesSeen seen (some last) edges = []
  | [], _, _, _ => rfl
  | e :: edges, last, hlast, h => by
    have he : seen e = v := h e List.mem_cons_self
    have hsame : (some last).map seen = some (seen e) := by simp [hlast, he]
    rw [changesSeen, if_pos hsame]
    exact changesSeen_of_forall he fun d hd => h d (List.mem_cons_of_mem _ hd)

/-- A still wire is sampled at the first edge, and at the second one if the first one comes too
early to see its value. -/
theorem Still.changesSeen_eq (h : Still v x) (hx : StartsAtZero x)
    (hedges : (first :: second :: later).Pairwise (· < ·)) :
    changesSeen (valueBefore x) none (first :: second :: later) =
      (first, valueBefore x first) :: if first = 0 ∧ v ≠ 0 then [(second, v)] else [] := by
  obtain ⟨hfirst, hlater⟩ := List.pairwise_cons.1 hedges
  have hpos : ∀ e ∈ second :: later, valueBefore x e = v := by
    intro e he
    rw [h.valueBefore_eq hx, if_neg (Nat.ne_zero_of_lt (hfirst e he))]
  have hsecond := hpos second List.mem_cons_self
  have hrest : changesSeen (valueBefore x) (some second) later = [] :=
    changesSeen_of_forall hsecond fun e he => hpos e (List.mem_cons_of_mem _ he)
  simp only [changesSeen, Option.map_none, Option.map_some, hsecond, hrest, reduceCtorEq, if_false,
    Option.some.injEq]
  rw [h.valueBefore_eq hx]
  by_cases hzero : first = 0
  · by_cases hv : v = 0
    · simp [hzero, hv]
    · simp [hzero, hv, Ne.symm hv]
  · simp [hzero]

/-- The samples of a still wire that are left when the first one is trimmed. -/
theorem Still.sampledAt_iff (h : Still v x) (hx : StartsAtZero x)
    (hedges : (first :: second :: later).Pairwise (· < ·)) (hstart : first ≤ settings.startTime) :
    settings.startTime < e ∧ SampledAt x (first :: second :: later) e w ↔
      (v ≠ 0 ∧ first = 0 ∧ settings.startTime < second) ∧ e = second ∧ w = v := by
  rw [← mem_changesSeen_iff_sampledAt, h.changesSeen_eq hx hedges]
  constructor
  · rintro ⟨he, hmem⟩
    rcases List.mem_cons.1 hmem with heq | hlate
    · cases heq
      exact absurd he (Nat.not_lt.2 hstart)
    · split at hlate
      · rename_i hseen
        simp only [List.mem_singleton, Prod.mk.injEq] at hlate
        obtain ⟨rfl, rfl⟩ := hlate
        exact ⟨⟨hseen.2, hseen.1, he⟩, rfl, rfl⟩
      · cases hlate
  · rintro ⟨⟨hv, hzero, hsecond⟩, rfl, rfl⟩
    exact ⟨hsecond, by simp [hzero, hv]⟩

/-- **What is left of a wire that never changes.** Let a dump be prepared with a start time that is
no earlier than the first edge of its clock, and let all events of another wire carry the value `v`.
If `v` is 0, or the clock first rises later than at time 0, or the samples of the second edge are
trimmed as well, then the wire is not kept: whatever is stored under its names was sampled from
another wire that has the same names except for temporaries. In all other cases a wire that is worth
mining, and whose names no other such wire has, is kept with one event: at the second edge it seems
to change from 0 to `v`. -/
theorem still_wire_unmined (h : prepare dump settings = .ok p) :
    ∃ events first second later, dump.store.lookup p.clock = some events ∧
      posedges events = first :: second :: later ∧ (first ≤ settings.startTime →
        ∀ g x v, dump.store.lookup g = some x → g ≠ p.clock → Still v x →
          ((v = 0 ∨ 0 < first ∨ second ≤ settings.startTime) →
            ∀ y, p.store.lookup (keptNames settings g) = some y →
              ∃ g' x', g' ≠ g ∧ g' ≠ p.clock ∧ dump.store.lookup g' = some x' ∧
                Worthwhile settings g' x' ∧ keptNames settings g' = keptNames settings g ∧
                TrimmedSamples settings (first :: second :: later) x' y) ∧
          (v ≠ 0 → first = 0 → settings.startTime < second → Worthwhile settings g x →
            (∀ g' x', dump.store.lookup g' = some x' → g' ≠ p.clock → Worthwhile settings g' x' →
              keptNames settings g' = keptNames settings g → g' = g) →
            p.store.lookup (keptNames settings g) = some (.ofList [(second, v)]))) := by
  obtain ⟨events, first, second, later, hclock, hedges⟩ := exists_edges_of_prepare h
  obtain ⟨-, events', hc, -, hstore⟩ := prepare_eq_ok_iff.1 h
  obtain rfl : events' = events := Option.some.inj (hc.stored.symm.trans hclock)
  have hincreasing := pairwise_posedges events'
  refine ⟨events', first, second, later, hclock, hedges, fun hstart g x v hg hne hstill => ?_⟩
  have hzero : Worthwhile settings g x → StartsAtZero x :=
    (exists_prepareStore_iff hincreasing).1 ⟨_, hstore⟩ g x hg hne
  constructor
  · intro hseen y hlookup
    obtain ⟨g', x', hg', hnamed, hw, hk, hy, htrimmed⟩ := keptAs_of_prepare h hclock hlookup
    rw [hedges] at htrimmed hincreasing
    have hne' : g' ≠ g := by
      rintro rfl
      obtain rfl : x' = x := Option.some.inj (hg'.symm.trans hg)
      obtain ⟨e, he⟩ := List.exists_mem_of_ne_nil _ hy
      have hsampled := (htrimmed e.1 e.2).1 (OrderedMap.mem_entries_iff.1 he)
      obtain ⟨⟨hv, hfirst, hsecond⟩, -⟩ :=
        (hstill.sampledAt_iff (hzero hw) hincreasing hstart).1 hsampled
      rcases hseen with hnull | hrises | htrims
      · exact hv hnull
      · exact Nat.ne_of_gt hrises hfirst
      · exact Nat.not_lt.2 htrims hsecond
    exact ⟨g', x', hne', (hc.ne_iff g' x' hg').2 hnamed, hg', hw, hk.symm, htrimmed⟩
  · intro hv hfirst hsecond hw halone
    have honly : ∀ g' x', dump.store.lookup g' = some x' → ¬ NamedClock settings g' →
        Worthwhile settings g' x' → keptNames settings g' = keptNames settings g → g' = g :=
      fun g' x' hg' hnamed => halone g' x' hg' ((hc.ne_iff g' x' hg').2 hnamed)
    have honce : KeptOnce settings dump.store (keptNames settings g) :=
      fun _ _ _ _ hg₁ hg₂ hn₁ hn₂ hw₁ hw₂ hk₁ hk₂ =>
        (honly _ _ hg₁ hn₁ hw₁ hk₁).trans (honly _ _ hg₂ hn₂ hw₂ hk₂).symm
    refine (lookup_prepareStore_iff hincreasing hc.ne_iff honce hstore _).2
      ⟨g, x, hg, (hc.ne_iff g x hg).1 hne, hw, rfl, List.cons_ne_nil (second, v) [], fun e w => ?_⟩
    rw [hedges] at hincreasing ⊢
    rw [hstill.sampledAt_iff (hzero hw) hincreasing hstart,
      OrderedMap.lookup_ofList_singleton_iff]
    exact ⟨fun hlast => ⟨⟨hv, hfirst, hsecond⟩, hlast⟩, fun hlast => hlast.2⟩

def enableWire : AliasGroup := .ofList [⟨"TOP.enable", 1⟩]

/-- A clock that rises at time 0, a wire that is 1 from then on, and two other wires that have the
same names but for temporaries. -/
def risenAside : Dump where
  root := .mk "TOP" []
  store := .ofList [(clockWire, .ofList [(0, 1), (5, 0), (10, 1), (15, 0), (20, 1)]),
    (enableWire, .ofList [(0, 1)]),
    (.ofList [⟨"TOP.data", 1⟩, ⟨"TOP._T_1", 1⟩], .ofList [(0, 0), (6, 1)]),
    (.ofList [⟨"TOP.data", 1⟩, ⟨"TOP._T_2", 1⟩], .ofList [(0, 0), (12, 1)])]
  timescale := none

theorem eq_enableWire_of_keptNames {g : AliasGroup} {x : DeltaTrace}
    (hg : risenAside.store.lookup g = some x)
    (hk : keptNames .default g = keptNames .default enableWire) : g = enableWire := by
  have hall : ∀ e ∈ risenAside.store.entries,
      keptNames .default e.1 = keptNames .default enableWire → e.1 = enableWire := by
    decide +kernel
  exact hall (g, x) (OrderedMap.mem_entries_iff.2 hg) hk

/-- A wire that is always 0 and a wire that is 1 when the clock rises at time 0. -/
theorem still_wire_unmined_ticking :
    (∃ p, prepare ticking { Settings.default with startTime := 5 } = .ok p ∧
      p.store.lookup (.ofList [⟨"TOP.ready", 1⟩]) = none) ∧
    ∃ p, prepare risenAside .default = .ok p ∧
      p.store.lookup (keptNames .default enableWire) = some (.ofList [(10, 1)]) := by
  constructor
  · have hvalue : (prepare ticking { Settings.default with startTime := 5 }).toOption.map
        (fun p => p.clock) = some clockWire := by
      decide +kernel
    obtain ⟨p, hp, hclock⟩ := map_toOption_eq_some_iff.1 hvalue
    obtain ⟨events, first, second, later, hevents, hedges, hstill⟩ := still_wire_unmined hp
    have hticks := posedges_ticking (hclock ▸ hevents)
    rw [hedges] at hticks
    obtain ⟨rfl, -⟩ := List.cons.inj hticks
    have hready : ticking.store.lookup readyWire = some (.ofList [(0, 0)]) := by decide +kernel
    have hnames : keptNames .default readyWire = .ofList [⟨"TOP.ready", 1⟩] := by decide +kernel
    have hne : readyWire ≠ p.clock := by
      rw [hclock]
      decide +kernel
    have hworth : Worthwhile .default readyWire (.ofList [(0, 0)]) :=
      isWorthwhile_iff.1 (by decide +kernel)
    obtain ⟨hunkept, -⟩ := hstill (by decide) readyWire _ 0 hready hne still_singleton
    refine ⟨p, hp, Option.eq_none_iff_forall_ne_some.2 fun y hy => ?_⟩
    rw [← hnames] at hy
    obtain ⟨g, x, hdiffers, hx, hg, hw, hk, -⟩ := hunkept (.inl rfl) y hy
    obtain ⟨-, events', hc, -, -⟩ := prepare_eq_ok_iff.1 hp
    have hn := (hc.ne_iff g x hg).1 hx
    have hn' := (hc.ne_iff readyWire _ hready).1 hne
    have hw' : Worthwhile .default g x := ⟨hw.named, hw.narrow, hw.driven⟩
    exact absurd (keptApart_ticking g readyWire x _ hg hready hn hn' hw' hworth hk) hdiffers
  · have hvalue : (prepare risenAside .default).toOption.map (fun p => p.clock) =
        some clockWire := by
      decide +kernel
    obtain ⟨p, hp, hclock⟩ := map_toOption_eq_some_iff.1 hvalue
    obtain ⟨events, first, second, later, hevents, hedges, hstill⟩ := still_wire_unmined hp
    have hrises : (risenAside.store.lookup clockWire).map posedges = some [0, 10, 20] := by
      decide +kernel
    rw [← hclock, hevents, Option.map_some, hedges] at hrises
    obtain ⟨rfl, hlater⟩ := List.cons.inj (Option.some.inj hrises)
    obtain ⟨rfl, -⟩ := List.cons.inj hlater
    have henable : risenAside.store.lookup enableWire = some (.ofList [(0, 1)]) := by
      decide +kernel
    have hne : enableWire ≠ p.clock := by
      rw [hclock]
      decide +kernel
    have hworth : Worthwhile .default enableWire (.ofList [(0, 1)]) :=
      isWorthwhile_iff.1 (by decide +kernel)
    obtain ⟨-, hkept⟩ := hstill (by decide) enableWire _ 1 henable hne still_singleton
    exact ⟨p, hp, hkept (by decide) rfl (by decide) hworth
      fun g' x' hg' _ _ hk => eq_enableWire_of_keptNames hg' hk⟩

/-- A clock that rises at time 0, and a wire that is 1 from then on. -/
def risenAtZero : Dump where
  root := .mk "TOP" []
  store := .ofList [(clockWire, .ofList [(0, 1), (5, 0), (10, 1), (15, 0), (20, 1)]),
    (.ofList [⟨"TOP.enable", 1⟩], .ofList [(0, 1)])]
  timescale := none

/-- A wire that never changes, and another one that has the same names but for temporaries. -/
def sharedNames : Dump where
  root := .mk "TOP" []
  store := .ofList [(clockWire, .ofList [(0, 0), (5, 1), (10, 0), (15, 1), (20, 0), (25, 1)]),
    (.ofList [⟨"TOP.data", 1⟩, ⟨"TOP._T_1", 1⟩], .ofList [(0, 0)]),
    (.ofList [⟨"TOP.data", 1⟩, ⟨"TOP._T_2", 1⟩], .ofList [(0, 0), (6, 1)])]
  timescale := none

/-- A still wire is kept for its second edge, and the names of one are kept for another wire. -/
theorem still_wire_kept :
    ((risenAtZero.store.lookup clockWire).map posedges = some [0, 10, 20] ∧
      risenAtZero.store.lookup (.ofList [⟨"TOP.enable", 1⟩]) = some (.ofList [(0, 1)]) ∧
      Still 1 (.ofList [(0, 1)]) ∧ Settings.default.startTime = 0 ∧
      ∃ p, prepare risenAtZero .default = .ok p ∧ p.clock = clockWire ∧
        p.store.lookup (.ofList [⟨"TOP.enable", 1⟩]) = some (.ofList [(10, 1)])) ∧
    ((sharedNames.store.lookup clockWire).map posedges = some [5, 15, 25] ∧
      sharedNames.store.lookup (.ofList [⟨"TOP.data", 1⟩, ⟨"TOP._T_1", 1⟩]) =
        some (.ofList [(0, 0)]) ∧
      Still 0 (.ofList [(0, 0)]) ∧
      ∃ p, prepare sharedNames { Settings.default with startTime := 5 } = .ok p ∧
        p.clock = clockWire ∧
        p.store.lookup (keptNames .default (.ofList [⟨"TOP.data", 1⟩, ⟨"TOP._T_1", 1⟩])) =
          some (.ofList [(15, 1)])) := by
  constructor
  · have hvalue : (prepare risenAtZero .default).toOption.map
        (fun p => (p.clock, p.store.lookup (.ofList [⟨"TOP.enable", 1⟩]))) =
          some (clockWire, some (.ofList [(10, 1)])) := by
      decide +kernel
    obtain ⟨p, hp, hfields⟩ := map_toOption_eq_some_iff.1 hvalue
    simp only [Prod.mk.injEq] at hfields
    exact ⟨by decide +kernel, by decide +kernel, still_singleton, rfl, p, hp, hfields⟩
  · have hvalue : (prepare sharedNames { Settings.default with startTime := 5 }).toOption.map
        (fun p => (p.clock, p.store.lookup
          (keptNames .default (.ofList [⟨"TOP.data", 1⟩, ⟨"TOP._T_1", 1⟩])))) =
          some (clockWire, some (.ofList [(15, 1)])) := by
      decide +kernel
    obtain ⟨p, hp, hfields⟩ := map_toOption_eq_some_iff.1 hvalue
    simp only [Prod.mk.injEq] at hfields
    exact ⟨by decide +kernel, by decide +kernel, still_singleton, p, hp, hfields⟩

end TraceMining
