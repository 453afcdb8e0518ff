import TraceMining.Preparation
import TraceMining.Proofs.Except
import TraceMining.Proofs.Sampling

/-!
# What preparation keeps

Five filters decide which wires of a dump are mined, and they interact: a wire that an earlier one
drops cannot make preparation fail. Each step gets one statement of what it does: finding the clock
(`findClock_eq_ok_iff`), choosing the wires (`isWorthwhile_iff`), sampling and trimming one of them
(`prepareWire_eq_ok_iff`), and storing them all (`exists_prepareStore_iff`,
`lookup_prepareStore_iff`). Together they say exactly when preparation succeeds and what it keeps
(`prepare_exact`).

The samples are trimmed after repeated values are dropped. So a prepared wire may begin without a
value, but each of its events still is a change between two edges that follow each other.
-/

namespace TraceMining

open Waveform (Dump)

/-! ## Names -/

/-- Some fragment stands in the name of the signal. -/
def NameHas (fragments : List String) (s : Signal) : Prop :=
  ∃ f ∈ fragments, f.toList <:+: s.name.toList

theorem containsAny_iff {fragments : List String} {s : Signal} :
    Settings.containsAny fragments s.name = true ↔ NameHas fragments s := by
  simp only [Settings.containsAny, List.any_eq_true, Text.occursIn_iff, NameHas]

/-- Some signal of the wire is named as a clock. -/
def NamedClock (settings : Settings) (g : AliasGroup) : Prop :=
  ∃ s ∈ g, NameHas settings.clockFragments s

theorem any_isClock_iff {settings : Settings} {g : AliasGroup} :
    g.any settings.isClock = true ↔ NamedClock settings g := by
  simp only [OrderedSet.any, List.any_eq_true, Settings.isClock, containsAny_iff]
  rfl

/-- A wire with a signal that is no temporary, whose signals that are none are narrow enough, and
that was driven at least once. -/
structure Worthwhile (settings : Settings) (g : AliasGroup) (x : DeltaTrace) : Prop where
  named : ∃ s ∈ g, ¬ NameHas settings.junkFragments s
  narrow : ∀ s ∈ g, ¬ NameHas settings.junkFragments s → s.width ≤ settings.signalBitLimit
  driven : x.entries ≠ []

theorem foldl_max_le_iff {n : Nat} :
    ∀ {signals : List Signal} {w : Nat},
      signals.foldl (fun w s => max w s.width) w ≤ n ↔ w ≤ n ∧ ∀ s ∈ signals, s.width ≤ n
  | [], _ => by simp
  | s :: signals, w => by
    rw [List.foldl_cons, foldl_max_le_iff, Nat.max_le, List.forall_mem_cons, and_assoc]

theorem width_le_iff {g : AliasGroup} {n : Nat} : g.width ≤ n ↔ ∀ s ∈ g, s.width ≤ n := by
  rw [AliasGroup.width, foldl_max_le_iff]
  exact ⟨fun h => h.2, fun h => ⟨Nat.zero_le n, h⟩⟩

theorem mem_keptNames {settings : Settings} {g : AliasGroup} {s : Signal} :
    s ∈ keptNames settings g ↔ s ∈ g ∧ ¬ NameHas settings.junkFragments s := by
  rw [← containsAny_iff, Bool.not_eq_true, ← Bool.not_eq_true']
  exact List.mem_filter

theorem isWorthwhile_iff {settings : Settings} {g : AliasGroup} {x : DeltaTrace} :
    isWorthwhile settings (g, x) = true ↔ Worthwhile settings g x := by
  simp only [isWorthwhile, Bool.and_eq_true, decide_eq_true_eq, Bool.not_eq_true', width_le_iff,
    mem_keptNames, and_imp]
  constructor
  · rintro ⟨⟨hnamed, hnarrow⟩, hdriven⟩
    obtain ⟨s, hs⟩ := List.exists_mem_of_ne_nil _ (List.isEmpty_eq_false_iff.1 hnamed)
    exact ⟨⟨s, mem_keptNames.1 hs⟩, hnarrow, List.isEmpty_eq_false_iff.1 hdriven⟩
  · rintro ⟨⟨s, hs⟩, hnarrow, hdriven⟩
    exact ⟨⟨List.isEmpty_eq_false_iff.2 (List.ne_nil_of_mem (mem_keptNames.2 hs)), hnarrow⟩,
      List.isEmpty_eq_false_iff.2 hdriven⟩

/-! ## The clock -/

/-- The wire is the only one that is named as a clock, and is one bit wide under all its names. -/
structure IsClockOf (settings : Settings) (store : Store) (clock : AliasGroup)
    (events : DeltaTrace) : Prop where
  stored : store.lookup clock = some events
  named : NamedClock settings clock
  only : ∀ g x, store.lookup g = some x → NamedClock settings g → g = clock
  bit : ∀ s ∈ clock, s.width = 1

theorem findClock_eq_ok_iff {settings : Settings} {store : Store} {clock : AliasGroup}
    {events : DeltaTrace} :
    findClock store settings = .ok (clock, events) ↔ IsClockOf settings store clock events := by
  have hfilter : (store.entries.filter fun e => e.1.any settings.isClock) = [(clock, events)] ↔
      store.lookup clock = some events ∧ NamedClock settings clock ∧
        ∀ g x, store.lookup g = some x → NamedClock settings g → g = clock := by
    rw [filter_eq_singleton_iff store.nodup_entries, OrderedMap.mem_entries_iff, any_isClock_iff]
    refine and_congr_right fun hstored => and_congr_right fun _ => ⟨fun h g x hg hn => ?_, ?_⟩
    · exact congrArg Prod.fst (h (g, x) (OrderedMap.mem_entries_iff.2 hg) (any_isClock_iff.2 hn))
    · rintro h ⟨g, x⟩ hg hn
      have hx := OrderedMap.mem_entries_iff.1 hg
      have hgc := h g x hx (any_isClock_iff.1 hn)
      subst hgc
      rw [hstored] at hx
      cases hx
      rfl
  have hbit : (clock.any fun s => s.width != 1) = false ↔ ∀ s ∈ clock, s.width = 1 := by
    simp only [OrderedSet.any, List.any_eq_false, bne_iff_ne, ne_eq, Decidable.not_not]
    rfl
  unfold findClock
  constructor
  · intro h
    split at h
    · cases h
    · rename_i group ev hone
      split at h
      · cases h
      · rename_i hwide
        cases h
        obtain ⟨hstored, hnamed, honly⟩ := hfilter.1 hone
        exact ⟨hstored, hnamed, honly, hbit.1 (Bool.not_eq_true _ ▸ hwide)⟩
    · cases h
  · rintro ⟨hstored, hnamed, honly, hone⟩
    rw [hfilter.2 ⟨hstored, hnamed, honly⟩]
    simp only [hbit.2 hone, Bool.false_eq_true, if_false]

/-! ## The other wires -/

/-- The events of a prepared wire: the samples of `x` later than the start time. -/
def TrimmedSamples (settings : Settings) (edges : List Time) (x y : DeltaTrace) : Prop :=
  ∀ e v, y.lookup e = some v ↔ settings.startTime < e ∧ SampledAt x edges e v

theorem lookup_since_iff {t e : Time} {v : Value} {x : DeltaTrace} :
    (x.since t).lookup e = some v ↔ t < e ∧ x.lookup e = some v := by
  rw [Trace.since, OrderedMap.lookup_filter_iff, decide_eq_true_eq, and_comm]

theorem prepareWire_eq_ok_iff {settings : Settings} {edges : List Time}
    (he : edges.Pairwise (· < ·)) {wire : AliasGroup × DeltaTrace} {k : AliasGroup}
    {y : DeltaTrace} :
    prepareWire settings edges wire = .ok (k, y) ↔
      StartsAtZero wire.2 ∧ k = keptNames settings wire.1 ∧
        TrimmedSamples settings edges wire.2 y := by
  unfold prepareWire
  constructor
  · intro h
    split at h
    · cases h
    · rename_i samples hs
      cases h
      obtain ⟨hx, hsamples⟩ := (sample_eq_ok_iff he).1 hs
      refine ⟨hx, rfl, fun e v => ?_⟩
      rw [lookup_since_iff, hsamples]
  · rintro ⟨hx, rfl, hy⟩
    rw [sample_of_startsAtZero hx he]
    refine congrArg (fun z => Except.ok (_, z)) ?_
    apply OrderedMap.ext_lookup
    intro e
    ext v
    rw [lookup_since_iff, lookup_samples_iff, hy]

/-- The wires that are sampled. -/
theorem mem_sampledWires {settings : Settings} {clock : AliasGroup} {store : Store}
    (wire : AliasGroup × DeltaTrace) :
    wire ∈ store.entries.filter (fun e => e.1 != clock && isWorthwhile settings e) ↔
      store.lookup wire.1 = some wire.2 ∧ wire.1 ≠ clock ∧ Worthwhile settings wire.1 wire.2 := by
  rw [List.mem_filter, OrderedMap.mem_entries_iff, Bool.and_eq_true, bne_iff_ne, isWorthwhile_iff]

theorem exists_prepareStore_iff {settings : Settings} {clock : AliasGroup} {edges : List Time}
    (he : edges.Pairwise (· < ·)) {store : Store} :
    (∃ s, prepareStore settings clock edges store = .ok s) ↔
      ∀ g x, store.lookup g = some x → g ≠ clock → Worthwhile settings g x → StartsAtZero x := by
  have hmapM : (∃ s, prepareStore settings clock edges store = .ok s) ↔
      ∃ sampled, (store.entries.filter fun e => e.1 != clock && isWorthwhile settings e).mapM
        (prepareWire settings edges) = .ok sampled := by
    constructor
    · rintro ⟨s, h⟩
      obtain ⟨sampled, hs, -⟩ := bind_eq_ok_iff.1 h
      exact ⟨sampled, hs⟩
    · rintro ⟨sampled, hs⟩
      exact ⟨_, bind_eq_ok_iff.2 ⟨sampled, hs, rfl⟩⟩
  rw [hmapM, exists_mapM_eq_ok]
  constructor
  · intro h g x hg hne hw
    obtain ⟨⟨k, y⟩, hy⟩ := h (g, x) ((mem_sampledWires (g, x)).2 ⟨hg, hne, hw⟩)
    exact ((prepareWire_eq_ok_iff he).1 hy).1
  · rintro h ⟨g, x⟩ hmem
    obtain ⟨hg, hne, hw⟩ := (mem_sampledWires _).1 hmem
    exact ⟨_, (prepareWire_eq_ok_iff he).2 ⟨h g x hg hne hw, rfl, fun e v => by
      rw [lookup_since_iff, lookup_samples_iff]⟩⟩

/-- The wires that are worth mining stay different when their temporaries are dropped. -/
def KeptApart (settings : Settings) (store : Store) : Prop :=
  ∀ g g' x x', store.lookup g = some x → store.lookup g' = some x' →
    ¬ NamedClock settings g → ¬ NamedClock settings g' →
    Worthwhile settings g x → Worthwhile settings g' x' →
    keptNames settings g = keptNames settings g' → g = g'

/-- At most one wire that is worth mining has the name `k` once its temporaries are dropped. -/
def KeptOnce (settings : Settings) (store : Store) (k : AliasGroup) : Prop :=
  ∀ g g' x x', store.lookup g = some x → store.lookup g' = some x' →
    ¬ NamedClock settings g → ¬ NamedClock settings g' →
    Worthwhile settings g x → Worthwhile settings g' x' →
    keptNames settings g = k → keptNames settings g' = k → g = g'

theorem KeptApart.keptOnce {settings : Settings} {store : Store} (h : KeptApart settings store)
    (k : AliasGroup) : KeptOnce settings store k :=
  fun g g' x x' hg hg' hgc hgc' hw hw' hk hk' =>
    h g g' x x' hg hg' hgc hgc' hw hw' (hk.trans hk'.symm)

/-- The wire is worth mining, and its samples beyond the start time are kept under the name `k`. -/
def KeptAs (settings : Settings) (edges : List Time) (store : Store) (k : AliasGroup)
    (y : DeltaTrace) : Prop :=
  ∃ g x, store.lookup g = some x ∧ ¬ NamedClock settings g ∧ Worthwhile settings g x ∧
    k = keptNames settings g ∧ y.entries ≠ [] ∧ TrimmedSamples settings edges x y

theorem KeptAs.unique {settings : Settings} {edges : List Time} {store : Store} {k : AliasGroup}
    {y y' : DeltaTrace} (honce : KeptOnce settings store k) (h : KeptAs settings edges store k y)
    (h' : KeptAs settings edges store k y') : y = y' := by
  obtain ⟨g, x, hg, hgc, hw, hk, -, hy⟩ := h
  obtain ⟨g', x', hg', hgc', hw', hk', -, hy'⟩ := h'
  have hgg := honce g g' x x' hg hg' hgc hgc' hw hw' hk.symm hk'.symm
  subst hgg
  rw [hg] at hg'
  cases hg'
  apply OrderedMap.ext_lookup
  intro e
  ext v
  exact (hy e v).trans (hy' e v).symm

/-- What is sampled and not left without events is what is kept. -/
theorem mem_sampled_iff {settings : Settings} {clock : AliasGroup} {edges : List Time}
    (he : edges.Pairwise (· < ·)) {store : Store} {sampled : List (AliasGroup × DeltaTrace)}
    (hclock : ∀ g x, store.lookup g = some x → (g ≠ clock ↔ ¬ NamedClock settings g))
    (hs : (store.entries.filter fun e => e.1 != clock && isWorthwhile settings e).mapM
      (prepareWire settings edges) = .ok sampled) (k : AliasGroup) (y : DeltaTrace) :
    (k, y) ∈ sampled.filter (fun e => !e.2.isEmpty) ↔ KeptAs settings edges store k y := by
  rw [List.mem_filter, mem_of_mapM_eq_ok hs, Bool.not_eq_true', OrderedMap.isEmpty,
    List.isEmpty_eq_false_iff]
  constructor
  · rintro ⟨⟨⟨g, x⟩, hwire, hy⟩, hne⟩
    obtain ⟨hg, hgc, hw⟩ := (mem_sampledWires _).1 hwire
    obtain ⟨-, hk, hy⟩ := (prepareWire_eq_ok_iff he).1 hy
    exact ⟨g, x, hg, (hclock g x hg).1 hgc, hw, hk, hne, hy⟩
  · rintro ⟨g, x, hg, hgc, hw, rfl, hne, hy⟩
    have hwire := (mem_sampledWires (g, x)).2 ⟨hg, (hclock g x hg).2 hgc, hw⟩
    obtain ⟨z, hz⟩ := exists_mapM_eq_ok.1 ⟨sampled, hs⟩ (g, x) hwire
    have hx := ((prepareWire_eq_ok_iff (k := z.1) (y := z.2) he).1 hz).1
    exact ⟨⟨(g, x), hwire, (prepareWire_eq_ok_iff he).2 ⟨hx, rfl, hy⟩⟩, hne⟩

theorem keptAs_of_prepareStore {settings : Settings} {clock : AliasGroup} {edges : List Time}
    (he : edges.Pairwise (· < ·)) {store s : Store}
    (hclock : ∀ g x, store.lookup g = some x → (g ≠ clock ↔ ¬ NamedClock settings g))
    (h : prepareStore settings clock edges store = .ok s) {k : AliasGroup} {y : DeltaTrace}
    (hy : s.lookup k = some y) : KeptAs settings edges store k y := by
  obtain ⟨sampled, hs, hofList⟩ := bind_eq_ok_iff.1 h
  cases hofList
  rw [OrderedMap.lookup_ofList] at hy
  exact (mem_sampled_iff he hclock hs k y).1 (mem_of_lastEntry hy)

/-- What is stored under a name, if no two wires are kept under it. -/
theorem lookup_prepareStore_iff {settings : Settings} {clock : AliasGroup} {edges : List Time}
    (he : edges.Pairwise (· < ·)) {store s : Store}
    (hclock : ∀ g x, store.lookup g = some x → (g ≠ clock ↔ ¬ NamedClock settings g))
    {k : AliasGroup} (honce : KeptOnce settings store k)
    (h : prepareStore settings clock edges store = .ok s) (y : DeltaTrace) :
    s.lookup k = some y ↔ KeptAs settings edges store k y := by
  obtain ⟨sampled, hs, hofList⟩ := bind_eq_ok_iff.1 h
  cases hofList
  have hmem := mem_sampled_iff he hclock hs k
  refine (OrderedMap.lookup_ofList_iff_of_key ?_).trans (hmem y)
  intro y y' hy hy'
  exact KeptAs.unique honce ((hmem y).1 hy) ((hmem y').1 hy')

/-! ## The whole dump -/

theorem IsClockOf.ne_iff {settings : Settings} {store : Store} {clock : AliasGroup}
    {events : DeltaTrace} (hc : IsClockOf settings store clock events) (g : AliasGroup)
    (x : DeltaTrace) (hg : store.lookup g = some x) : g ≠ clock ↔ ¬ NamedClock settings g :=
  not_congr ⟨fun h => h ▸ hc.named, hc.only g x hg⟩

theorem prepare_eq_ok_iff {dump : Dump} {settings : Settings} {p : Prepared} :
    prepare dump settings = .ok p ↔
      p.root = dump.root ∧ ∃ events, IsClockOf settings dump.store p.clock events ∧
        clockPeriod (posedges events) = some p.period ∧
        prepareStore settings p.clock (posedges events) dump.store = .ok p.store := by
  constructor
  · intro h
    obtain ⟨⟨clock, events⟩, hc, h⟩ := bind_eq_ok_iff.1 h
    rw [mapError_eq_ok_iff, findClock_eq_ok_iff] at hc
    simp only at h
    split at h
    · cases h
    · rename_i period hperiod
      obtain ⟨store, hstore, h⟩ := bind_eq_ok_iff.1 h
      cases h
      exact ⟨rfl, events, hc, hperiod, hstore⟩
  · rintro ⟨hroot, events, hc, hperiod, hstore⟩
    refine bind_eq_ok_iff.2 ⟨(p.clock, events), mapError_eq_ok_iff.2 (findClock_eq_ok_iff.2 hc), ?_⟩
    simp only [hperiod]
    refine bind_eq_ok_iff.2 ⟨p.store, hstore, ?_⟩
    rw [← hroot]

/-- Every entry of the prepared store holds the samples of a wire of the dump. -/
theorem keptAs_of_prepare {dump : Dump} {settings : Settings} {p : Prepared}
    (h : prepare dump settings = .ok p) {events : DeltaTrace}
    (hclock : dump.store.lookup p.clock = some events) {k : AliasGroup} {y : DeltaTrace}
    (hy : p.store.lookup k = some y) : KeptAs settings (posedges events) dump.store k y := by
  obtain ⟨-, events', hc, -, hstore⟩ := prepare_eq_ok_iff.1 h
  obtain rfl : events' = events := Option.some.inj (hc.stored.symm.trans hclock)
  exact keptAs_of_prepareStore (pairwise_posedges events') hc.ne_iff hstore hy

/-- A wire that preparation leaves without events is not kept. -/
theorem entries_ne_nil_of_prepare {dump : Dump} {settings : Settings} {p : Prepared}
    (h : prepare dump settings = .ok p) {k : AliasGroup} {y : DeltaTrace}
    (hy : p.store.lookup k = some y) : y.entries ≠ [] := by
  obtain ⟨-, events, hc, -, -⟩ := prepare_eq_ok_iff.1 h
  obtain ⟨-, -, -, -, -, -, hne, -⟩ := keptAs_of_prepare h hc.stored hy
  exact hne

theorem exists_prepare_iff {dump : Dump} {settings : Settings} :
    (∃ p, prepare dump settings = .ok p) ↔
      ∃ clock events, IsClockOf settings dump.store clock events ∧
        2 ≤ (posedges events).length ∧
        ∀ g x, dump.store.lookup g = some x → ¬ NamedClock settings g → Worthwhile settings g x →
          StartsAtZero x := by
  constructor
  · rintro ⟨p, h⟩
    obtain ⟨-, events, hc, hperiod, hstore⟩ := prepare_eq_ok_iff.1 h
    refine ⟨p.clock, events, hc, (isSome_clockPeriod_iff _).1 (hperiod ▸ rfl), ?_⟩
    intro g x hg hgc hw
    exact (exists_prepareStore_iff (pairwise_posedges events)).1 ⟨_, hstore⟩ g x hg
      ((hc.ne_iff g x hg).2 hgc) hw
  · rintro ⟨clock, events, hc, hedges, hzero⟩
    obtain ⟨period, hperiod⟩ := Option.isSome_iff_exists.1 ((isSome_clockPeriod_iff _).2 hedges)
    have hsampled : ∃ s, prepareStore settings clock (posedges events) dump.store = .ok s :=
      (exists_prepareStore_iff (pairwise_posedges events)).2 fun g x hg hgc hw =>
        hzero g x hg ((hc.ne_iff g x hg).1 hgc) hw
    obtain ⟨store, hstore⟩ := hsampled
    exact ⟨⟨dump.root, store, clock, period⟩,
      prepare_eq_ok_iff.2 ⟨rfl, events, hc, hperiod, hstore⟩⟩

/-- **Exactly what preparation keeps.** It succeeds exactly if there is one clock, with two rising
edges, and every other wire that is worth mining has a value from time 0 on. Then the clock and the
modules are those of the dump, the period is that of the rising edges, and the wires are those
worth mining whose samples reach beyond the start time, under the names that are no temporaries. -/
theorem prepare_exact (dump : Dump) (settings : Settings)
    (hapart : KeptApart settings dump.store) :
    ((∃ p, prepare dump settings = .ok p) ↔
      ∃ clock events, IsClockOf settings dump.store clock events ∧
        2 ≤ (posedges events).length ∧
        ∀ g x, dump.store.lookup g = some x → ¬ NamedClock settings g → Worthwhile settings g x →
          StartsAtZero x) ∧
    ∀ p, prepare dump settings = .ok p →
      ∃ events, IsClockOf settings dump.store p.clock events ∧
        clockPeriod (posedges events) = some p.period ∧ p.root = dump.root ∧
        ∀ k y, p.store.lookup k = some y ↔
          ∃ g x, dump.store.lookup g = some x ∧ ¬ NamedClock settings g ∧
            Worthwhile settings g x ∧ k = keptNames settings g ∧ y.entries ≠ [] ∧
            TrimmedSamples settings (posedges events) x y := by
  refine ⟨exists_prepare_iff, fun p hp => ?_⟩
  obtain ⟨hroot, events, hc, hperiod, hstore⟩ := prepare_eq_ok_iff.1 hp
  exact ⟨events, hc, hperiod, hroot, fun k =>
    lookup_prepareStore_iff (pairwise_posedges events) hc.ne_iff (hapart.keptOnce k) hstore⟩

def clockWire : AliasGroup := .ofList [⟨"TOP.clock", 1⟩]

def validWire : AliasGroup := .ofList [⟨"TOP.valid", 1⟩, ⟨"TOP._T_3", 1⟩]

def readyWire : AliasGroup := .ofList [⟨"TOP.ready", 1⟩, ⟨"TOP._T_4", 1⟩]

/-- A clock with three rising edges and two wires, one of which never changes. -/
def ticking : Dump where
  root := .mk "TOP" []
  store := .ofList [(clockWire, .ofList [(0, 0), (5, 1), (10, 0), (15, 1), (20, 0), (25, 1)]),
    (validWire, .ofList [(0, 0), (6, 1), (16, 0)]), (readyWire, .ofList [(0, 0)])]
  timescale := none

/-- What its clock sees of the wires, under the names that are no temporaries. -/
def tickingSeen : Store :=
  .ofList [(.ofList [⟨"TOP.valid", 1⟩], .ofList [(5, 0), (15, 1), (25, 0)]),
    (.ofList [⟨"TOP.ready", 1⟩], .ofList [(5, 0)])]

theorem keptApart_ticking : KeptApart .default ticking.store := by
  have hclock : NamedClock .default clockWire := any_isClock_iff.1 (by decide +kernel)
  have hne : keptNames .default validWire ≠ keptNames .default readyWire := by decide +kernel
  have hkeys : ticking.store.entries.map Prod.fst = [validWire, readyWire, clockWire] := by
    decide +kernel
  have hcases : ∀ g x, ticking.store.lookup g = some x → ¬ NamedClock .default g →
      g = validWire ∨ g = readyWire := by
    intro g x hg hn
    have hmem : g ∈ ticking.store.entries.map Prod.fst :=
      List.mem_map_of_mem (OrderedMap.mem_entries_iff.2 hg)
    rw [hkeys] at hmem
    simp only [List.mem_cons, List.not_mem_nil, or_false] at hmem
    rcases hmem with h | h | rfl
    · exact .inl h
    · exact .inr h
    · exact absurd hclock hn
  intro g g' x x' hg hg' hn hn' _ _ hk
  rcases hcases g x hg hn with rfl | rfl <;> rcases hcases g' x' hg' hn' with rfl | rfl
  · rfl
  · exact absurd hk hne
  · exact absurd hk.symm hne
  · rfl

theorem prepare_ticking :
    KeptApart .default ticking.store ∧
    ∃ p, prepare ticking .default = .ok p ∧ p.clock = clockWire ∧ p.period = 10 ∧
      p.store = tickingSeen ∧
      ∃ events g x, IsClockOf .default ticking.store clockWire events ∧
        ticking.store.lookup g = some x ∧ ¬ NamedClock .default g ∧ Worthwhile .default g x ∧
        .ofList [⟨"TOP.valid", 1⟩] = keptNames .default g ∧
        TrimmedSamples .default (posedges events) x (.ofList [(5, 0), (15, 1), (25, 0)]) := by
  have hvalue : (prepare ticking .default).toOption.map (fun p => (p.clock, p.period, p.store)) =
      some (clockWire, 10, tickingSeen) := by
    decide +kernel
  obtain ⟨p, hp, hfields⟩ := Option.map_eq_some_iff.1 hvalue
  simp only [Prod.mk.injEq] at hfields
  obtain ⟨hclock, hperiod, hseen⟩ := hfields
  have hp := toOption_eq_some_iff.1 hp
  obtain ⟨events, hc, -, -, hstore⟩ := (prepare_exact ticking .default keptApart_ticking).2 p hp
  have hvalid : p.store.lookup (.ofList [⟨"TOP.valid", 1⟩]) =
      some (.ofList [(5, 0), (15, 1), (25, 0)]) := by
    rw [hseen]
    decide +kernel
  obtain ⟨g, x, hg, hn, hw, hk, -, hy⟩ := (hstore _ _).1 hvalid
  rw [hclock] at hc
  exact ⟨keptApart_ticking, p, hp, hclock, hperiod, hseen, events, g, x, hc, hg, hn, hw, hk, hy⟩

end TraceMining
