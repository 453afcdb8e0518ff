import TraceMining.Proofs.EdgeOrder
import TraceMining.Proofs.Preparation

/-!
# Why preparation fails

Preparation fails for what is in the dump and for nothing that it does itself (`PreparationFault`).
The edges of a clock increase, since they are times of its changes; so every distance between
neighbouring edges is a difference of a later and an earlier time, and no sample is ambiguous. What
is kept comes from wires other than the clock, and wires that have the same names when their
temporaries are dropped are kept once; so the clock and the kept wires are never more than there
were wires in the dump (`size_of_prepare`).
-/

namespace TraceMining

open Waveform (Dump)

variable {dump : Dump} {settings : Settings}

/-! ## Distances between edges -/

theorem gaps_eq_map_zip (edges : List Time) :
    gaps edges = (edges.zip edges.tail).map fun e => e.2 - e.1 := by
  induction edges with
  | nil => rfl
  | cons s edges ih =>
    cases edges with
    | nil => rfl
    | cons t rest => exact congrArg ((t - s) :: ·) ih

/-! ## Errors -/

/-- What can be wrong with a dump: it has no clock, or one with too few rising edges, or another wire
that is worth mining has no value at time 0. -/
inductive PreparationFault (dump : Dump) (settings : Settings) : PreparationError → Prop
  | clock {e : ClockError} (h : findClock dump.store settings = .error e) :
    PreparationFault dump settings (.clock e)
  | edges {clock : AliasGroup} {events : DeltaTrace}
      (hclock : IsClockOf settings dump.store clock events)
      (hfew : (posedges events).length < 2) :
    PreparationFault dump settings
      (.clock (.tooFewEdges clock.display (posedges events).length))
  | wire {g : AliasGroup} {x : DeltaTrace} (hstored : dump.store.lookup g = some x)
      (hother : ¬ NamedClock settings g) (hworth : Worthwhile settings g x)
      (hunset : ¬ StartsAtZero x) :
    PreparationFault dump settings (.sample g (.missingInitialValue (x.first?.map (·.1))))

theorem prepareWire_eq_error_iff {edges : List Time} (he : edges.Pairwise (· < ·))
    {wire : AliasGroup × DeltaTrace} {e : PreparationError} :
    prepareWire settings edges wire = .error e ↔
      ¬ StartsAtZero wire.2 ∧ e = .sample wire.1 (.missingInitialValue (wire.2.first?.map (·.1))) := by
  unfold prepareWire
  by_cases hx : StartsAtZero wire.2
  · rw [sample_of_startsAtZero hx he]
    simp [hx]
  · rw [sample_of_not_startsAtZero hx]
    simp [hx, eq_comm]

theorem exists_wire_of_prepareStore {clock : AliasGroup} {edges : List Time}
    (he : edges.Pairwise (· < ·)) {store : Store} {e : PreparationError}
    (h : prepareStore settings clock edges store = .error e) :
    ∃ g x, store.lookup g = some x ∧ g ≠ clock ∧ Worthwhile settings g x ∧ ¬ StartsAtZero x ∧
      e = .sample g (.missingInitialValue (x.first?.map (·.1))) := by
  rcases bind_eq_error_iff.1 h with hsampled | ⟨sampled, -, h⟩
  · obtain ⟨wire, hwire, herror⟩ := exists_of_mapM_eq_error hsampled
    obtain ⟨hstored, hne, hworth⟩ := (mem_sampledWires wire).1 hwire
    obtain ⟨hunset, rfl⟩ := (prepareWire_eq_error_iff he).1 herror
    exact ⟨wire.1, wire.2, hstored, hne, hworth, hunset, rfl⟩
  · cases h

theorem fault_of_prepare {e : PreparationError} (h : prepare dump settings = .error e) :
    PreparationFault dump settings e := by
  rcases bind_eq_error_iff.1 h with hclock | ⟨⟨clock, events⟩, hclock, h⟩
  · obtain ⟨cause, hcause, rfl⟩ := mapError_eq_error_iff.1 hclock
    exact .clock hcause
  · rw [mapError_eq_ok_iff, findClock_eq_ok_iff] at hclock
    simp only at h
    split at h
    · rename_i hperiod
      cases h
      refine .edges hclock (Nat.not_le.1 fun htwo => ?_)
      have hsome := (isSome_clockPeriod_iff _).2 htwo
      rw [hperiod] at hsome
      cases hsome
    · rcases bind_eq_error_iff.1 h with hstore | ⟨store, -, h⟩
      · obtain ⟨g, x, hstored, hne, hworth, hunset, rfl⟩ :=
          exists_wire_of_prepareStore (pairwise_posedges events) hstore
        exact .wire hstored ((hclock.ne_iff g x hstored).1 hne) hworth hunset
      · cases h

/-! ## Counting wires -/

/-- The clock is in the dump and not among the wires that are sampled. -/
theorem length_sampledWires_lt {clock : AliasGroup} {events : DeltaTrace} {store : Store}
    (hstored : store.lookup clock = some events) :
    (store.entries.filter fun e => e.1 != clock && isWorthwhile settings e).length < store.size := by
  refine List.length_filter_lt_length_iff_exists.2
    ⟨(clock, events), OrderedMap.mem_entries_iff.2 hstored, ?_⟩
  simp

theorem size_prepareStore_lt {clock : AliasGroup} {events : DeltaTrace} {edges : List Time}
    {store s : Store} (hstored : store.lookup clock = some events)
    (h : prepareStore settings clock edges store = .ok s) : s.size < store.size := by
  obtain ⟨sampled, hsampled, hofList⟩ := bind_eq_ok_iff.1 h
  cases hofList
  calc (OrderedMap.ofList (sampled.filter fun e => !e.2.isEmpty)).size
      ≤ (sampled.filter fun e => !e.2.isEmpty).length := OrderedMap.size_ofList_le _
    _ ≤ sampled.length := List.length_filter_le _ _
    _ = (store.entries.filter fun e => e.1 != clock && isWorthwhile settings e).length :=
      length_of_mapM_eq_ok hsampled
    _ < store.size := length_sampledWires_lt hstored

theorem size_of_prepare {p : Prepared} (h : prepare dump settings = .ok p) :
    p.store.size + 1 ≤ dump.store.size := by
  obtain ⟨-, events, hclock, -, hstore⟩ := prepare_eq_ok_iff.1 h
  exact size_prepareStore_lt hclock.stored hstore

/-- **Preparation fails for faults of the dump only.** No sample is ambiguous, and whatever error
preparation ends with, the dump has the fault that the error tells of. The distances between the
edges of a clock are taken between a time and a later one. The wires that are kept and the clock are
together no more than the wires of the dump, whether or not some of them have the same names when
their temporaries are dropped; so the number of the others is no negative one. -/
theorem preparation_faults (dump : Dump) (settings : Settings) :
    (∀ g previous edge,
      prepare dump settings ≠ .error (.sample g (.ambiguousSample previous edge))) ∧
    (∀ e, prepare dump settings = .error e → PreparationFault dump settings e) ∧
    (∀ clock : DeltaTrace,
      gaps (posedges clock) =
        ((posedges clock).zip (posedges clock).tail).map (fun e => e.2 - e.1) ∧
      ∀ e ∈ (posedges clock).zip (posedges clock).tail, e.1 < e.2) ∧
    ∀ p, prepare dump settings = .ok p →
      ∃ dropped, p.store.size + 1 + dropped = dump.store.size := by
  refine ⟨fun g previous edge h => ?_, fun e => fault_of_prepare,
    fun clock => ⟨gaps_eq_map_zip _, fun e he => ?_⟩, fun p hp => ?_⟩
  · cases fault_of_prepare h
  · exact rel_of_mem_zip_tail (pairwise_posedges clock) he
  · obtain ⟨dropped, hdropped⟩ := Nat.exists_eq_add_of_le (size_of_prepare hp)
    exact ⟨dropped, hdropped.symm⟩

/-- Three wires besides the clock. Two have the same name when their temporaries are dropped, and
one has none then. -/
def doubled : Dump where
  root := .mk "TOP" []
  store := .ofList [(clockWire, .ofList [(0, 0), (5, 1), (10, 0), (15, 1), (20, 0), (25, 1)]),
    (.ofList [⟨"TOP.valid", 1⟩, ⟨"TOP._T_3", 1⟩], .ofList [(0, 0), (6, 1)]),
    (.ofList [⟨"TOP.valid", 1⟩, ⟨"TOP._T_4", 1⟩], .ofList [(0, 1)]),
    (.ofList [⟨"TOP._T_5", 1⟩], .ofList [(0, 1)])]
  timescale := none

/-- A wire besides the clock that has no value before time 6. -/
def unsettled : Dump where
  root := .mk "TOP" []
  store := .ofList [(clockWire, .ofList [(0, 0), (5, 1), (10, 0), (15, 1)]),
    (readyWire, .ofList [(6, 1)])]
  timescale := none

theorem preparation_faults_doubled :
    (∃ p, prepare doubled .default = .ok p ∧ p.store.size = 1 ∧
      ∃ dropped, p.store.size + 1 + dropped = doubled.store.size ∧ dropped = 2) ∧
    ((5, 15) ∈ (posedges (.ofList [(0, 0), (5, 1), (10, 0), (15, 1)])).zip
      (posedges (.ofList [(0, 0), (5, 1), (10, 0), (15, 1)])).tail ∧ 5 < 15) ∧
    prepare unsettled .default = .error (.sample readyWire (.missingInitialValue (some 6))) ∧
    PreparationFault unsettled .default (.sample readyWire (.missingInitialValue (some 6))) := by
  have hkept : (prepare doubled .default).toOption.map (·.store.size) = some 1 := by
    decide +kernel
  have hwires : doubled.store.size = 4 := by decide +kernel
  have hneighbours : (5, 15) ∈ (posedges (.ofList [(0, 0), (5, 1), (10, 0), (15, 1)])).zip
      (posedges (.ofList [(0, 0), (5, 1), (10, 0), (15, 1)])).tail := by
    decide +kernel
  have herror : prepare unsettled .default =
      .error (.sample readyWire (.missingInitialValue (some 6))) := by
    rfl
  obtain ⟨p, hp, hsize⟩ := map_toOption_eq_some_iff.1 hkept
  obtain ⟨-, -, hdistances, hcount⟩ := preparation_faults doubled .default
  refine ⟨⟨p, hp, hsize, ?_⟩, ⟨hneighbours, (hdistances _).2 (5, 15) hneighbours⟩, herror,
    (preparation_faults unsettled .default).2.1 _ herror⟩
  obtain ⟨dropped, hdropped⟩ := hcount p hp
  exact ⟨dropped, hdropped, by omega⟩

end TraceMining
