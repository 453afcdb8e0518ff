import Mathlib.Data.PNat.Basic
import TraceMining.Preparation
import TraceMining.Proofs.Except
import TraceMining.Proofs.Relabelling

/-!
# Preparation in a finer unit of time

In a unit of time that is `k` times finer, every time is `k` times as large; whatever holds times is
written in that unit by its `scale`. The clock then rises at the same edges, its period is the same,
and each edge sees the same values, all in the finer unit: a dump in the finer unit is prepared as
the dump itself, or fails for the same reason (`prepare_scale`).
-/

namespace TraceMining

open Waveform (Dump)

/-- A time in a unit of time that is `k` times finer. -/
def scaleTime (k : ℕ+) (t : Time) : Time := k * t

@[simp] theorem scaleTime_lt_iff (k : ℕ+) {s t : Time} : scaleTime k s < scaleTime k t ↔ s < t :=
  Nat.mul_lt_mul_left k.pos

@[simp] theorem scaleTime_le_iff (k : ℕ+) {s t : Time} : scaleTime k s ≤ scaleTime k t ↔ s ≤ t :=
  Nat.mul_le_mul_left_iff k.pos

@[simp] theorem scaleTime_inj (k : ℕ+) {s t : Time} : scaleTime k s = scaleTime k t ↔ s = t :=
  Nat.mul_right_inj k.ne_zero

@[simp] theorem scaleTime_zero (k : ℕ+) : scaleTime k 0 = 0 := Nat.mul_zero _

theorem scaleTime_sub (k : ℕ+) (s t : Time) :
    scaleTime k (t - s) = scaleTime k t - scaleTime k s := Nat.mul_sub _ _ _

theorem keepsOrder_scaleTime (k : ℕ+) : KeepsOrder (scaleTime k) := by
  intro s t
  simp only [Nat.compare_eq_ite_lt, scaleTime_lt_iff]

def scaleEvent {α : Type} (k : ℕ+) : Time × α → Time × α := Prod.map (scaleTime k) id

theorem scaleEvent_mk {α : Type} (k : ℕ+) (t : Time) (a : α) :
    scaleEvent k (t, a) = (scaleTime k t, a) := rfl

namespace Trace

variable {α : Type}

def scale (k : ℕ+) (x : Trace α) : Trace α := x.relabel (keepsOrder_scaleTime k) id

theorem entries_scale (k : ℕ+) (x : Trace α) : (x.scale k).entries = x.entries.map (scaleEvent k) :=
  rfl

@[simp] theorem isEmpty_scale (k : ℕ+) (x : Trace α) : (x.scale k).isEmpty = x.isEmpty :=
  OrderedMap.isEmpty_relabel _ _ x

theorem first?_scale (k : ℕ+) (x : Trace α) : (x.scale k).first? = x.first?.map (scaleEvent k) :=
  OrderedMap.first?_relabel _ _ x

theorem scale_inj (k : ℕ+) {x y : Trace α} : x.scale k = y.scale k ↔ x = y :=
  (OrderedMap.relabel_injective (keepsOrder_scaleTime k) Function.injective_id).eq_iff

theorem scale_ofList (k : ℕ+) (events : List (Time × α)) :
    Trace.scale k (OrderedMap.ofList events) = OrderedMap.ofList (events.map (scaleEvent k)) :=
  OrderedMap.relabel_ofList (keepsOrder_scaleTime k) id events

theorem since_scale (k : ℕ+) (t : Time) (x : Trace α) :
    (x.scale k).since (scaleTime k t) = (x.since t).scale k := by
  unfold since scale
  simp only [OrderedMap.filter_relabel, scaleTime_lt_iff]

end Trace

def Store.scale (k : ℕ+) (s : Store) : Store := s.relabel keepsOrder_id (Trace.scale k)

theorem Store.entries_scale (k : ℕ+) (s : Store) :
    (s.scale k).entries = s.entries.map (Prod.map id (Trace.scale k)) := rfl

theorem Store.lookup_scale (k : ℕ+) (s : Store) (g : AliasGroup) :
    (s.scale k).lookup g = (s.lookup g).map (Trace.scale k) :=
  OrderedMap.lookup_relabel keepsOrder_id _ s g

def Waveform.Dump.scale (k : ℕ+) (d : Dump) : Dump := { d with store := d.store.scale k }

def Settings.scale (k : ℕ+) (s : Settings) : Settings := { s with startTime := scaleTime k s.startTime }

def Prepared.scale (k : ℕ+) (p : Prepared) : Prepared :=
  { p with store := p.store.scale k, period := scaleTime k p.period }

def SampleError.scale (k : ℕ+) : SampleError → SampleError
  | missingInitialValue first => .missingInitialValue (first.map (scaleTime k))
  | ambiguousSample previous edge => .ambiguousSample (scaleTime k previous) (scaleTime k edge)

def PreparationError.scale (k : ℕ+) : PreparationError → PreparationError
  | clock e => .clock e
  | sample group e => .sample group (e.scale k)

/-! ## The clock -/

theorem findClock_scale (k : ℕ+) (store : Store) (settings : Settings) :
    findClock (store.scale k) (settings.scale k) =
      translate id (Prod.map id (Trace.scale k)) (findClock store settings) := by
  have hcandidates : ((store.scale k).entries.filter fun e => e.1.any (settings.scale k).isClock) =
      (store.entries.filter fun e => e.1.any settings.isClock).map (Prod.map id (Trace.scale k)) := by
    rw [Store.entries_scale, List.filter_map]
    rfl
  have hsize : (store.scale k).size = store.size := OrderedMap.size_relabel _ _ store
  unfold findClock
  rw [hcandidates, hsize]
  generalize store.entries.filter (fun e => e.1.any settings.isClock) = candidates
  rcases candidates with _ | ⟨⟨g, x⟩, _ | ⟨e, rest⟩⟩
  · rfl
  · simp only [List.map_cons, List.map_nil, Prod.map_apply, id_eq]
    split <;> rfl
  · simp only [List.map_cons, List.map_map]
    rfl

theorem risingFrom_map_scaleEvent (k : ℕ+) (high : Bool) (events : List (Time × Value)) :
    risingFrom high (events.map (scaleEvent k)) = (risingFrom high events).map (scaleTime k) := by
  induction events generalizing high with
  | nil => rfl
  | cons e rest ih =>
    obtain ⟨t, v⟩ := e
    rw [List.map_cons, scaleEvent_mk, risingFrom, risingFrom, ih, ih]
    split
    · split <;> rfl
    · rfl

theorem posedges_scale (k : ℕ+) (clock : DeltaTrace) :
    posedges (clock.scale k) = (posedges clock).map (scaleTime k) :=
  risingFrom_map_scaleEvent k false clock.entries

theorem gaps_map_scale (k : ℕ+) (edges : List Time) :
    gaps (edges.map (scaleTime k)) = (gaps edges).map (scaleTime k) := by
  induction edges using gaps.induct with
  | case1 s t rest ih =>
    rw [List.map_cons] at ih
    rw [List.map_cons, List.map_cons, gaps, gaps, ih, List.map_cons, scaleTime_sub]
  | case2 edges h =>
    rcases edges with _ | ⟨s, _ | ⟨t, rest⟩⟩
    · rfl
    · rfl
    · exact absurd rfl (h s t rest)

theorem occurrences_map_scale (k : ℕ+) (ns : List Nat) :
    occurrences (ns.map (scaleTime k)) = (occurrences ns).relabel (keepsOrder_scaleTime k) id := by
  unfold occurrences
  rw [List.foldl_map]
  change List.foldl _ (OrderedMap.relabel (keepsOrder_scaleTime k) id ∅) _ = _
  refine List.foldl_hom (OrderedMap.relabel (keepsOrder_scaleTime k) id) fun m n => ?_
  refine (OrderedMap.relabel_alter _ _ m n _ _ fun count => ?_).symm
  cases count <;> rfl

theorem mostFrequent_map (f : Nat → Nat) (counts : List (Nat × Nat)) :
    mostFrequent (counts.map (Prod.map f id)) = (mostFrequent counts).map (Prod.map f id) := by
  unfold mostFrequent
  rw [List.foldl_map]
  change List.foldl _ (Option.map (Prod.map f id) none) _ = _
  refine List.foldl_hom (Option.map (Prod.map f id)) fun best e => ?_
  cases best with
  | none => rfl
  | some b =>
    simp only [Option.map_some, Prod.map_snd, id_eq]
    split <;> rfl

theorem clockPeriod_map_scale (k : ℕ+) (edges : List Time) :
    clockPeriod (edges.map (scaleTime k)) = (clockPeriod edges).map (scaleTime k) := by
  rw [clockPeriod, clockPeriod, gaps_map_scale, occurrences_map_scale, OrderedMap.entries_relabel,
    mostFrequent_map, Option.map_map, Option.map_map]
  rfl

/-! ## Samples -/

theorem advance_scale (k : ℕ+) (held : Value) (t : Time) (events : List (Time × Value)) :
    advance held (scaleTime k t) (events.map (scaleEvent k)) =
      Prod.map id (List.map (scaleEvent k)) (advance held t events) := by
  induction events generalizing held with
  | nil => rfl
  | cons e rest ih =>
    obtain ⟨u, v⟩ := e
    rw [List.map_cons, scaleEvent_mk, advance, advance, ih]
    simp only [scaleTime_lt_iff]
    split <;> rfl

theorem sampleFrom_scale (k : ℕ+) (held : Value) (events : List (Time × Value))
    (last : Option (Time × Value)) (edges : List Time) :
    sampleFrom held (events.map (scaleEvent k)) (last.map (scaleEvent k))
        (edges.map (scaleTime k)) =
      translate (SampleError.scale k) (List.map (scaleEvent k))
        (sampleFrom held events last edges) := by
  induction edges generalizing held events last with
  | nil => rfl
  | cons edge edges ih =>
    rw [List.map_cons, sampleFrom, sampleFrom, advance_scale]
    generalize advance held edge events = state
    obtain ⟨seen, rest⟩ := state
    have htail := ih seen rest (some (edge, seen))
    rw [Option.map_some, scaleEvent_mk] at htail
    have hcons : (sampleFrom seen (rest.map (scaleEvent k)) (some (scaleTime k edge, seen))
          (edges.map (scaleTime k))).map ((scaleTime k edge, seen) :: ·) =
        translate (SampleError.scale k) (List.map (scaleEvent k))
          ((sampleFrom seen rest (some (edge, seen)) edges).map ((edge, seen) :: ·)) := by
      rw [htail]
      refine translate_map (fun samples => ?_) _
      rfl
    simp only [Prod.map_apply, id_eq]
    cases last with
    | none => exact hcons
    | some l =>
      obtain ⟨previous, value⟩ := l
      simp only [Option.map_some, scaleEvent_mk, ge_iff_le, scaleTime_le_iff]
      split
      · rfl
      split
      · exact htail
      · exact hcons

theorem sample_scale (k : ℕ+) (edges : List Time) (wire : DeltaTrace) :
    sample (edges.map (scaleTime k)) (wire.scale k) =
      translate (SampleError.scale k) (Trace.scale k) (sample edges wire) := by
  have hsamples := sampleFrom_scale k 0 wire.entries none edges
  unfold sample
  rw [Trace.first?_scale]
  cases wire.first? with
  | none => rfl
  | some e =>
    obtain ⟨t, v⟩ := e
    cases t with
    | zero =>
      rw [Option.map_some, scaleEvent_mk, scaleTime_zero]
      simp only [Trace.entries_scale]
      rw [Option.map_none] at hsamples
      rw [hsamples]
      exact translate_map (fun samples => (Trace.scale_ofList k samples).symm) _
    | succ t =>
      -- the first change is not at time 0 in the finer unit either
      obtain ⟨n, hn⟩ := Nat.exists_eq_succ_of_ne_zero
        (Nat.mul_ne_zero k.ne_zero (Nat.succ_ne_zero t))
      have hsucc : scaleTime k (t + 1) = n + 1 := hn
      rw [Option.map_some, scaleEvent_mk, hsucc]
      simp only [Option.map_some, translate, SampleError.scale, hsucc]

/-! ## Preparation -/

theorem prepareWire_scale (k : ℕ+) (settings : Settings) (edges : List Time)
    (wire : AliasGroup × DeltaTrace) :
    prepareWire (settings.scale k) (edges.map (scaleTime k)) (Prod.map id (Trace.scale k) wire) =
      translate (PreparationError.scale k) (Prod.map id (Trace.scale k))
        (prepareWire settings edges wire) := by
  obtain ⟨g, x⟩ := wire
  rw [Prod.map_apply, prepareWire, prepareWire]
  simp only [id_eq, sample_scale]
  cases sample edges x with
  | error e => rfl
  | ok samples => exact congrArg (fun y => Except.ok (_, y)) (Trace.since_scale k _ samples)

theorem prepareStore_scale (k : ℕ+) (settings : Settings) (clock : AliasGroup) (edges : List Time)
    (store : Store) :
    prepareStore (settings.scale k) clock (edges.map (scaleTime k)) (store.scale k) =
      translate (PreparationError.scale k) (Store.scale k)
        (prepareStore settings clock edges store) := by
  have hwires : ((store.scale k).entries.filter fun e =>
        e.1 != clock && isWorthwhile (settings.scale k) e) =
      (store.entries.filter fun e => e.1 != clock && isWorthwhile settings e).map
        (Prod.map id (Trace.scale k)) := by
    have hworth : ∀ e : AliasGroup × DeltaTrace,
        isWorthwhile (settings.scale k) (Prod.map id (Trace.scale k) e) =
          isWorthwhile settings e := by
      rintro ⟨g, x⟩
      unfold isWorthwhile
      rw [Prod.map_apply, Trace.isEmpty_scale]
      rfl
    rw [Store.entries_scale, List.filter_map]
    simp only [Function.comp_def, hworth, Prod.map_fst, id_eq]
  unfold prepareStore
  simp only [hwires]
  rw [mapM_map_translate (prepareWire_scale k settings edges)]
  refine translate_bind (fun sampled => ?_) _
  have hdriven : (sampled.map (Prod.map id (Trace.scale k))).filter (fun e => !e.2.isEmpty) =
      (sampled.filter fun e => !e.2.isEmpty).map (Prod.map id (Trace.scale k)) := by
    rw [List.filter_map]
    simp only [Function.comp_def, Prod.map_snd, Trace.isEmpty_scale]
  rw [hdriven]
  exact congrArg Except.ok (OrderedMap.relabel_ofList _ _ _).symm

theorem prepare_scale (k : ℕ+) (dump : Dump) (settings : Settings) :
    prepare (dump.scale k) (settings.scale k) =
      translate (PreparationError.scale k) (Prepared.scale k) (prepare dump settings) := by
  have hclock : (findClock (dump.scale k).store (settings.scale k)).mapError
        PreparationError.clock =
      translate (PreparationError.scale k) (Prod.map id (Trace.scale k))
        ((findClock dump.store settings).mapError .clock) := by
    have hfound := findClock_scale k dump.store settings
    unfold Waveform.Dump.scale
    rw [hfound]
    cases findClock dump.store settings <;> rfl
  unfold prepare
  rw [hclock]
  refine translate_bind (fun found => ?_) _
  obtain ⟨clock, events⟩ := found
  simp only [Prod.map_apply, id_eq, posedges_scale, clockPeriod_map_scale, List.length_map]
  cases clockPeriod (posedges events) with
  | none => rfl
  | some period =>
    have hstore := prepareStore_scale k settings clock (posedges events) dump.store
    simp only [Option.map_some, Waveform.Dump.scale, hstore]
    refine translate_bind (fun store => ?_) _
    rfl

end TraceMining
