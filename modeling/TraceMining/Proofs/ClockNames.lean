import TraceMining.Proofs.Preparation
import TraceMining.Session

/-!
# Names of the clock

A wire may be the clock if a fragment that marks clocks stands in one of its names. Accepted settings
have a fragment that is not empty (`Accepted.exists_fragment`), and as long as they have no empty one
besides, nothing else marks a clock. An empty fragment stands in every name (`isClock_iff`): settings
that have one are accepted all the same, and then every wire may be the clock. What the search for
the clock comes to is told by the wires that may be the clock (`clockChoice_findClock`).
-/

namespace TraceMining

/-! ## Accepted settings -/

/-- Settings that a document gives, or the layers of a session. -/
inductive Accepted (s : Settings) : Prop
  | document {text : List Char} (h : Settings.ofToml text = .ok s)
  | layers {files : Files} {name : Option String} {environment : List (String × String)}
      (h : loadSettings files name environment = .ok s)

theorem Settings.validate_of_accept {cause : Settings.Error} {settings : Option Settings}
    {s : Settings} (h : Settings.accept cause settings = .ok s) :
    ∃ t, settings = some t ∧ t.validate = .ok s := by
  unfold Settings.accept at h
  split at h
  · cases h
  · rename_i t
    exact ⟨t, rfl, mapError_eq_ok_iff.1 h⟩

theorem Accepted.exists_fragment {s : Settings} (h : Accepted s) :
    ∃ f ∈ s.clockFragments, f ≠ "" := by
  have haccept : ∃ cause settings, Settings.accept cause settings = .ok s := by
    cases h with
    | document h => exact ⟨_, _, h⟩
    | @layers files name environment h =>
      unfold loadSettings at h
      split at h
      · exact ⟨_, _, h⟩
      · split at h
        · exact ⟨_, _, h⟩
        · cases h
  obtain ⟨cause, settings, haccept⟩ := haccept
  obtain ⟨t, -, hvalid⟩ := Settings.validate_of_accept haccept
  exact Settings.exists_fragment_of_validate hvalid

/-! ## Fragments in names -/

/-- A fragment that marks clocks, and is not empty, stands in the name of the signal. -/
def NamesClock (settings : Settings) (s : Signal) : Prop :=
  ∃ f ∈ settings.clockFragments, f ≠ "" ∧ f.toList <:+: s.name.toList

theorem isClock_iff {settings : Settings} {s : Signal} :
    settings.isClock s = true ↔ "" ∈ settings.clockFragments ∨ NamesClock settings s := by
  rw [Settings.isClock, containsAny_iff]
  constructor
  · rintro ⟨f, hf, hstands⟩
    by_cases hempty : f = ""
    · exact .inl (hempty ▸ hf)
    · exact .inr ⟨f, hf, hempty, hstands⟩
  · rintro (hempty | ⟨f, hf, -, hstands⟩)
    · exact ⟨"", hempty, List.nil_infix⟩
    · exact ⟨f, hf, hstands⟩

/-! ## The choice of the clock -/

/-- The wires that may be the clock. -/
def clockCandidates (store : Store) (settings : Settings) : List AliasGroup :=
  (store.entries.filter fun e => e.1.any settings.isClock).map (·.1)

theorem mem_clockCandidates_iff {store : Store} {settings : Settings} {g : AliasGroup} :
    g ∈ clockCandidates store settings ↔
      g ∈ store.keys ∧ ∃ s ∈ g, settings.isClock s = true := by
  simp only [clockCandidates, OrderedMap.keys, List.mem_map, List.mem_filter, OrderedSet.any,
    List.any_eq_true]
  constructor
  · rintro ⟨e, ⟨he, hclock⟩, rfl⟩
    exact ⟨⟨e, he, rfl⟩, hclock⟩
  · rintro ⟨⟨e, he, rfl⟩, hclock⟩
    exact ⟨e, ⟨he, hclock⟩, rfl⟩

/-- What the search for the clock of a dump comes to, if these wires may be the clock. -/
inductive ClockChoice (store : Store) :
    List AliasGroup → Except ClockError (AliasGroup × DeltaTrace) → Prop
  | missing : ClockChoice store [] (.error (.missing store.size))
  | found {g : AliasGroup} {x : DeltaTrace} (hstored : store.lookup g = some x)
      (hbit : ∀ s ∈ g, s.width = 1) : ClockChoice store [g] (.ok (g, x))
  | wide {g : AliasGroup} (h : ∃ s ∈ g, s.width ≠ 1) :
    ClockChoice store [g] (.error (.wide g.display))
  | multiple {gs : List AliasGroup} {names : List String} (htwo : 2 ≤ gs.length)
      (hnames : names.Perm (gs.map AliasGroup.display)) :
    ClockChoice store gs (.error (.multiple names))

theorem clockChoice_findClock (store : Store) (settings : Settings) :
    ClockChoice store (clockCandidates store settings) (findClock store settings) := by
  unfold findClock clockCandidates
  split
  · rename_i hnone
    rw [hnone]
    exact .missing
  · rename_i g x hone
    have hstored : store.lookup g = some x := by
      have hmem : (g, x) ∈ store.entries.filter fun e => e.1.any settings.isClock := by
        rw [hone]
        exact List.mem_cons_self
      exact OrderedMap.mem_entries_iff.1 (List.mem_filter.1 hmem).1
    rw [hone]
    split
    · rename_i hwide
      simp only [OrderedSet.any, List.any_eq_true, bne_iff_ne] at hwide
      exact .wide hwide
    · rename_i hbit
      simp only [OrderedSet.any, List.any_eq_true, bne_iff_ne, not_exists, not_and,
        Decidable.not_not] at hbit
      exact .found hstored hbit
  · rename_i several hnone hone
    refine .multiple ?_ ?_
    · cases hentries : store.entries.filter fun e => e.1.any settings.isClock with
      | nil => exact absurd hentries hnone
      | cons e rest =>
        cases rest with
        | nil => exact absurd hentries (hone e.1 e.2)
        | cons d rest => simp
    · rw [List.map_map]
      exact List.mergeSort_perm _ _

/-- **Which names mark a clock.** Accepted settings have a fragment for clocks that is not empty. If
they have no empty one, a signal is named as a clock exactly if one of these fragments stands in its
name, and the wires that may be the clock are those with such a signal. If they have an empty one
besides, every signal is named as a clock, and every wire that has a name may be the clock. -/
theorem clock_names_of_accepted {settings : Settings} (h : Accepted settings) :
    (∃ f ∈ settings.clockFragments, f ≠ "") ∧
    (∀ store, ClockChoice store (clockCandidates store settings) (findClock store settings)) ∧
    ("" ∉ settings.clockFragments →
      (∀ s, settings.isClock s = true ↔ NamesClock settings s) ∧
      ∀ store g, g ∈ clockCandidates store settings ↔
        g ∈ store.keys ∧ ∃ s ∈ g, NamesClock settings s) ∧
    ("" ∈ settings.clockFragments →
      (∀ s, settings.isClock s = true) ∧
      ∀ store g, g ∈ clockCandidates store settings ↔ g ∈ store.keys ∧ ∃ s, s ∈ g) := by
  refine ⟨h.exists_fragment, fun store => clockChoice_findClock store settings, fun hnone => ?_,
    fun hempty => ?_⟩
  · have hnames : ∀ s, settings.isClock s = true ↔ NamesClock settings s := fun s =>
      isClock_iff.trans (or_iff_right hnone)
    refine ⟨hnames, fun store g => ?_⟩
    simp only [mem_clockCandidates_iff, hnames]
  · have hnames : ∀ s, settings.isClock s = true := fun s => isClock_iff.2 (.inl hempty)
    refine ⟨hnames, fun store g => ?_⟩
    simp only [mem_clockCandidates_iff, hnames, and_true]

/-- A fragment that is not empty, and besides it what stands behind the last comma. -/
def trailing : Settings := { Settings.default with clockFragments := ["clk", ""] }

theorem loadSettings_trailing :
    loadSettings [] none [("SPECMINE_CLOCK_FRAGMENTS", "clk,")] = .ok trailing := by
  decide +kernel

theorem clock_names_of_accepted_trailing :
    (Accepted .default ∧ "" ∉ Settings.default.clockFragments ∧
      NamesClock .default ⟨"TOP.clock", 1⟩ ∧
      clockCandidates ticking.store .default = [clockWire] ∧
      ∃ s ∈ clockWire, NamesClock .default s) ∧
    Accepted trailing ∧ "" ∈ trailing.clockFragments ∧
      (∃ f ∈ trailing.clockFragments, f ≠ "") ∧
      validWire ∈ clockCandidates ticking.store trailing := by
  have hdocument : Settings.ofToml [] = .ok .default := by decide +kernel
  have hdefault : Accepted .default := .document hdocument
  have htrailing : Accepted trailing := .layers loadSettings_trailing
  have hnone : "" ∉ Settings.default.clockFragments := by decide +kernel
  have hempty : "" ∈ trailing.clockFragments := by decide +kernel
  have hclock : Settings.default.isClock ⟨"TOP.clock", 1⟩ = true := by decide +kernel
  have hcandidates : clockCandidates ticking.store .default = [clockWire] := by decide +kernel
  have hstored : validWire ∈ ticking.store.keys := by decide +kernel
  have hnamed : ∃ s, s ∈ validWire := ⟨⟨"TOP.valid", 1⟩, by decide +kernel⟩
  obtain ⟨-, -, hnames, -⟩ := clock_names_of_accepted hdefault
  obtain ⟨hsome, -, -, hall⟩ := clock_names_of_accepted htrailing
  refine ⟨⟨hdefault, hnone, ((hnames hnone).1 _).1 hclock, hcandidates, ?_⟩, htrailing, hempty,
    hsome, ((hall hempty).2 _ _).2 ⟨hstored, hnamed⟩⟩
  exact (((hnames hnone).2 ticking.store clockWire).1 (hcandidates ▸ List.mem_cons_self)).2

/-- Settings that split a text behind its last comma name a signal as a clock in whose name no
fragment stands but the empty one. -/
theorem nameless_clock :
    loadSettings [] none [("SPECMINE_CLOCK_FRAGMENTS", "clk,")] = .ok trailing ∧
    trailing.isClock ⟨"TOP.data", 1⟩ = true ∧ ¬ NamesClock trailing ⟨"TOP.data", 1⟩ := by
  refine ⟨loadSettings_trailing, by decide +kernel, ?_⟩
  rintro ⟨f, hf, hne, hstands⟩
  simp only [trailing, List.mem_cons, List.not_mem_nil, or_false] at hf
  rcases hf with rfl | rfl
  · exact absurd hstands (by decide +kernel)
  · exact hne rfl

end TraceMining
