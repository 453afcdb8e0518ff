import TraceMining.Proofs.Preparation
import TraceMining.Proofs.SelfValidation

/-!
# Falsified runs and verdicts

Validation decides on the time of a violation, and everything else on the mark of one. The two say
the same of every run of a machine. They differ for one outcome only, which is no run: the
alternation of two wires without any event is falsified outright, since the wires are equal, and
there is no time to give (`Pattern.falsified_check_iff`). So a falsified property is violated, at
the time of its falsification, unless it is that alternation, which counts as held
(`judge_of_falsified`). No wire of a prepared dump is without events.
-/

namespace TraceMining

/-- The alternation of two wires that have no event. -/
def MuteAlternation (p : Pattern) (a b : DeltaTrace) : Prop :=
  p = .alternating ∧ a = ∅ ∧ b = ∅

theorem DeltaTrace.eq_empty_of_first? {a : DeltaTrace} (h : a.first? = none) : a = ∅ :=
  OrderedMap.eq_empty_of_entries (List.head?_eq_none_iff.1 h)

theorem Pattern.check_of_muteAlternation {p : Pattern} {a b : DeltaTrace}
    (h : MuteAlternation p a b) (period : Time) :
    p.check a b period = ⟨⟨0, true, true⟩, none⟩ := by
  obtain ⟨rfl, rfl, rfl⟩ := h
  rfl

/-- An outcome is falsified at some time, or it is that of an alternation without events. -/
theorem Pattern.falsified_check_iff (p : Pattern) (a b : DeltaTrace) (period : Time) :
    (p.check a b period).stats.falsified = true ↔
      (∃ time, (p.check a b period).falsifiedAt = some time) ∨ MuteAlternation p a b := by
  constructor
  · intro hf
    by_cases hequal : p = .alternating ∧ a = b
    · obtain ⟨rfl, rfl⟩ := hequal
      cases hfirst : a.first? with
      | none =>
        have ha := DeltaTrace.eq_empty_of_first? hfirst
        exact .inr ⟨rfl, ha, ha⟩
      | some e =>
        refine .inl ⟨e.1, ?_⟩
        rw [check, if_pos ⟨rfl, rfl⟩, hfirst]
        rfl
    · rw [agrees_check period hequal] at hf
      exact .inl (Option.isSome_iff_exists.1 hf)
  · rintro (⟨time, hat⟩ | hmute)
    · exact falsified_check hat
    · rw [check_of_muteAlternation hmute]

theorem not_muteAlternation_of_prepare {dump : Waveform.Dump} {settings : Settings}
    {prepared : Prepared} (h : prepare dump settings = .ok prepared) {q : Property}
    {a b : DeltaTrace} (ha : prepared.store.lookup q.a = some a) :
    ¬ MuteAlternation q.pattern a b := by
  rintro ⟨-, rfl, -⟩
  exact entries_ne_nil_of_prepare h ha rfl

section

variable {q : Property} {mined : Stats} {prepared : Prepared} {a b : DeltaTrace}

theorem judge_of_not_holds (hm : mined.falsified = false)
    (ha : prepared.store.lookup q.a = some a) (hb : prepared.store.lookup q.b = some b)
    (hmute : ¬ MuteAlternation q.pattern a b)
    (h : (q.pattern.check a b prepared.period).holds = false) :
    ∃ time, (q.pattern.check a b prepared.period).falsifiedAt = some time ∧
      judge q mined prepared = .violated time (q.pattern.check a b prepared.period).stats := by
  have hf : (q.pattern.check a b prepared.period).stats.falsified = true := by
    simpa [Outcome.holds] using h
  obtain ⟨time, hat⟩ := ((Pattern.falsified_check_iff ..).1 hf).resolve_right hmute
  refine ⟨time, hat, judge_eq_violated_iff.2 ⟨hm, ?_⟩⟩
  rw [Property.outcome?_eq_some_iff]
  exact ⟨a, b, ha, hb, by rw [← hat]⟩

theorem judge_of_holds (hm : mined.falsified = false)
    (ha : prepared.store.lookup q.a = some a) (hb : prepared.store.lookup q.b = some b)
    (h : (q.pattern.check a b prepared.period).holds = true) :
    judge q mined prepared = .held (q.pattern.check a b prepared.period).stats := by
  have hf : (q.pattern.check a b prepared.period).stats.falsified = false := by
    simpa [Outcome.holds] using h
  have hnone := Pattern.falsifiedAt_check_eq_none hf
  refine judge_eq_held_iff.2 ⟨hm, Property.outcome?_eq_some_iff.2 ⟨a, b, ha, hb, ?_⟩⟩
  rw [← hnone]

/-- **A falsified run is violated, unless it is an alternation without events.** Let the wires of a
property that was not falsified be in the simulation. If the property is no alternation of two wires
without events, it is violated exactly if its run is falsified, at the time of the falsification;
else it holds; and if its run is falsified, a report on findings with the property asks for a failing
exit status. An alternation without events is falsified, and its verdict is that it holds. No wire
of a prepared dump is without events. -/
theorem judge_of_falsified (hm : mined.falsified = false)
    (ha : prepared.store.lookup q.a = some a) (hb : prepared.store.lookup q.b = some b) :
    (¬ MuteAlternation q.pattern a b →
      ((q.pattern.check a b prepared.period).holds = false →
        (∃ time, (q.pattern.check a b prepared.period).falsifiedAt = some time ∧
          judge q mined prepared = .violated time (q.pattern.check a b prepared.period).stats) ∧
        ∀ findings : Findings, findings.lookup q = some mined →
          (validate findings prepared).exitCode = 1) ∧
      ((q.pattern.check a b prepared.period).holds = true →
        judge q mined prepared = .held (q.pattern.check a b prepared.period).stats)) ∧
    (MuteAlternation q.pattern a b →
      (q.pattern.check a b prepared.period).holds = false ∧
        judge q mined prepared = .held (q.pattern.check a b prepared.period).stats) ∧
    ∀ dump settings, prepare dump settings = .ok prepared → ¬ MuteAlternation q.pattern a b := by
  refine ⟨fun hmute => ⟨fun h => ?_, judge_of_holds hm ha hb⟩, fun hmute => ?_,
    fun dump settings h => not_muteAlternation_of_prepare h ha⟩
  · obtain ⟨time, hat, hjudge⟩ := judge_of_not_holds hm ha hb hmute h
    refine ⟨⟨time, hat, hjudge⟩, fun findings hl => ?_⟩
    exact exitCode_validate_eq_one_iff.2 ⟨q, mined, hl, time, _, hjudge⟩
  · have hcheck := Pattern.check_of_muteAlternation hmute prepared.period
    rw [hcheck]
    exact ⟨rfl, judge_eq_held_iff.2 ⟨hm, Property.outcome?_eq_some_iff.2 ⟨a, b, ha, hb, hcheck⟩⟩⟩

end

/-- Two wires that change at the same time. -/
def unison : Prepared where
  root := .mk "TOP" []
  store := .ofList [(pingWire, .ofList [(15, 1)]), (pongWire, .ofList [(15, 1)])]
  clock := .ofList [⟨"TOP.clock", 1⟩]
  period := 10

theorem judge_of_falsified_unison :
    ¬ MuteAlternation .alternating (.ofList [(15, 1)]) (.ofList [(15, 1)]) ∧
    (Pattern.check .alternating (.ofList [(15, 1)]) (.ofList [(15, 1)]) 10).holds = false ∧
    ∃ time, judge ⟨.alternating, pingWire, pongWire⟩ ⟨3, true, false⟩ unison =
      .violated time ⟨0, true, true⟩ := by
  have ha : unison.store.lookup pingWire = some (.ofList [(15, 1)]) := by decide +kernel
  have hb : unison.store.lookup pongWire = some (.ofList [(15, 1)]) := by decide +kernel
  have hmute : ¬ MuteAlternation .alternating (.ofList [(15, 1)]) (.ofList [(15, 1)]) := by
    rintro ⟨-, hnone, -⟩
    exact absurd (congrArg OrderedMap.isEmpty hnone) (by decide)
  have hfalsified :
      (Pattern.check .alternating (.ofList [(15, 1)]) (.ofList [(15, 1)]) 10).holds = false := by
    decide +kernel
  obtain ⟨hspoken, -, -⟩ :=
    @judge_of_falsified ⟨.alternating, pingWire, pongWire⟩ ⟨3, true, false⟩ unison _ _ rfl ha hb
  obtain ⟨⟨time, -, hjudge⟩, -⟩ := (hspoken hmute).1 hfalsified
  exact ⟨hmute, hfalsified, time, hjudge⟩

/-- Between two wires without events, an alternation that was found in another simulation is
falsified, counts as held, and the report asks for no failing exit status. -/
theorem held_mute_alternation :
    silent.store.lookup pingWire = some ∅ ∧ silent.store.lookup pongWire = some ∅ ∧
    (Pattern.check .alternating ∅ ∅ silent.period).holds = false ∧
    judge ⟨.alternating, pingWire, pongWire⟩ ⟨3, true, false⟩ silent = .held ⟨0, true, true⟩ ∧
    (validate (.ofList [(⟨.alternating, pingWire, pongWire⟩, ⟨3, true, false⟩)]) silent).exitCode
      = 0 := by
  decide +kernel

end TraceMining
