import TraceMining.Proofs.Mining
import TraceMining.Proofs.Validation

/-!
# Validating a simulation against its own findings

Mining and validation come to a run on different ways: mining runs every pattern on the pairs of
wires that a module declares together and keeps the evidence, validation looks the wires of a
kept property up again and decides on the time of a violation instead of the mark of one. On the
simulation that was mined they agree (`validate_mine`), whatever its wires and whatever support is
asked for: what mining found falsified is not checked again, and everything else holds with the
very evidence that was mined.
-/

namespace TraceMining

variable {prepared : Prepared} {settings : Settings}

theorem judge_of_lookup_mine {q : Property} {stats : Stats}
    (h : (mine prepared settings).lookup q = some stats) :
    judge q stats prepared =
      if stats.falsified then .skipped .alreadyFalsified else .held stats := by
  obtain ⟨-, -, o, ho, -, rfl⟩ := lookup_mine_iff.1 h
  obtain ⟨x, y, -, -, hrun⟩ := Property.outcome?_eq_some_iff.1 ho
  rw [judge_eq, ho]
  by_cases hf : o.stats.falsified = true
  · simp [hf]
  · -- a run without the mark of a violation has no time of one either
    have hnone : o.falsifiedAt = none := by
      rw [← hrun] at hf ⊢
      exact Pattern.falsifiedAt_check_eq_none (by simpa using hf)
    simp [hf, hnone]

theorem verdicts_mine (prepared : Prepared) (settings : Settings) :
    verdicts (mine prepared settings) prepared =
      (mine prepared settings).entries.map fun e =>
        (e.1, e.2, if e.2.falsified then .skipped .alreadyFalsified else .held e.2) := by
  refine List.map_congr_left fun e he => ?_
  have hjudge := judge_of_lookup_mine (OrderedMap.mem_entries_iff.1 he)
  simp only [hjudge]

theorem violations_validate_mine (prepared : Prepared) (settings : Settings) :
    (validate (mine prepared settings) prepared).violations = [] := by
  have hnone : (verdicts (mine prepared settings) prepared).filterMap Report.violation? = [] := by
    rw [verdicts_mine, List.filterMap_eq_nil_iff]
    intro item hitem
    obtain ⟨e, -, rfl⟩ := List.mem_map.1 hitem
    cases e.2.falsified <;> simp [Report.violation?]
  simp [validate, Report.ofItems, hnone]

/-- **Mining and validation agree.** Validated against the simulation it was mined from, a property
that was found falsified is not checked again, every other one holds with the evidence that was
mined, no wire is missing, nothing is violated, and every property is accounted for. -/
theorem validate_mine (prepared : Prepared) (settings : Settings) :
    (∀ q stats, (mine prepared settings).lookup q = some stats →
      judge q stats prepared =
        if stats.falsified then .skipped .alreadyFalsified else .held stats) ∧
    (∀ item ∈ verdicts (mine prepared settings) prepared,
      item.2.2 ≠ .skipped .unknownOperand) ∧
    (validate (mine prepared settings) prepared).violations = [] ∧
    (validate (mine prepared settings) prepared).held +
      (validate (mine prepared settings) prepared).skipped = (mine prepared settings).size := by
  refine ⟨fun q stats => judge_of_lookup_mine, ?_, violations_validate_mine prepared settings, ?_⟩
  · intro item hitem
    rw [verdicts_mine] at hitem
    obtain ⟨e, -, rfl⟩ := List.mem_map.1 hitem
    cases e.2.falsified <;> simp
  · have hcount :=
      Report.held_add_skipped_add_length_violations (verdicts (mine prepared settings) prepared)
    have hlength : (verdicts (mine prepared settings) prepared).length =
        (mine prepared settings).size := by
      rw [verdicts_mine, List.length_map]
      rfl
    have hviolations := violations_validate_mine prepared settings
    unfold validate at hviolations ⊢
    rw [hviolations] at hcount
    simp only [List.length_nil, Nat.add_zero] at hcount
    omega

/-- Two wires without any event. -/
def silent : Prepared where
  root := .mk "TOP" []
  store := .ofList [(pingWire, ∅), (pongWire, ∅)]
  clock := .ofList [⟨"TOP.clock", 1⟩]
  period := 10

/-- Without a least support, even runs on silent wires are kept. The alternation of two equal
wires is falsified without a time, and is skipped all the same. -/
theorem validate_mine_silent :
    (mine silent { Settings.default with minSupport := 0 }).lookup ⟨.alternating, pingWire, pongWire⟩ =
      some ⟨0, true, true⟩ ∧
    Pattern.check .alternating ∅ ∅ 10 = ⟨⟨0, true, true⟩, none⟩ ∧
    judge ⟨.alternating, pingWire, pongWire⟩ ⟨0, true, true⟩ silent = .skipped .alreadyFalsified ∧
    (validate (mine silent { Settings.default with minSupport := 0 }) silent).held +
      (validate (mine silent { Settings.default with minSupport := 0 }) silent).skipped = 8 := by
  have hfound : (mine silent { Settings.default with minSupport := 0 }).lookup
      ⟨.alternating, pingWire, pongWire⟩ = some ⟨0, true, true⟩ := by
    decide +kernel
  have hsize : (mine silent { Settings.default with minSupport := 0 }).size = 8 := by
    decide +kernel
  obtain ⟨hjudge, -, -, hcount⟩ := validate_mine silent { Settings.default with minSupport := 0 }
  exact ⟨hfound, by decide +kernel, hjudge _ _ hfound, hcount.trans hsize⟩

end TraceMining
