import TraceMining.Validation
import TraceMining.Proofs.Outcome

/-!
# Verdicts

A verdict is read off the outcome of the property on the wires of the simulation. A property is
violated exactly if it was not falsified before and its run meets a violation; the time of the
verdict is the time of that violation.
-/

namespace TraceMining

theorem judge_eq (q : Property) (mined : Stats) (prepared : Prepared) :
    judge q mined prepared =
      match q.outcome? prepared with
      | none => .skipped .unknownOperand
      | some o =>
        if mined.falsified then .skipped .alreadyFalsified
        else match o.falsifiedAt with
          | some time => .violated time o.stats
          | none => .held o.stats := by
  unfold judge Property.outcome?
  cases prepared.store.lookup q.a <;> cases prepared.store.lookup q.b <;> rfl

theorem judge_eq_violated_iff {q : Property} {mined stats : Stats} {prepared : Prepared}
    {time : Time} :
    judge q mined prepared = .violated time stats ↔
      mined.falsified = false ∧ q.outcome? prepared = some ⟨stats, some time⟩ := by
  rw [judge_eq]
  constructor
  · intro h
    split at h
    · cases h
    · rename_i o ho
      split at h
      · cases h
      · rename_i hf
        split at h
        · rename_i t ht
          cases h
          obtain ⟨stats, at?⟩ := o
          cases ht
          exact ⟨Bool.eq_false_iff.2 hf, ho⟩
        · cases h
  · rintro ⟨hf, ho⟩
    rw [ho]
    simp only [hf, Bool.false_eq_true, if_false]

theorem judge_eq_held_iff {q : Property} {mined stats : Stats} {prepared : Prepared} :
    judge q mined prepared = .held stats ↔
      mined.falsified = false ∧ q.outcome? prepared = some ⟨stats, none⟩ := by
  rw [judge_eq]
  constructor
  · intro h
    split at h
    · cases h
    · rename_i o ho
      split at h
      · cases h
      · rename_i hf
        split at h
        · cases h
        · rename_i hnone
          cases h
          obtain ⟨stats, at?⟩ := o
          cases hnone
          exact ⟨Bool.eq_false_iff.2 hf, ho⟩
  · rintro ⟨hf, ho⟩
    rw [ho]
    simp only [hf, Bool.false_eq_true, if_false]

/-! ## Reports -/

namespace Report

/-- A report accounts for every item. -/
theorem held_add_skipped_add_length_violations (items : List Item) :
    (ofItems items).held + (ofItems items).skipped + (ofItems items).violations.length =
      items.length := by
  have hcount : items.countP isHeld + items.countP isSkipped + (items.filterMap violation?).length =
      items.length := by
    induction items with
    | nil => rfl
    | cons item items ih =>
      obtain ⟨q, mined, verdict⟩ := item
      cases verdict <;>
        simp [List.countP_cons, List.filterMap_cons, isHeld, isSkipped, violation?] <;> omega
  simpa [ofItems] using hcount

theorem isSome_violation?_iff {item : Item} :
    (violation? item).isSome = true ↔ ∃ time stats, item.2.2 = .violated time stats := by
  obtain ⟨q, mined, verdict⟩ := item
  cases verdict <;> simp [violation?]

/-- A report asks for a failing exit status exactly if some item is violated. -/
theorem exitCode_ofItems_eq_one_iff {items : List Item} :
    (ofItems items).exitCode = 1 ↔ ∃ item ∈ items, ∃ time stats, item.2.2 = .violated time stats := by
  have hexit : (ofItems items).exitCode = 1 ↔ (ofItems items).violations ≠ [] := by
    simp [exitCode, isClean]
  have hviolations : (ofItems items).violations = [] ↔ ∀ item ∈ items, violation? item = none := by
    rw [ofItems, ← List.length_eq_zero_iff, List.length_mergeSort, List.length_eq_zero_iff,
      List.filterMap_eq_nil_iff]
  rw [hexit, Ne, hviolations]
  simp only [Classical.not_forall, exists_prop]
  refine exists_congr fun item => and_congr_right fun _ => ?_
  rw [← isSome_violation?_iff, Option.isSome_iff_ne_none]

end Report

theorem exitCode_validate_eq_one_iff {findings : Findings} {prepared : Prepared} :
    (validate findings prepared).exitCode = 1 ↔ ∃ q mined, findings.lookup q = some mined ∧
      ∃ time stats, judge q mined prepared = .violated time stats := by
  rw [validate, Report.exitCode_ofItems_eq_one_iff]
  constructor
  · rintro ⟨item, hitem, hviolated⟩
    obtain ⟨⟨q, mined⟩, he, rfl⟩ := List.mem_map.1 hitem
    exact ⟨q, mined, OrderedMap.mem_entries_iff.1 he, hviolated⟩
  · rintro ⟨q, mined, hl, hviolated⟩
    exact ⟨_, List.mem_map_of_mem (OrderedMap.mem_entries_iff.2 hl), hviolated⟩

end TraceMining
