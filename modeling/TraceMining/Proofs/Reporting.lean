import Mathlib.Data.List.Nodup
import TraceMining.Proofs.Ordered
import TraceMining.Proofs.Survival
import TraceMining.Proofs.Validation

/-!
# What a report says

A report counts every item or lists it as a violation. It lists the violations by time and then by
property, and equal ones in the order of the items (`Report.accountsFor_ofItems`). The properties of
some findings are all different, so their violations are listed strictly (`pairwise_precedes`), and
a list in a strict order is determined by its members: the report does not depend on the order in
which the properties are visited (`ofItems_eq_of_perm`).
-/

namespace TraceMining

/-- Sorting keeps members that compare as equal in their order. -/
theorem filter_mergeSort {α : Type} {le : α → α → Bool} {p : α → Bool}
    (htrans : ∀ a b c, le a b = true → le b c = true → le a c = true)
    (htotal : ∀ a b, (le a b || le b a) = true)
    (hp : ∀ a b, p a = true → p b = true → le a b = true) (l : List α) :
    (l.mergeSort le).filter p = l.filter p := by
  have hsorted : (l.filter p).Pairwise (fun a b => le a b = true) :=
    List.pairwise_of_forall_mem_list fun a ha b hb =>
      hp a b (List.mem_filter.1 ha).2 (List.mem_filter.1 hb).2
  have hsublist := (List.sublist_mergeSort htrans htotal hsorted List.filter_sublist).filter p
  simp only [List.filter_filter, Bool.and_self] at hsublist
  have hlength := ((List.mergeSort_perm l le).filter p).length_eq
  exact (hsublist.eq_of_length hlength.symm).symm

/-! ## The order of violations -/

namespace Violation

/-- The first violation is earlier, or at the same time one of the lesser property. -/
def Precedes (v w : Violation) : Prop :=
  v.time < w.time ∨ v.time = w.time ∧ compare v.property w.property = .lt

/-- By time, and by property at one time. -/
def order : Violation → Violation → Ordering := compareLex (compareOn time) (compareOn property)

instance : Std.TransCmp order := inferInstanceAs (Std.TransCmp (compareLex _ _))

variable {v w u : Violation}

theorem before_eq (v w : Violation) : v.before w = (order v w).isLE := rfl

theorem order_eq_lt_iff : order v w = .lt ↔ v.Precedes w := by
  change (compare v.time w.time).then (compare v.property w.property) = .lt ↔ _
  rw [Ordering.then_eq_lt, Nat.compare_eq_lt, Nat.compare_eq_eq]
  rfl

theorem order_eq_eq_iff : order v w = .eq ↔ v.time = w.time ∧ v.property = w.property := by
  refine compareLex_eq_eq.trans ?_
  change compare v.time w.time = .eq ∧ compare v.property w.property = .eq ↔ _
  rw [Std.LawfulEqOrd.compare_eq_iff_eq, Std.LawfulEqOrd.compare_eq_iff_eq]

theorem before_trans (v w u : Violation) (h : v.before w = true) (h' : w.before u = true) :
    v.before u = true := by
  have htrans : (order v u).isLE = true := Std.TransCmp.isLE_trans h h'
  exact htrans

theorem before_total (v w : Violation) : (v.before w || w.before v) = true := by
  rw [before_eq, before_eq]
  cases h : order v w with
  | lt => rfl
  | eq => rfl
  | gt =>
    rw [Std.OrientedCmp.gt_iff_lt.1 h]
    rfl

end Violation

/-! ## Items in any order -/

namespace Report

open Violation

/-- What a report owes to its items. -/
structure AccountsFor (r : Report) (items : List Item) : Prop where
  /-- Every item is counted or listed. -/
  total : r.held + r.skipped + r.violations.length = items.length
  /-- The violations of the items are listed, each as often as it occurs. -/
  listed : r.violations.Perm (items.filterMap violation?)
  /-- No violation is listed before one that precedes it. -/
  ordered : r.violations.Pairwise fun v w => ¬ w.Precedes v
  /-- The violations of one property at one time keep the order of the items. -/
  stable : ∀ (time : Time) (q : Property),
    r.violations.filter (fun v => v.time = time ∧ v.property = q) =
      (items.filterMap violation?).filter fun v => v.time = time ∧ v.property = q
  /-- The text has one line for each violation. -/
  text : r.display.toList = r.violations.flatMap fun v => v.display.toList ++ ['\n']
  exit : r.exitCode = 0 ↔ ∀ item ∈ items, ∀ time stats, item.2.2 ≠ .violated time stats

theorem violation?_eq_some_iff {item : Item} {v : Violation} :
    violation? item = some v ↔ item.1 = v.property ∧ item.2.1.support = v.support ∧
      ∃ stats, item.2.2 = .violated v.time stats := by
  obtain ⟨q, mined, verdict⟩ := item
  obtain ⟨q', time, support⟩ := v
  cases verdict with
  | violated t s => simp [violation?, and_comm]
  | _ => simp [violation?]

theorem toList_display (r : Report) :
    r.display.toList = r.violations.flatMap fun v => v.display.toList ++ ['\n'] := by
  simp [display, String.toList_join, List.flatMap_map]

theorem exitCode_eq_zero_iff {items : List Item} : (ofItems items).exitCode = 0 ↔
    ∀ item ∈ items, ∀ time stats, item.2.2 ≠ .violated time stats := by
  have hexit : (ofItems items).exitCode = 0 ↔ ¬(ofItems items).exitCode = 1 := by
    unfold exitCode
    split <;> simp
  rw [hexit, exitCode_ofItems_eq_one_iff]
  simp only [not_exists, not_and, ne_eq]

theorem accountsFor_ofItems (items : List Item) : (ofItems items).AccountsFor items := by
  refine ⟨held_add_skipped_add_length_violations items, List.mergeSort_perm _ _, ?_,
    fun time q => ?_, toList_display _, exitCode_eq_zero_iff⟩
  · refine (List.pairwise_mergeSort before_trans before_total _).imp fun {v w} hle hlt => ?_
    rw [before_eq, Std.OrientedCmp.gt_iff_lt.2 (order_eq_lt_iff.2 hlt)] at hle
    cases hle
  · refine filter_mergeSort before_trans before_total (fun v w hv hw => ?_) _
    simp only [decide_eq_true_eq] at hv hw
    have hequal : order v w = .eq :=
      order_eq_eq_iff.2 ⟨hv.1.trans hw.1.symm, hv.2.trans hw.2.symm⟩
    rw [before_eq, hequal]
    rfl

/-! ## Items of different properties -/

theorem sublist_properties (items : List Item) :
    ((items.filterMap violation?).map Violation.property).Sublist (items.map (·.1)) := by
  induction items with
  | nil => exact .slnil
  | cons item items ih =>
    obtain ⟨q, mined, verdict⟩ := item
    cases verdict with
    | violated time stats => exact ih.cons_cons q
    | held stats => exact ih.cons q
    | skipped reason => exact ih.cons q

variable {items : List Item}

/-- Items of different properties have violations of different properties. -/
theorem nodup_properties (h : (items.map (·.1)).Nodup) :
    ((ofItems items).violations.map Violation.property).Nodup :=
  ((List.mergeSort_perm _ _).map _).nodup_iff.2 (h.sublist (sublist_properties items))

theorem pairwise_precedes (h : (items.map (·.1)).Nodup) :
    (ofItems items).violations.Pairwise Precedes := by
  have hsorted : (ofItems items).violations.Pairwise fun v w => v.before w = true :=
    List.pairwise_mergeSort before_trans before_total _
  have hdistinct := List.pairwise_map.1 (nodup_properties h)
  refine (hsorted.and hdistinct).imp fun {v w} ⟨hle, hne⟩ => ?_
  rw [← order_eq_lt_iff]
  cases horder : order v w with
  | lt => rfl
  | eq => exact absurd (order_eq_eq_iff.1 horder).2 hne
  | gt =>
    rw [before_eq, horder] at hle
    cases hle

theorem ofItems_eq_of_perm {visited : List Item} (h : (items.map (·.1)).Nodup)
    (hperm : visited.Perm items) : ofItems visited = ofItems items := by
  have h' : (visited.map (·.1)).Nodup := (hperm.map _).nodup_iff.2 h
  have hlisted : (ofItems visited).violations.Perm (ofItems items).violations :=
    (accountsFor_ofItems visited).listed.trans
      ((hperm.filterMap violation?).trans (accountsFor_ofItems items).listed.symm)
  have hviolations : (ofItems visited).violations = (ofItems items).violations := by
    refine hlisted.eq_of_pairwise (fun v w _ _ hvw hwv => ?_) (pairwise_precedes h')
      (pairwise_precedes h)
    rw [← order_eq_lt_iff] at hvw hwv
    exact absurd hwv (Std.OrientedCmp.not_lt_of_lt hvw)
  have hskipped : (ofItems visited).skipped = (ofItems items).skipped := hperm.countP_eq isSkipped
  have hheld : (ofItems visited).held = (ofItems items).held := hperm.countP_eq isHeld
  calc ofItems visited
      = ⟨(ofItems visited).violations, (ofItems visited).skipped, (ofItems visited).held⟩ := rfl
    _ = ofItems items := by rw [hviolations, hskipped, hheld]

end Report

/-! ## Findings -/

open Report Violation

/-- A property with its evidence and the verdict on it. -/
def judged (prepared : Prepared) (e : Property × Stats) : Item :=
  (e.1, e.2, judge e.1 e.2 prepared)

theorem verdicts_eq_map_judged (findings : Findings) (prepared : Prepared) :
    verdicts findings prepared = findings.entries.map (judged prepared) := rfl

theorem nodup_properties_verdicts (findings : Findings) (prepared : Prepared) :
    ((verdicts findings prepared).map (·.1)).Nodup := by
  have hkeys : (verdicts findings prepared).map (·.1) = findings.keys := by
    rw [verdicts_eq_map_judged, List.map_map]
    rfl
  rw [hkeys]
  exact findings.nodup_keys

theorem mem_violations_validate_iff {findings : Findings} {prepared : Prepared} {v : Violation} :
    v ∈ (validate findings prepared).violations ↔
      ∃ mined stats, findings.lookup v.property = some mined ∧
        judge v.property mined prepared = .violated v.time stats ∧ v.support = mined.support := by
  have hlisted := (accountsFor_ofItems (verdicts findings prepared)).listed
  rw [validate, hlisted.mem_iff, List.mem_filterMap, verdicts_eq_map_judged]
  constructor
  · rintro ⟨item, hitem, hviolation⟩
    obtain ⟨⟨q, mined⟩, he, rfl⟩ := List.mem_map.1 hitem
    obtain ⟨rfl, hsupport, stats, hjudge⟩ := violation?_eq_some_iff.1 hviolation
    exact ⟨mined, stats, OrderedMap.mem_entries_iff.1 he, hjudge, hsupport.symm⟩
  · rintro ⟨mined, stats, hl, hjudge, hsupport⟩
    exact ⟨_, List.mem_map_of_mem (OrderedMap.mem_entries_iff.2 hl),
      violation?_eq_some_iff.2 ⟨rfl, hsupport.symm, stats, hjudge⟩⟩

/-- **A report accounts for everything.** Of any items, each is counted or listed as a violation;
the violations are listed by time and property, equal ones in the order of the items; the text has
one line for each, and the exit status is 0 exactly if there is none. The report on some findings
lists exactly the properties whose verdict is that they are violated, with the time of that verdict
and the support that was mined, in a strict order, and it is the same in whatever order the findings
are visited. -/
theorem report_accounts :
    (∀ items : List Item, (ofItems items).AccountsFor items) ∧
    ∀ (findings : Findings) (prepared : Prepared),
      (validate findings prepared).held + (validate findings prepared).skipped +
        (validate findings prepared).violations.length = findings.size ∧
      (∀ v : Violation, v ∈ (validate findings prepared).violations ↔
        ∃ mined stats, findings.lookup v.property = some mined ∧
          judge v.property mined prepared = .violated v.time stats ∧ v.support = mined.support) ∧
      (validate findings prepared).violations.Pairwise Precedes ∧
      (∀ visited : List (Property × Stats), visited.Perm findings.entries →
        ofItems (visited.map (judged prepared)) = validate findings prepared) ∧
      (validate findings prepared).display.toList =
        (validate findings prepared).violations.flatMap (fun v => v.display.toList ++ ['\n']) ∧
      ((validate findings prepared).exitCode = 0 ↔ ∀ q mined, findings.lookup q = some mined →
        ∀ time stats, judge q mined prepared ≠ .violated time stats) := by
  refine ⟨accountsFor_ofItems, fun findings prepared => ?_⟩
  have haccounts : (validate findings prepared).AccountsFor (verdicts findings prepared) :=
    accountsFor_ofItems _
  have hdistinct := nodup_properties_verdicts findings prepared
  refine ⟨?_, fun v => mem_violations_validate_iff, pairwise_precedes hdistinct,
    fun visited hperm => ?_, haccounts.text, haccounts.exit.trans ?_⟩
  · rw [haccounts.total, verdicts_eq_map_judged, List.length_map]
    rfl
  · exact ofItems_eq_of_perm hdistinct (hperm.map (judged prepared))
  · rw [verdicts_eq_map_judged, List.forall_mem_map]
    constructor
    · intro h q mined hl
      exact h (q, mined) (OrderedMap.mem_entries_iff.2 hl)
    · rintro h ⟨q, mined⟩ he
      exact h q mined (OrderedMap.mem_entries_iff.1 he)

/-- Findings that the unanswered request contradicts twice at one time. -/
def contradicted : Findings :=
  .ofList [(⟨.holdUntil, reqWire, ackWire⟩, ⟨3, true, false⟩),
    (⟨.next, reqWire, ackWire⟩, ⟨2, true, false⟩),
    (⟨.eventual, reqWire, ackWire⟩, ⟨4, true, false⟩),
    (⟨.alternating, reqWire, ackWire⟩, ⟨1, true, true⟩)]

/-- The four properties in their order: one holds, one was falsified before, and the violations of
the others are sorted already. -/
theorem validate_contradicted : validate contradicted unanswered =
    ⟨[⟨⟨.next, reqWire, ackWire⟩, 25, 2⟩, ⟨⟨.holdUntil, reqWire, ackWire⟩, 25, 3⟩], 1, 1⟩ := by
  have hviolations : (verdicts contradicted unanswered).filterMap violation? =
      [⟨⟨.next, reqWire, ackWire⟩, 25, 2⟩, ⟨⟨.holdUntil, reqWire, ackWire⟩, 25, 3⟩] := by
    decide +kernel
  have hskipped : (verdicts contradicted unanswered).countP isSkipped = 1 := by decide +kernel
  have hheld : (verdicts contradicted unanswered).countP isHeld = 1 := by decide +kernel
  unfold validate ofItems
  rw [hskipped, hheld, hviolations, List.mergeSort_of_pairwise (by decide +kernel)]

theorem report_accounts_contradicted :
    contradicted.entries.reverse.Perm contradicted.entries ∧
    ofItems (contradicted.entries.reverse.map (judged unanswered)) =
      validate contradicted unanswered ∧
    validate contradicted unanswered =
      ⟨[⟨⟨.next, reqWire, ackWire⟩, 25, 2⟩, ⟨⟨.holdUntil, reqWire, ackWire⟩, 25, 3⟩], 1, 1⟩ ∧
    (validate contradicted unanswered).display =
      "Next(\x7bTOP.req\x7d, \x7bTOP.ack\x7d) violated at 25 (mined support 2)\n" ++
      "Until(\x7bTOP.req\x7d, \x7bTOP.ack\x7d) violated at 25 (mined support 3)\n" ∧
    (validate contradicted unanswered).exitCode ≠ 0 := by
  have hperm : contradicted.entries.reverse.Perm contradicted.entries := List.reverse_perm _
  have hjudge : judge ⟨.next, reqWire, ackWire⟩ ⟨2, true, false⟩ unanswered =
      .violated 25 ⟨0, true, true⟩ := by
    decide +kernel
  obtain ⟨-, -, -, hvisits, -, hexit⟩ := report_accounts.2 contradicted unanswered
  refine ⟨hperm, hvisits _ hperm, validate_contradicted, ?_, fun hzero => ?_⟩
  · rw [validate_contradicted]
    decide +kernel
  · exact hexit.1 hzero _ _ (by decide +kernel) _ _ hjudge

end TraceMining
