import TraceMining.Proofs.Successors

/-!
# Answers one clock period later

A succession reads "every change of the first wire is followed by a change of the second wire
exactly one clock period later". The machine asks for the period only when the second wire changes alone: a
change of both wires is an answer at whatever time it comes, and asks for the next one. So what a
succession that is not broken says about a change of the first wire with a later one is that the
second wire changes one period later, or that the next thing to happen at all is a change of both
wires at another time (`answered_of_next`). The second case does occur
(`next_answered_out_of_time`).

What the machine does ask for is said by successors alone: the time after a change of the first wire
at which anything happens next has to be one of both wires, or of the second wire alone and one
period later. The earliest successor that is neither ends the run (`next_of_answered`,
`next_of_unanswered`, `next_exact`).
-/

namespace TraceMining

theorem next_waits (period : Time) :
    (Pattern.machine period .next : Machine Succession).Waits .idle .armed
      fun s t => t - s = period where
  start := rfl
  idle_a _ := rfl
  idle_both _ := rfl
  idle_b _ := rfl
  armed_a _ _ := rfl
  armed_both _ _ := rfl
  accepted h := if_pos h
  refused h := if_neg h

/-- **What a succession says about two wires.** If it is not broken, every change of the first wire
that has a later one is answered exactly one period later, except where the next change of either
wire is one of both wires at another time. -/
theorem answered_of_next {a b : DeltaTrace} {period s : Time}
    (h : (Pattern.next.check a b period).stats.falsified = false) (hs : s ∈ a.keys)
    (hlater : ∃ u ∈ a.keys, s < u) :
    s + period ∈ b.keys ∨
      ∃ t, Successor a b s t ∧ t ∈ a.keys ∧ t ∈ b.keys ∧ t ≠ s + period := by
  rw [Pattern.check_eq_outcome_run (by simp) (by simp)] at h
  obtain ⟨u, hu, hsu⟩ := hlater
  obtain ⟨t, hst⟩ := exists_successor hsu (.inl hu)
  obtain ⟨hb, hanswer⟩ := (falsified_eq_false_iff (next_waits period)).1 h s hs t hst
  by_cases htime : t = s + period
  · exact .inl (htime ▸ hb)
  · have ha : t ∈ a.keys := hanswer.resolve_right fun hdiff =>
      htime ((Nat.sub_eq_iff_eq_add' (Nat.le_of_lt hst.lt)).1 hdiff)
    exact .inr ⟨t, hst, ha, hb, htime⟩

/-- A wire that changes twice. -/
def asks : DeltaTrace := .ofList [(2, 1), (7, 0)]

/-- A wire that changes together with the second change of the other one. -/
def joins : DeltaTrace := .ofList [(7, 1)]

/-- A wire that changes two time units after the first change of the other one. -/
def follows : DeltaTrace := .ofList [(4, 1), (9, 0)]

theorem answered_of_next_asks :
    (Pattern.next.check asks follows 2).stats.falsified = false ∧ 2 ∈ asks.keys ∧
    (∃ u ∈ asks.keys, 2 < u) ∧
    (2 + 2 ∈ follows.keys ∨
      ∃ t, Successor asks follows 2 t ∧ t ∈ asks.keys ∧ t ∈ follows.keys ∧ t ≠ 2 + 2) := by
  have h : (Pattern.next.check asks follows 2).stats.falsified = false := by decide +kernel
  have hs : 2 ∈ asks.keys := by decide +kernel
  have hlater : ∃ u ∈ asks.keys, 2 < u := by decide +kernel
  exact ⟨h, hs, hlater, answered_of_next h hs hlater⟩

/-- A change at time 2 counts as answered by a change of both wires at time 7, although the period
is 2 and nothing happens at time 4. -/
theorem next_answered_out_of_time :
    Pattern.next.check asks joins 2 = ⟨⟨1, true, false⟩, none⟩ ∧ 2 ∈ asks.keys ∧
    (∃ u ∈ asks.keys, 2 < u) ∧ 2 + 2 ∉ joins.keys := by
  decide +kernel

/-! ## The exact meaning -/

/-- At `t`, both wires change, or the second one does alone, one period after `s`. -/
def AnsweredNext (a b : DeltaTrace) (period s t : Time) : Prop :=
  (t ∈ a.keys ∧ t ∈ b.keys) ∨ (t ∉ a.keys ∧ t ∈ b.keys ∧ t - s = period)

theorem answeredNext_iff {a b : DeltaTrace} {period s t : Time} :
    AnsweredNext a b period s t ↔ AnsweredAt (fun s t => t - s = period) a b s t := by
  unfold AnsweredNext AnsweredAt
  by_cases ha : t ∈ a.keys
  · simp [ha]
  · simp [ha]

section

variable {a b : DeltaTrace} {period : Time}

/-- The outcome if the successor of every change of the first wire is an answer to it. -/
theorem next_of_answered
    (h : ∀ s ∈ a.keys, ∀ t, Successor a b s t → AnsweredNext a b period s t) :
    Pattern.next.check a b period =
      ⟨⟨a.keys.countP fun s => decide (HasSuccessor a b s), !a.isEmpty, false⟩, none⟩ := by
  rw [Pattern.check_eq_outcome_run (by simp) (by simp)]
  refine outcome_of_answered (next_waits period) (fun s hs t hst => ?_) fun s _ => ?_
  · exact answeredNext_iff.1 (h s hs t hst)
  · exact decide_eq_true_iff

/-- The outcome if the successor of some change of the first wire is no answer to it: the first such
change decides, and its successor is the earliest one that is no answer. -/
theorem next_of_unanswered
    (h : ¬ ∀ s ∈ a.keys, ∀ t, Successor a b s t → AnsweredNext a b period s t) :
    ∃ s t, s ∈ a.keys ∧ Successor a b s t ∧ ¬ AnsweredNext a b period s t ∧
      (∀ r ∈ a.keys, ∀ u, Successor a b r u → ¬ AnsweredNext a b period r u → t ≤ u) ∧
      Pattern.next.check a b period = ⟨⟨a.keys.countP (· < s), true, true⟩, some t⟩ := by
  simp only [answeredNext_iff] at h ⊢
  obtain ⟨s, hs, t, hst, hnot, hbefore⟩ := exists_first_unanswered h
  refine ⟨s, t, hs, hst, hnot, fun r hr u hru hnotr => ?_, ?_⟩
  · rcases Nat.lt_trichotomy r s with hrs | rfl | hsr
    · exact absurd (hbefore r hr hrs u hru) hnotr
    · exact Nat.le_of_eq (hst.unique hru)
    · exact Nat.le_trans (hst.le hsr (.inl hr)) (Nat.le_of_lt hru.lt)
  · rw [Pattern.check_eq_outcome_run (by simp) (by simp)]
    exact outcome_of_unanswered (next_waits period) hs hst hnot hbefore

end

/-- **What a succession says about two wires, exactly.** The successor of a change of the first wire
is the first later time at which either wire changes. A succession is not broken if and only if
every change of the first wire that has a successor is answered there: both wires change, or the
second one does alone, one period later. It is broken at the earliest successor that is no answer,
and has been completed once for each change of the first wire before the one in question. If it is
not broken, it has been completed once for each change of the first wire that has a successor. -/
theorem next_exact (a b : DeltaTrace) (period : Time) :
    ((Pattern.next.check a b period).stats.falsified = false ↔
      ∀ s ∈ a.keys, ∀ t, Successor a b s t → AnsweredNext a b period s t) ∧
    ((Pattern.next.check a b period).stats.falsified = true →
      ∃ s t, s ∈ a.keys ∧ Successor a b s t ∧ ¬ AnsweredNext a b period s t ∧
        (∀ r ∈ a.keys, ∀ u, Successor a b r u → ¬ AnsweredNext a b period r u → t ≤ u) ∧
        (Pattern.next.check a b period).falsifiedAt = some t ∧
        (Pattern.next.check a b period).stats.support = a.keys.countP (· < s)) ∧
    ((Pattern.next.check a b period).stats.falsified = false →
      (Pattern.next.check a b period).stats.support =
        a.keys.countP fun s => decide (HasSuccessor a b s)) := by
  by_cases h : ∀ s ∈ a.keys, ∀ t, Successor a b s t → AnsweredNext a b period s t
  · rw [next_of_answered h]
    exact ⟨iff_of_true rfl h, by simp, fun _ => rfl⟩
  · obtain ⟨s, t, hs, hst, hnot, hleast, hcheck⟩ := next_of_unanswered h
    rw [hcheck]
    exact ⟨iff_of_false (by simp) h, fun _ => ⟨s, t, hs, hst, hnot, hleast, rfl, rfl⟩, by simp⟩

/-- Its first change comes one period after the first change of `asks`, and its second one, after
the second change of `asks`, comes late. -/
def comesLate : DeltaTrace := .ofList [(4, 1), (10, 0)]

theorem next_exact_asks :
    (Pattern.next.check asks follows 2).stats.falsified = false ∧
    (Pattern.next.check asks follows 2).stats.support = 2 ∧
    (Pattern.next.check asks comesLate 2).stats.falsified = true ∧
    ∃ s t, s ∈ asks.keys ∧ Successor asks comesLate s t ∧ ¬ AnsweredNext asks comesLate 2 s t ∧
      (∀ r ∈ asks.keys, ∀ u, Successor asks comesLate r u →
        ¬ AnsweredNext asks comesLate 2 r u → t ≤ u) ∧
      (Pattern.next.check asks comesLate 2).falsifiedAt = some t ∧
      (Pattern.next.check asks comesLate 2).stats.support = asks.keys.countP (· < s) := by
  have hheld : (Pattern.next.check asks follows 2).stats.falsified = false := by decide +kernel
  have hbroken : (Pattern.next.check asks comesLate 2).stats.falsified = true := by
    decide +kernel
  obtain ⟨-, -, hsupport⟩ := next_exact asks follows 2
  obtain ⟨-, hwhere, -⟩ := next_exact asks comesLate 2
  refine ⟨hheld, ?_, hbroken, hwhere hbroken⟩
  rw [hsupport hheld]
  decide +kernel

end TraceMining
