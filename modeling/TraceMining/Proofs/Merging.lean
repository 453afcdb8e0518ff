import TraceMining.Proofs.Interleaving

/-!
# Merging call by call

Merging hands out one co-occurrence at a call. What is left after some calls still holds exactly the
co-occurrences that have not been handed out (`toList_after`), so the calls hand out the merged
sequence from its front, and nothing ever after (`pull_after`). Before each call the bounds enclose
the number of co-occurrences to come: no co-occurrence takes two changes of one wire, and none takes
no change (`bounds_toList`). Both bounds are zero once there is nothing left to merge
(`bounds_of_toList_eq_nil`).

Together with what the merged sequence itself keeps of the two wires, this is all that merging does
(`merging_exact`).
-/

namespace TraceMining

/-- Every co-occurrence has a change of one wire or of both. -/
theorem Cooccurrence.length_le_changes : ∀ cs : List Cooccurrence,
    cs.length ≤ (cs.filterMap left?).length + (cs.filterMap right?).length
  | [] => Nat.le_refl 0
  | c :: cs => by
    have ih := length_le_changes cs
    cases c <;> simp only [List.filterMap_cons, left?, right?, List.length_cons] <;> omega

namespace Interleaving

/-- One call: the earliest co-occurrence, and what is left after it. When nothing is left, nothing
is handed out, and nothing changes. -/
def pull (m : Interleaving) : Option Cooccurrence × Interleaving :=
  match m.next? with
  | none => (none, m)
  | some (c, n) => (some c, n)

/-- What is left after `k` calls. -/
def after (m : Interleaving) : Nat → Interleaving
  | 0 => m
  | k + 1 => (m.after k).pull.2

/-- A call takes the front off the co-occurrences that are left. -/
theorem pull_spec (m : Interleaving) :
    m.pull.1 = m.toList.head? ∧ m.pull.2.toList = m.toList.tail := by
  cases h : m.next? with
  | none => simp [pull, h, toList_of_none h]
  | some s =>
    obtain ⟨c, n⟩ := s
    simp [pull, h, toList_of_some h]

theorem toList_after (m : Interleaving) (k : Nat) : (m.after k).toList = m.toList.drop k := by
  induction k with
  | zero => rfl
  | succ k ih => rw [after, (pull_spec _).2, ih, List.tail_drop]

/-- The calls hand out the merged sequence, and nothing after its end. -/
theorem pull_after (m : Interleaving) (k : Nat) : (m.after k).pull.1 = m.toList[k]? := by
  rw [(pull_spec _).1, toList_after, List.head?_drop]

theorem bounds_toList (m : Interleaving) :
    m.bounds.1 ≤ m.toList.length ∧ m.toList.length ≤ m.bounds.2 := by
  have hleft := List.length_filterMap_le Cooccurrence.left? m.toList
  have hright := List.length_filterMap_le Cooccurrence.right? m.toList
  have hboth := Cooccurrence.length_le_changes m.toList
  rw [filterMap_left?_toList] at hleft hboth
  rw [filterMap_right?_toList] at hright hboth
  exact ⟨Nat.max_le.2 ⟨hleft, hright⟩, hboth⟩

theorem bounds_of_toList_eq_nil {m : Interleaving} (h : m.toList = []) : m.bounds = (0, 0) := by
  obtain ⟨hlower, -⟩ := m.bounds_toList
  simp only [bounds, h, List.length_nil, Nat.le_zero, Nat.max_eq_zero_iff] at hlower
  simp [bounds, hlower]

end Interleaving

/-- Both wires change in a co-occurrence if its time is a time of both. -/
theorem exists_both_iff {a b : DeltaTrace} {c : Cooccurrence} (hc : c ∈ cooccurrences a b) :
    (∃ x y, c = .both x y) ↔ c.time ∈ a.keys ∧ c.time ∈ b.keys := by
  rw [← ofLeft_iff hc, ← ofRight_iff hc]
  cases c <;> simp [Cooccurrence.ofLeft, Cooccurrence.ofRight, Cooccurrence.left?,
    Cooccurrence.right?]

/-- **Merging is exact.** The merged sequence of two wires has one co-occurrence for each time at
which either wire changes, in increasing order, and it is one of both wires where both change; the
changes on either side are those of the wire, in order and with their values. The calls hand out
this sequence and then nothing any more. Before every call there is at least as much to come as the
lower bound says, the larger number of changes left on one side, and at most as much as the upper
bound says, the number of all changes left; once nothing is left to come, both are zero. -/
theorem merging_exact (a b : DeltaTrace) :
    (cooccurrences a b).Pairwise (·.time < ·.time) ∧
    (∀ t, (∃ c ∈ cooccurrences a b, c.time = t) ↔ t ∈ a.keys ∨ t ∈ b.keys) ∧
    (∀ c ∈ cooccurrences a b, (∃ x y, c = .both x y) ↔ c.time ∈ a.keys ∧ c.time ∈ b.keys) ∧
    (cooccurrences a b).filterMap Cooccurrence.left? = a.entries ∧
    (cooccurrences a b).filterMap Cooccurrence.right? = b.entries ∧
    ∀ k, (Interleaving.after ⟨a.entries, b.entries⟩ k).pull.1 = (cooccurrences a b)[k]? ∧
      (Interleaving.after ⟨a.entries, b.entries⟩ k).bounds.1 ≤
        ((cooccurrences a b).drop k).length ∧
      ((cooccurrences a b).drop k).length ≤
        (Interleaving.after ⟨a.entries, b.entries⟩ k).bounds.2 ∧
      ((cooccurrences a b).length ≤ k →
        (Interleaving.after ⟨a.entries, b.entries⟩ k).bounds = (0, 0)) := by
  refine ⟨pairwise_time_cooccurrences a b, fun t => exists_mem_cooccurrences_iff,
    fun c hc => exists_both_iff hc, Interleaving.filterMap_left?_toList _,
    Interleaving.filterMap_right?_toList _, fun k => ⟨Interleaving.pull_after _ k, ?_⟩⟩
  have hleft := Interleaving.toList_after ⟨a.entries, b.entries⟩ k
  obtain ⟨hlower, hupper⟩ :=
    (Interleaving.after ⟨a.entries, b.entries⟩ k).bounds_toList
  rw [hleft] at hlower hupper
  refine ⟨hlower, hupper, fun hend => Interleaving.bounds_of_toList_eq_nil ?_⟩
  rw [hleft]
  exact List.drop_of_length_le hend

/-- A wire that starts together with the next one. -/
def early : DeltaTrace := .ofList [(0, 1), (5, 0)]

/-- A wire that changes once between the changes of `early`. -/
def between : DeltaTrace := .ofList [(0, 0), (3, 1)]

theorem merging_exact_overlapping :
    cooccurrences early between =
      [.both (0, 1) (0, 0), .right (3, 1), .left (5, 0)] ∧
    (.both (0, 1) (0, 0)) ∈ cooccurrences early between ∧ 0 ∈ early.keys ∧ 0 ∈ between.keys ∧
    (cooccurrences early between).length ≤ 4 ∧
    (Interleaving.after ⟨early.entries, between.entries⟩ 4).bounds = (0, 0) ∧
    (Interleaving.after ⟨early.entries, between.entries⟩ 1).pull.1 = some (.right (3, 1)) := by
  have hmerged : cooccurrences early between =
      [.both (0, 1) (0, 0), .right (3, 1), .left (5, 0)] := by
    decide +kernel
  have hmem : (.both (0, 1) (0, 0)) ∈ cooccurrences early between := by simp [hmerged]
  have hlength : (cooccurrences early between).length ≤ 4 := by simp [hmerged]
  obtain ⟨-, -, hboth, -, -, hcalls⟩ := merging_exact early between
  obtain ⟨ha, hb⟩ := (hboth _ hmem).1 ⟨_, _, rfl⟩
  obtain ⟨-, -, -, hend⟩ := hcalls 4
  refine ⟨hmerged, hmem, ha, hb, hlength, hend hlength, ?_⟩
  rw [(hcalls 1).1, hmerged]
  rfl

end TraceMining
