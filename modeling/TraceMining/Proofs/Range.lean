import Mathlib.Data.List.Perm.Subperm
import TraceMining.Proofs.Successors
import TraceMining.Text.Numeral

/-!
# Numbers of a run stay in range

A machine completes its pattern at a change of the second wire, and only if it owes an answer to a
change of the first wire that it has read and not counted yet (`Machine.Owes`). So the changes that
were read bound the support on both sides (`Run.Paid.step`, `Run.Paid.steps`), whatever the machine
does between two completions. Where a succession takes the difference of two times, the earlier one
is that of a co-occurrence that was read before (`Run.exists_mem_of_armed`).

Times of 64 bits leave room for the support: there are no more co-occurrences than times, and the
first of them completes nothing.
-/

namespace TraceMining

/-! ## What a machine owes -/

section

variable {σ : Type} {m : Machine σ} {owes : σ → Nat}

/-- In each state, `owes` tells how many answers are due. The changes of the first wire that were
read cover what the machine has completed and what it still owes. What it completes, it owed before,
and completes at a change of the second wire. -/
structure Machine.Owes (m : Machine σ) (owes : σ → Nat) : Prop where
  start : owes m.start = 0
  move : ∀ {s side time s' completed opened}, m.react s side time = .move s' completed opened →
    owes s' + completed.toNat ≤ owes s + (if side = .b then 0 else 1) ∧
      (completed = true → 0 < owes s ∧ side ≠ .a)

/-- The answers that are due in a state. -/
def Alternation.due : Alternation → Nat
  | awaitA => 0
  | awaitB => 1

@[inherit_doc Alternation.due]
def Succession.due : Succession → Nat
  | idle => 0
  | armed _ => 1

@[inherit_doc Alternation.due]
def Hold.due : Hold → Nat
  | idle => 0
  | holding => 1

@[inherit_doc Alternation.due]
def Expectation.due : Expectation → Nat
  | idle => 0
  | pending => 1
  | answered => 1

@[inherit_doc Alternation.due]
def Pattern.due : (p : Pattern) → p.State → Nat
  | alternating => Alternation.due
  | next => Succession.due
  | holdUntil => Hold.due
  | eventual => Expectation.due

theorem Succession.due_of_react {period : Time} {s s' : Succession} {side : Side} {time : Time}
    {completed opened : Bool} (h : s.react period side time = .move s' completed opened) :
    s'.due + completed.toNat ≤ s.due + (if side = .b then 0 else 1) ∧
      (completed = true → 0 < s.due ∧ side ≠ .a) := by
  cases s with
  | idle => cases side <;> cases h <;> simp [due]
  | armed since =>
    cases side with
    | a => cases h
    | both =>
      cases h
      simp [due]
    | b =>
      rw [react] at h
      split at h
      · cases h
        simp [due]
      · cases h

theorem Pattern.owes_due (p : Pattern) (period : Time) : (p.machine period).Owes p.due := by
  cases p with
  | next => exact ⟨rfl, Succession.due_of_react⟩
  | alternating =>
    refine ⟨rfl, fun {s side time s' completed opened} h => ?_⟩
    change Alternation.react s side = _ at h
    cases s <;> cases side <;> cases h <;> decide
  | holdUntil =>
    refine ⟨rfl, fun {s side time s' completed opened} h => ?_⟩
    change Hold.react s side = _ at h
    cases s <;> cases side <;> cases h <;> decide
  | eventual =>
    refine ⟨rfl, fun {s side time s' completed opened} h => ?_⟩
    change Expectation.react s side = _ at h
    cases s <;> cases side <;> cases h <;> decide

/-! ## What a run has counted -/

namespace Run

/-- What a run has counted after `read`: no more than the changes of either wire that it has read,
those that are owed set aside, and nothing at the first co-occurrence. -/
structure Paid (owes : σ → Nat) (read : List Cooccurrence) (r : Run σ) : Prop where
  left : r.outcome.stats.support + owes r.state ≤ read.countP (·.ofLeft)
  right : r.outcome.stats.support ≤ read.countP (·.ofRight)
  fewer : r.outcome.stats.support = 0 ∨ r.outcome.stats.support < read.length

theorem Paid.start (hm : m.Owes owes) : (Run.start m).Paid owes [] :=
  ⟨Nat.le_of_eq (by simp [Run.start, Stats.none, hm.start]), Nat.le_refl _, .inl rfl⟩

theorem Paid.mono {read : List Cooccurrence} {r : Run σ} (h : r.Paid owes read)
    (c : Cooccurrence) : r.Paid owes (read ++ [c]) := by
  obtain ⟨hleft, hright, hfewer⟩ := h
  refine ⟨?_, ?_, ?_⟩
  · rw [List.countP_append]
    omega
  · rw [List.countP_append]
    omega
  · rw [List.length_append]
    omega

theorem Paid.step (hm : m.Owes owes) {read : List Cooccurrence} {r : Run σ}
    (h : r.Paid owes read) (c : Cooccurrence) : (r.step m c).Paid owes (read ++ [c]) := by
  rcases step_cases m r c with ⟨-, hstep⟩ | ⟨-, -, hstep⟩ |
    ⟨-, s, completed, opened, hreact, hstep⟩
  · rw [hstep]
    exact h.mono c
  · rw [hstep]
    exact ⟨(h.mono c).left, (h.mono c).right, (h.mono c).fewer⟩
  · rw [hstep]
    obtain ⟨hleft, hright, hfewer⟩ := h
    obtain ⟨howes, hcompleted⟩ := hm.move hreact
    have hsupport : (r.outcome.stats.moved completed opened).support =
        r.outcome.stats.support + completed.toNat := by cases completed <;> rfl
    have hasked : (if c.side = .b then 0 else 1) = [c].countP (·.ofLeft) := by cases c <;> rfl
    have hanswer : completed.toNat ≤ [c].countP (·.ofRight) ∧
        completed.toNat ≤ owes r.state := by
      cases completed with
      | false => exact ⟨Nat.zero_le _, Nat.zero_le _⟩
      | true =>
        obtain ⟨howed, hside⟩ := hcompleted rfl
        refine ⟨?_, howed⟩
        rw [List.countP_singleton, if_pos (Cooccurrence.ofRight_iff_side.2 hside)]
        exact Nat.le_refl 1
    have hlength : read.countP (·.ofLeft) ≤ read.length := List.countP_le_length
    rw [hasked] at howes
    refine ⟨?_, ?_, ?_⟩
    · change (r.outcome.stats.moved completed opened).support + owes s ≤ _
      rw [hsupport, List.countP_append]
      omega
    · rw [hsupport, List.countP_append]
      omega
    · rw [hsupport, List.length_append, List.length_singleton]
      omega

theorem Paid.steps (hm : m.Owes owes) (read : List Cooccurrence) :
    ((Run.start m).steps m read).Paid owes read := by
  induction read using List.reverseRecOn with
  | nil => exact .start hm
  | append_singleton read c ih =>
    rw [Run.steps, List.foldl_append]
    exact ih.step hm c

theorem time_eq_of_react_armed {period since time : Time} {s : Succession} {side : Side}
    {completed opened : Bool}
    (h : s.react period side time = .move (.armed since) completed opened) : time = since := by
  cases s with
  | idle => cases side <;> cases h <;> rfl
  | armed t =>
    cases side with
    | a => cases h
    | both =>
      cases h
      rfl
    | b =>
      rw [Succession.react] at h
      split at h <;> cases h

/-- A succession that is armed has been so since a co-occurrence that was read. -/
theorem exists_mem_of_armed {period since : Time} {read : List Cooccurrence}
    (h : ((Run.start (Pattern.next.machine period)).steps (Pattern.next.machine period)
      read).state = Succession.armed since) : ∃ c ∈ read, c.time = since := by
  induction read using List.reverseRecOn with
  | nil => cases h
  | append_singleton read c ih =>
    rw [steps_append] at h
    generalize (Run.start (Pattern.next.machine period)).steps (Pattern.next.machine period)
      read = r at h ih
    -- the machine is armed at a step, or was before
    have hbefore : r.state = Succession.armed since ∨ c.time = since := by
      rcases step_cases (Pattern.next.machine period) r c with ⟨-, hstep⟩ | ⟨-, -, hstep⟩ |
        ⟨-, s, completed, opened, hreact, hstep⟩
      · exact .inl (hstep ▸ h)
      · rw [steps_cons, hstep] at h
        exact .inl h
      · rw [steps_cons, hstep] at h
        subst h
        exact .inr (time_eq_of_react_armed hreact)
    rcases hbefore with hbefore | hnow
    · obtain ⟨d, hd, htime⟩ := ih hbefore
      exact ⟨d, List.mem_append_left _ hd, htime⟩
    · exact ⟨c, List.mem_append_right _ List.mem_cons_self, hnow⟩

end Run

end

/-! ## Two wires -/

/-- The run of a pattern's machine after some co-occurrences. -/
def Pattern.runOn (p : Pattern) (period : Time) (read : List Cooccurrence) : Run p.State :=
  (Run.start (p.machine period)).steps (p.machine period) read

section

variable {a b : DeltaTrace}

/-- There are no more co-occurrences than times below the limit. -/
theorem length_cooccurrences_le {limit : Nat} (h : ∀ t ∈ a.keys ++ b.keys, t < limit) :
    (cooccurrences a b).length ≤ limit := by
  have hnodup : ((cooccurrences a b).map Cooccurrence.time).Nodup :=
    (List.pairwise_map.2 (pairwise_time_cooccurrences a b)).imp Nat.ne_of_lt
  have hsubset : (cooccurrences a b).map Cooccurrence.time ⊆ List.range limit := by
    intro t ht
    obtain ⟨c, hc, htime⟩ := List.mem_map.1 ht
    exact List.mem_range.2 (h t (List.mem_append.2 (exists_mem_cooccurrences_iff.1 ⟨c, hc, htime⟩)))
  have hlength := (hnodup.subperm hsubset).length_le
  rwa [List.length_map, List.length_range] at hlength

end

/-- **Numbers of a run stay in range.** Let some co-occurrences of two wires be read. If a
succession is then armed, it has been so since a time before the next co-occurrence. A pattern has
been completed no more often than each of the two wires has changed so far; if the times are numbers
of 64 bits, the support is one, too. So the support of the outcome is at most the number of changes
of either wire. -/
theorem check_in_range (p : Pattern) (period : Time) (a b : DeltaTrace) :
    (∀ read c later since, cooccurrences a b = read ++ c :: later →
      (Pattern.next.runOn period read).state = Succession.armed since → since < c.time) ∧
    (∀ read later, cooccurrences a b = read ++ later →
      (p.runOn period read).outcome.stats.support ≤
        min (read.countP (·.ofLeft)) (read.countP (·.ofRight)) ∧
      ((∀ t ∈ a.keys ++ b.keys, t < Text.wordLimit) →
        (p.runOn period read).outcome.stats.support < Text.wordLimit)) ∧
    (p.check a b period).stats.support ≤ min a.size b.size := by
  refine ⟨fun read c later since hsplit harmed => ?_, fun read later hsplit => ?_, ?_⟩
  · obtain ⟨d, hd, rfl⟩ := Run.exists_mem_of_armed harmed
    exact (times_of_split hsplit).1 d hd
  · have hpaid := Run.Paid.steps (p.owes_due period) read
    refine ⟨Nat.le_min.2 ⟨Nat.le_trans (Nat.le_add_right _ _) hpaid.left, hpaid.right⟩, fun h => ?_⟩
    have hlength := length_cooccurrences_le h
    rw [hsplit, List.length_append] at hlength
    rcases hpaid.fewer with hzero | hlt
    · exact Nat.lt_of_le_of_lt (Nat.le_of_eq hzero) (by decide)
    · exact Nat.lt_of_lt_of_le hlt (Nat.le_trans (Nat.le_add_right _ _) hlength)
  · by_cases hequal : p = .alternating ∧ a = b
    · rw [Pattern.check, if_pos hequal]
      exact Nat.zero_le _
    · have hpaid := Run.Paid.steps (p.owes_due period) (cooccurrences a b)
      rw [Pattern.check_eq_report_run hequal, Pattern.support_report, size_left a b, size_right a b]
      exact Nat.le_min.2 ⟨Nat.le_trans (Nat.le_add_right _ _) hpaid.left, hpaid.right⟩

def calls : DeltaTrace := .ofList [(2, 1), (6, 0), (10, 1)]

def returns : DeltaTrace := .ofList [(4, 1), (10, 0), (12, 1)]

/-- The third change of `calls` is also the answer to the second one, and the bounds are reached. -/
theorem check_in_range_calls :
    cooccurrences calls returns =
      [.left (2, 1), .right (4, 1), .left (6, 0), .both (10, 1) (10, 0)] ++ [.right (12, 1)] ∧
    (Pattern.next.runOn 2 [.left (2, 1), .right (4, 1), .left (6, 0),
      .both (10, 1) (10, 0)]).state = Succession.armed 10 ∧ 10 < 12 ∧
    (∀ t ∈ calls.keys ++ returns.keys, t < Text.wordLimit) ∧
    (Pattern.next.runOn 2 (cooccurrences calls returns)).outcome.stats.support < Text.wordLimit ∧
    (Pattern.next.check calls returns 2).stats.support = 3 ∧ 3 ≤ min calls.size returns.size := by
  have hsplit : cooccurrences calls returns =
      [.left (2, 1), .right (4, 1), .left (6, 0), .both (10, 1) (10, 0)] ++ [.right (12, 1)] := by
    decide +kernel
  have htimes : ∀ t ∈ calls.keys ++ returns.keys, t < Text.wordLimit := by decide +kernel
  have hthree : (Pattern.next.check calls returns 2).stats.support = 3 := by decide +kernel
  obtain ⟨harmed, hread, hsupport⟩ := check_in_range .next 2 calls returns
  rw [hthree] at hsupport
  exact ⟨hsplit, rfl, harmed _ _ _ 10 hsplit rfl, htimes,
    (hread _ [] (List.append_nil _).symm).2 htimes, hthree, hsupport⟩

end TraceMining
