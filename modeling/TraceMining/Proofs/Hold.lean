import TraceMining.Proofs.Implication
import TraceMining.Proofs.Successors

/-!
# When a wire keeps still until another one changes

A hold is broken by the first change of the first wire that comes without a change of the second
wire since the change before it. In terms of the two wires alone: between any two neighbouring
changes of the first wire, and up to the later of the two, there is a change of the second wire; the
first neighbours without one are where it is broken (`holdUntil_exact`). The merged sequence that
the machine reads has no part in this. A change of both wires is the last answer that comes in time,
and waits for an answer itself.
-/

namespace TraceMining

/-- The wire changes after `s`, at `t` at the latest. -/
def DeltaTrace.ChangesIn (b : DeltaTrace) (s t : Time) : Prop := ∃ u ∈ b.keys, s < u ∧ u ≤ t

instance (b : DeltaTrace) (s t : Time) : Decidable (b.ChangesIn s t) :=
  inferInstanceAs (Decidable (∃ u ∈ b.keys, s < u ∧ u ≤ t))

/-- The second wire changes after `s`, and not later than the next change of the first wire, if
there is one. -/
def AnsweredInTime (a b : DeltaTrace) (s : Time) : Prop :=
  ∃ t ∈ b.keys, s < t ∧ ∀ u ∈ a.keys, s < u → t ≤ u

instance (a b : DeltaTrace) (s : Time) : Decidable (AnsweredInTime a b s) :=
  inferInstanceAs (Decidable (∃ t ∈ b.keys, s < t ∧ ∀ u ∈ a.keys, s < u → t ≤ u))

theorem holdUntil_waits (period : Time) :
    (Pattern.machine period .holdUntil : Machine Hold).Waits .idle (fun _ => .holding)
      fun _ _ => True where
  start := rfl
  idle_a _ := rfl
  idle_both _ := rfl
  idle_b _ := rfl
  armed_a _ _ := rfl
  armed_both _ _ := rfl
  accepted _ := rfl
  refused h := absurd trivial h

section

variable {a b : DeltaTrace} {before after : List Time} {s next t : Time}

theorem next_le_of_split (h : a.keys = before ++ s :: next :: after) (ht : t ∈ a.keys)
    (hst : s < t) : next ≤ t := by
  rcases eq_or_rel_of_next (fun _ _ => Nat.lt_asymm) (h ▸ pairwise_times a) (h ▸ ht) hst with
    rfl | hlt
  · exact Nat.le_refl _
  · exact Nat.le_of_lt hlt

theorem lt_next_of_split (h : a.keys = before ++ s :: next :: after) : s < next := by
  have hordered := h ▸ pairwise_times a
  exact (List.pairwise_cons.1 (List.pairwise_append.1 hordered).2.1).1 next List.mem_cons_self

/-- Where a change is answered before the next one, its successor is a change of the second wire. -/
theorem Successor.mem_right_of_changesIn (hst : Successor a b s t)
    (h : a.keys = before ++ s :: next :: after) (hb : b.ChangesIn s next) : t ∈ b.keys := by
  obtain ⟨u, hu, hsu, hun⟩ := hb
  rcases hst.mem with ht | ht
  · have hut : u ≤ t := Nat.le_trans hun (next_le_of_split h ht hst.lt)
    rw [← Nat.le_antisymm hut (hst.le hsu (.inr hu))]
    exact hu
  · exact ht

theorem successor_of_not_changesIn (h : a.keys = before ++ s :: next :: after)
    (hb : ¬ b.ChangesIn s next) : Successor a b s next := by
  refine ⟨lt_next_of_split h, .inl (by simp [h]), fun {u} hsu hu => ?_⟩
  rcases hu with hu | hu
  · exact next_le_of_split h hu hsu
  · exact Nat.le_of_not_lt fun hun => hb ⟨u, hu, hsu, Nat.le_of_lt hun⟩

/-- The successor of a change of the first wire, if all changes are answered before the next one. -/
theorem Successor.mem_right_of_chain (hst : Successor a b s t) (hs : s ∈ a.keys)
    (h : a.keys.IsChain b.ChangesIn) : t ∈ b.keys := by
  obtain ⟨before, rest, hsplit⟩ := List.append_of_mem hs
  cases rest with
  | nil =>
    refine hst.mem.resolve_left fun ht => ?_
    cases mem_after_of_rel (fun _ _ => Nat.lt_asymm) (hsplit ▸ pairwise_times a) (hsplit ▸ ht)
      hst.lt
  | cons next after =>
    exact hst.mem_right_of_changesIn hsplit
      (List.isChain_iff_forall_rel_of_append_cons_cons.1 h hsplit)

theorem answeredInTime_iff (hs : s ∈ a.keys) (h : a.keys.IsChain b.ChangesIn) :
    AnsweredInTime a b s ↔ ∃ t, Successor a b s t := by
  constructor
  · rintro ⟨t, ht, hst, -⟩
    exact exists_successor hst (.inr ht)
  · rintro ⟨t, hst⟩
    exact ⟨t, hst.mem_right_of_chain hs h, hst.lt, fun u hu hsu => hst.le hsu (.inl hu)⟩

/-- The outcome if every change but the last one is answered before the next one. -/
theorem holdUntil_of_chain (h : a.keys.IsChain b.ChangesIn) (period : Time) :
    Pattern.holdUntil.check a b period =
      ⟨⟨a.keys.countP fun s => decide (AnsweredInTime a b s), !a.isEmpty, false⟩, none⟩ := by
  rw [check_holdUntil]
  refine outcome_of_answered (holdUntil_waits period) (fun s hs t hst => ?_) fun s hs => ?_
  · exact ⟨hst.mem_right_of_chain hs h, .inr trivial⟩
  · exact decide_eq_true_iff.trans (answeredInTime_iff hs h)

theorem countP_lt_of_split {rest : List Time} (h : a.keys = before ++ s :: rest) :
    a.keys.countP (· < s) = before.length := by
  have hordered := h ▸ pairwise_times a
  obtain ⟨-, hrest, hbefore⟩ := List.pairwise_append.1 hordered
  rw [h, List.countP_append, (List.countP_eq_length (l := before)).2,
    (List.countP_eq_zero (l := s :: rest)).2, Nat.add_zero]
  · intro t ht
    rcases List.mem_cons.1 ht with rfl | ht
    · simp
    · simpa using Nat.le_of_lt ((List.pairwise_cons.1 hrest).1 t ht)
  · intro t ht
    simpa using hbefore t ht s List.mem_cons_self

/-- The outcome if the first change that comes without an answer to the one before it is `next`. -/
theorem holdUntil_of_gap (h : a.keys = before ++ s :: next :: after)
    (hbefore : (before ++ [s]).IsChain b.ChangesIn) (hgap : ¬ b.ChangesIn s next)
    (period : Time) :
    Pattern.holdUntil.check a b period = ⟨⟨before.length, true, true⟩, some next⟩ := by
  have hs : s ∈ a.keys := by simp [h]
  have hlt : s < next := lt_next_of_split h
  have hnext : ¬ AnsweredAt (fun _ _ => True) a b s next := fun hb =>
    hgap ⟨next, hb.1, hlt, Nat.le_refl _⟩
  rw [check_holdUntil, ← countP_lt_of_split h]
  refine outcome_of_unanswered (holdUntil_waits period) hs (successor_of_not_changesIn h hgap)
    hnext fun r hr hrs u hru => ⟨?_, .inr trivial⟩
  have hmem : r ∈ before := by
    rcases mem_split_cases (h ▸ pairwise_times a) (h ▸ hr) with ⟨hmem, -⟩ | rfl | ⟨-, hsr⟩
    · exact hmem
    · exact absurd hrs (Nat.lt_irrefl _)
    · exact absurd hrs (Nat.lt_asymm hsr)
  -- the change after `r` is in `before`, or `s` itself
  obtain ⟨front, back, rfl⟩ := List.append_of_mem hmem
  obtain ⟨q, back', hq⟩ : ∃ q back', back ++ [s] = q :: back' := by
    cases back <;> exact ⟨_, _, rfl⟩
  have hpair : (front ++ r :: back) ++ [s] = front ++ r :: q :: back' := by simp [hq]
  have hsplit : a.keys = front ++ r :: q :: (back' ++ next :: after) := by
    have happend := congrArg (· ++ next :: after) hpair
    simpa [h] using happend
  exact hru.mem_right_of_changesIn hsplit
    (List.isChain_iff_forall_rel_of_append_cons_cons.1 hbefore hpair)

end

/-- **What a hold says about two wires.** It is not broken if and only if the second wire changes
between any two neighbouring changes of the first wire, or together with the later one. It is broken
at the later one of the first two neighbours without a change of the second wire in that interval,
and has been completed once for each change before the earlier one. If it is not broken, it has been
completed once for each change of the first wire that the second wire answers in time. It can be
broken if the first wire changes at all. -/
theorem holdUntil_exact (a b : DeltaTrace) (period : Time) :
    ((Pattern.holdUntil.check a b period).stats.falsified = false ↔
      a.keys.IsChain b.ChangesIn) ∧
    ((Pattern.holdUntil.check a b period).stats.falsified = true →
      ∃ before s next after, a.keys = before ++ s :: next :: after ∧
        (before ++ [s]).IsChain b.ChangesIn ∧ ¬ b.ChangesIn s next ∧
        (Pattern.holdUntil.check a b period).falsifiedAt = some next ∧
        (Pattern.holdUntil.check a b period).stats.support = before.length) ∧
    ((Pattern.holdUntil.check a b period).stats.falsified = false →
      (Pattern.holdUntil.check a b period).stats.support =
        a.keys.countP fun s => decide (AnsweredInTime a b s)) ∧
    ((Pattern.holdUntil.check a b period).stats.falsifiable = true ↔ 0 < a.size) := by
  by_cases h : a.keys.IsChain b.ChangesIn
  · rw [holdUntil_of_chain h]
    refine ⟨by simp [h], by simp, fun _ => rfl, ?_⟩
    simp [OrderedMap.isEmpty, OrderedMap.size, List.length_pos_iff]
  · obtain ⟨before, s, next, after, hsplit, hbefore, hgap⟩ := exists_first_break h
    rw [holdUntil_of_gap hsplit hbefore hgap]
    have hpos : 0 < a.keys.length := by
      rw [hsplit, List.length_append]
      exact Nat.lt_add_left _ (Nat.succ_pos _)
    refine ⟨by simp [h], fun _ => ⟨before, s, next, after, hsplit, hbefore, hgap, rfl, rfl⟩,
      by simp, by simpa [OrderedMap.keys, OrderedMap.size] using hpos⟩

/-- A wire with three changes. -/
def toggles : DeltaTrace := .ofList [(2, 1), (6, 0), (20, 1)]

/-- Its second change is answered, its first one is not. -/
def lateAnswer : DeltaTrace := .ofList [(0, 1), (8, 0)]

/-- Its first change is answered by a change of both wires, the others by later ones. -/
def promptAnswers : DeltaTrace := .ofList [(6, 1), (8, 0), (22, 1)]

theorem holdUntil_exact_toggles :
    (∃ before s next after, toggles.keys = before ++ s :: next :: after ∧
      (before ++ [s]).IsChain lateAnswer.ChangesIn ∧ ¬ lateAnswer.ChangesIn s next ∧
      (Pattern.holdUntil.check toggles lateAnswer 1).falsifiedAt = some next ∧
      (Pattern.holdUntil.check toggles lateAnswer 1).stats.support = before.length) ∧
    (Pattern.holdUntil.check toggles lateAnswer 1).falsifiedAt = some 6 ∧
    (Pattern.holdUntil.check toggles promptAnswers 1).stats.falsified = false ∧
    (Pattern.holdUntil.check toggles promptAnswers 1).stats.support = 3 := by
  have hheld : (Pattern.holdUntil.check toggles promptAnswers 1).stats.falsified = false :=
    (holdUntil_exact toggles promptAnswers 1).1.2 (by decide +kernel)
  refine ⟨(holdUntil_exact toggles lateAnswer 1).2.1 (by decide +kernel), by decide +kernel,
    hheld, ?_⟩
  rw [(holdUntil_exact toggles promptAnswers 1).2.2.1 hheld]
  decide +kernel

end TraceMining
