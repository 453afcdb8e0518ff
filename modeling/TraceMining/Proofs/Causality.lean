import TraceMining.Proofs.Outcome
import TraceMining.Proofs.Successors

/-!
# Verdicts on a part of a simulation

Up to any time, two wires are merged into what the merged sequence has up to that time, whatever
comes later (`cooccurrences_upTo`). So checking a pattern up to a time is the beginning of checking
it on the whole, and what a run has found out is never taken back: support and falsifiability only
grow (`Run.within_steps`), and a violation stays as it is. The outcome up to a time is therefore
final if it is falsified, and otherwise a violation can only come later (`check_causal`).

The alternation of equal wires is no run. Two wires may be equal up to a time and differ later, so
the outcome up to this time says nothing of the whole.
-/

namespace TraceMining

/-- The events up to `t`. -/
def Trace.upTo {α : Type} (t : Time) (x : Trace α) : Trace α :=
  OrderedMap.filter (fun u _ => u ≤ t) x

/-! ## Merging up to a time -/

namespace Interleaving

variable {m n : Interleaving} {c : Cooccurrence} {t : Time}

theorem next?_of_left {x : Change} {as bs : List Change} (h : ∀ y ∈ bs.head?, x.1 < y.1) :
    next? ⟨x :: as, bs⟩ = some (.left x, ⟨as, bs⟩) := by
  cases bs with
  | nil => rfl
  | cons y bs => rw [next?, if_pos (h y rfl)]

theorem next?_of_right {y : Change} {as bs : List Change} (h : ∀ x ∈ as.head?, y.1 < x.1) :
    next? ⟨as, y :: bs⟩ = some (.right y, ⟨as, bs⟩) := by
  cases as with
  | nil => rfl
  | cons x as => rw [next?, if_neg (Nat.lt_asymm (h x rfl)), if_pos (h x rfl)]

theorem next?_of_both {x y : Change} {as bs : List Change} (h : x.1 = y.1) :
    next? ⟨x :: as, y :: bs⟩ = some (.both x y, ⟨as, bs⟩) := by
  simp [next?, h]

/-- The changes that are left up to `t`. -/
def upTo (t : Time) (m : Interleaving) : Interleaving :=
  ⟨m.left.filter (·.1 ≤ t), m.right.filter (·.1 ≤ t)⟩

theorem next?_upTo_of_le (h : m.next? = some (c, n)) (hl : KeysIncrease m.left)
    (hr : KeysIncrease m.right) (hc : c.time ≤ t) :
    (m.upTo t).next? = some (c, n.upTo t) := by
  obtain ⟨hleft, hright⟩ := lt_time_of_next? h hl hr
  have hhead : ∀ {l : List Change}, (∀ x ∈ l, c.time < x.1) →
      ∀ x ∈ (l.filter (·.1 ≤ t)).head?, c.time < x.1 :=
    fun hlt x hx => hlt x (List.mem_of_mem_filter (List.mem_of_head? hx))
  rcases next?_cases h with ⟨x, rfl, hl', hr', -⟩ | ⟨y, rfl, hl', hr', -⟩ |
    ⟨x, y, rfl, hl', hr', hxy⟩
  · have hx : x.1 ≤ t := hc
    rw [upTo, hl', hr', List.filter_cons_of_pos (by simpa using hx)]
    exact next?_of_left (hhead hright)
  · have hy : y.1 ≤ t := hc
    rw [upTo, hl', hr', List.filter_cons_of_pos (by simpa using hy)]
    exact next?_of_right (hhead hleft)
  · have hx : x.1 ≤ t := hc
    rw [upTo, hl', hr', List.filter_cons_of_pos (by simpa using hx),
      List.filter_cons_of_pos (by simpa [← hxy] using hx)]
    exact next?_of_both hxy

theorem upTo_of_next? (h : m.next? = some (c, n)) (hc : t < c.time) : m.upTo t = n.upTo t := by
  rcases next?_cases h with ⟨x, rfl, hl, hr, -⟩ | ⟨y, rfl, hl, hr, -⟩ | ⟨x, y, rfl, hl, hr, hxy⟩
  · have hx : t < x.1 := hc
    rw [upTo, hl, hr, List.filter_cons_of_neg (by simpa using hx)]
    rfl
  · have hy : t < y.1 := hc
    rw [upTo, hl, hr, List.filter_cons_of_neg (by simpa using hy)]
    rfl
  · have hx : t < x.1 := hc
    rw [upTo, hl, hr, List.filter_cons_of_neg (by simpa using hx),
      List.filter_cons_of_neg (by simpa [← hxy] using hx)]
    rfl

theorem toList_upTo (m : Interleaving) (t : Time) (hl : KeysIncrease m.left)
    (hr : KeysIncrease m.right) : (m.upTo t).toList = m.toList.filter (·.time ≤ t) := by
  induction m using toList.induct with
  | case1 m h =>
    obtain ⟨hleft, hright⟩ := eq_nil_of_next?_eq_none h
    rw [toList_of_none h, upTo, hleft, hright]
    exact toList_of_none rfl
  | case2 m c n h _ ih =>
    obtain ⟨hnl, hnr⟩ := keysIncrease_of_next? h hl hr
    have ih := ih hnl hnr
    rw [toList_of_some h]
    by_cases hc : c.time ≤ t
    · rw [toList_of_some (next?_upTo_of_le h hl hr hc), ih,
        List.filter_cons_of_pos (by simpa using hc)]
    · rw [upTo_of_next? h (Nat.not_le.1 hc), ih, List.filter_cons_of_neg (by simpa using hc)]

end Interleaving

/-- What comes later has no part in what co-occurs up to a time. -/
theorem cooccurrences_upTo (a b : DeltaTrace) (t : Time) :
    cooccurrences (a.upTo t) (b.upTo t) = (cooccurrences a b).filter (·.time ≤ t) :=
  Interleaving.toList_upTo ⟨a.entries, b.entries⟩ t a.increasing b.increasing

/-- In chronological order, what comes up to a time comes before the rest. -/
theorem eq_append_of_pairwise_time {cs : List Cooccurrence} (h : cs.Pairwise (·.time < ·.time))
    (t : Time) : cs = cs.filter (·.time ≤ t) ++ cs.filter (t < ·.time) := by
  induction cs with
  | nil => rfl
  | cons c cs ih =>
    obtain ⟨hc, hcs⟩ := List.pairwise_cons.1 h
    by_cases hct : c.time ≤ t
    · rw [List.filter_cons_of_pos (by simpa using hct),
        List.filter_cons_of_neg (by simpa using hct), List.cons_append, ← ih hcs]
    · have hlate : ∀ d ∈ c :: cs, t < d.time := by
        intro d hd
        rcases List.mem_cons.1 hd with rfl | hd
        · exact Nat.not_le.1 hct
        · exact Nat.lt_trans (Nat.not_le.1 hct) (hc d hd)
      rw [List.filter_eq_nil_iff.2 (by simpa using hlate),
        List.filter_eq_self.2 (by simpa using hlate), List.nil_append]

theorem exists_cooccurrences_after (a b : DeltaTrace) (t : Time) :
    ∃ later, cooccurrences a b = cooccurrences (a.upTo t) (b.upTo t) ++ later ∧
      ∀ c ∈ later, t < c.time := by
  refine ⟨(cooccurrences a b).filter (t < ·.time), ?_, by simp⟩
  rw [cooccurrences_upTo]
  exact eq_append_of_pairwise_time (pairwise_time_cooccurrences a b) t

/-! ## Runs -/

/-- The evidence `t` has at least the support and the chances of `s`. -/
structure Stats.Within (s t : Stats) : Prop where
  support : s.support ≤ t.support
  falsifiable : s.falsifiable = true → t.falsifiable = true

theorem Stats.Within.refl (s : Stats) : s.Within s := ⟨Nat.le_refl _, id⟩

theorem Stats.Within.trans {s t u : Stats} (h : s.Within t) (h' : t.Within u) : s.Within u :=
  ⟨Nat.le_trans h.support h'.support, h'.falsifiable ∘ h.falsifiable⟩

theorem Stats.within_moved (s : Stats) (completed opened : Bool) :
    s.Within (s.moved completed opened) := by
  constructor
  · rw [support_moved]
    split
    · exact Nat.le_succ _
    · exact Nat.le_refl _
  · intro h
    rw [falsifiable_moved, h, Bool.true_or]

/-- An outcome counts as falsifiable no later than another one that is further on. -/
theorem Pattern.within_report {o o' : Outcome} (h : o.stats.Within o'.stats) (p : Pattern) :
    (p.report o).stats.Within (p.report o').stats := by
  unfold report
  split
  · refine ⟨h.support, fun hpos => ?_⟩
    have hsupport := h.support
    simp only [decide_eq_true_eq] at hpos ⊢
    omega
  · exact h

namespace Run

variable {σ : Type} (m : Machine σ)

theorem within_step (r : Run σ) (c : Cooccurrence) :
    r.outcome.stats.Within (r.step m c).outcome.stats := by
  rcases step_cases m r c with ⟨-, hstep⟩ | ⟨-, -, hstep⟩ | ⟨-, s, completed, opened, -, hstep⟩
  · rw [hstep]
    exact .refl _
  · rw [hstep]
    exact ⟨Nat.le_refl _, id⟩
  · rw [hstep]
    exact Stats.within_moved _ completed opened

/-- What was found out is not taken back. -/
theorem within_steps (cs : List Cooccurrence) (r : Run σ) :
    r.outcome.stats.Within (r.steps m cs).outcome.stats := by
  induction cs generalizing r with
  | nil => exact .refl _
  | cons c cs ih => exact (within_step m r c).trans (ih (r.step m c))

/-- A violation has the time of a co-occurrence that was read. -/
theorem exists_mem_of_falsifiedAt {t : Time} (cs : List Cooccurrence) (r : Run σ)
    (hr : r.isHalted = false) (h : (r.steps m cs).outcome.falsifiedAt = some t) :
    ∃ c ∈ cs, c.time = t := by
  induction cs generalizing r with
  | nil =>
    rw [isHalted, show r.outcome.falsifiedAt = some t from h] at hr
    cases hr
  | cons c cs ih =>
    rw [steps_cons] at h
    cases hstep : (r.step m c).isHalted with
    | false =>
      obtain ⟨d, hd, htime⟩ := ih _ hstep h
      exact ⟨d, List.mem_cons_of_mem _ hd, htime⟩
    | true =>
      -- the step that halts is the one that records the violation
      rw [steps_of_halted hstep] at h
      rcases step_cases m r c with ⟨hr', -⟩ | ⟨-, -, heq⟩ | ⟨-, s, completed, opened, -, heq⟩
      · rw [hr] at hr'
        cases hr'
      · rw [heq] at h
        exact ⟨c, List.mem_cons_self, Option.some.inj h⟩
      · rw [heq] at hstep
        cases hstep

end Run

namespace Pattern

theorem falsifiedAt_report (p : Pattern) (o : Outcome) :
    (p.report o).falsifiedAt = o.falsifiedAt := by
  unfold report
  split <;> rfl

/-- The time of a violation is that at which the run has stopped. -/
theorem falsifiedAt_check {p : Pattern} {a b : DeltaTrace} (h : ¬(p = .alternating ∧ a = b))
    (period : Time) : (p.check a b period).falsifiedAt = (p.run a b period).outcome.falsifiedAt := by
  rw [check_eq_report_run h, falsifiedAt_report]

theorem falsified_check_eq_isHalted {p : Pattern} {a b : DeltaTrace}
    (h : ¬(p = .alternating ∧ a = b)) (period : Time) :
    (p.check a b period).stats.falsified = (p.run a b period).isHalted := by
  rw [agrees_check period h, falsifiedAt_check h]
  rfl

end Pattern

/-- **Falsification is causal.** Let a pattern be checked on two wires up to a time, at which they
are not equal if it is an alternation. If it is falsified, it has the same outcome on the whole of
both wires. Otherwise it has no less support on the whole, is falsifiable if it was, and can only be
falsified at a later time. -/
theorem check_causal (p : Pattern) (period t : Time) (a b : DeltaTrace)
    (h : p = .alternating → a.upTo t ≠ b.upTo t) :
    ((p.check (a.upTo t) (b.upTo t) period).stats.falsified = true →
      p.check a b period = p.check (a.upTo t) (b.upTo t) period) ∧
    ((p.check (a.upTo t) (b.upTo t) period).stats.falsified = false →
      (p.check (a.upTo t) (b.upTo t) period).stats.Within (p.check a b period).stats ∧
      ((p.check a b period).stats.falsified = true →
        ∃ u, (p.check a b period).falsifiedAt = some u ∧ t < u)) := by
  have hcut : ¬(p = .alternating ∧ a.upTo t = b.upTo t) := fun hp => h hp.1 hp.2
  have hwhole : ¬(p = .alternating ∧ a = b) := fun hp => h hp.1 (congrArg (Trace.upTo t) hp.2)
  obtain ⟨later, hsplit, hlate⟩ := exists_cooccurrences_after a b t
  have hrun : p.run a b period =
      (p.run (a.upTo t) (b.upTo t) period).steps (p.machine period) later := by
    rw [Pattern.run, hsplit, Run.steps_append]
    rfl
  rw [Pattern.falsified_check_eq_isHalted hcut, Pattern.falsified_check_eq_isHalted hwhole,
    Pattern.falsifiedAt_check hwhole]
  constructor
  · intro hhalted
    rw [Pattern.check_eq_report_run hwhole, Pattern.check_eq_report_run hcut, hrun,
      Run.steps_of_halted hhalted]
  · intro hgoing
    constructor
    · rw [Pattern.check_eq_report_run hwhole, Pattern.check_eq_report_run hcut, hrun]
      exact Pattern.within_report (Run.within_steps _ later _) p
    · intro hhalted
      obtain ⟨u, hu⟩ := Option.isSome_iff_exists.1 hhalted
      refine ⟨u, hu, ?_⟩
      rw [hrun] at hu
      obtain ⟨c, hc, rfl⟩ := Run.exists_mem_of_falsifiedAt _ later _ hgoing hu
      exact hlate c hc

/-- The third change is answered ten periods late. -/
def prompt : DeltaTrace := .ofList [(2, 1), (6, 0), (10, 1), (40, 0)]

def reply : DeltaTrace := .ofList [(4, 1), (8, 0), (30, 1), (42, 0)]

/-- Up to time 9 nothing is violated, and up to time 30 the violation is known that the whole has
too. -/
theorem check_causal_late :
    (Pattern.next = .alternating → prompt.upTo 9 ≠ reply.upTo 9) ∧
    Pattern.next.check (prompt.upTo 9) (reply.upTo 9) 2 = ⟨⟨2, true, false⟩, none⟩ ∧
    2 ≤ (Pattern.next.check prompt reply 2).stats.support ∧
    (∃ u, (Pattern.next.check prompt reply 2).falsifiedAt = some u ∧ 9 < u) ∧
    (Pattern.next = .alternating → prompt.upTo 30 ≠ reply.upTo 30) ∧
    (Pattern.next.check (prompt.upTo 30) (reply.upTo 30) 2).stats.falsified = true ∧
    Pattern.next.check prompt reply 2 =
      Pattern.next.check (prompt.upTo 30) (reply.upTo 30) 2 := by
  have hearly : Pattern.next.check (prompt.upTo 9) (reply.upTo 9) 2 =
      ⟨⟨2, true, false⟩, none⟩ := by decide +kernel
  have hlate : (Pattern.next.check (prompt.upTo 30) (reply.upTo 30) 2).stats.falsified = true := by
    decide +kernel
  have hwhole : (Pattern.next.check prompt reply 2).stats.falsified = true := by decide +kernel
  obtain ⟨hwithin, htime⟩ := (check_causal .next 2 9 prompt reply (by simp)).2 (by rw [hearly])
  have hsupport := hwithin.support
  rw [hearly] at hsupport
  have hsame := (check_causal .next 2 30 prompt reply (by simp)).1 hlate
  exact ⟨by simp, hearly, hsupport, htime hwhole, by simp, hlate, hsame⟩

end TraceMining
