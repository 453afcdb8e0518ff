import TraceMining.Proofs.Implication
import TraceMining.Proofs.Successors

/-!
# Answers that come at last

An expectation is never violated, and only a change of the second wire completes it
(`steps_expectation`). Until the first change of the first wire nothing happens
(`steps_expectation_of_silent`), and from then on the first change of the second wire completes it
(`pos_steps_pending_iff`). So it is completed at all if and only if some change of the first wire
comes before some change of the second one, and at most once for each change of the second wire
after the first change of the first one (`support_eventual_bounds`).

How often it is completed depends on the runs of joint changes, of which only the first one counts.
Without joint changes it is completed by exactly those changes of the second wire that come right
after a change of the first one in the merged sequence (`steps_expectation_of_apart`,
`countP_comesAfterLeft`).
-/

namespace TraceMining

/-! ## Runs -/

/-- The machine of an expectation; the period has no part in it. -/
abbrev expectation : Machine Expectation := ⟨.idle, fun e side _ => Expectation.react e side⟩

theorem step_expectation {e e' : Expectation} {c : Cooccurrence} {completed opened : Bool}
    (h : Expectation.react e c.side = .move e' completed opened) (stats : Stats) :
    (Run.going e stats).step expectation c = .going e' (stats.moved completed opened) :=
  Run.step_of_move rfl h

theorem Expectation.react_cases (e : Expectation) (side : Side) :
    ∃ e' completed opened, Expectation.react e side = .move e' completed opened ∧
      (completed = true → side ≠ .a) := by
  cases e <;> cases side <;> exact ⟨_, _, _, rfl, by simp⟩

/-- A run of an expectation meets no violation, and is completed only by changes of the second
wire. -/
theorem steps_expectation (cs : List Cooccurrence) (e : Expectation) (stats : Stats) :
    ∃ e' stats', (Run.going e stats).steps expectation cs = .going e' stats' ∧
      stats'.falsified = stats.falsified ∧ stats.support ≤ stats'.support ∧
      stats'.support ≤ stats.support + cs.countP (·.ofRight) := by
  induction cs generalizing e stats with
  | nil => exact ⟨e, stats, rfl, rfl, by simp⟩
  | cons c cs ih =>
    obtain ⟨e₁, completed, opened, hreact, hcompleted⟩ := e.react_cases c.side
    obtain ⟨e', stats', hsteps, hfalsified, hmin, hmax⟩ := ih e₁ (stats.moved completed opened)
    refine ⟨e', stats', ?_, hfalsified, ?_⟩
    · rw [Run.steps_cons, step_expectation hreact, hsteps]
    · rw [Stats.support_moved] at hmin hmax
      rw [List.countP_cons]
      cases completed with
      | false =>
        simp only [Bool.false_eq_true, if_false] at hmin hmax
        omega
      | true =>
        simp only [if_true, Cooccurrence.ofRight_iff_side.2 (hcompleted rfl)] at hmin hmax ⊢
        omega

/-- As long as the first wire has not changed, nothing happens. -/
theorem steps_expectation_of_silent {cs : List Cooccurrence} (h : ∀ c ∈ cs, c.ofLeft = false) :
    (Run.going .idle .none).steps expectation cs = .going .idle .none := by
  induction cs with
  | nil => rfl
  | cons c cs ih =>
    rw [List.forall_mem_cons] at h
    rw [Run.steps_cons]
    cases c with
    | right y => exact ih h.2
    | left x | both x y => cases h.1

/-- What waits for an answer gets one from the first change of the second wire. -/
theorem pos_steps_pending_iff {cs : List Cooccurrence} {stats : Stats} (h : stats.support = 0) :
    0 < ((Run.going .pending stats).steps expectation cs).outcome.stats.support ↔
      0 < cs.countP (·.ofRight) := by
  induction cs generalizing stats with
  | nil => simp [Run.steps, Run.going, h]
  | cons c cs ih =>
    rw [Run.steps_cons]
    by_cases hc : c.ofRight = true
    · have hreact : ∃ e, Expectation.react .pending c.side = .move e true false := by
        cases c with
        | left x => cases hc
        | right y | both x y => exact ⟨_, rfl⟩
      obtain ⟨e, hreact⟩ := hreact
      obtain ⟨e', stats', hsteps, -, hmin, -⟩ := steps_expectation cs e (stats.moved true false)
      rw [step_expectation hreact, hsteps, List.countP_cons_of_pos hc]
      simp only [Stats.support_moved, if_true] at hmin
      simp only [Run.going]
      omega
    · have hreact : Expectation.react .pending c.side = .move .pending false false := by
        cases c with
        | left x => rfl
        | right y | both x y => exact absurd rfl hc
      rw [step_expectation hreact, List.countP_cons_of_neg hc]
      exact ih h

/-- Without joint changes, a completion is a change of the second wire right after one of the first
wire. -/
theorem steps_expectation_of_apart {cs : List Cooccurrence} (h : ∀ c ∈ cs, c.side ≠ .both) :
    ∀ (v : Cooccurrence) (stats : Stats),
      ((Run.going (v.stateAfter .idle fun _ => .pending) stats).steps expectation
        cs).outcome.stats.support =
      stats.support + ((v :: cs).zip cs).countP fun p => p.1.ofLeft && p.2.ofRight := by
  induction cs with
  | nil => intro v stats; rfl
  | cons d cs ih =>
    intro v stats
    rw [List.forall_mem_cons] at h
    have hstep : ∃ opened, (Run.going (v.stateAfter .idle fun _ => .pending) stats).step
        expectation d = .going (d.stateAfter .idle fun _ => .pending)
          (stats.moved (v.ofLeft && d.ofRight) opened) := by
      cases d with
      | both x y => exact absurd rfl h.1
      | left x | right y => cases v <;> exact ⟨_, Run.step_of_move rfl rfl⟩
    obtain ⟨opened, hstep⟩ := hstep
    rw [Run.steps_cons, hstep, ih h.2, Stats.support_moved, List.zip_cons_cons, List.countP_cons]
    split <;> omega

/-! ## Two wires -/

section

variable {a b : DeltaTrace} {c : Cooccurrence} {before after : List Cooccurrence}

theorem support_eventual (a b : DeltaTrace) (period : Time) :
    (Pattern.eventual.check a b period).stats.support =
      ((Run.going .idle .none).steps expectation (cooccurrences a b)).outcome.stats.support :=
  support_check_eventual a b period

/-- The first change of the first wire, found in the merged sequence. -/
theorem head?_keys_of_split (h : cooccurrences a b = before ++ c :: after)
    (hbefore : ∀ d ∈ before, d.ofLeft = false) (hc : c.ofLeft = true) :
    a.keys.head? = some c.time := by
  obtain ⟨x, hx⟩ := Option.isSome_iff_exists.1 hc
  have hnone : before.filterMap Cooccurrence.left? = [] := by
    rw [List.filterMap_eq_nil_iff]
    intro d hd
    simpa [Cooccurrence.ofLeft] using hbefore d hd
  have hentries : a.entries = (cooccurrences a b).filterMap Cooccurrence.left? :=
    (Interleaving.filterMap_left?_toList ⟨a.entries, b.entries⟩).symm
  rw [h, List.filterMap_append, hnone, List.nil_append, List.filterMap_cons_some hx] at hentries
  simp [OrderedMap.keys, hentries, Cooccurrence.time_of_left? hx]

theorem le_of_head?_keys {s t : Time} (hs : a.keys.head? = some s) (ht : t ∈ a.keys) : s ≤ t := by
  have hordered := pairwise_times a
  cases hkeys : a.keys with
  | nil => simp [hkeys] at ht
  | cons first keys =>
    rw [hkeys] at hs ht hordered
    cases hs
    rcases List.mem_cons.1 ht with rfl | ht
    · exact Nat.le_refl _
    · exact Nat.le_of_lt ((List.pairwise_cons.1 hordered).1 t ht)

/-- The number of changes of the second wire after the first change of the first wire. -/
def changesAfterFirst (a b : DeltaTrace) : Nat := b.keys.countP fun t => a.keys.head?.any (· < t)

theorem changesAfterFirst_of_split (h : cooccurrences a b = before ++ c :: after)
    (hbefore : ∀ d ∈ before, d.ofLeft = false) (hc : c.ofLeft = true) :
    changesAfterFirst a b = after.countP (·.ofRight) := by
  rw [changesAfterFirst, head?_keys_of_split h hbefore hc, ← countP_keys_gt h]
  rfl

theorem changesAfterFirst_pos_iff :
    0 < changesAfterFirst a b ↔ ∃ s ∈ a.keys, ∃ t ∈ b.keys, s < t := by
  rw [changesAfterFirst, List.countP_pos_iff]
  cases hhead : a.keys.head? with
  | none => simp [List.head?_eq_none_iff.1 hhead]
  | some first =>
    simp only [Option.any_some, decide_eq_true_iff]
    constructor
    · rintro ⟨t, ht, hlt⟩
      exact ⟨first, List.mem_of_head? hhead, t, ht, hlt⟩
    · rintro ⟨s, hs, t, ht, hst⟩
      exact ⟨t, ht, Nat.lt_of_le_of_lt (le_of_head?_keys hhead hs) hst⟩

/-- If the first wire changes at all, the expectation begins with its first change. -/
theorem support_eventual_of_split (h : cooccurrences a b = before ++ c :: after)
    (hbefore : ∀ d ∈ before, d.ofLeft = false) (hc : c.ofLeft = true) (period : Time) :
    (Pattern.eventual.check a b period).stats.support =
      ((Run.going .pending ⟨0, true, false⟩).steps expectation after).outcome.stats.support := by
  have hopened : Expectation.react .idle c.side = .move .pending false true := by
    cases c with
    | right y => cases hc
    | left x | both x y => rfl
  rw [support_eventual, h, Run.steps_append, steps_expectation_of_silent hbefore, Run.steps_cons,
    step_expectation hopened]
  rfl

theorem support_eventual_bounds (a b : DeltaTrace) (period : Time) :
    (Pattern.eventual.check a b period).stats.support ≤ changesAfterFirst a b ∧
    (0 < (Pattern.eventual.check a b period).stats.support ↔ 0 < changesAfterFirst a b) := by
  cases hfind : (cooccurrences a b).find? (·.ofLeft) with
  | none =>
    have hsilent : ∀ c ∈ cooccurrences a b, c.ofLeft = false := by
      simpa using List.find?_eq_none.1 hfind
    have hnone : ¬ 0 < changesAfterFirst a b := by
      rw [changesAfterFirst_pos_iff]
      rintro ⟨s, hs, -⟩
      obtain ⟨c, hc, hleft, -⟩ := exists_ofLeft hs b
      rw [hsilent c hc] at hleft
      cases hleft
    rw [support_eventual, steps_expectation_of_silent hsilent]
    exact ⟨Nat.zero_le _, iff_of_false (Nat.lt_irrefl 0) hnone⟩
  | some c =>
    obtain ⟨hc, before, after, hsplit, hbefore⟩ := List.find?_eq_some_iff_append.1 hfind
    have hbefore : ∀ d ∈ before, d.ofLeft = false := by simpa using hbefore
    obtain ⟨e, stats, hsteps, -, -, hmax⟩ :=
      steps_expectation after .pending ⟨0, true, false⟩
    rw [support_eventual_of_split hsplit hbefore hc, changesAfterFirst_of_split hsplit hbefore hc]
    refine ⟨?_, pos_steps_pending_iff rfl⟩
    rw [hsteps]
    simpa [Run.going] using hmax

/-! ## Neighbours in the merged sequence -/

/-- What comes right before the co-occurrence at `t` has a change of the first wire. -/
def ComesAfterLeft (a b : DeltaTrace) (t : Time) : Prop :=
  ∃ before c d after, cooccurrences a b = before ++ c :: d :: after ∧ c.ofLeft = true ∧ d.time = t

theorem comesAfterLeft_iff {t : Time} :
    ComesAfterLeft a b t ↔
      ∃ p ∈ (cooccurrences a b).zip (cooccurrences a b).tail, p.1.ofLeft = true ∧ p.2.time = t := by
  constructor
  · rintro ⟨before, c, d, after, hsplit, hc, hd⟩
    exact ⟨(c, d), mem_zip_tail_iff.2 ⟨before, after, hsplit⟩, hc, hd⟩
  · rintro ⟨⟨c, d⟩, hcd, hc, hd⟩
    obtain ⟨before, after, hsplit⟩ := mem_zip_tail_iff.1 hcd
    exact ⟨before, c, d, after, hsplit, hc, hd⟩

instance (a b : DeltaTrace) (t : Time) : Decidable (ComesAfterLeft a b t) :=
  decidable_of_iff _ comesAfterLeft_iff.symm

/-- Only one co-occurrence comes right before another one. -/
theorem comesAfterLeft_iff_of_mem {d : Cooccurrence}
    (h : (c, d) ∈ (cooccurrences a b).zip (cooccurrences a b).tail) :
    ComesAfterLeft a b d.time ↔ c.ofLeft = true := by
  obtain ⟨before, after, hsplit⟩ := mem_zip_tail_iff.1 h
  constructor
  · rintro ⟨before', c', d', after', hsplit', hc', hd'⟩
    have hc : c ∈ cooccurrences a b := by simp [hsplit]
    have hmem : c' ∈ cooccurrences a b := by simp [hsplit']
    have hnext := successor_of_split hsplit
    have hnext' := hd' ▸ successor_of_split hsplit'
    have htime : c'.time = c.time := hnext'.unique_left hnext
      (exists_mem_cooccurrences_iff.1 ⟨c', hmem, rfl⟩)
      (exists_mem_cooccurrences_iff.1 ⟨c, hc, rfl⟩)
    rw [← eq_of_time_eq hmem hc htime]
    exact hc'
  · intro hc
    exact ⟨before, c, d, after, hsplit, hc, rfl⟩

theorem not_comesAfterLeft_head {cs : List Cooccurrence} (h : cooccurrences a b = c :: cs) :
    ¬ ComesAfterLeft a b c.time := by
  rintro ⟨before, c', d, after, hsplit, -, hd⟩
  have hlt := (successor_of_split hsplit).lt
  have hmem : c' ∈ cooccurrences a b := by simp [hsplit]
  obtain ⟨-, hlater⟩ := times_of_split (show cooccurrences a b = [] ++ c :: cs from h)
  rw [h] at hmem
  rw [hd] at hlt
  rcases List.mem_cons.1 hmem with rfl | hmem
  · exact Nat.lt_irrefl _ hlt
  · exact Nat.lt_asymm (hlater c' hmem) hlt

/-- Counting the changes of the second wire that come right after one of the first wire. -/
theorem countP_comesAfterLeft (a b : DeltaTrace) :
    b.keys.countP (fun t => decide (ComesAfterLeft a b t)) =
      ((cooccurrences a b).zip (cooccurrences a b).tail).countP
        fun p => p.1.ofLeft && p.2.ofRight := by
  rw [countP_keys_right a b]
  cases hcs : cooccurrences a b with
  | nil => rfl
  | cons v cs =>
    have hsecond : ((v :: cs).zip cs).map Prod.snd = cs := List.map_snd_zip (by simp)
    have hhead : ¬ (v.ofRight && decide (ComesAfterLeft a b v.time)) = true := by
      simp [not_comesAfterLeft_head hcs]
    rw [List.countP_cons, if_neg hhead, Nat.add_zero, List.tail_cons]
    conv_lhs => rw [← hsecond, List.countP_map]
    refine List.countP_congr fun p hp => ?_
    have hmem : p ∈ (cooccurrences a b).zip (cooccurrences a b).tail := by rw [hcs]; exact hp
    simp [comesAfterLeft_iff_of_mem hmem, and_comm]

theorem support_eventual_of_neverTogether (h : NeverTogether a b) (period : Time) :
    (Pattern.eventual.check a b period).stats.support =
      b.keys.countP fun t => decide (ComesAfterLeft a b t) := by
  have hapart : ∀ c ∈ cooccurrences a b, c.side ≠ .both := fun c hc => h.side_ne_both hc
  have hsteps := steps_expectation_of_apart hapart .outset .none
  rw [support_eventual, countP_comesAfterLeft]
  refine hsteps.trans ?_
  cases cooccurrences a b with
  | nil => rfl
  | cons c cs =>
    rw [List.zip_cons_cons, List.countP_cons_of_neg (by simp [Cooccurrence.outset,
      Cooccurrence.ofLeft, Cooccurrence.left?]), List.tail_cons]
    exact Nat.zero_add _

end

theorem falsified_eventual (a b : DeltaTrace) (period : Time) :
    (Pattern.eventual.check a b period).stats.falsified = false ∧
    (Pattern.eventual.check a b period).falsifiedAt = none := by
  obtain ⟨e, stats, hsteps, hfalsified, -⟩ :=
    steps_expectation (cooccurrences a b) .idle .none
  have hrun : Pattern.eventual.run a b period = .going e stats := hsteps
  rw [Pattern.check_eq_report_run (by simp), hrun]
  exact ⟨hfalsified, rfl⟩

theorem falsifiable_eventual (a b : DeltaTrace) (period : Time) :
    (Pattern.eventual.check a b period).stats.falsifiable = true ↔
      0 < (Pattern.eventual.check a b period).stats.support := by
  rw [Pattern.check_eq_report_run (by simp), Pattern.report, if_pos rfl]
  exact decide_eq_true_iff

/-- **What an expectation says about two wires.** It is never violated. It is completed at all, and
counts as falsifiable, if and only if some change of the first wire comes before some change of the
second one. It is completed at most once for each change of the second wire after the first change
of the first one, and, on wires that never change together, exactly once for each change of the
second wire that comes right after a change of the first one in the merged sequence. -/
theorem eventual_exact (a b : DeltaTrace) (period : Time) :
    ((Pattern.eventual.check a b period).stats.falsified = false ∧
      (Pattern.eventual.check a b period).falsifiedAt = none) ∧
    (0 < (Pattern.eventual.check a b period).stats.support ↔
      ∃ s ∈ a.keys, ∃ t ∈ b.keys, s < t) ∧
    ((Pattern.eventual.check a b period).stats.falsifiable = true ↔
      ∃ s ∈ a.keys, ∃ t ∈ b.keys, s < t) ∧
    (Pattern.eventual.check a b period).stats.support ≤
      (b.keys.countP fun t => a.keys.head?.any (· < t)) ∧
    (NeverTogether a b → (Pattern.eventual.check a b period).stats.support =
      b.keys.countP fun t => decide (ComesAfterLeft a b t)) := by
  obtain ⟨hle, hpos⟩ := support_eventual_bounds a b period
  rw [changesAfterFirst_pos_iff] at hpos
  exact ⟨falsified_eventual a b period, hpos, (falsifiable_eventual a b period).trans hpos, hle,
    fun h => support_eventual_of_neverTogether h period⟩

/-- A wire that changes twice in a row before its last answer. -/
def knocks : DeltaTrace := .ofList [(2, 1), (20, 0), (24, 1)]

/-- A wire that changes once more after its first answer. -/
def openings : DeltaTrace := .ofList [(4, 1), (6, 0), (30, 1)]

theorem eventual_exact_knocks :
    NeverTogether knocks openings ∧
    (Pattern.eventual.check knocks openings 1).stats.support = 2 ∧
    (Pattern.eventual.check knocks openings 1).stats.falsifiable = true ∧
    2 ≤ openings.keys.countP fun t => knocks.keys.head?.any (· < t) := by
  have hapart : NeverTogether knocks openings := by decide +kernel
  have hbefore : ∃ s ∈ knocks.keys, ∃ t ∈ openings.keys, s < t := by decide +kernel
  obtain ⟨-, -, hfalsifiable, hle, hexact⟩ := eventual_exact knocks openings 1
  have hsupport : (Pattern.eventual.check knocks openings 1).stats.support = 2 := by
    rw [hexact hapart]
    decide +kernel
  exact ⟨hapart, hsupport, hfalsifiable.2 hbefore, hsupport ▸ hle⟩

end TraceMining
