import TraceMining.Proofs.Interleaving
import TraceMining.Proofs.Outcome
import TraceMining.Proofs.Run

/-!
# Implications between patterns

A wire that is answered one period after each of its changes, or that alternates with another one,
does not change twice without an answer either, and the three patterns are completed equally often
(`holdUntil_of_next`, `holdUntil_of_alternating`). Here one machine imitates another one: in the
state that belongs to the other's state, it makes every move that the other one makes.

An expectation does not imitate a hold. If both wires change together several times in a row, each
joint change answers the hold before it, but only the first one answers an expectation. So it is
completed at most as often, though it is completed if the hold is, and equally often on wires that
never change together (`eventual_of_holdUntil`).
-/

namespace TraceMining

/-! ## Imitation -/

/-- In the states given by `f`, the machine `n` makes every move of `m` on the sides in question,
and counts it as `m` does. -/
def Imitates {σ τ : Type} (n : Machine τ) (m : Machine σ) (f : σ → τ) (sides : Side → Prop) : Prop :=
  ∀ s side time s' completed opened, sides side →
    m.react s side time = .move s' completed opened →
    n.react (f s) side time = .move (f s') completed opened

theorem Imitates.outcome_steps {σ τ : Type} {n : Machine τ} {m : Machine σ} {f : σ → τ}
    {sides : Side → Prop} (h : Imitates n m f sides) (hstart : n.start = f m.start)
    {cs : List Cooccurrence} (hsides : ∀ c ∈ cs, sides c.side)
    (hcs : ((Run.start m).steps m cs).isHalted = false) :
    ((Run.start n).steps n cs).outcome = ((Run.start m).steps m cs).outcome := by
  have hkept := Run.steps_induction₂ (m := m) (n := n)
    (fun r q => q = ⟨f r.state, r.outcome⟩) ?_ (r := Run.start m) (q := Run.start n) ?_ hcs
  · rw [hkept]
  · rintro c hc r q rfl hmoves
    obtain ⟨hr, s, completed, opened, hreact, hstep⟩ := Run.exists_move_of_step hmoves
    rw [hstep]
    exact Run.step_of_move hr (h _ _ _ _ _ _ (hsides c hc) hreact)
  · simp only [Run.start, hstart]

/-! ## Holds -/

def Succession.toHold : Succession → Hold
  | idle => .idle
  | armed _ => .holding

def Alternation.toHold : Alternation → Hold
  | awaitA => .idle
  | awaitB => .holding

theorem holdUntil_imitates_next (period : Time) :
    Imitates (Pattern.machine period .holdUntil : Machine Hold)
      (Pattern.machine period .next : Machine Succession) Succession.toHold fun _ => True := by
  intro s side time s' completed opened _ h
  change Succession.react period s side time = _ at h
  change Hold.react s.toHold side = _
  cases s with
  | idle => cases side <;> cases h <;> rfl
  | armed since =>
    cases side with
    | a => cases h
    | both => cases h; rfl
    | b =>
      -- an answer at another time than one period later violates the succession
      rw [Succession.react] at h
      split at h
      · cases h; rfl
      · cases h

theorem holdUntil_imitates_alternating (period : Time) :
    Imitates (Pattern.machine period .holdUntil : Machine Hold)
      (Pattern.machine period .alternating : Machine Alternation) Alternation.toHold
      fun _ => True := by
  intro s side time s' completed opened _ h
  change Alternation.react s side = _ at h
  change Hold.react s.toHold side = _
  cases s <;> cases side <;> cases h <;> rfl

variable {a b : DeltaTrace} {period : Time}

/-- A run that is not falsified meets no violation. -/
theorem isHalted_run {p : Pattern} (h : (p.run a b period).outcome.stats.falsified = false) :
    (p.run a b period).isHalted = false := by
  have hagrees : (p.run a b period).outcome.Agrees := (Outcome.Agrees.start _).steps _
  rw [Run.isHalted, ← hagrees, h]

theorem check_holdUntil (a b : DeltaTrace) (period : Time) :
    Pattern.holdUntil.check a b period = (Pattern.holdUntil.run a b period).outcome :=
  Pattern.check_eq_outcome_run (by simp) (by simp) period

theorem holdUntil_of_next (h : (Pattern.next.check a b period).stats.falsified = false) :
    Pattern.holdUntil.check a b period = Pattern.next.check a b period := by
  rw [Pattern.check_eq_outcome_run (by simp) (by simp)] at h
  rw [check_holdUntil, Pattern.check_eq_outcome_run (by simp) (by simp)]
  exact (holdUntil_imitates_next period).outcome_steps rfl (fun _ _ => trivial) (isHalted_run h)

theorem holdUntil_of_alternating
    (h : (Pattern.alternating.check a b period).stats.falsified = false) :
    Pattern.holdUntil.check a b period = Pattern.alternating.check a b period := by
  -- the shortcut for equal wires reports a falsification
  have hne : ¬(Pattern.alternating = .alternating ∧ a = b) := by
    intro heq
    rw [Pattern.check, if_pos heq] at h
    cases h
  rw [Pattern.check_eq_outcome_run hne (by simp)] at h ⊢
  rw [check_holdUntil]
  exact (holdUntil_imitates_alternating period).outcome_steps rfl (fun _ _ => trivial)
    (isHalted_run h)

/-! ## Expectations -/

def Hold.toExpectation : Hold → Expectation
  | idle => .idle
  | holding => .pending

theorem eventual_imitates_holdUntil (period : Time) :
    Imitates (Pattern.machine period .eventual : Machine Expectation)
      (Pattern.machine period .holdUntil : Machine Hold) Hold.toExpectation (· ≠ .both) := by
  intro s side time s' completed opened hside h
  change Hold.react s side = _ at h
  change Expectation.react s.toExpectation side = _
  cases s with
  | idle => cases side <;> cases h <;> rfl
  | holding =>
    cases side with
    | both => exact absurd rfl hside
    | a => cases h
    | b => cases h; rfl

/-- What an expectation does while a hold moves on. It misses an answer only if it has just had
one. -/
theorem Expectation.react_of_hold {e : Expectation} {s s' : Hold} {side : Side}
    {completed opened : Bool} (hidle : e = .idle ↔ s = .idle)
    (h : Hold.react s side = .move s' completed opened) :
    ∃ e' completed', Expectation.react e side = .move e' completed' opened ∧
      (e' = .idle ↔ s' = .idle) ∧ (completed' = true → completed = true) ∧
      (completed = true → completed' = true ∨ e = .answered) ∧
      (e' = .answered → completed' = true ∨ e = .answered) := by
  cases s with
  | idle =>
    obtain rfl := hidle.2 rfl
    cases side <;> cases h <;> exact ⟨_, _, rfl, by simp⟩
  | holding =>
    cases e with
    | idle => exact absurd (hidle.1 rfl) (by simp)
    | pending | answered => cases side <;> cases h <;> exact ⟨_, _, rfl, by simp⟩

/-- An expectation beside a hold: both are idle at the same times, and the expectation has been
completed at most as often, but not never if the hold has been completed. -/
structure Lags (r : Run Hold) (q : Run Expectation) : Prop where
  running : q.isHalted = false
  idle : q.state = .idle ↔ r.state = .idle
  le : q.outcome.stats.support ≤ r.outcome.stats.support
  pos : 0 < r.outcome.stats.support → 0 < q.outcome.stats.support
  answered : q.state = .answered → 0 < q.outcome.stats.support

theorem Lags.step {m : Machine Hold} {n : Machine Expectation}
    (hm : ∀ s side t, m.react s side t = Hold.react s side)
    (hn : ∀ e side t, n.react e side t = Expectation.react e side)
    {r : Run Hold} {q : Run Expectation} (h : Lags r q) {c : Cooccurrence}
    (hmoves : (r.step m c).isHalted = false) : Lags (r.step m c) (q.step n c) := by
  obtain ⟨-, s', completed, opened, hhold, hr⟩ := Run.exists_move_of_step hmoves
  rw [hm] at hhold
  obtain ⟨e', completed', hreact, hidle, himp, hmissed, hanswered⟩ :=
    Expectation.react_of_hold h.idle hhold
  rw [← hn _ _ c.time] at hreact
  rw [hr, Run.step_of_move h.running hreact]
  have hle := h.le
  have hpos := h.pos
  have hans := h.answered
  refine ⟨rfl, hidle, ?_, ?_, ?_⟩
  · cases completed' <;> cases completed <;> simp_all
    omega
  · cases completed' <;> cases completed <;> simp_all
  · intro he
    cases completed' <;> simp_all

theorem lags_run (h : (Pattern.holdUntil.check a b period).stats.falsified = false) :
    Lags (Pattern.holdUntil.run a b period) (Pattern.eventual.run a b period) := by
  rw [check_holdUntil] at h
  refine Run.steps_induction₂ Lags (fun c _ r q hlags hmoves => ?_) ?_ (isHalted_run h)
  · exact Lags.step (fun _ _ _ => rfl) (fun _ _ _ => rfl) hlags hmoves
  · exact ⟨rfl, ⟨fun _ => rfl, fun _ => rfl⟩, Nat.le_refl 0, id, fun h => by cases h⟩

/-- No time is a time of both wires. -/
def NeverTogether (a b : DeltaTrace) : Prop := ∀ t, a.lookup t = none ∨ b.lookup t = none

theorem neverTogether_iff :
    NeverTogether a b ↔ ∀ e ∈ a.entries, b.lookup e.1 = none := by
  constructor
  · rintro h ⟨t, v⟩ he
    refine (h t).resolve_left fun hnone => ?_
    rw [OrderedMap.mem_entries_iff, hnone] at he
    cases he
  · intro h t
    cases ha : a.lookup t with
    | none => exact .inl rfl
    | some v => exact .inr (h _ (OrderedMap.mem_entries_iff.2 ha))

instance : Decidable (NeverTogether a b) := decidable_of_iff _ neverTogether_iff.symm

theorem NeverTogether.side_ne_both (h : NeverTogether a b) {c : Cooccurrence}
    (hc : c ∈ cooccurrences a b) : c.side ≠ .both := by
  cases c with
  | left x => simp [Cooccurrence.side]
  | right y => simp [Cooccurrence.side]
  | both x y =>
    obtain ⟨ha, hb⟩ := exists_lookup_of_both_mem hc
    rcases h x.1 with hx | hy
    · rw [ha] at hx
      cases hx
    · rw [hb] at hy
      cases hy

theorem outcome_eventual_run (h : (Pattern.holdUntil.check a b period).stats.falsified = false)
    (hab : NeverTogether a b) :
    (Pattern.eventual.run a b period).outcome = (Pattern.holdUntil.run a b period).outcome := by
  rw [check_holdUntil] at h
  exact (eventual_imitates_holdUntil period).outcome_steps rfl (fun c hc => hab.side_ne_both hc)
    (isHalted_run h)

theorem support_check_eventual (a b : DeltaTrace) (period : Time) :
    (Pattern.eventual.check a b period).stats.support =
      (Pattern.eventual.run a b period).outcome.stats.support := by
  rw [Pattern.check_eq_report_run (by simp), Pattern.support_report]

theorem eventual_of_holdUntil
    (h : (Pattern.holdUntil.check a b period).stats.falsified = false) :
    (Pattern.eventual.check a b period).stats.support ≤
      (Pattern.holdUntil.check a b period).stats.support ∧
    ((Pattern.eventual.check a b period).stats.support = 0 ↔
      (Pattern.holdUntil.check a b period).stats.support = 0) ∧
    (NeverTogether a b → (Pattern.eventual.check a b period).stats.support =
      (Pattern.holdUntil.check a b period).stats.support) := by
  have hlags := lags_run h
  have hle := hlags.le
  have hpos := hlags.pos
  rw [support_check_eventual, check_holdUntil]
  refine ⟨hle, ⟨fun h0 => by omega, fun h0 => by omega⟩, fun hab => ?_⟩
  rw [outcome_eventual_run h hab]

/-! ## All of them -/

/-- **Which patterns imply which.** If a wire is answered one period after each of its changes, or
alternates with the other one, the hold is not falsified either, with the same evidence. If a hold
is not falsified, the expectation is completed at most as often, never only if the hold never is,
and equally often on wires that never change together. -/
theorem pattern_implications (a b : DeltaTrace) (period : Time) :
    ((Pattern.next.check a b period).stats.falsified = false →
      (Pattern.holdUntil.check a b period).stats = (Pattern.next.check a b period).stats) ∧
    ((Pattern.alternating.check a b period).stats.falsified = false →
      (Pattern.holdUntil.check a b period).stats = (Pattern.alternating.check a b period).stats) ∧
    ((Pattern.holdUntil.check a b period).stats.falsified = false →
      (Pattern.eventual.check a b period).stats.support ≤
        (Pattern.holdUntil.check a b period).stats.support ∧
      ((Pattern.eventual.check a b period).stats.support = 0 ↔
        (Pattern.holdUntil.check a b period).stats.support = 0) ∧
      (NeverTogether a b → (Pattern.eventual.check a b period).stats.support =
        (Pattern.holdUntil.check a b period).stats.support)) := by
  refine ⟨fun h => ?_, fun h => ?_, eventual_of_holdUntil⟩
  · rw [holdUntil_of_next h]
  · rw [holdUntil_of_alternating h]

def request : DeltaTrace := .ofList [(10, 1), (30, 0), (50, 1)]

def response : DeltaTrace := .ofList [(20, 1), (40, 0)]

/-- The last request waits for its response when the run ends, which violates nothing. Two wires
that always change together complete the hold more often than the expectation. -/
theorem pattern_implications_request :
    (Pattern.holdUntil.check request response 10).stats = ⟨2, true, false⟩ ∧
    (Pattern.holdUntil.check request response 10).stats =
      (Pattern.alternating.check request response 10).stats ∧
    (Pattern.eventual.check request response 10).stats.support = 2 ∧
    (Pattern.holdUntil.check request request 10).stats.support = 2 ∧
    (Pattern.eventual.check request request 10).stats.support ≤ 2 ∧
    (Pattern.eventual.check request request 10).stats.support ≠ 0 := by
  have hnext : (Pattern.next.check request response 10).stats = ⟨2, true, false⟩ := by
    decide +kernel
  have htwice : (Pattern.holdUntil.check request request 10).stats = ⟨2, true, false⟩ := by
    decide +kernel
  obtain ⟨hholds, halternates, hexpects⟩ := pattern_implications request response 10
  obtain ⟨-, -, hsame⟩ := pattern_implications request request 10
  have hhold := (hholds (by rw [hnext])).trans hnext
  obtain ⟨-, -, hequal⟩ := hexpects (by rw [hhold])
  obtain ⟨hle, hzero, -⟩ := hsame (by rw [htwice])
  rw [hequal (by decide +kernel)]
  rw [htwice] at hle hzero ⊢
  exact ⟨hhold, halternates (by decide +kernel), by rw [hhold], rfl, hle,
    fun h => absurd (hzero.1 h) (by decide)⟩

end TraceMining
