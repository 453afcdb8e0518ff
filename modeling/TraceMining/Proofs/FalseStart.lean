import TraceMining.Proofs.Causality
import TraceMining.Proofs.Expectation
import TraceMining.Proofs.Opportunity

/-!
# Violations without an opportunity

A pattern that is violated should have been open to violation before. The machines of three patterns
let any first change pass (`Pattern.lenient`), and to leave their start is to become open to
violation, so this holds of all their runs (`Run.Forewarned.steps`). The machine of an alternation
refuses a change of the second wire from the start on. If such a change comes first, the alternation
is violated without ever having been open to it (`FalseStart`); if a change of the first wire alone
comes first, it is open to violation from there on. So a violation without an opportunity is a false
start, and nothing else is (`falsifiable_of_falsified`).
-/

namespace TraceMining

/-! ## Machines that let any first change pass -/

section

variable {σ : Type} {m : Machine σ}

/-- In its start, the machine refuses nothing. -/
def Machine.Lenient (m : Machine σ) : Prop :=
  ∀ side time, m.react m.start side time ≠ .violation

theorem Pattern.lenient {p : Pattern} (hp : p ≠ .alternating) (period : Time) :
    (p.machine period).Lenient := by
  intro side time h
  cases p with
  | alternating => exact hp rfl
  | next =>
    change Succession.react period .idle side time = _ at h
    cases side <;> cases h
  | holdUntil =>
    change Hold.react .idle side = _ at h
    cases side <;> cases h
  | eventual =>
    change Expectation.react .idle side = _ at h
    cases side <;> cases h

namespace Run

/-- If the run has met a violation, the pattern was open to it. -/
def Forewarned (r : Run σ) : Prop :=
  r.outcome.stats.falsified = true → r.outcome.stats.falsifiable = true

theorem Forewarned.start (m : Machine σ) : (Run.start m).Forewarned := fun h => by cases h

theorem Forewarned.step (hm : m.Lenient) {r : Run σ} (hrest : r.AtRest m) (h : r.Forewarned)
    (c : Cooccurrence) : (r.step m c).Forewarned := by
  rcases step_cases m r c with
    ⟨-, hstep⟩ | ⟨-, hreact, hstep⟩ | ⟨-, s, completed, opened, -, hstep⟩
  · rw [hstep]
    exact h
  · -- what refuses the change is not the start, so the pattern was open before
    rw [hstep]
    intro _
    refine Bool.of_not_eq_false fun hquiet => ?_
    rw [(hrest hquiet).1] at hreact
    exact hm _ _ hreact
  · rw [hstep]
    intro hfalsified
    rw [Stats.falsified_moved] at hfalsified
    rw [Stats.falsifiable_moved, h hfalsified, Bool.true_or]

theorem Forewarned.steps (hopens : m.OpensFirst) (hm : m.Lenient) (cs : List Cooccurrence) :
    ∀ {r : Run σ}, r.AtRest m → r.Forewarned → (r.steps m cs).Forewarned := by
  induction cs with
  | nil => exact fun _ h => h
  | cons c cs ih => exact fun hrest h => ih (hrest.step hopens c) (h.step hm hrest c)

end Run

end

/-! ## The first change -/

variable {p : Pattern} {a b : DeltaTrace} {t : Time}

/-- The alternation of two different wires begins, at the time `t`, with a change of the second one:
it changes alone or together with the first one, which has not changed before. -/
structure FalseStart (p : Pattern) (a b : DeltaTrace) (t : Time) : Prop where
  pattern : p = .alternating
  different : a ≠ b
  answered : t ∈ b.keys
  first : ∀ s, s ∈ a.keys ∨ s ∈ b.keys → t ≤ s

theorem Alternation.react_awaitA_of_ne {side : Side} (h : side ≠ .a) :
    Alternation.react .awaitA side = .violation := by
  cases side with
  | a => exact absurd rfl h
  | b => rfl
  | both => rfl

/-- No change is earlier than the first co-occurrence. -/
theorem time_le_of_head {c : Cooccurrence} {cs : List Cooccurrence}
    (h : cooccurrences a b = c :: cs) {s : Time} (hs : s ∈ a.keys ∨ s ∈ b.keys) : c.time ≤ s := by
  obtain ⟨d, hd, rfl⟩ := exists_mem_cooccurrences_iff.2 hs
  have hsplit : cooccurrences a b = [] ++ c :: cs := h
  rw [h] at hd
  rcases List.mem_cons.1 hd with rfl | hd
  · exact Nat.le_refl _
  · exact Nat.le_of_lt ((times_of_split hsplit).2 d hd)

theorem FalseStart.exists_head (h : FalseStart p a b t) :
    ∃ c cs, cooccurrences a b = c :: cs ∧ c.side ≠ .a ∧ c.time = t := by
  obtain ⟨d, hd, hright, rfl⟩ := exists_ofRight h.answered a
  obtain ⟨c, cs, hcs⟩ := List.exists_cons_of_ne_nil (List.ne_nil_of_mem hd)
  have hc : c ∈ cooccurrences a b := by
    rw [hcs]
    exact List.mem_cons_self
  have htime : c.time = d.time :=
    Nat.le_antisymm (time_le_of_head hcs (.inr h.answered))
      (h.first _ (exists_mem_cooccurrences_iff.1 ⟨c, hc, rfl⟩))
  obtain rfl := eq_of_time_eq hc hd htime
  exact ⟨c, cs, hcs, Cooccurrence.ofRight_iff_side.1 hright, rfl⟩

theorem FalseStart.check (h : FalseStart p a b t) (period : Time) :
    p.check a b period = ⟨⟨0, false, true⟩, some t⟩ := by
  obtain ⟨c, cs, hcs, hside, rfl⟩ := h.exists_head
  obtain ⟨rfl, hdifferent, -, -⟩ := h
  have hreact : (Pattern.alternating.machine period).react (.awaitA : Alternation) c.side c.time =
      .violation := Alternation.react_awaitA_of_ne hside
  rw [Pattern.check_eq_outcome_run (fun hequal => hdifferent hequal.2) (by decide), Pattern.run, hcs,
    Run.steps_cons, Run.step_of_violation rfl hreact, Run.steps_of_halted rfl]
  rfl

/-- If a change of the first wire alone comes first, the alternation is open to violation. -/
theorem falsifiable_of_side_eq_a {c : Cooccurrence} {cs : List Cooccurrence} (period : Time)
    (h : cooccurrences a b = c :: cs) (hside : c.side = .a) :
    (Pattern.alternating.run a b period).outcome.stats.falsifiable = true := by
  have hreact : (Pattern.alternating.machine period).react (.awaitA : Alternation) c.side c.time =
      .move (.awaitB : Alternation) false true := by
    rw [hside]
    rfl
  rw [Pattern.run, h, Run.steps_cons]
  refine (Run.within_steps _ cs _).falsifiable ?_
  rw [Run.step_of_move rfl hreact]
  rfl

theorem falsifiable_alternating (hdifferent : a ≠ b) (period : Time)
    (hstart : ∀ t, ¬ FalseStart .alternating a b t)
    (h : (Pattern.alternating.check a b period).stats.falsified = true) :
    (Pattern.alternating.check a b period).stats.falsifiable = true := by
  rw [Pattern.check_eq_outcome_run (fun hequal => hdifferent hequal.2) (by decide)] at h ⊢
  cases hcs : cooccurrences a b with
  | nil =>
    rw [Pattern.run, hcs] at h
    cases h
  | cons c cs =>
    refine falsifiable_of_side_eq_a period hcs (Classical.byContradiction fun hside => ?_)
    have hc : c ∈ cooccurrences a b := by
      rw [hcs]
      exact List.mem_cons_self
    have hanswered : c.time ∈ b.keys := (ofRight_iff hc).1 (Cooccurrence.ofRight_iff_side.2 hside)
    exact hstart c.time ⟨rfl, hdifferent, hanswered, fun s => time_le_of_head hcs⟩

theorem falsifiable_of_ne_alternating (hp : p ≠ .alternating) (period : Time)
    (h : (p.check a b period).stats.falsified = true) :
    (p.check a b period).stats.falsifiable = true := by
  by_cases heventual : p = .eventual
  · subst heventual
    rw [(falsified_eventual a b period).1] at h
    cases h
  · rw [Pattern.check_eq_outcome_run (fun hequal => hp hequal.1) heventual] at h ⊢
    exact Run.Forewarned.steps (p.opensFirst period) (Pattern.lenient hp period) _ (.start _)
      (.start _) h

/-- **A violation needs an opportunity.** If a pattern is violated on two wires, it counts as
falsifiable there, unless it is the alternation of two different wires that begins with a change of
the second one. Then the alternation is violated at once, and does not count as falsifiable. -/
theorem falsifiable_of_falsified (p : Pattern) (a b : DeltaTrace) (period : Time) :
    ((∀ t, ¬ FalseStart p a b t) → (p.check a b period).stats.falsified = true →
      (p.check a b period).stats.falsifiable = true) ∧
    ∀ t, FalseStart p a b t → p.check a b period = ⟨⟨0, false, true⟩, some t⟩ := by
  refine ⟨fun hstart h => ?_, fun t ht => ht.check period⟩
  by_cases hp : p = .alternating
  · subst hp
    by_cases hab : a = b
    · rw [Pattern.check, if_pos ⟨rfl, hab⟩]
    · exact falsifiable_alternating hab period hstart h
  · exact falsifiable_of_ne_alternating hp period h

/-- A wire that changes twice before `loneAnswer` does. -/
def restlessWire : DeltaTrace := .ofList [(0, 1), (2, 0)]

def loneAnswer : DeltaTrace := .ofList [(3, 1)]

theorem falsifiable_of_falsified_restless :
    (∀ t, ¬ FalseStart .alternating restlessWire loneAnswer t) ∧
    (Pattern.alternating.check restlessWire loneAnswer 1).stats.falsified = true ∧
    (Pattern.alternating.check restlessWire loneAnswer 1).stats.falsifiable = true ∧
    FalseStart .alternating ∅ loneAnswer 3 ∧
    Pattern.alternating.check ∅ loneAnswer 1 = ⟨⟨0, false, true⟩, some 3⟩ := by
  have hkeys : restlessWire.keys = [0, 2] := by decide +kernel
  have hanswers : loneAnswer.keys = [3] := by decide +kernel
  have hstart : ∀ t, ¬ FalseStart .alternating restlessWire loneAnswer t := by
    intro t ht
    have hfirst : t ≤ 0 := ht.first 0 (.inl (by simp [hkeys]))
    have hanswered : t = 3 := by simpa [hanswers] using ht.answered
    rw [hanswered] at hfirst
    exact absurd hfirst (by decide)
  have hviolated : (Pattern.alternating.check restlessWire loneAnswer 1).stats.falsified = true := by
    decide +kernel
  have hlone : FalseStart .alternating ∅ loneAnswer 3 := by
    refine ⟨rfl, by decide +kernel, by simp [hanswers], fun s hs => ?_⟩
    have hs : s ∈ ([] : List Time) ∨ s ∈ [3] := hanswers ▸ hs
    simp only [List.not_mem_nil, false_or, List.mem_singleton] at hs
    exact Nat.le_of_eq hs.symm
  exact ⟨hstart, hviolated, (falsifiable_of_falsified _ _ _ 1).1 hstart hviolated, hlone,
    (falsifiable_of_falsified _ _ _ 1).2 3 hlone⟩

/-- A change of the second wire alone violates an alternation that does not count as falsifiable. -/
theorem violated_unopened_alternation :
    (Pattern.alternating.check ∅ loneAnswer 1).stats.falsified = true ∧
    (Pattern.alternating.check ∅ loneAnswer 1).stats.falsifiable = false := by
  decide +kernel

end TraceMining
