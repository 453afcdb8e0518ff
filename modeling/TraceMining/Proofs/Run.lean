import TraceMining.Checker

/-!
# What a step of a run does

A step of a run does one of three things (`Run.step_cases`): nothing, if a violation was met
before; the violation is recorded; or the machine moves on. A run that has met no violation so far
has moved on at every step (`Run.exists_move_of_step`), so what two machines keep side by side
while the first one moves on, they keep over every sequence that does not falsify the first one
(`Run.steps_induction₂`).
-/

namespace TraceMining

namespace Stats

/-- The evidence after a machine has moved on. -/
def moved (s : Stats) (completed opened : Bool) : Stats :=
  { s with
    support := if completed then s.support + 1 else s.support
    falsifiable := s.falsifiable || opened }

@[simp] theorem support_moved (s : Stats) (completed opened : Bool) :
    (s.moved completed opened).support = if completed then s.support + 1 else s.support := rfl

@[simp] theorem falsifiable_moved (s : Stats) (completed opened : Bool) :
    (s.moved completed opened).falsifiable = (s.falsifiable || opened) := rfl

@[simp] theorem falsified_moved (s : Stats) (completed opened : Bool) :
    (s.moved completed opened).falsified = s.falsified := rfl

end Stats

namespace Run

variable {σ τ : Type} {m : Machine σ} {n : Machine τ}

theorem step_of_move {r : Run σ} {c : Cooccurrence} {s : σ} {completed opened : Bool}
    (hr : r.isHalted = false) (h : m.react r.state c.side c.time = .move s completed opened) :
    r.step m c = ⟨s, ⟨r.outcome.stats.moved completed opened, none⟩⟩ := by
  rw [step, if_neg (by simp [hr])]
  simp only [h]
  rfl

theorem step_of_violation {r : Run σ} {c : Cooccurrence} (hr : r.isHalted = false)
    (h : m.react r.state c.side c.time = .violation) :
    r.step m c = ⟨r.state, ⟨{ r.outcome.stats with falsified := true }, some c.time⟩⟩ := by
  rw [step, if_neg (by simp [hr])]
  simp only [h]

/-- Everything that a step can do. -/
theorem step_cases (m : Machine σ) (r : Run σ) (c : Cooccurrence) :
    (r.isHalted = true ∧ r.step m c = r) ∨
    (r.isHalted = false ∧ m.react r.state c.side c.time = .violation ∧
      r.step m c = ⟨r.state, ⟨{ r.outcome.stats with falsified := true }, some c.time⟩⟩) ∨
    (r.isHalted = false ∧ ∃ s completed opened,
      m.react r.state c.side c.time = .move s completed opened ∧
      r.step m c = ⟨s, ⟨r.outcome.stats.moved completed opened, none⟩⟩) := by
  cases hr : r.isHalted with
  | true => exact .inl ⟨rfl, step_of_halted hr c⟩
  | false =>
    cases hreact : m.react r.state c.side c.time with
    | violation => exact .inr (.inl ⟨rfl, rfl, step_of_violation hr hreact⟩)
    | move s completed opened =>
      exact .inr (.inr ⟨rfl, s, completed, opened, rfl, step_of_move hr hreact⟩)

theorem exists_move_of_step {r : Run σ} {c : Cooccurrence} (h : (r.step m c).isHalted = false) :
    r.isHalted = false ∧ ∃ s completed opened,
      m.react r.state c.side c.time = .move s completed opened ∧
      r.step m c = ⟨s, ⟨r.outcome.stats.moved completed opened, none⟩⟩ := by
  rcases step_cases m r c with ⟨hr, hstep⟩ | ⟨-, -, hstep⟩ | hmove
  · rw [hstep, hr] at h
    cases h
  · rw [hstep] at h
    cases h
  · exact hmove

theorem steps_cons (m : Machine σ) (r : Run σ) (c : Cooccurrence) (cs : List Cooccurrence) :
    r.steps m (c :: cs) = (r.step m c).steps m cs := rfl

theorem steps_of_halted {r : Run σ} (h : r.isHalted = true) (cs : List Cooccurrence) :
    r.steps m cs = r := by
  induction cs with
  | nil => rfl
  | cons c cs ih => rw [steps_cons, step_of_halted h, ih]

theorem isHalted_of_steps {cs : List Cooccurrence} {r : Run σ}
    (h : (r.steps m cs).isHalted = false) : r.isHalted = false := by
  induction cs generalizing r with
  | nil => exact h
  | cons c cs ih =>
    rw [steps_cons] at h
    exact (exists_move_of_step (ih h)).1

/-- What two machines keep while the first one moves on. -/
theorem steps_induction₂ {cs : List Cooccurrence} (P : Run σ → Run τ → Prop)
    (hstep : ∀ c ∈ cs, ∀ r q, P r q → (r.step m c).isHalted = false →
      P (r.step m c) (q.step n c)) {r : Run σ} {q : Run τ} (h : P r q)
    (hcs : (r.steps m cs).isHalted = false) : P (r.steps m cs) (q.steps n cs) := by
  induction cs generalizing r q with
  | nil => exact h
  | cons c cs ih =>
    rw [steps_cons] at hcs ⊢
    have hhead := hstep c List.mem_cons_self r q h (isHalted_of_steps hcs)
    exact ih (fun d hd => hstep d (List.mem_cons_of_mem _ hd)) hhead hcs

end Run

namespace Pattern

variable {p : Pattern} {a b : DeltaTrace}

/-- The run of a pattern's machine on two wires. -/
def run (p : Pattern) (a b : DeltaTrace) (period : Time) : Run p.State :=
  (Run.start (p.machine period)).steps (p.machine period) (cooccurrences a b)

theorem check_eq_report_run (h : ¬(p = .alternating ∧ a = b)) (period : Time) :
    p.check a b period = p.report (p.run a b period).outcome := by
  rw [check, if_neg h]
  rfl

theorem check_eq_outcome_run (h : ¬(p = .alternating ∧ a = b)) (hp : p ≠ .eventual)
    (period : Time) : p.check a b period = (p.run a b period).outcome := by
  rw [check_eq_report_run h, report, if_neg hp]

@[simp] theorem support_report (p : Pattern) (o : Outcome) :
    (p.report o).stats.support = o.stats.support := by
  unfold report
  split <;> rfl

end Pattern

end TraceMining
