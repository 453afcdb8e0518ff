import TraceMining.Preparation
import TraceMining.Checker
import TraceMining.Proofs.Ordered

/-!
# Outcomes

A run is falsified exactly when it knows the time of a violation: both are recorded by the same
step (`Agrees.step`), and a run starts without either. An alternation of a wire with itself is the
one outcome that is not a run; it is falsified whatever its wire does.
-/

namespace TraceMining

namespace Outcome

/-- The mark of a violation and the time of a violation go together. -/
def Agrees (o : Outcome) : Prop := o.stats.falsified = o.falsifiedAt.isSome

variable {σ : Type} {m : Machine σ}

theorem Agrees.start (m : Machine σ) : (Run.start m).outcome.Agrees := rfl

theorem Agrees.step {r : Run σ} (h : r.outcome.Agrees) (c : Cooccurrence) :
    (r.step m c).outcome.Agrees := by
  unfold Run.step
  split
  · exact h
  · rename_i hrun
    -- a run that goes on has met no violation yet
    have hf : r.outcome.stats.falsified = false := by
      rw [h]
      simpa [Run.isHalted] using hrun
    split
    · rfl
    · exact hf

theorem Agrees.steps (cs : List Cooccurrence) :
    ∀ {r : Run σ}, r.outcome.Agrees → (r.steps m cs).outcome.Agrees := by
  induction cs with
  | nil => exact id
  | cons c cs ih => exact fun h => ih (h.step c)

theorem Agrees.report {o : Outcome} (h : o.Agrees) (p : Pattern) : (p.report o).Agrees := by
  unfold Pattern.report
  split
  · exact h
  · exact h

end Outcome

theorem Pattern.agrees_check {p : Pattern} {a b : DeltaTrace} (period : Time)
    (h : ¬(p = .alternating ∧ a = b)) : (p.check a b period).Agrees := by
  rw [Pattern.check, if_neg h]
  exact Outcome.Agrees.report ((Outcome.Agrees.start _).steps _) p

/-- An outcome that names the time of a violation is falsified. -/
theorem Pattern.falsified_check {p : Pattern} {a b : DeltaTrace} {period t : Time}
    (h : (p.check a b period).falsifiedAt = some t) :
    (p.check a b period).stats.falsified = true := by
  by_cases hab : p = .alternating ∧ a = b
  · rw [Pattern.check, if_pos hab]
  · rw [agrees_check period hab, h]
    rfl

theorem Pattern.falsifiedAt_check_eq_none {p : Pattern} {a b : DeltaTrace} {period : Time}
    (h : (p.check a b period).stats.falsified = false) :
    (p.check a b period).falsifiedAt = none := by
  cases hat : (p.check a b period).falsifiedAt with
  | none => rfl
  | some t =>
    have hfalsified := falsified_check hat
    rw [h] at hfalsified
    cases hfalsified

/-- The outcome of a property on the wires of a simulation, if it has both of them. -/
def Property.outcome? (q : Property) (prepared : Prepared) : Option Outcome :=
  match prepared.store.lookup q.a, prepared.store.lookup q.b with
  | some a, some b => some (q.pattern.check a b prepared.period)
  | _, _ => none

theorem Property.outcome?_eq_some_iff {q : Property} {prepared : Prepared} {o : Outcome} :
    q.outcome? prepared = some o ↔ ∃ a b, prepared.store.lookup q.a = some a ∧
      prepared.store.lookup q.b = some b ∧ q.pattern.check a b prepared.period = o := by
  unfold outcome?
  constructor
  · intro h
    split at h
    · rename_i a b ha hb
      exact ⟨a, b, ha, hb, Option.some.inj h⟩
    · cases h
  · rintro ⟨a, b, ha, hb, rfl⟩
    rw [ha, hb]

end TraceMining
