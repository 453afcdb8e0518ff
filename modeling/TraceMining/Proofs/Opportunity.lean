import TraceMining.Proofs.Aggregation
import TraceMining.Proofs.Mining
import TraceMining.Proofs.Run
import TraceMining.Proofs.Survival

/-!
# Support needs an opportunity

A pattern is completed by leaving the start of its machine and coming back, and none of the machines
leaves its start without it having become possible to violate the pattern
(`Pattern.opensFirst`). So a run that was never at risk has completed nothing
(`Run.AtRest.steps`), and whatever reaches a least support of one or more could have been
violated. Absorbing keeps both, since support never shrinks and what was falsifiable once stays so.
So the survivors of any findings that were gathered by mining and aggregating are simply all entries
that were not falsified (`gathered_supported`).
-/

namespace TraceMining

/-! ## Machines and runs -/

section

variable {σ : Type} {m : Machine σ}

/-- In its start, the machine completes nothing and stays where it is as long as the pattern cannot
be violated. -/
def Machine.OpensFirst (m : Machine σ) : Prop :=
  ∀ side time s completed, m.react m.start side time = .move s completed false →
    s = m.start ∧ completed = false

theorem Pattern.opensFirst (p : Pattern) (period : Time) : (p.machine period).OpensFirst := by
  intro side time s completed h
  cases p with
  | alternating =>
    change Alternation.react .awaitA side = _ at h
    cases side <;> cases h
  | next =>
    change Succession.react period .idle side time = _ at h
    cases side <;> cases h
    exact ⟨rfl, rfl⟩
  | holdUntil =>
    change Hold.react .idle side = _ at h
    cases side <;> cases h
    exact ⟨rfl, rfl⟩
  | eventual =>
    change Expectation.react .idle side = _ at h
    cases side <;> cases h
    exact ⟨rfl, rfl⟩

namespace Run

/-- As long as the pattern could not have been violated, the machine is in its start and nothing
was completed. -/
def AtRest (m : Machine σ) (r : Run σ) : Prop :=
  r.outcome.stats.falsifiable = false → r.state = m.start ∧ r.outcome.stats.support = 0

theorem AtRest.start (m : Machine σ) : (Run.start m).AtRest m := fun _ => ⟨rfl, rfl⟩

theorem AtRest.step (hm : m.OpensFirst) {r : Run σ} (h : r.AtRest m) (c : Cooccurrence) :
    (r.step m c).AtRest m := by
  rcases step_cases m r c with ⟨-, hstep⟩ | ⟨-, -, hstep⟩ | ⟨-, s, completed, opened, hreact, hstep⟩
  · rw [hstep]
    exact h
  · rw [hstep]
    exact h
  · rw [hstep]
    intro hquiet
    rw [Stats.falsifiable_moved, Bool.or_eq_false_iff] at hquiet
    obtain ⟨hstate, hsupport⟩ := h hquiet.1
    rw [hstate, hquiet.2] at hreact
    obtain ⟨hs, hcompleted⟩ := hm _ _ _ _ hreact
    refine ⟨hs, ?_⟩
    rw [Stats.support_moved, hcompleted, hsupport]
    rfl

theorem AtRest.steps (hm : m.OpensFirst) (cs : List Cooccurrence) :
    ∀ {r : Run σ}, r.AtRest m → (r.steps m cs).AtRest m := by
  induction cs with
  | nil => exact id
  | cons c cs ih => exact fun h => ih (h.step hm c)

end Run

end

/-- A pattern that was completed could have been violated. -/
theorem Pattern.falsifiable_of_support_pos {p : Pattern} {a b : DeltaTrace} {period : Time}
    (h : 0 < (p.check a b period).stats.support) :
    (p.check a b period).stats.falsifiable = true := by
  by_cases hequal : p = .alternating ∧ a = b
  · rw [check, if_pos hequal]
  · rw [check_eq_report_run hequal] at h ⊢
    rw [support_report] at h
    unfold report
    split
    · exact decide_eq_true h
    · have hrest : (p.run a b period).AtRest (p.machine period) :=
        (Run.AtRest.start _).steps (p.opensFirst period) _
      cases hquiet : (p.run a b period).outcome.stats.falsifiable with
      | true => rfl
      | false =>
        have hnone := (hrest hquiet).2
        omega

/-! ## Findings -/

namespace Stats

/-- The property could have been violated, and has the support. -/
structure Supported (least : Nat) (s : Stats) : Prop where
  falsifiable : s.falsifiable = true
  support : least ≤ s.support

theorem Supported.absorb {least : Nat} {s t : Stats} (h : s.Supported least) :
    (s.absorb t).Supported least := by
  have hsupport := h.support
  unfold Stats.absorb
  split
  · exact ⟨by simp [h.falsifiable], hsupport⟩
  · split
    · exact ⟨by simp [h.falsifiable], hsupport⟩
    · exact ⟨by simp [h.falsifiable], by simp only; omega⟩

theorem Supported.absorb? {least : Nat} {known later : Option Stats}
    (h : ∀ s ∈ known, s.Supported least) (h' : ∀ s ∈ later, s.Supported least) :
    ∀ s ∈ Stats.absorb? known later, s.Supported least := by
  cases known with
  | none =>
    cases later with
    | none => exact h
    | some t => exact h'
  | some s =>
    cases later with
    | none => exact h
    | some t =>
      intro u hu
      cases hu
      exact (h s rfl).absorb

theorem Supported.survives_eq {least : Nat} {s : Stats} (h : s.Supported least)
    (hleast : 1 ≤ least) : s.survives = !s.falsified := by
  have hsupport : 0 < s.support := Nat.lt_of_lt_of_le hleast h.support
  simp [survives, hsupport]

end Stats

namespace Findings

/-- Every property of the findings could have been violated, and has the support. -/
def Supported (least : Nat) (f : Findings) : Prop :=
  ∀ q s, f.lookup q = some s → s.Supported least

theorem supported_mine {settings : Settings} (hleast : 1 ≤ settings.minSupport)
    (prepared : Prepared) : (mine prepared settings).Supported settings.minSupport := by
  intro q s hs
  obtain ⟨-, -, o, ho, hsupport, rfl⟩ := lookup_mine_iff.1 hs
  obtain ⟨x, y, -, -, rfl⟩ := Property.outcome?_eq_some_iff.1 ho
  exact ⟨Pattern.falsifiable_of_support_pos (Nat.lt_of_lt_of_le hleast hsupport), hsupport⟩

theorem supported_aggregate {least : Nat} {parts : List Findings}
    (h : ∀ f ∈ parts, f.Supported least) : (aggregate parts).Supported least := by
  intro q
  have hfold : ∀ (known : List (Option Stats)) (s : Option Stats),
      (∀ k ∈ known, ∀ s ∈ k, s.Supported least) → (∀ t ∈ s, t.Supported least) →
        ∀ t ∈ known.foldl Stats.absorb? s, t.Supported least := by
    intro known
    induction known with
    | nil => exact fun s _ hs => hs
    | cons k known ih =>
      intro s hknown hs
      rw [List.forall_mem_cons] at hknown
      exact ih _ hknown.2 (Stats.Supported.absorb? hs hknown.1)
  rw [lookup_aggregate]
  refine hfold _ none ?_ (by simp)
  intro k hk
  obtain ⟨f, hf, rfl⟩ := List.mem_map.1 hk
  exact h f hf q

end Findings

open Findings

/-- Findings that were mined in some simulations, or aggregated from such findings. -/
inductive GatheredFrom (settings : Settings) (traces : List Prepared) : Findings → Prop where
  | mined {t : Prepared} (ht : t ∈ traces) : GatheredFrom settings traces (mine t settings)
  | aggregated {parts : List Findings} (h : ∀ f ∈ parts, GatheredFrom settings traces f) :
    GatheredFrom settings traces (aggregate parts)

theorem GatheredFrom.supported {settings : Settings} {traces : List Prepared} {f : Findings}
    (hleast : 1 ≤ settings.minSupport) (h : GatheredFrom settings traces f) :
    f.Supported settings.minSupport := by
  induction h with
  | mined _ => exact supported_mine hleast _
  | aggregated _ ih => exact supported_aggregate ih

/-- **What is gathered could have been violated.** If at least one completion is asked for, every
property of findings that were gathered from simulations, by mining and by aggregating in any
grouping, could have been violated and has the support that is asked for. So exactly the properties
that were not falsified survive. -/
theorem gathered_supported {settings : Settings} {traces : List Prepared} {f : Findings}
    (hleast : 1 ≤ settings.minSupport) (h : GatheredFrom settings traces f) :
    (∀ q s, f.lookup q = some s → s.falsifiable = true ∧ settings.minSupport ≤ s.support) ∧
    f.surviving = (f.entries.filter fun e => !e.2.falsified).mergeSort stronger := by
  have hall := h.supported hleast
  refine ⟨fun q s hs => ⟨(hall q s hs).falsifiable, (hall q s hs).support⟩, ?_⟩
  have hfilter : f.entries.filter (·.2.survives) = f.entries.filter fun e => !e.2.falsified := by
    refine List.filter_congr fun e he => ?_
    exact (hall _ _ (OrderedMap.mem_entries_iff.1 he)).survives_eq hleast
  rw [surviving, hfilter]

/-- The third request comes before the second answer. -/
def impatient : Prepared :=
  handshake (.mk "TOP" []) [(15, 1), (35, 0), (45, 1)] [(25, 1), (55, 0)]

/-- An aggregate of an aggregate. The hold is falsified with the support it had before, and the
expectation survives. -/
def mixed : Findings :=
  aggregate [aggregate [mine answered .default, mine impatient .default], mine answered .default]

theorem gatheredFrom_mixed : GatheredFrom .default [answered, impatient] mixed := by
  have hanswered : GatheredFrom .default [answered, impatient] (mine answered .default) :=
    .mined (by simp)
  have himpatient : GatheredFrom .default [answered, impatient] (mine impatient .default) :=
    .mined (by simp)
  refine .aggregated fun f hf => ?_
  simp only [List.mem_cons, List.not_mem_nil, or_false] at hf
  rcases hf with rfl | rfl
  · refine .aggregated fun f hf => ?_
    simp only [List.mem_cons, List.not_mem_nil, or_false] at hf
    rcases hf with rfl | rfl
    · exact hanswered
    · exact himpatient
  · exact hanswered

theorem gathered_supported_mixed :
    1 ≤ Settings.default.minSupport ∧ GatheredFrom .default [answered, impatient] mixed ∧
    mixed.lookup ⟨.holdUntil, reqWire, ackWire⟩ = some ⟨1, true, true⟩ ∧
    Settings.default.minSupport ≤ 1 ∧
    (⟨.eventual, reqWire, ackWire⟩, ⟨4, true, false⟩) ∈
      (mixed.entries.filter fun e => !e.2.falsified).mergeSort stronger ∧
    mixed.surviving = (mixed.entries.filter fun e => !e.2.falsified).mergeSort stronger := by
  have hleast : 1 ≤ Settings.default.minSupport := Nat.le_refl 1
  have hfalsified : mixed.lookup ⟨.holdUntil, reqWire, ackWire⟩ = some ⟨1, true, true⟩ := by
    decide +kernel
  have hexpected : (⟨.eventual, reqWire, ackWire⟩, ⟨4, true, false⟩) ∈ mixed.surviving :=
    mem_surviving_iff.2 ⟨by decide +kernel, rfl⟩
  obtain ⟨hsupported, hsurviving⟩ := gathered_supported hleast gatheredFrom_mixed
  refine ⟨hleast, gatheredFrom_mixed, hfalsified, (hsupported _ _ hfalsified).2, ?_, hsurviving⟩
  rw [← hsurviving]
  exact hexpected

end TraceMining
