import Mathlib.Data.List.Forall2
import TraceMining.Proofs.Interleaving
import TraceMining.Proofs.Run

/-!
# What a pattern depends on

A machine is told the side and the time of a co-occurrence and nothing else. Two pairs of wires that
change at the same times are merged into the same moments (`moments_cooccurrences`), so a run on
them is one and the same (`Pattern.run_congr`), whatever their values are.

The alternation of two equal wires is the one outcome that is decided on values. Its difference
from that of two wires that have the same times and other values is small: the equal ones count as
falsifiable (`check_alternating_of_head?`). In all else an outcome depends on the times of the
changes alone (`check_of_times`).
-/

namespace TraceMining

/-! ## Moments -/

/-- The two co-occurrences are the same to a machine. -/
structure Cooccurrence.SameMoment (c d : Cooccurrence) : Prop where
  side : c.side = d.side
  time : c.time = d.time

namespace Run

variable {σ : Type} {m : Machine σ}

theorem step_congr (r : Run σ) {c d : Cooccurrence} (h : c.SameMoment d) :
    r.step m c = r.step m d := by
  unfold step
  rw [h.side, h.time]

theorem steps_congr (r : Run σ) {cs ds : List Cooccurrence}
    (h : List.Forall₂ Cooccurrence.SameMoment cs ds) : r.steps m cs = r.steps m ds := by
  induction h generalizing r with
  | nil => rfl
  | cons hmoment _ ih => rw [steps_cons, steps_cons, step_congr r hmoment, ih]

end Run

/-! ## Merging at the same times -/

/-- The changes come at the same times, one after the other. -/
def SameTimes (xs ys : List Change) : Prop := List.Forall₂ (fun x y => x.1 = y.1) xs ys

namespace Interleaving

/-- Two steps of merging take the same moment and leave changes at the same times. -/
def SameStep (s t : Cooccurrence × Interleaving) : Prop :=
  s.1.SameMoment t.1 ∧ SameTimes s.2.left t.2.left ∧ SameTimes s.2.right t.2.right

theorem next?_congr {m n : Interleaving} (hleft : SameTimes m.left n.left)
    (hright : SameTimes m.right n.right) : Option.Rel SameStep m.next? n.next? := by
  obtain ⟨as, bs⟩ := m
  obtain ⟨as', bs'⟩ := n
  cases hleft with
  | nil =>
    cases hright with
    | nil => exact .none
    | cons hb hbs => exact .some ⟨⟨rfl, hb⟩, .nil, hbs⟩
  | cons ha has =>
    cases hright with
    | nil => exact .some ⟨⟨rfl, ha⟩, has, .nil⟩
    | cons hb hbs =>
      simp only [next?, ha, hb]
      split
      · exact .some ⟨⟨rfl, ha⟩, has, .cons hb hbs⟩
      split
      · exact .some ⟨⟨rfl, hb⟩, .cons ha has, hbs⟩
      · exact .some ⟨⟨rfl, ha⟩, has, hbs⟩

theorem moments_toList {m n : Interleaving} (hleft : SameTimes m.left n.left)
    (hright : SameTimes m.right n.right) :
    List.Forall₂ Cooccurrence.SameMoment m.toList n.toList := by
  induction m using toList.induct generalizing n with
  | case1 m hm =>
    have hstep := next?_congr hleft hright
    rw [hm] at hstep
    cases hn : n.next? with
    | none =>
      rw [toList_of_none hm, toList_of_none hn]
      exact .nil
    | some _ =>
      rw [hn] at hstep
      cases hstep
  | case2 m c m' hm _ ih =>
    have hstep := next?_congr hleft hright
    rw [hm] at hstep
    cases hn : n.next? with
    | none =>
      rw [hn] at hstep
      cases hstep
    | some t =>
      obtain ⟨d, n'⟩ := t
      rw [hn] at hstep
      cases hstep with
      | some h =>
        obtain ⟨hmoment, hleft', hright'⟩ := h
        rw [toList_of_some hm, toList_of_some hn]
        exact .cons hmoment (ih hleft' hright')

end Interleaving

theorem sameTimes_entries {a a' : DeltaTrace} (h : a.keys = a'.keys) :
    SameTimes a.entries a'.entries := by
  have hmap : List.Forall₂ (· = ·) (a.entries.map Prod.fst) (a'.entries.map Prod.fst) := by
    rw [List.forall₂_eq_eq_eq]
    exact h
  exact List.forall₂_map_right_iff.1 (List.forall₂_map_left_iff.1 hmap)

/-- Wires that change at the same times co-occur at the same moments. -/
theorem moments_cooccurrences {a a' b b' : DeltaTrace} (ha : a.keys = a'.keys)
    (hb : b.keys = b'.keys) :
    List.Forall₂ Cooccurrence.SameMoment (cooccurrences a b) (cooccurrences a' b') :=
  Interleaving.moments_toList (sameTimes_entries ha) (sameTimes_entries hb)

theorem Pattern.run_congr (p : Pattern) {a a' b b' : DeltaTrace} (ha : a.keys = a'.keys)
    (hb : b.keys = b'.keys) (period : Time) : p.run a b period = p.run a' b' period :=
  Run.steps_congr _ (moments_cooccurrences ha hb)

/-! ## Wires that first change together -/

variable {a a' b b' : DeltaTrace} {period : Time}

theorem exists_entries_of_head? {t : Time} (h : a.keys.head? = some t) :
    ∃ v rest, a.entries = (t, v) :: rest := by
  cases hentries : a.entries with
  | nil => simp [OrderedMap.keys, hentries] at h
  | cons e rest =>
    have htime : e.1 = t := by simpa [OrderedMap.keys, hentries] using h
    subst htime
    exact ⟨e.2, rest, rfl⟩

/-- The first change of either wire violates an alternation if the other one changes with it. -/
theorem outcome_alternating_run {t : Time} (ha : a.keys.head? = some t)
    (hb : b.keys.head? = some t) :
    (Pattern.alternating.run a b period).outcome = ⟨⟨0, false, true⟩, some t⟩ := by
  obtain ⟨v, as, has⟩ := exists_entries_of_head? ha
  obtain ⟨w, bs, hbs⟩ := exists_entries_of_head? hb
  have hnext : Interleaving.next? ⟨a.entries, b.entries⟩ =
      some (.both (t, v) (t, w), ⟨as, bs⟩) := by
    simp [has, hbs, Interleaving.next?]
  rw [Pattern.run, cooccurrences, Interleaving.toList_of_some hnext, Run.steps_cons,
    Run.steps_of_halted]
  · rfl
  · rfl

/-- What is found out about the alternation of two wires that first change together. -/
theorem check_alternating_of_head? {t : Time} (ha : a.keys.head? = some t)
    (hb : b.keys.head? = some t) :
    Pattern.alternating.check a b period = ⟨⟨0, decide (a = b), true⟩, some t⟩ := by
  by_cases hab : a = b
  · obtain ⟨v, rest, hentries⟩ := exists_entries_of_head? hb
    simp [Pattern.check, hab, OrderedMap.first?, hentries]
  · rw [Pattern.check_eq_outcome_run (by simp [hab]) (by simp), outcome_alternating_run ha hb]
    simp [hab]

/-! ## Outcomes -/

/-- The outcome is that of a run, unless an alternation has two equal wires. -/
theorem Pattern.check_congr (p : Pattern) (ha : a.keys = a'.keys) (hb : b.keys = b'.keys)
    (h : p = .alternating → (a = b ↔ a' = b')) : p.check a b period = p.check a' b' period := by
  by_cases hequal : p = .alternating ∧ a = b
  · obtain ⟨rfl, rfl⟩ := hequal
    have hequal' : a' = b' := (h rfl).1 rfl
    have hfirst : a.first?.map (·.1) = a'.first?.map (·.1) := by
      simpa [OrderedMap.keys, OrderedMap.first?] using congrArg List.head? ha
    rw [check, check, if_pos ⟨rfl, rfl⟩, if_pos ⟨rfl, hequal'⟩, hfirst]
  · have hequal' : ¬(p = .alternating ∧ a' = b') := fun hp => hequal ⟨hp.1, (h hp.1).2 hp.2⟩
    rw [check_eq_report_run hequal, check_eq_report_run hequal', p.run_congr ha hb]

/-- If only one of the two pairs has equal wires, all four first change at the same time. -/
theorem exists_head?_of_equal (ha : a.keys = a'.keys) (hb : b.keys = b'.keys)
    (h : ¬(a = b ↔ a' = b')) : ∃ t, a.keys.head? = some t ∧ b.keys.head? = some t := by
  have hsame : a.keys = b.keys := by
    by_cases hab : a = b
    · rw [hab]
    · have hab' : a' = b' := by
        by_contra hne
        exact h (iff_of_false hab hne)
      rw [ha, hab', hb]
  cases hhead : a.keys.head? with
  | some t => exact ⟨t, rfl, by rw [← hsame, hhead]⟩
  | none =>
    -- wires without events are equal
    exfalso
    have hempty : ∀ x : DeltaTrace, x.keys = a.keys → x = ∅ := by
      intro x hx
      apply OrderedMap.eq_empty_of_entries
      rw [List.head?_eq_none_iff.1 hhead] at hx
      exact List.map_eq_nil_iff.1 hx
    apply h
    rw [hempty a rfl, hempty b hsame.symm, hempty a' ha.symm, hempty b' (hb.symm.trans hsame.symm)]

/-- **The outcome of a pattern depends on the times of changes.** Let two pairs of wires change at
the same times, whatever their values are. The pattern is completed equally often on both pairs, and
is violated on both at the same time or on neither. The outcomes differ in nothing else either,
unless they are two alternations of which one, but not the other, has two equal wires. -/
theorem check_of_times (p : Pattern) (a a' b b' : DeltaTrace) (period : Time)
    (ha : ∀ t, t ∈ a.keys ↔ t ∈ a'.keys) (hb : ∀ t, t ∈ b.keys ↔ t ∈ b'.keys) :
    ((p = .alternating → (a = b ↔ a' = b')) → p.check a b period = p.check a' b' period) ∧
    (p.check a b period).stats.support = (p.check a' b' period).stats.support ∧
    (p.check a b period).stats.falsified = (p.check a' b' period).stats.falsified ∧
    (p.check a b period).falsifiedAt = (p.check a' b' period).falsifiedAt := by
  have ha := OrderedMap.keys_eq_of_mem_iff ha
  have hb := OrderedMap.keys_eq_of_mem_iff hb
  refine ⟨p.check_congr ha hb, ?_⟩
  by_cases hequal : p = .alternating → (a = b ↔ a' = b')
  · rw [p.check_congr ha hb hequal]
    exact ⟨rfl, rfl, rfl⟩
  · obtain ⟨rfl, hone⟩ := Classical.not_imp.1 hequal
    obtain ⟨t, hat, hbt⟩ := exists_head?_of_equal ha hb (by simpa using hone)
    rw [check_alternating_of_head? hat hbt, check_alternating_of_head? (ha ▸ hat) (hb ▸ hbt)]
    exact ⟨rfl, rfl, rfl⟩

def rise : DeltaTrace := .ofList [(5, 1), (15, 0)]

/-- Changes when `rise` does, to the other value. -/
def mirroredRise : DeltaTrace := .ofList [(5, 0), (15, 1)]

def lateRise : DeltaTrace := .ofList [(10, 1)]

theorem check_of_times_mirrored :
    (∀ t, t ∈ rise.keys ↔ t ∈ mirroredRise.keys) ∧ (∀ t, t ∈ lateRise.keys ↔ t ∈ lateRise.keys) ∧
    (Pattern.alternating = .alternating → (rise = lateRise ↔ mirroredRise = lateRise)) ∧
    Pattern.alternating.check mirroredRise lateRise 10 = ⟨⟨1, true, false⟩, none⟩ := by
  have hkeys : rise.keys = mirroredRise.keys := by decide +kernel
  have htimes : ∀ t, t ∈ rise.keys ↔ t ∈ mirroredRise.keys := by simp [hkeys]
  have hunequal : Pattern.alternating = .alternating →
      (rise = lateRise ↔ mirroredRise = lateRise) := by decide +kernel
  have hrise : Pattern.alternating.check rise lateRise 10 = ⟨⟨1, true, false⟩, none⟩ := by
    decide +kernel
  obtain ⟨hsame, -⟩ := check_of_times .alternating rise mirroredRise lateRise lateRise 10 htimes
    fun _ => Iff.rfl
  exact ⟨htimes, fun _ => Iff.rfl, hunequal, (hsame hunequal).symm.trans hrise⟩

/-- An alternation of equal wires counts as falsifiable, and that of wires that only have the same
times does not. -/
theorem alternation_tells_values :
    rise.keys = mirroredRise.keys ∧
    Pattern.alternating.check rise rise 10 = ⟨⟨0, true, true⟩, some 5⟩ ∧
    Pattern.alternating.check rise mirroredRise 10 = ⟨⟨0, false, true⟩, some 5⟩ := by
  decide +kernel

end TraceMining
