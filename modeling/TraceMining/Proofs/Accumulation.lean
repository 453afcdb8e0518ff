import Mathlib.Algebra.Ring.Nat
import TraceMining.Proofs.Regrouping

/-!
# What an aggregate knows of a property

The simulations that say nothing of a property have no part in what the aggregate knows of it, and
the others are absorbed one after the other, beginning with the evidence of the first one as it is
(`lookup_aggregate_eq`). From there on a mark stays once it is set, and support adds up until the
first simulation that falsifies the property (`Stats.support_foldl_absorb`). The first simulation
is different: if it falsifies the property, its own support stays, while the support of any other
simulation that falsifies it is lost (`aggregate_exact`).
-/

namespace TraceMining

/-! ## Absorbing one after the other -/

namespace Stats

theorem falsifiable_absorb (s later : Stats) :
    (s.absorb later).falsifiable = (s.falsifiable || later.falsifiable) := by
  unfold absorb
  split
  · rfl
  · split <;> rfl

theorem support_absorb_of_falsified {s : Stats} (h : s.falsified = true) (later : Stats) :
    (s.absorb later).support = s.support := by
  rw [absorb, if_pos h]

theorem falsifiable_foldl_absorb (later : List Stats) : ∀ s : Stats,
    (later.foldl absorb s).falsifiable = (s :: later).any falsifiable := by
  induction later with
  | nil => simp
  | cons t later ih =>
    intro s
    rw [List.foldl_cons, ih, List.any_cons, falsifiable_absorb]
    simp [Bool.or_assoc]

theorem falsified_foldl_absorb (later : List Stats) : ∀ s : Stats,
    (later.foldl absorb s).falsified = (s :: later).any falsified := by
  induction later with
  | nil => simp
  | cons t later ih =>
    intro s
    rw [List.foldl_cons, ih, List.any_cons, falsified_absorb]
    simp [Bool.or_assoc]

theorem support_foldl_absorb_of_falsified (later : List Stats) : ∀ {s : Stats},
    s.falsified = true → (later.foldl absorb s).support = s.support := by
  induction later with
  | nil => exact fun _ => rfl
  | cons t later ih =>
    intro s hs
    rw [List.foldl_cons, ih (by rw [falsified_absorb, hs, Bool.true_or]),
      support_absorb_of_falsified hs]

/-- Support adds up as long as none falsifies the property. -/
theorem support_foldl_absorb {later : List Stats} (h : ∀ t ∈ later, t.falsified = false) :
    ∀ {s : Stats}, s.falsified = false →
      (later.foldl absorb s).support = ((s :: later).map support).sum := by
  induction later with
  | nil => simp
  | cons t later ih =>
    intro s hs
    obtain ⟨ht, hlater⟩ := List.forall_mem_cons.1 h
    have hclean : (s.absorb t).falsified = false := by simp [falsified_absorb, hs, ht]
    rw [List.foldl_cons, ih hlater hclean]
    simp [absorb, hs, ht, Nat.add_assoc]

/-- The first one that falsifies the property adds nothing, and what comes behind it neither. -/
theorem support_foldl_absorb_of_break {before : List Stats}
    (h : ∀ u ∈ before, u.falsified = false) {s t : Stats} (hs : s.falsified = false)
    (ht : t.falsified = true) (after : List Stats) :
    ((before ++ t :: after).foldl absorb s).support = ((s :: before).map support).sum := by
  have hbefore : (before.foldl absorb s).falsified = false := by
    rw [falsified_foldl_absorb, List.any_cons, hs, Bool.false_or, List.any_eq_false]
    simpa using h
  rw [List.foldl_append, List.foldl_cons, support_foldl_absorb_of_falsified after
    (by rw [falsified_absorb, ht, Bool.or_true]), ← support_foldl_absorb h hs]
  simp [absorb, hbefore, ht]

end Stats

namespace Findings

/-! ## The evidence for one property -/

/-- What the findings that know the property say of it, in order. -/
def evidence (q : Property) (all : List Findings) : List Stats := all.filterMap (·.lookup q)

theorem foldl_absorb?_some (q : Property) (all : List Findings) : ∀ s : Stats,
    (all.map (·.lookup q)).foldl Stats.absorb? (some s) =
      some ((evidence q all).foldl Stats.absorb s) := by
  induction all with
  | nil => exact fun _ => rfl
  | cons f all ih =>
    intro s
    rw [evidence, List.filterMap_cons, List.map_cons, List.foldl_cons]
    cases f.lookup q with
    | none => exact ih s
    | some t => exact ih (s.absorb t)

theorem lookup_aggregate_eq {all : List Findings} {q : Property} {first : Stats}
    {later : List Stats} (h : evidence q all = first :: later) :
    (aggregate all).lookup q = some (later.foldl Stats.absorb first) := by
  rw [lookup_aggregate]
  induction all with
  | nil => cases h
  | cons f all ih =>
    rw [evidence, List.filterMap_cons] at h
    rw [List.map_cons, List.foldl_cons]
    cases hf : f.lookup q with
    | none =>
      rw [hf] at h
      exact ih h
    | some s =>
      rw [hf] at h
      cases h
      exact foldl_absorb?_some q all _

end Findings

open Findings

/-- **What an aggregate knows.** An aggregate has the properties of its parts. If `first` and then
`later` is what the parts that have a property say of it, in order, the property is falsifiable or
falsified if any of them says so. Its support is the sum of theirs if none falsifies it, that of
the first one if this one does, and otherwise the sum of those before the one that falsifies it
first. It is never more than the sum of all, so no sum on the way is. -/
theorem aggregate_exact (all : List Findings) (q : Property) :
    (q ∈ (aggregate all).keys ↔ ∃ f ∈ all, q ∈ f.keys) ∧
    ∀ first later, evidence q all = first :: later → ∃ s, (aggregate all).lookup q = some s ∧
      s.falsifiable = (first :: later).any Stats.falsifiable ∧
      s.falsified = (first :: later).any Stats.falsified ∧
      ((∀ t ∈ first :: later, t.falsified = false) →
        s.support = ((first :: later).map Stats.support).sum) ∧
      (first.falsified = true → s.support = first.support) ∧
      (∀ before t after, first :: later = before ++ t :: after → before ≠ [] →
        (∀ u ∈ before, u.falsified = false) → t.falsified = true →
        s.support = (before.map Stats.support).sum) ∧
      s.support ≤ totalSupport all q := by
  constructor
  · simp only [OrderedMap.mem_keys_iff, ← Option.isSome_iff_exists]
    rw [isSome_lookup_aggregate, List.any_eq_true]
  · intro first later hevidence
    have hlookup := lookup_aggregate_eq hevidence
    have hle := support_lookup_aggregate_le all q
    rw [hlookup] at hle
    refine ⟨_, hlookup, Stats.falsifiable_foldl_absorb later first,
      Stats.falsified_foldl_absorb later first, fun hclean => ?_,
      Stats.support_foldl_absorb_of_falsified later, ?_, hle⟩
    · obtain ⟨hfirst, hlater⟩ := List.forall_mem_cons.1 hclean
      exact Stats.support_foldl_absorb hlater hfirst
    · intro before t after hsplit hne hbefore ht
      obtain ⟨b, before, rfl⟩ := List.exists_cons_of_ne_nil hne
      cases hsplit
      obtain ⟨hfirst, hbefore⟩ := List.forall_mem_cons.1 hbefore
      exact Stats.support_foldl_absorb_of_break hbefore hfirst ht after

/-- Two simulations count before the one that falsifies the property, one says nothing of it, and
the one behind counts no more. -/
theorem aggregate_exact_belated :
    evidence (replied .next) [punctual, ∅, punctual, belated, punctual] =
      [⟨5, true, false⟩, ⟨5, true, false⟩, ⟨2, true, true⟩, ⟨5, true, false⟩] ∧
    (aggregate [punctual, ∅, punctual, belated, punctual]).lookup (replied .next) =
      some ⟨10, true, true⟩ := by
  have hevidence : evidence (replied .next) [punctual, ∅, punctual, belated, punctual] =
      [⟨5, true, false⟩, ⟨5, true, false⟩, ⟨2, true, true⟩, ⟨5, true, false⟩] := by decide +kernel
  obtain ⟨s, hs, hfalsifiable, hfalsified, -, -, hbreak, -⟩ :=
    (aggregate_exact [punctual, ∅, punctual, belated, punctual] (replied .next)).2 _ _ hevidence
  have hsupport : s.support = 10 :=
    hbreak [⟨5, true, false⟩, ⟨5, true, false⟩] _ _ rfl (by simp) (by simp) rfl
  refine ⟨hevidence, hs.trans (congrArg some ?_)⟩
  cases s
  simp_all

end TraceMining
