import TraceMining.Findings
import TraceMining.Proofs.Ordered

/-!
# Absorbing findings

Findings are absorbed property by property: what becomes of a property depends on what was known
of it and on what the later simulation says of it (`lookup_absorb`). What one simulation falsified
stays falsified in whatever aggregate it enters (`falsified_of_lookup_aggregate`), so a survivor
was falsified by none of the findings it was aggregated from.
-/

namespace TraceMining

/-! ## Evidence -/

namespace Stats

theorem falsified_absorb (s later : Stats) :
    (s.absorb later).falsified = (s.falsified || later.falsified) := by
  unfold absorb
  split
  · rename_i h
    simp only [h, Bool.true_or]
  · split
    · rename_i h
      simp only [h, Bool.or_true]
    · rename_i h h'
      simp only [Bool.not_eq_true] at h h'
      simp only [h, h', Bool.or_false]

theorem falsified_of_survives {s : Stats} (h : s.survives = true) : s.falsified = false := by
  simp only [survives, Bool.and_eq_true, Bool.not_eq_true'] at h
  exact h.1

/-- What is known of a property after a simulation that may say something of it. -/
def absorb? : Option Stats → Option Stats → Option Stats := Option.merge absorb

theorem any_falsified_absorb? (known later : Option Stats) :
    (absorb? known later).any falsified = (known.any falsified || later.any falsified) := by
  cases known with
  | none => cases later <;> rfl
  | some s =>
    cases later with
    | none => exact (Bool.or_false _).symm
    | some l => exact falsified_absorb s l

theorem isSome_absorb? (known later : Option Stats) :
    (absorb? known later).isSome = (known.isSome || later.isSome) := by
  cases known <;> cases later <;> rfl

end Stats

namespace Findings

/-! ## One simulation more -/

theorem lookup_foldl_alter (q : Property) {entries : List (Property × Stats)}
    (h : KeysIncrease entries) (f : Findings) :
    (entries.foldl (fun f e => f.alter e.1 fun known => known.elim e.2 (·.absorb e.2)) f).lookup q
      = Stats.absorb? (f.lookup q) (lookupEntry q entries) := by
  induction entries generalizing f with
  | nil => simp [lookupEntry, Stats.absorb?]
  | cons e rest ih =>
    obtain ⟨k, s⟩ := e
    obtain ⟨hk, hr⟩ := List.pairwise_cons.1 h
    rw [List.foldl_cons, ih hr, OrderedMap.lookup_alter, lookupEntry]
    by_cases hqk : q = k
    · subst hqk
      -- the property does not come again behind its own entry
      have hrest : lookupEntry q rest = none := by
        refine Option.eq_none_iff_forall_not_mem.2 fun s' hs' => ?_
        have hlt := hk _ (mem_of_lookupEntry hs')
        exact Std.OrientedCmp.not_lt_of_lt hlt hlt
      rw [hrest, if_pos rfl, if_pos Std.ReflCmp.compare_self]
      cases f.lookup q <;> rfl
    · rw [if_neg hqk, if_neg fun he => hqk (Std.LawfulEqOrd.eq_of_compare he)]

theorem absorb_eq_foldl (f later : Findings) :
    f.absorb later = later.entries.foldl
      (fun f e => f.alter e.1 fun known => known.elim e.2 (·.absorb e.2)) f := by
  unfold absorb
  congr 1
  funext f e
  congr 1
  funext known
  cases known <;> rfl

theorem lookup_absorb (f later : Findings) (q : Property) :
    (f.absorb later).lookup q = Stats.absorb? (f.lookup q) (later.lookup q) := by
  rw [absorb_eq_foldl]
  exact lookup_foldl_alter q later.increasing f

/-! ## Several simulations -/

theorem lookup_foldl_absorb (q : Property) (all : List Findings) :
    ∀ f : Findings, (all.foldl absorb f).lookup q =
      (all.map (·.lookup q)).foldl Stats.absorb? (f.lookup q) := by
  induction all with
  | nil => exact fun _ => rfl
  | cons g all ih =>
    intro f
    rw [List.foldl_cons, ih, lookup_absorb, List.map_cons, List.foldl_cons]

theorem lookup_aggregate (all : List Findings) (q : Property) :
    (aggregate all).lookup q = (all.map (·.lookup q)).foldl Stats.absorb? none :=
  lookup_foldl_absorb q all ∅

/-- A Boolean that absorbing combines by `or` is, for an aggregate, whether any part has it. -/
theorem lookup_aggregate_any {good : Option Stats → Bool} (h0 : good none = false)
    (h : ∀ known later, good (Stats.absorb? known later) = (good known || good later))
    (all : List Findings) (q : Property) :
    good ((aggregate all).lookup q) = all.any fun f => good (f.lookup q) := by
  have hfold : ∀ (known : List (Option Stats)) (s : Option Stats),
      good (known.foldl Stats.absorb? s) = (good s || known.any good) := by
    intro known
    induction known with
    | nil => exact fun s => (Bool.or_false _).symm
    | cons k known ih =>
      intro s
      rw [List.foldl_cons, ih, h, List.any_cons, Bool.or_assoc]
  rw [lookup_aggregate, hfold, h0, Bool.false_or, List.any_map]
  rfl

theorem falsified_of_lookup_aggregate {all : List Findings} {q : Property} {stats : Stats}
    (h : (aggregate all).lookup q = some stats) :
    stats.falsified = all.any fun f => (f.lookup q).any Stats.falsified := by
  rw [← lookup_aggregate_any rfl Stats.any_falsified_absorb? all q, h]
  rfl

/-- An aggregate holds the properties of its parts. -/
theorem isSome_lookup_aggregate (all : List Findings) (q : Property) :
    ((aggregate all).lookup q).isSome = all.any fun f => (f.lookup q).isSome :=
  lookup_aggregate_any rfl Stats.isSome_absorb? all q

/-! ## Survivors -/

theorem mem_surviving_iff {f : Findings} {q : Property} {stats : Stats} :
    (q, stats) ∈ f.surviving ↔ f.lookup q = some stats ∧ stats.survives = true := by
  rw [surviving, List.mem_mergeSort, List.mem_filter, OrderedMap.mem_entries_iff]

end Findings

end TraceMining
