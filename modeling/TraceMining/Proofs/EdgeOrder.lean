import TraceMining.Proofs.Sampling

/-!
# Sampling at edges in any order

A wire that has a value from time 0 on is sampled at any list of edges that increases. If the list
does not, sampling gets as far as the first edge that is not later than the one before it, and
fails there (`sampleFrom_of_disorder`). Together with the samples at increasing edges this is all
that sampling can come to (`sample_exact`). A change at the time of an edge has no part in what that
edge sees (`valueBefore_insert_self`), and is what the next edge sees if nothing else happens
(`valueBefore_of_lookup`).
-/

namespace TraceMining

/-! ## Edges out of order -/

/-- An edge that comes after the last one leaves an error behind it as it is. -/
theorem sampleFrom_cons_of_error {last : Option (Time × Value)} {edge : Time} {edges : List Time}
    {error : SampleError} (hlast : ∀ l ∈ last, l.1 < edge)
    (h : ∀ held events seen, sampleFrom held events (some (edge, seen)) edges = .error error)
    (held : Value) (events : List (Time × Value)) :
    sampleFrom held events last (edge :: edges) = .error error := by
  rw [sampleFrom]
  cases last with
  | none =>
    simp only [h]
    rfl
  | some l =>
    simp only [ge_iff_le, Nat.not_le.2 (hlast l rfl), if_false, h]
    split <;> rfl

/-- The first edge that is not later than the one before it is the error. -/
theorem sampleFrom_of_disorder {previous edge : Time} {after : List Time} (hle : edge ≤ previous) :
    ∀ {before : List Time} {last : Option (Time × Value)},
      ((last.map (·.1)).toList ++ (before ++ [previous])).IsChain (· < ·) →
      ∀ held events, sampleFrom held events last (before ++ previous :: edge :: after) =
        .error (.ambiguousSample previous edge)
  | [], last, hchain => by
    refine sampleFrom_cons_of_error (fun l hl => ?_) fun held events seen => ?_
    · cases hl
      exact (List.isChain_cons_cons.1 hchain).1
    · rw [sampleFrom]
      simp only [ge_iff_le, hle, if_true]
  | c :: before, last, hchain => by
    refine sampleFrom_cons_of_error (fun l hl => ?_) fun held events seen => ?_
    · cases hl
      exact (List.isChain_cons_cons.1 hchain).1
    · have hrest : ((some (c, seen)).map (·.1)).toList ++ (before ++ [previous]) <:+
          (last.map (·.1)).toList ++ (c :: before ++ [previous]) := List.suffix_append _ _
      exact sampleFrom_of_disorder hle (hchain.suffix hrest) held events

theorem sample_of_disorder {x : DeltaTrace} (hx : StartsAtZero x) {before after : List Time}
    {previous edge : Time} (hle : edge ≤ previous) (h : (before ++ [previous]).IsChain (· < ·)) :
    sample (before ++ previous :: edge :: after) x = .error (.ambiguousSample previous edge) := by
  obtain ⟨v, hv⟩ := hx
  rw [sample, hv]
  have herror : sampleFrom 0 x.entries none (before ++ previous :: edge :: after) =
      .error (.ambiguousSample previous edge) := sampleFrom_of_disorder hle h 0 x.entries
  simp only [herror]
  rfl

theorem sample_of_not_startsAtZero {x : DeltaTrace} (hx : ¬ StartsAtZero x) (edges : List Time) :
    sample edges x = .error (.missingInitialValue (x.first?.map (·.1))) := by
  unfold sample
  split
  · rename_i v hv
    exact absurd ⟨v, hv⟩ hx
  · rfl

/-! ## Changes at the time of an edge -/

/-- What an edge sees depends on the events before it only. -/
theorem valueBefore_congr {x y : DeltaTrace} {t : Time} (h : ∀ u, u < t → x.lookup u = y.lookup u) :
    valueBefore x t = valueBefore y t := by
  unfold valueBefore
  congr 1
  refine eq_of_mem_iff (fun _ _ => Std.OrientedCmp.not_lt_of_lt) (x.increasing.filter _)
    (y.increasing.filter _) ?_
  rintro ⟨u, v⟩
  simp only [List.mem_filter, decide_eq_true_eq, OrderedMap.mem_entries_iff]
  exact and_congr_left fun hu => by rw [h u hu]

theorem valueBefore_insert_self (x : DeltaTrace) (t : Time) (v : Value) :
    valueBefore (x.insert t v) t = valueBefore x t :=
  valueBefore_congr fun u hu => by rw [OrderedMap.lookup_insert, if_neg (Nat.ne_of_lt hu)]

/-- The last event before an edge is what the edge sees. -/
theorem valueBefore_of_lookup {x : DeltaTrace} {t u : Time} {v : Value} (h : x.lookup t = some v)
    (htu : t < u) (hnone : ∀ s, t < s → s < u → x.lookup s = none) : valueBefore x u = v := by
  have hmem : (t, v) ∈ x.entries.filter fun e => e.1 < u :=
    List.mem_filter.2 ⟨OrderedMap.mem_entries_iff.2 h, by simpa using htu⟩
  have hsorted : KeysIncrease (x.entries.filter fun e => e.1 < u) := x.increasing.filter _
  obtain ⟨front, back, hsplit⟩ := List.append_of_mem hmem
  have hback : back = [] := by
    refine List.eq_nil_iff_forall_not_mem.2 ?_
    rintro ⟨s, w⟩ hs
    rw [hsplit] at hsorted
    have htail : KeysIncrease ((t, v) :: back) := (List.pairwise_append.1 hsorted).2.1
    have hts : t < s := htail.lt_of_mem hs
    have hmem' : (s, w) ∈ x.entries.filter fun e => e.1 < u := by
      rw [hsplit]
      exact List.mem_append_right _ (List.mem_cons_of_mem _ hs)
    obtain ⟨hlookup, hsu⟩ := List.mem_filter.1 hmem'
    rw [OrderedMap.mem_entries_iff, hnone s hts (by simpa using hsu)] at hlookup
    cases hlookup
  rw [valueBefore, hsplit, hback, lastValue, List.getLast?_concat]
  rfl

/-- **What sampling comes to.** A wire without a value at time 0 is not sampled, and the error tells
the time of its first event. Any other wire fails at the first edge that is not later than the edge
before it, if there is one. If there is none, its samples are what the first edge sees, and what an
edge sees that sees another value than the edge before it; what an edge sees is the value of the
last event strictly before it. So a change at the time of an edge is first seen by the next edge. -/
theorem sample_exact (edges : List Time) (x : DeltaTrace) :
    (¬ StartsAtZero x →
      sample edges x = .error (.missingInitialValue (x.first?.map (·.1)))) ∧
    (StartsAtZero x → ¬ edges.IsChain (· < ·) →
      ∃ before previous edge after, edges = before ++ previous :: edge :: after ∧
        (before ++ [previous]).IsChain (· < ·) ∧ edge ≤ previous ∧
        sample edges x = .error (.ambiguousSample previous edge)) ∧
    (StartsAtZero x → edges.IsChain (· < ·) →
      ∃ y, sample edges x = .ok y ∧ ∀ e v, y.lookup e = some v ↔ SampledAt x edges e v) ∧
    ∀ before edge next after v, edges = before ++ edge :: next :: after → edge < next →
      x.lookup edge = some v → (∀ t, edge < t → t < next → x.lookup t = none) →
      valueBefore x next = v ∧ ∀ w, valueBefore (x.insert edge w) edge = valueBefore x edge := by
  refine ⟨fun hx => sample_of_not_startsAtZero hx edges, fun hx hchain => ?_,
    fun hx hchain => ?_, ?_⟩
  · obtain ⟨before, previous, edge, after, rfl, hbefore, hnot⟩ := exists_first_break hchain
    have hle : edge ≤ previous := Nat.not_lt.1 hnot
    exact ⟨before, previous, edge, after, rfl, hbefore, hle, sample_of_disorder hx hle hbefore⟩
  · exact ⟨_, sample_of_startsAtZero hx (List.isChain_iff_pairwise.1 hchain),
      fun _ _ => lookup_samples_iff⟩
  · intro before edge next after v _ hlt hv hnone
    exact ⟨valueBefore_of_lookup hv hlt hnone, fun w => valueBefore_insert_self x edge w⟩

/-- Changes at the times of two edges. -/
def latched : DeltaTrace := .ofList [(0, 100), (1, 200), (5, 300)]

def unset : DeltaTrace := .ofList [(2, 1)]

/-- The change at time 1 is seen by the edge at time 3, the change at time 5 by no edge. -/
theorem sample_exact_latched :
    sample [1, 3, 5] unset = .error (.missingInitialValue (some 2)) ∧
    (∃ previous edge, (previous, edge) = (3, 3) ∧
      sample [1, 3, 3, 2] latched = .error (.ambiguousSample previous edge)) ∧
    (∃ y, sample [1, 3, 5] latched = .ok y ∧ y.lookup 1 = some 100 ∧ y.lookup 3 = some 200) ∧
    valueBefore latched 3 = 200 ∧ valueBefore (latched.insert 1 7) 1 = valueBefore latched 1 := by
  have hstarts : StartsAtZero latched := ⟨100, by decide +kernel⟩
  have hunset : ¬ StartsAtZero unset := by
    rintro ⟨v, hv⟩
    have hfirst : unset.first? = some (2, 1) := by decide +kernel
    rw [hfirst] at hv
    cases hv
  refine ⟨(sample_exact [1, 3, 5] unset).1 hunset, ?_, ?_, ?_⟩
  · obtain ⟨-, previous, edge, -, -, -, -, herror⟩ :=
      (sample_exact [1, 3, 3, 2] latched).2.1 hstarts (by decide)
    have hcomputed : sample [1, 3, 3, 2] latched = .error (.ambiguousSample 3 3) := by
      decide +kernel
    refine ⟨previous, edge, ?_, herror⟩
    rw [hcomputed] at herror
    cases herror
    rfl
  · obtain ⟨y, hy, hlookup⟩ := (sample_exact [1, 3, 5] latched).2.2.1 hstarts (by decide)
    refine ⟨y, hy, (hlookup 1 100).2 ⟨[], [3, 5], rfl, by decide +kernel, by decide⟩, ?_⟩
    exact (hlookup 3 200).2 ⟨[1], [5], rfl, by decide +kernel, by decide +kernel⟩
  · have hnone : ∀ t : Nat, 1 < t → t < 3 → latched.lookup t = none := by
      intro t h1 h3
      obtain rfl : t = 2 := by omega
      decide +kernel
    have hseen := (sample_exact [1, 3, 5] latched).2.2.2 [] 1 3 [5] 200 rfl (by decide)
      (by decide +kernel) hnone
    exact ⟨hseen.1, hseen.2 7⟩

end TraceMining
