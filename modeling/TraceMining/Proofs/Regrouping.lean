import Mathlib.Data.List.Perm.Basic
import TraceMining.Proofs.Aggregation

/-!
# Order and grouping of simulations

Absorbing is neither commutative nor associative: the support of a property that was falsified is
the support it had gathered until then. All else that is known of a property does not depend on the
order (`Stats.lasting`), and on this part absorbing is a commutative and associative operation
(`Stats.join`). So the findings of several simulations may be aggregated in any order, and in any
batches whose aggregates are aggregated again: the aggregates agree on everything but the support
of what was falsified, and the same properties survive, in the same order (`aggregate_regroup`).
-/

namespace TraceMining

/-! ## What lasts of the evidence -/

namespace Stats

/-- The evidence without the support of what was falsified. -/
def lasting (s : Stats) : Stats := if s.falsified then { s with support := 0 } else s

/-- What lasts of two pieces of evidence together. -/
def join (s t : Stats) : Stats := (s.absorb t).lasting

theorem join_eq (s t : Stats) :
    s.join t = ⟨if s.falsified || t.falsified then 0 else s.support + t.support,
      s.falsifiable || t.falsifiable, s.falsified || t.falsified⟩ := by
  obtain ⟨n, d, f⟩ := s
  obtain ⟨m, e, g⟩ := t
  cases f <;> cases g <;> simp [join, absorb, lasting]

instance : Std.Commutative join where
  comm s t := by
    rw [join_eq, join_eq, Bool.or_comm s.falsified, Bool.or_comm s.falsifiable, Nat.add_comm]

instance : Std.Associative join where
  assoc s t u := by
    obtain ⟨n, d, f⟩ := s
    obtain ⟨m, e, g⟩ := t
    obtain ⟨l, c, h⟩ := u
    cases f <;> cases g <;> cases h <;> simp [join_eq, Bool.or_assoc, Nat.add_assoc]

theorem lasting_absorb (s t : Stats) : (s.absorb t).lasting = s.lasting.join t.lasting := by
  obtain ⟨n, d, f⟩ := s
  obtain ⟨m, e, g⟩ := t
  cases f <;> cases g <;> simp [join_eq, absorb, lasting]

theorem lasting_absorb? (known later : Option Stats) :
    (absorb? known later).map lasting =
      (known.map lasting).merge join (later.map lasting) := by
  cases known with
  | none => cases later <;> rfl
  | some s =>
    cases later with
    | none => rfl
    | some t => exact congrArg some (lasting_absorb s t)

theorem eq_of_lasting_eq {s t : Stats} (h : s.lasting = t.lasting) :
    s.falsified = t.falsified ∧ s.falsifiable = t.falsifiable ∧
      (s.falsified = false → s.support = t.support) := by
  obtain ⟨n, d, f⟩ := s
  obtain ⟨m, e, g⟩ := t
  cases f <;> cases g <;> simp_all [lasting]

theorem support_absorb_le (s t : Stats) : (s.absorb t).support ≤ s.support + t.support := by
  unfold absorb
  split
  · exact Nat.le_add_right _ _
  · split
    · exact Nat.le_add_right _ _
    · exact Nat.le_refl _

end Stats

/-- Folding by parts and folding the results is folding at once. -/
theorem foldl_map_foldl {α : Type} {op : α → α → α} {e : α} [Std.Associative op]
    [Std.LawfulRightIdentity op e] (parts : List (List α)) (a : α) :
    (parts.map (·.foldl op e)).foldl op a = parts.flatten.foldl op a := by
  have hpart : ∀ (b : α) (part : List α), op b (part.foldl op e) = part.foldl op b := by
    intro b part
    have hb : op b e = b := Std.LawfulRightIdentity.right_id b
    calc op b (part.foldl op e) = part.foldl op (op b e) := List.foldl_assoc.symm
      _ = part.foldl op b := by rw [hb]
  rw [List.foldl_map, List.foldl_flatten]
  congr
  funext b part
  exact hpart b part

namespace Findings

/-- What lasts of the evidence for the property in some findings together. -/
def lastingOf (q : Property) (all : List Findings) : Option Stats :=
  (all.map fun f => (f.lookup q).map Stats.lasting).foldl (Option.merge Stats.join) none

theorem lasting_lookup_aggregate (all : List Findings) (q : Property) :
    ((aggregate all).lookup q).map Stats.lasting = lastingOf q all := by
  have hfold : ∀ (known : List (Option Stats)) (s : Option Stats),
      (known.foldl Stats.absorb? s).map Stats.lasting =
        (known.map (Option.map Stats.lasting)).foldl (Option.merge Stats.join)
          (s.map Stats.lasting) := by
    intro known
    induction known with
    | nil => exact fun _ => rfl
    | cons k known ih =>
      intro s
      rw [List.foldl_cons, ih, Stats.lasting_absorb?, List.map_cons, List.foldl_cons]
  rw [lookup_aggregate, hfold, List.map_map]
  rfl

theorem lastingOf_perm {all order : List Findings} (h : order.Perm all) (q : Property) :
    lastingOf q order = lastingOf q all :=
  (h.map _).foldl_op_eq

theorem lastingOf_map_aggregate (batches : List (List Findings)) (q : Property) :
    lastingOf q (batches.map aggregate) = lastingOf q batches.flatten := by
  have hparts : (batches.map aggregate).map (fun f => (f.lookup q).map Stats.lasting) =
      (batches.map (List.map fun f => (f.lookup q).map Stats.lasting)).map
        (·.foldl (Option.merge Stats.join) none) := by
    rw [List.map_map, List.map_map]
    exact List.map_congr_left fun batch _ => lasting_lookup_aggregate batch q
  unfold lastingOf
  rw [hparts, foldl_map_foldl, ← List.map_flatten]

/-! ## Findings that agree -/

/-- The findings have the same properties with the same marks, and the same support for what was
not falsified. -/
structure Agree (f g : Findings) : Prop where
  properties : ∀ q, (f.lookup q).isSome = (g.lookup q).isSome
  stats : ∀ q s t, f.lookup q = some s → g.lookup q = some t →
    s.falsified = t.falsified ∧ s.falsifiable = t.falsifiable ∧
      (s.falsified = false → s.support = t.support)

theorem agree_of_lasting {f g : Findings}
    (h : ∀ q, (f.lookup q).map Stats.lasting = (g.lookup q).map Stats.lasting) : f.Agree g := by
  constructor
  · intro q
    have hsome := congrArg Option.isSome (h q)
    rwa [Option.isSome_map, Option.isSome_map] at hsome
  · intro q s t hs ht
    have hq := h q
    rw [hs, ht] at hq
    exact Stats.eq_of_lasting_eq (Option.some.inj hq)

theorem Agree.symm {f g : Findings} (h : f.Agree g) : g.Agree f := by
  refine ⟨fun q => (h.properties q).symm, fun q s t hs ht => ?_⟩
  obtain ⟨hfalsified, hfalsifiable, hsupport⟩ := h.stats q t s ht hs
  exact ⟨hfalsified.symm, hfalsifiable.symm, fun hf => (hsupport (hfalsified.trans hf)).symm⟩

theorem Agree.lookup_of_not_falsified {f g : Findings} (h : f.Agree g) {q : Property} {s : Stats}
    (hs : s.falsified = false) (hl : f.lookup q = some s) : g.lookup q = some s := by
  have hsome := h.properties q
  rw [hl, Option.isSome_some] at hsome
  obtain ⟨t, ht⟩ := Option.isSome_iff_exists.1 hsome.symm
  obtain ⟨hfalsified, hfalsifiable, hsupport⟩ := h.stats q s t hl ht
  have heq : s = t := by
    cases s
    cases t
    simp_all
  exact heq ▸ ht

theorem mem_filter_survives_iff {f : Findings} {q : Property} {s : Stats} :
    (q, s) ∈ f.entries.filter (·.2.survives) ↔ f.lookup q = some s ∧ s.survives = true := by
  rw [List.mem_filter, OrderedMap.mem_entries_iff]

theorem Agree.surviving_eq {f g : Findings} (h : f.Agree g) : f.surviving = g.surviving := by
  have half : ∀ {f g : Findings}, f.Agree g → ∀ e, e ∈ f.entries.filter (·.2.survives) →
      e ∈ g.entries.filter (·.2.survives) := by
    rintro f g h ⟨q, s⟩ he
    obtain ⟨hl, hs⟩ := mem_filter_survives_iff.1 he
    exact mem_filter_survives_iff.2
      ⟨h.lookup_of_not_falsified (Stats.falsified_of_survives hs) hl, hs⟩
  have hfilter : f.entries.filter (·.2.survives) = g.entries.filter (·.2.survives) :=
    eq_of_mem_iff (fun _ _ => Std.OrientedCmp.not_lt_of_lt) (f.increasing.filter _)
      (g.increasing.filter _) fun e => ⟨half h e, half h.symm e⟩
  unfold surviving
  rw [hfilter]

/-! ## The ranking of the survivors -/

/-- The first entry has more support, or equal support and the lesser property. -/
def Outranks (e f : Property × Stats) : Prop :=
  f.2.support < e.2.support ∨ f.2.support = e.2.support ∧ compare e.1 f.1 = .lt

theorem stronger_iff {e f : Property × Stats} :
    stronger e f = true ↔ f.2.support < e.2.support ∨
      f.2.support = e.2.support ∧ (compare e.1 f.1).isLE = true := by
  unfold stronger
  rcases Nat.lt_trichotomy f.2.support e.2.support with h | h | h
  · simp [Nat.compare_eq_lt.2 h, h, Ordering.then]
  · simp [h, Ordering.then]
  · simp [Nat.compare_eq_gt.2 h, Nat.lt_asymm h, Nat.ne_of_gt h, Ordering.then]

theorem stronger_trans (e f g : Property × Stats) (h : stronger e f = true)
    (h' : stronger f g = true) : stronger e g = true := by
  rw [stronger_iff] at *
  rcases h with h | ⟨h, hle⟩ <;> rcases h' with h' | ⟨h', hle'⟩
  · exact .inl (by omega)
  · exact .inl (by omega)
  · exact .inl (by omega)
  · exact .inr ⟨by omega, Std.TransCmp.isLE_trans hle hle'⟩

theorem stronger_total (e f : Property × Stats) : (stronger e f || stronger f e) = true := by
  rw [Bool.or_eq_true, stronger_iff, stronger_iff]
  rcases Nat.lt_trichotomy f.2.support e.2.support with h | h | h
  · exact .inl (.inl h)
  · cases hc : compare e.1 f.1 with
    | lt => exact .inl (.inr ⟨h, rfl⟩)
    | eq => exact .inl (.inr ⟨h, rfl⟩)
    | gt =>
      refine .inr (.inr ⟨h.symm, ?_⟩)
      rw [Std.OrientedCmp.gt_iff_lt.1 hc]
      rfl
  · exact .inr (.inl h)

theorem pairwise_stronger (es : List (Property × Stats)) :
    (es.mergeSort stronger).Pairwise (stronger · · = true) :=
  List.pairwise_mergeSort stronger_trans stronger_total es

theorem eq_of_stronger {f : Findings} {d e : Property × Stats} (hd : d ∈ f.entries)
    (he : e ∈ f.entries) (h : stronger d e = true) (h' : stronger e d = true) : d = e := by
  rw [stronger_iff] at h h'
  have hle : (compare d.1 e.1).isLE = true := by
    rcases h with h | h
    · omega
    · exact h.2
  have hle' : (compare e.1 d.1).isLE = true := by
    rcases h' with h' | h'
    · omega
    · exact h'.2
  have hkey : d.1 = e.1 := Std.LawfulEqOrd.eq_of_compare (Std.OrientedCmp.isLE_antisymm hle hle')
  obtain ⟨q, s⟩ := d
  obtain ⟨q', t⟩ := e
  cases hkey
  have hs := OrderedMap.mem_entries_iff.1 hd
  have ht := OrderedMap.mem_entries_iff.1 he
  rw [hs] at ht
  cases ht
  rfl

/-- The survivors are ranked without ties. -/
theorem pairwise_surviving (f : Findings) : f.surviving.Pairwise Outranks := by
  have hsorted : f.surviving.Pairwise (stronger · · = true) := pairwise_stronger _
  have hperm : f.surviving.Perm (f.entries.filter (·.2.survives)) := List.mergeSort_perm _ _
  have hnodup : f.surviving.Nodup := hperm.nodup_iff.2 (f.nodup_entries.filter _)
  have hmem : ∀ e ∈ f.surviving, e ∈ f.entries := fun e he => List.mem_of_mem_filter (hperm.mem_iff.1 he)
  refine (hsorted.and hnodup).imp_of_mem ?_
  rintro d e hd he ⟨hde, hne⟩
  rcases stronger_iff.1 hde with hlt | ⟨heq, hle⟩
  · exact .inl hlt
  · refine .inr ⟨heq, ?_⟩
    cases hc : compare d.1 e.1 with
    | lt => rfl
    | eq =>
      -- entries of one property are one entry
      have hed : stronger e d = true :=
        stronger_iff.2 (.inr ⟨heq.symm, by rw [Std.OrientedCmp.eq_comm.1 hc]; rfl⟩)
      exact absurd (eq_of_stronger (hmem d hd) (hmem e he) hde hed) hne
    | gt =>
      rw [hc] at hle
      cases hle

/-- The ranking does not depend on the order in which the entries are visited. -/
theorem mergeSort_survivors {f : Findings} {visited : List (Property × Stats)}
    (h : visited.Perm f.entries) :
    (visited.filter (·.2.survives)).mergeSort stronger = f.surviving := by
  have hperm : ((visited.filter (·.2.survives)).mergeSort stronger).Perm f.surviving :=
    (List.mergeSort_perm _ _).trans ((h.filter _).trans (List.mergeSort_perm _ _).symm)
  refine hperm.eq_of_pairwise ?_ (pairwise_stronger _) (pairwise_stronger _)
  intro d e hd he hde hed
  have hmem : ∀ c ∈ f.surviving, c ∈ f.entries :=
    fun c hc => List.mem_of_mem_filter ((List.mergeSort_perm _ _).mem_iff.1 hc)
  exact eq_of_stronger (hmem d (hperm.mem_iff.1 hd)) (hmem e he) hde hed

/-! ## Supports -/

/-- The supports that some findings have for a property, summed up. -/
def totalSupport (all : List Findings) (q : Property) : Nat :=
  all.foldr (fun f total => (f.lookup q).elim 0 Stats.support + total) 0

theorem totalSupport_cons (f : Findings) (all : List Findings) (q : Property) :
    totalSupport (f :: all) q = (f.lookup q).elim 0 Stats.support + totalSupport all q := rfl

theorem totalSupport_append (all more : List Findings) (q : Property) :
    totalSupport (all ++ more) q = totalSupport all q + totalSupport more q := by
  induction all with
  | nil => exact (Nat.zero_add _).symm
  | cons f all ih =>
    rw [List.cons_append, totalSupport_cons, totalSupport_cons, ih]
    omega

theorem totalSupport_perm {all order : List Findings} (h : order.Perm all) (q : Property) :
    totalSupport order q = totalSupport all q := by
  induction h with
  | nil => rfl
  | cons f _ ih => rw [totalSupport_cons, totalSupport_cons, ih]
  | swap f g rest =>
    simp only [totalSupport_cons]
    omega
  | trans _ _ ih ih' => exact ih.trans ih'

/-- No aggregate has more support for a property than there was before. -/
theorem support_lookup_aggregate_le (all : List Findings) (q : Property) :
    ((aggregate all).lookup q).elim 0 Stats.support ≤ totalSupport all q := by
  have hstep : ∀ known later : Option Stats, (Stats.absorb? known later).elim 0 Stats.support ≤
      known.elim 0 Stats.support + later.elim 0 Stats.support := by
    intro known later
    cases known with
    | none => cases later <;> exact Nat.le_add_left _ _
    | some s =>
      cases later with
      | none => exact Nat.le_refl _
      | some t => exact Stats.support_absorb_le s t
  have hfold : ∀ (all : List Findings) (s : Option Stats),
      ((all.map (·.lookup q)).foldl Stats.absorb? s).elim 0 Stats.support ≤
        s.elim 0 Stats.support + totalSupport all q := by
    intro all
    induction all with
    | nil => exact fun _ => Nat.le_refl _
    | cons f all ih =>
      intro s
      have hs := hstep s (f.lookup q)
      have hrest := ih (Stats.absorb? s (f.lookup q))
      rw [List.map_cons, List.foldl_cons, totalSupport_cons]
      omega
  have hall := hfold all none
  rw [← lookup_aggregate, Option.elim_none, Nat.zero_add] at hall
  exact hall

theorem totalSupport_map_aggregate_le (batches : List (List Findings)) (q : Property) :
    totalSupport (batches.map aggregate) q ≤ totalSupport batches.flatten q := by
  induction batches with
  | nil => exact Nat.le_refl _
  | cons batch batches ih =>
    have hbatch := support_lookup_aggregate_le batch q
    rw [List.map_cons, List.flatten_cons, totalSupport_cons, totalSupport_append]
    omega

/-! ## Regrouping -/

/-- The findings tell of the same survivors as the aggregate of `all` does, and support nothing
more than `all` together. -/
structure StandsFor (f : Findings) (all : List Findings) : Prop where
  agree : f.Agree (aggregate all)
  surviving : f.surviving = (aggregate all).surviving
  support_le : ∀ q stats, f.lookup q = some stats → stats.support ≤ totalSupport all q

theorem standsFor_of_lasting {f : Findings} {all : List Findings}
    (h : ∀ q, (f.lookup q).map Stats.lasting = lastingOf q all)
    (hsupport : ∀ q, (f.lookup q).elim 0 Stats.support ≤ totalSupport all q) : f.StandsFor all := by
  have hagree : f.Agree (aggregate all) :=
    agree_of_lasting fun q => by rw [h, lasting_lookup_aggregate]
  refine ⟨hagree, hagree.surviving_eq, fun q stats hl => ?_⟩
  have hle := hsupport q
  rwa [hl] at hle

theorem standsFor_aggregate_perm {all order : List Findings} (h : order.Perm all) :
    (aggregate order).StandsFor all := by
  refine standsFor_of_lasting (fun q => ?_) fun q => ?_
  · rw [lasting_lookup_aggregate, lastingOf_perm h]
  · rw [← totalSupport_perm h]
    exact support_lookup_aggregate_le order q

theorem standsFor_aggregate_batches {all : List Findings} {batches : List (List Findings)}
    (h : batches.flatten.Perm all) : (aggregate (batches.map aggregate)).StandsFor all := by
  refine standsFor_of_lasting (fun q => ?_) fun q => ?_
  · rw [lasting_lookup_aggregate, lastingOf_map_aggregate, lastingOf_perm h]
  · rw [← totalSupport_perm h]
    exact Nat.le_trans (support_lookup_aggregate_le (batches.map aggregate) q)
      (totalSupport_map_aggregate_le batches q)

end Findings

open Findings

/-- **The order and the grouping of simulations do not matter.** Aggregated in another order, or in
batches whose aggregates are aggregated again, some findings give the same properties with the same
marks, and the same support for what was not falsified; no support exceeds the sum of the supports
given for its property. So the same properties survive, in the same order, which leaves no ties and
does not depend on the order in which the findings are visited. -/
theorem aggregate_regroup (all : List Findings) :
    (∀ order : List Findings, order.Perm all → (aggregate order).StandsFor all) ∧
    (∀ batches : List (List Findings), batches.flatten.Perm all →
      (aggregate (batches.map aggregate)).StandsFor all) ∧
    (aggregate all).surviving.Pairwise Outranks ∧
    ∀ visited : List (Property × Stats), visited.Perm (aggregate all).entries →
      (visited.filter (·.2.survives)).mergeSort stronger = (aggregate all).surviving :=
  ⟨fun _ h => standsFor_aggregate_perm h, fun _ h => standsFor_aggregate_batches h,
    pairwise_surviving _, fun _ h => mergeSort_survivors h⟩

def replied (p : Pattern) : Property := ⟨p, .ofList [⟨"TOP.req", 1⟩], .ofList [⟨"TOP.ack", 1⟩]⟩

/-- A long simulation in which every request has its reply one period later. -/
def punctual : Findings :=
  .ofList [(replied .next, ⟨5, true, false⟩), (replied .eventual, ⟨5, true, false⟩)]

/-- A short simulation in which the third reply is late. -/
def belated : Findings :=
  .ofList [(replied .next, ⟨2, true, true⟩), (replied .eventual, ⟨3, true, false⟩)]

/-- The support of the property that is falsified depends on the order, and what survives does
not. -/
theorem aggregate_regroup_belated :
    [belated, punctual].Perm [punctual, belated] ∧
    [[punctual], [], [belated]].flatten.Perm [punctual, belated] ∧
    (aggregate [punctual, belated]).lookup (replied .next) = some ⟨5, true, true⟩ ∧
    (aggregate [belated, punctual]).lookup (replied .next) = some ⟨2, true, true⟩ ∧
    (replied .eventual, ⟨8, true, false⟩) ∈ (aggregate [punctual, belated]).surviving ∧
    (aggregate [belated, punctual]).surviving = (aggregate [punctual, belated]).surviving ∧
    (aggregate ([[punctual], [], [belated]].map aggregate)).surviving =
      (aggregate [punctual, belated]).surviving := by
  have horder : [belated, punctual].Perm [punctual, belated] := .swap _ _ _
  have hbatches : [[punctual], [], [belated]].flatten.Perm [punctual, belated] := .refl _
  obtain ⟨hperm, hparts, -⟩ := aggregate_regroup [punctual, belated]
  exact ⟨horder, hbatches, by decide +kernel, by decide +kernel,
    mem_surviving_iff.2 ⟨by decide +kernel, rfl⟩, (hperm _ horder).surviving,
    (hparts _ hbatches).surviving⟩

end TraceMining
