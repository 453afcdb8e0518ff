import Mathlib.Data.List.Chain
import TraceMining.Ordered.Map
import TraceMining.Ordered.Set

/-!
# Looking up in ordered maps

A list in a strict order is determined by its members (`eq_of_mem_iff`), and so is a set
(`OrderedSet.ext_mem`); nothing comes between two neighbours (`eq_or_rel_of_next`). A map is
determined by what it answers to a look-up (`ext_lookup`), and its entries are exactly those answers
(`mem_entries_iff`). A map that is built from a list answers with the last entry of a key
(`lookup_ofList`); if every key of the list has one value, it answers with the entries of that list,
whatever their order (`lookup_ofList_iff`). It has at most as many entries (`size_ofList_le`).
-/

namespace TraceMining

theorem nodup_of_asymm {α : Type} {r : α → α → Prop} (hr : ∀ a b, r a b → ¬ r b a) {l : List α}
    (hl : l.Pairwise r) : l.Nodup := by
  refine hl.imp ?_
  rintro a b hab rfl
  exact hr a a hab hab

theorem eq_of_mem_iff {α : Type} {r : α → α → Prop} (hr : ∀ a b, r a b → ¬ r b a) {l l' : List α}
    (hl : l.Pairwise r) (hl' : l'.Pairwise r) (h : ∀ a, a ∈ l ↔ a ∈ l') : l = l' := by
  have hperm := (List.perm_ext_iff_of_nodup (nodup_of_asymm hr hl) (nodup_of_asymm hr hl')).2 h
  exact hperm.eq_of_pairwise (fun a b _ _ hab hba => absurd hba (hr a b hab)) hl hl'

/-- A list that is not a chain has a first place where it is not. -/
theorem exists_first_break {α : Type} {r : α → α → Prop} : ∀ {l : List α}, ¬ l.IsChain r →
    ∃ before x y after, l = before ++ x :: y :: after ∧ (before ++ [x]).IsChain r ∧ ¬ r x y
  | [], h => absurd .nil h
  | [_], h => absurd (.singleton _) h
  | c :: d :: l, h => by
    by_cases hcd : r c d
    · have hrest : ¬ (d :: l).IsChain r := fun hl => h (.cons_cons hcd hl)
      obtain ⟨before, x, y, after, hsplit, hchain, hxy⟩ := exists_first_break hrest
      refine ⟨c :: before, x, y, after, congrArg (c :: ·) hsplit, ?_, hxy⟩
      cases before with
      | nil =>
        cases hsplit
        exact .cons_cons hcd (.singleton d)
      | cons e before =>
        cases hsplit
        exact .cons_cons hcd hchain
    · exact ⟨[], c, d, l, rfl, .singleton c, hcd⟩

/-- The pairs of neighbours in a list. -/
theorem mem_zip_tail_iff {α : Type} {x y : α} {l : List α} :
    (x, y) ∈ l.zip l.tail ↔ ∃ before after, l = before ++ x :: y :: after := by
  induction l with
  | nil => simp
  | cons z l ih =>
    cases l with
    | nil =>
      refine iff_of_false (by simp) ?_
      rintro ⟨before, after, hsplit⟩
      have hlength := congrArg List.length hsplit
      simp only [List.length_cons, List.length_nil, List.length_append] at hlength
      omega
    | cons w l =>
      rw [List.tail_cons, List.zip_cons_cons, List.mem_cons, Prod.mk.injEq]
      constructor
      · rintro (⟨rfl, rfl⟩ | h)
        · exact ⟨[], l, rfl⟩
        · obtain ⟨before, after, hsplit⟩ := ih.1 h
          exact ⟨z :: before, after, congrArg (z :: ·) hsplit⟩
      · rintro ⟨before, after, hsplit⟩
        cases before with
        | nil =>
          cases hsplit
          exact .inl ⟨rfl, rfl⟩
        | cons v before =>
          obtain ⟨-, hsplit⟩ := List.cons.inj hsplit
          exact .inr (ih.2 ⟨before, after, hsplit⟩)

/-- Neighbours in an ordered list are in its order. -/
theorem rel_of_mem_zip_tail {α : Type} {r : α → α → Prop} {l : List α} (hl : l.Pairwise r)
    {x y : α} (h : (x, y) ∈ l.zip l.tail) : r x y := by
  obtain ⟨before, after, rfl⟩ := mem_zip_tail_iff.1 h
  exact (List.pairwise_cons.1 (List.pairwise_append.1 hl).2.1).1 y List.mem_cons_self

section

variable {α : Type} {r : α → α → Prop} {before after : List α} {x y z : α}

/-- In a list in a strict order, an element comes before another one, or is that one, or comes after
it. -/
theorem mem_split_cases (h : (before ++ x :: after).Pairwise r) (hz : z ∈ before ++ x :: after) :
    (z ∈ before ∧ r z x) ∨ z = x ∨ (z ∈ after ∧ r x z) := by
  obtain ⟨-, hafter, hbefore⟩ := List.pairwise_append.1 h
  rcases List.mem_append.1 hz with hz | hz
  · exact .inl ⟨hz, hbefore z hz x List.mem_cons_self⟩
  · rcases List.mem_cons.1 hz with rfl | hz
    · exact .inr (.inl rfl)
    · exact .inr (.inr ⟨hz, (List.pairwise_cons.1 hafter).1 z hz⟩)

theorem mem_after_of_rel (hr : ∀ a b, r a b → ¬ r b a) (h : (before ++ x :: after).Pairwise r)
    (hz : z ∈ before ++ x :: after) (hxz : r x z) : z ∈ after := by
  rcases mem_split_cases h hz with ⟨-, hzx⟩ | rfl | ⟨hafter, -⟩
  · exact absurd hzx (hr _ _ hxz)
  · exact absurd hxz (hr _ _ hxz)
  · exact hafter

/-- Nothing comes between neighbours. -/
theorem eq_or_rel_of_next (hr : ∀ a b, r a b → ¬ r b a)
    (h : (before ++ x :: y :: after).Pairwise r) (hz : z ∈ before ++ x :: y :: after)
    (hxz : r x z) : z = y ∨ r y z := by
  have hafter := mem_after_of_rel hr h hz hxz
  have htail := (List.pairwise_cons.1 (List.pairwise_append.1 h).2.1).2
  exact (List.mem_cons.1 hafter).imp_right ((List.pairwise_cons.1 htail).1 z)

end

theorem filter_eq_singleton_iff {α : Type} {l : List α} (hl : l.Nodup) {p : α → Bool} {a : α} :
    l.filter p = [a] ↔ a ∈ l ∧ p a = true ∧ ∀ b ∈ l, p b = true → b = a := by
  constructor
  · intro h
    have hmem : ∀ b, b ∈ l ∧ p b = true ↔ b = a := fun b => by
      rw [← List.mem_filter, h, List.mem_singleton]
    obtain ⟨ha, hp⟩ := (hmem a).2 rfl
    exact ⟨ha, hp, fun b hb hpb => (hmem b).1 ⟨hb, hpb⟩⟩
  · rintro ⟨ha, hp, honly⟩
    have hall : ∀ b ∈ l.filter p, b = a := fun b hb =>
      honly b (List.mem_filter.1 hb).1 (List.mem_filter.1 hb).2
    have hmem : a ∈ l.filter p := List.mem_filter.2 ⟨ha, hp⟩
    have hnodup := hl.sublist (List.filter_sublist (p := p))
    match hf : l.filter p with
    | [] =>
      rw [hf] at hmem
      cases hmem
    | [b] =>
      rw [hf] at hall
      rw [hall b List.mem_cons_self]
    | b :: c :: rest =>
      rw [hf] at hall hnodup
      have hb := hall b List.mem_cons_self
      have hc := hall c (List.mem_cons_of_mem _ List.mem_cons_self)
      rw [hb, hc] at hnodup
      exact absurd List.mem_cons_self (List.nodup_cons.1 hnodup).1

/-- Two sets with the same members are equal. -/
theorem OrderedSet.ext_mem {α : Type} [Ord α] [Std.TransOrd α] {s t : OrderedSet α}
    (h : ∀ a, a ∈ s ↔ a ∈ t) : s = t := by
  have heq := eq_of_mem_iff (fun _ _ => Std.OrientedCmp.not_lt_of_lt) s.increasing t.increasing h
  cases s
  cases t
  cases heq
  rfl

variable {κ ν : Type}

theorem KeysIncrease.lt_of_mem {x y : Nat × ν} {xs : List (Nat × ν)} (h : KeysIncrease (x :: xs))
    (hy : y ∈ xs) : x.1 < y.1 :=
  Nat.compare_eq_lt.1 ((List.pairwise_cons.1 h).1 y hy)

/-- Every key of the list has one value only. -/
def OneValued (entries : List (κ × ν)) : Prop :=
  ∀ k v v', (k, v) ∈ entries → (k, v') ∈ entries → v = v'

/-- The value of the last entry with the key `k`. -/
def lastEntry [DecidableEq κ] (k : κ) (entries : List (κ × ν)) : Option ν :=
  (entries.filter (·.1 = k)).getLast?.map (·.2)

theorem lastEntry_cons [DecidableEq κ] (k : κ) (e : κ × ν) (entries : List (κ × ν)) :
    lastEntry k (e :: entries) = (lastEntry k entries).or (if k = e.1 then some e.2 else none) := by
  unfold lastEntry
  by_cases h : e.1 = k
  · rw [List.filter_cons_of_pos (by simpa using h), if_pos h.symm]
    cases hl : entries.filter (·.1 = k) with
    | nil => rfl
    | cons d rest => simp [List.getLast?_cons]
  · rw [List.filter_cons_of_neg (by simpa using h), if_neg (Ne.symm h), Option.or_none]

theorem mem_of_lastEntry [DecidableEq κ] {k : κ} {v : ν} {entries : List (κ × ν)}
    (h : lastEntry k entries = some v) : (k, v) ∈ entries := by
  obtain ⟨⟨k', v'⟩, he, rfl⟩ := Option.map_eq_some_iff.1 h
  have hmem := List.mem_filter.1 (List.mem_of_getLast? he)
  have hk : k' = k := by simpa using hmem.2
  exact hk ▸ hmem.1

theorem isSome_lastEntry [DecidableEq κ] {k : κ} {v : ν} {entries : List (κ × ν)}
    (h : (k, v) ∈ entries) : (lastEntry k entries).isSome = true := by
  have hne : entries.filter (·.1 = k) ≠ [] :=
    List.ne_nil_of_mem (List.mem_filter.2 ⟨h, by simp⟩)
  rw [lastEntry, Option.isSome_map, List.getLast?_eq_some_getLast hne]
  rfl

variable [Ord κ]

theorem mem_of_lookupEntry [Std.LawfulEqOrd κ] {k : κ} {v : ν} :
    ∀ {entries : List (κ × ν)}, lookupEntry k entries = some v → (k, v) ∈ entries
  | [], h => by simp [lookupEntry] at h
  | (k', v') :: rest, h => by
    rw [lookupEntry] at h
    split at h
    · rename_i heq
      cases h
      rw [Std.LawfulEqOrd.eq_of_compare heq]
      exact List.mem_cons_self
    · exact List.mem_cons_of_mem _ (mem_of_lookupEntry h)

variable [Std.TransOrd κ] [Std.LawfulEqOrd κ]

theorem lookupEntry_of_mem {k : κ} {v : ν} :
    ∀ {entries : List (κ × ν)}, KeysIncrease entries → (k, v) ∈ entries →
      lookupEntry k entries = some v
  | [], _, h => by simp at h
  | (k', v') :: rest, hi, h => by
    obtain ⟨hk, hr⟩ := List.pairwise_cons.1 hi
    rw [lookupEntry]
    rcases List.mem_cons.1 h with h | h
    · cases h
      rw [if_pos Std.ReflCmp.compare_self]
    · have hlt : compare k' k = .lt := hk _ h
      have hgt : compare k k' = .gt := Std.OrientedCmp.gt_iff_lt.2 hlt
      rw [if_neg (by rw [hgt]; decide)]
      exact lookupEntry_of_mem hr h

namespace OrderedMap

theorem mem_entries_iff {m : OrderedMap κ ν} {k : κ} {v : ν} :
    (k, v) ∈ m.entries ↔ m.lookup k = some v :=
  ⟨lookupEntry_of_mem m.increasing, mem_of_lookupEntry⟩

omit [Std.TransOrd κ] [Std.LawfulEqOrd κ] in
theorem pairwise_keys (m : OrderedMap κ ν) : m.keys.Pairwise (compare · · = .lt) :=
  List.pairwise_map.2 m.increasing

omit [Std.LawfulEqOrd κ] in
theorem nodup_keys (m : OrderedMap κ ν) : m.keys.Nodup :=
  nodup_of_asymm (fun _ _ => Std.OrientedCmp.not_lt_of_lt) m.pairwise_keys

theorem mem_keys_iff {m : OrderedMap κ ν} {k : κ} : k ∈ m.keys ↔ ∃ v, m.lookup k = some v := by
  simp [keys, mem_entries_iff]

omit [Std.LawfulEqOrd κ] in
theorem keys_eq_of_mem_iff {ν' : Type} {m : OrderedMap κ ν} {n : OrderedMap κ ν'}
    (h : ∀ k, k ∈ m.keys ↔ k ∈ n.keys) : m.keys = n.keys :=
  eq_of_mem_iff (fun _ _ => Std.OrientedCmp.not_lt_of_lt) m.pairwise_keys n.pairwise_keys h

omit [Std.TransOrd κ] [Std.LawfulEqOrd κ] in
theorem eq_empty_of_entries {m : OrderedMap κ ν} (h : m.entries = []) : m = ∅ := by
  obtain ⟨entries, hincreasing⟩ := m
  subst h
  rfl

/-- The first entry is the one with the least key. -/
theorem first?_eq_some {m : OrderedMap κ ν} {k : κ} {v : ν} (h : m.lookup k = some v)
    (hleast : ∀ k' ∈ m.keys, compare k' k ≠ .lt) : m.first? = some (k, v) := by
  have hmem : (k, v) ∈ m.entries := mem_entries_iff.2 h
  have hincreasing := m.increasing
  cases hentries : m.entries with
  | nil => simp [hentries] at hmem
  | cons e rest =>
    rw [hentries] at hmem hincreasing
    rcases List.mem_cons.1 hmem with rfl | hrest
    · simp [first?, hentries]
    · have hlt : compare e.1 k = .lt := (List.pairwise_cons.1 hincreasing).1 _ hrest
      exact absurd hlt (hleast e.1 (by simp [keys, hentries]))

omit [Std.LawfulEqOrd κ] in
theorem nodup_entries (m : OrderedMap κ ν) : m.entries.Nodup :=
  nodup_of_asymm (fun _ _ => Std.OrientedCmp.not_lt_of_lt) m.increasing

/-- Two maps with the same answers are equal. -/
theorem ext_lookup {m n : OrderedMap κ ν} (h : ∀ k, m.lookup k = n.lookup k) : m = n := by
  have hmem : ∀ e, e ∈ m.entries ↔ e ∈ n.entries := by
    rintro ⟨k, v⟩
    rw [mem_entries_iff, mem_entries_iff, h k]
  have heq := eq_of_mem_iff (fun _ _ => Std.OrientedCmp.not_lt_of_lt) m.increasing n.increasing hmem
  cases m
  cases n
  cases heq
  rfl

omit [Std.TransOrd κ] [Std.LawfulEqOrd κ] in
@[simp] theorem lookup_empty (k : κ) : (∅ : OrderedMap κ ν).lookup k = none := rfl

theorem lookup_insert [DecidableEq κ] (m : OrderedMap κ ν) (k k' : κ) (v : ν) :
    (m.insert k v).lookup k' = if k' = k then some v else m.lookup k' := by
  by_cases h : k' = k
  · subst h
    rw [lookup_insert_self, if_pos rfl]
  · rw [lookup_insert_of_ne m v fun he => h (Std.LawfulEqOrd.eq_of_compare he), if_neg h]

theorem lookup_alter [DecidableEq κ] (m : OrderedMap κ ν) (k k' : κ) (f : Option ν → ν) :
    (m.alter k f).lookup k' = if k' = k then some (f (m.lookup k)) else m.lookup k' :=
  lookup_insert m k k' _

theorem lookup_filter_iff {m : OrderedMap κ ν} {p : κ → ν → Bool} {k : κ} {v : ν} :
    (m.filter p).lookup k = some v ↔ m.lookup k = some v ∧ p k v = true := by
  rw [← mem_entries_iff, ← mem_entries_iff]
  exact List.mem_filter

theorem isEmpty_eq_true_iff {m : OrderedMap κ ν} : m.isEmpty = true ↔ ∀ k, m.lookup k = none := by
  refine List.isEmpty_iff.trans ⟨fun h k => by rw [lookup, h, lookupEntry], fun h => ?_⟩
  apply List.eq_nil_iff_forall_not_mem.2
  rintro ⟨k, v⟩ he
  rw [mem_entries_iff, h k] at he
  cases he

/-! ## Maps of lists -/

/-- Of several entries with one key, the last one counts. -/
theorem lookup_insertAll [DecidableEq κ] (m : OrderedMap κ ν) (entries : List (κ × ν)) (k : κ) :
    (m.insertAll entries).lookup k = (lastEntry k entries).or (m.lookup k) := by
  induction entries generalizing m with
  | nil => rfl
  | cons e rest ih =>
    rw [insertAll, List.foldl_cons, ← insertAll, ih, lookup_insert, lastEntry_cons]
    split
    · rw [Option.or_assoc, Option.some_or]
    · rw [Option.or_none]

theorem lookup_ofList [DecidableEq κ] (entries : List (κ × ν)) (k : κ) :
    (ofList entries).lookup k = lastEntry k entries := by
  rw [ofList, lookup_insertAll]
  exact Option.or_none

/-- The entries of a key tell its value if they all have the same one. -/
theorem lookup_ofList_iff_of_key [DecidableEq κ] {entries : List (κ × ν)} {k : κ}
    (h : ∀ v v', (k, v) ∈ entries → (k, v') ∈ entries → v = v') {v : ν} :
    (ofList entries).lookup k = some v ↔ (k, v) ∈ entries := by
  rw [lookup_ofList]
  constructor
  · exact mem_of_lastEntry
  · intro hmem
    obtain ⟨w, hw⟩ := Option.isSome_iff_exists.1 (isSome_lastEntry hmem)
    rw [hw, h w v (mem_of_lastEntry hw) hmem]

theorem lookup_ofList_iff [DecidableEq κ] {entries : List (κ × ν)} (h : OneValued entries) {k : κ}
    {v : ν} : (ofList entries).lookup k = some v ↔ (k, v) ∈ entries :=
  lookup_ofList_iff_of_key (h k)

theorem lookup_ofList_singleton_iff [DecidableEq κ] {k k' : κ} {v w : ν} :
    (ofList [(k, v)]).lookup k' = some w ↔ k' = k ∧ w = v := by
  rw [lookup_ofList_iff]
  · simp
  · intro k v v' h h'
    simp_all

omit [Std.TransOrd κ] [Std.LawfulEqOrd κ] in
theorem length_insertEntry_le (k : κ) (v : ν) (entries : List (κ × ν)) :
    (insertEntry k v entries).length ≤ entries.length + 1 := by
  induction entries with
  | nil => exact Nat.le_refl 1
  | cons e rest ih =>
    rw [insertEntry]
    split
    · exact Nat.le_refl _
    · exact Nat.le_succ _
    · exact Nat.succ_le_succ ih

omit [Std.LawfulEqOrd κ] in
theorem size_insertAll_le (m : OrderedMap κ ν) (entries : List (κ × ν)) :
    (m.insertAll entries).size ≤ m.size + entries.length := by
  induction entries generalizing m with
  | nil => exact Nat.le_refl _
  | cons e rest ih =>
    have hrest := ih (m.insert e.1 e.2)
    have hfirst : (m.insert e.1 e.2).size ≤ m.size + 1 := length_insertEntry_le e.1 e.2 m.entries
    rw [insertAll, List.foldl_cons, ← insertAll, List.length_cons]
    omega

omit [Std.LawfulEqOrd κ] in
/-- Entries with equal keys become one, and none are added. -/
theorem size_ofList_le (entries : List (κ × ν)) : (ofList entries).size ≤ entries.length := by
  have hsize : (ofList entries).size ≤ 0 + entries.length := size_insertAll_le ∅ entries
  rwa [Nat.zero_add] at hsize

/-- A map is that of its own entries. -/
theorem ofList_entries [DecidableEq κ] (m : OrderedMap κ ν) : ofList m.entries = m := by
  have honeValued : OneValued m.entries := by
    intro k v v' hv hv'
    rw [mem_entries_iff] at hv hv'
    exact Option.some.inj (hv.symm.trans hv')
  refine ext_lookup fun k => Option.ext fun v => ?_
  rw [lookup_ofList_iff honeValued, mem_entries_iff]

/-- A list in the order of its keys is the entries of its map. -/
theorem entries_ofList [DecidableEq κ] {entries : List (κ × ν)} (h : KeysIncrease entries) :
    (ofList entries).entries = entries :=
  congrArg OrderedMap.entries (ofList_entries ⟨entries, h⟩)

end OrderedMap

end TraceMining
