import TraceMining.Sampling
import TraceMining.Proofs.Ordered

/-!
# What the edges of a clock see

An edge sees the value that the wire held right before it (`valueBefore`). Sampling at increasing
edges succeeds exactly for a wire with a value at time 0, and keeps an edge if it is the first one
or sees another value than the edge before it (`sample_eq_ok_iff`). The edges of a clock do
increase (`pairwise_posedges`), and two of them are enough to give it a period
(`isSome_clockPeriod_iff`).
-/

namespace TraceMining

/-! ## Rising edges -/

theorem sublist_risingFrom (high : Bool) (events : List (Time × Value)) :
    (risingFrom high events).Sublist (events.map (·.1)) := by
  induction events generalizing high with
  | nil => exact List.Sublist.refl _
  | cons e rest ih =>
    obtain ⟨t, v⟩ := e
    rw [risingFrom, List.map_cons]
    split
    · split
      · exact (ih true).cons t
      · exact (ih true).cons_cons t
    · exact (ih false).cons t

theorem pairwise_posedges (clock : DeltaTrace) : (posedges clock).Pairwise (· < ·) := by
  have htimes : (clock.entries.map (·.1)).Pairwise (· < ·) :=
    List.pairwise_map.2 (clock.increasing.imp fun h => Nat.compare_eq_lt.1 h)
  exact htimes.sublist (sublist_risingFrom false clock.entries)

/-! ## The period -/

theorem lookup_foldl_count (n : Nat) :
    ∀ (ns : List Nat) (m : OrderedMap Nat Nat),
      (ns.foldl (fun m n => m.alter n fun count => count.getD 0 + 1) m).lookup n =
        if ns.count n = 0 then m.lookup n else some ((m.lookup n).getD 0 + ns.count n)
  | [], m => by simp
  | k :: ns, m => by
    rw [List.foldl_cons, lookup_foldl_count n ns, OrderedMap.lookup_alter, List.count_cons]
    by_cases hkn : k = n
    · subst hkn
      simp only [if_true, beq_self_eq_true, Option.getD_some, Nat.add_one_ne_zero, if_false]
      split
      · rename_i h
        rw [h]
      · congr 1
        omega
    · simp [hkn, Ne.symm hkn]

theorem lookup_occurrences (ns : List Nat) (n : Nat) :
    (occurrences ns).lookup n = if ns.count n = 0 then none else some (ns.count n) := by
  rw [occurrences, lookup_foldl_count, OrderedMap.lookup_empty, Option.getD_none, Nat.zero_add]

theorem isSome_mostFrequent (counts : List (Nat × Nat)) :
    (mostFrequent counts).isSome = !counts.isEmpty := by
  cases counts with
  | nil => rfl
  | cons c cs =>
    -- once there is an entry, one is kept
    unfold mostFrequent
    rw [List.foldl_cons]
    refine List.foldlRecOn (motive := fun best : Option (Nat × Nat) => best.isSome = true)
      cs _ rfl ?_
    intro best hbest e _
    cases best with
    | none => cases hbest
    | some b =>
      simp only
      split <;> rfl

theorem gaps_ne_nil_iff (edges : List Time) : gaps edges ≠ [] ↔ 2 ≤ edges.length := by
  unfold gaps
  split
  · simp
  · rename_i h
    match edges, h with
    | [], _ => simp
    | [_], _ => simp
    | s :: t :: rest, h => exact absurd rfl (h s t rest)

theorem isSome_clockPeriod_iff (edges : List Time) :
    (clockPeriod edges).isSome = true ↔ 2 ≤ edges.length := by
  rw [← gaps_ne_nil_iff, clockPeriod, Option.isSome_map, isSome_mostFrequent]
  rw [Bool.not_eq_true', ← Bool.not_eq_true]
  refine not_congr (OrderedMap.isEmpty_eq_true_iff.trans ⟨fun h => ?_, fun h n => ?_⟩)
  · refine List.eq_nil_iff_forall_not_mem.2 fun n hn => ?_
    have hcount := h n
    rw [lookup_occurrences, if_neg (Nat.pos_iff_ne_zero.1 (List.count_pos_iff.2 hn))] at hcount
    cases hcount
  · rw [h]
    rfl

/-! ## What an edge sees -/

/-- The value of the last of some events, `held` if there are none. -/
def lastValue (held : Value) (events : List (Time × Value)) : Value :=
  (events.getLast?.map (·.2)).getD held

/-- The value of a wire right before the time `t`: that of its last event before `t`, and 0 if
there is none. -/
def valueBefore (x : DeltaTrace) (t : Time) : Value :=
  lastValue 0 (x.entries.filter fun e => e.1 < t)

theorem lastValue_cons (held : Value) (e : Time × Value) (events : List (Time × Value)) :
    lastValue held (e :: events) = lastValue e.2 events := by
  unfold lastValue
  rw [List.getLast?_cons]
  cases events.getLast? <;> rfl

theorem lastValue_append (held : Value) (xs ys : List (Time × Value)) :
    lastValue held (xs ++ ys) = lastValue (lastValue held xs) ys := by
  induction xs generalizing held with
  | nil => rfl
  | cons e xs ih => rw [List.cons_append, lastValue_cons, ih, lastValue_cons]

/-- The events before `t` are passed, and those from `t` on are left. -/
theorem advance_spec {t : Time} :
    ∀ {events : List (Time × Value)} (held : Value), KeysIncrease events →
      ∃ passed, events = passed ++ (advance held t events).2 ∧
        (advance held t events).1 = lastValue held passed ∧ (∀ e ∈ passed, e.1 < t) ∧
        ∀ e ∈ (advance held t events).2, t ≤ e.1
  | [], held, _ => ⟨[], rfl, rfl, by simp, by simp [advance]⟩
  | (u, v) :: rest, held, h => by
    obtain ⟨hu, hr⟩ := List.pairwise_cons.1 h
    rw [advance]
    split
    · rename_i hlt
      obtain ⟨passed, hsplit, hval, hpassed, hleft⟩ := advance_spec v hr
      refine ⟨(u, v) :: passed, congrArg _ hsplit, ?_, ?_, hleft⟩
      · rw [hval, lastValue_cons]
      · exact fun e he => (List.mem_cons.1 he).elim (fun heq => heq ▸ hlt) (hpassed e)
    · rename_i hge
      refine ⟨[], rfl, rfl, by simp, fun e he => ?_⟩
      rcases List.mem_cons.1 he with rfl | he
      · exact Nat.not_lt.1 hge
      · have hlt := Nat.compare_eq_lt.1 (hu e he)
        exact Nat.le_trans (Nat.not_lt.1 hge) (Nat.le_of_lt hlt)

/-! ## The samples -/

/-- The edges that see another value than the edge before them, with what they see. -/
def changesSeen (seen : Time → Value) (last : Option Time) : List Time → List (Time × Value)
  | [] => []
  | e :: es =>
    if last.map seen = some (seen e) then changesSeen seen (some e) es
    else (e, seen e) :: changesSeen seen (some e) es

/-- Sampling at increasing edges: when the events before the last edge have passed, the samples to
come are the changes that the edges to come see. -/
theorem sampleFrom_eq_changesSeen {x : DeltaTrace} :
    ∀ {edges : List Time} {passed events : List (Time × Value)} (last : Option Time),
      x.entries = passed ++ events → (∀ e ∈ passed, ∀ t ∈ edges, e.1 < t) →
      (last.toList ++ edges).Pairwise (· < ·) →
      sampleFrom (lastValue 0 passed) events (last.map fun t => (t, valueBefore x t)) edges =
        .ok (changesSeen (valueBefore x) last edges)
  | [], _, _, _, _, _, _ => rfl
  | edge :: edges, passed, events, last, hsplit, hpassed, hincr => by
    have hsorted : KeysIncrease events := by
      have hx := x.increasing
      rw [hsplit] at hx
      exact (List.pairwise_append.1 hx).2.1
    obtain ⟨more, hmore, hval, hbefore, hfrom⟩ :=
      advance_spec (t := edge) (lastValue 0 passed) hsorted
    have hedges := (List.pairwise_append.1 hincr).2
    have hsplit' : x.entries = (passed ++ more) ++ (advance (lastValue 0 passed) edge events).2 := by
      rw [hsplit, List.append_assoc, ← hmore]
    have hpast : ∀ e ∈ passed ++ more, e.1 < edge := fun e he =>
      (List.mem_append.1 he).elim (fun he => hpassed e he edge List.mem_cons_self) (hbefore e)
    have hseen : lastValue 0 (passed ++ more) = valueBefore x edge := by
      rw [valueBefore, hsplit', List.filter_append, List.filter_eq_self.2 (by simpa using hpast),
        List.filter_eq_nil_iff.2 (by simpa using hfrom), List.append_nil]
    have ih := sampleFrom_eq_changesSeen (some edge) hsplit' (fun e he t ht =>
      Nat.lt_trans (hpast e he) ((List.pairwise_cons.1 hedges.1).1 t ht)) hedges.1
    rw [hseen] at ih
    have hadvance : advance (lastValue 0 passed) edge events =
        (valueBefore x edge, (advance (lastValue 0 passed) edge events).2) := by
      rw [← hseen, lastValue_append, ← hval]
    rw [sampleFrom, hadvance, changesSeen]
    cases last with
    | none => exact congrArg (Except.map _) ih
    | some t =>
      have hlt : t < edge := hedges.2 t List.mem_cons_self edge List.mem_cons_self
      simp only [Option.map_some, Option.some.injEq, ge_iff_le, Nat.not_le.2 hlt, if_false]
      split
      · exact ih
      · exact congrArg (Except.map _) ih

theorem or_getLast?_cons {α : Type} (a : α) (l : List α) (o : Option α) :
    (a :: l).getLast?.or o = l.getLast?.or (some a) := by
  rw [List.getLast?_cons]
  cases l.getLast? <;> rfl

theorem mem_changesSeen {seen : Time → Value} {e : Time} {v : Value} :
    ∀ {edges : List Time} {last : Option Time},
      (e, v) ∈ changesSeen seen last edges ↔ ∃ before after, edges = before ++ e :: after ∧
        v = seen e ∧ ∀ d ∈ before.getLast?.or last, seen d ≠ seen e
  | [], _ => by simp [changesSeen]
  | c :: edges, last => by
    -- the first edge comes from the head, every other one from behind it
    have hcons : (∃ before after, c :: edges = before ++ e :: after ∧ v = seen e ∧
          ∀ d ∈ before.getLast?.or last, seen d ≠ seen e) ↔
        (c = e ∧ v = seen e ∧ ∀ d ∈ last, seen d ≠ seen e) ∨
          ∃ before after, edges = before ++ e :: after ∧ v = seen e ∧
            ∀ d ∈ before.getLast?.or (some c), seen d ≠ seen e := by
      constructor
      · rintro ⟨before, after, hsplit, hv, hd⟩
        cases before with
        | nil =>
          cases hsplit
          exact .inl ⟨rfl, hv, hd⟩
        | cons b before =>
          cases hsplit
          rw [or_getLast?_cons] at hd
          exact .inr ⟨before, after, rfl, hv, hd⟩
      · rintro (⟨rfl, hv, hd⟩ | ⟨before, after, rfl, hv, hd⟩)
        · exact ⟨[], edges, rfl, hv, hd⟩
        · refine ⟨c :: before, after, rfl, hv, ?_⟩
          rw [or_getLast?_cons]
          exact hd
    rw [hcons, changesSeen, ← mem_changesSeen]
    split
    · rename_i heq
      refine ⟨.inr, fun h => h.resolve_left ?_⟩
      rintro ⟨rfl, -, hd⟩
      obtain ⟨d, hd', hseen⟩ := Option.map_eq_some_iff.1 heq
      exact hd d hd' hseen
    · rename_i hne
      rw [List.mem_cons, Prod.mk.injEq]
      refine or_congr_left ⟨?_, ?_⟩
      · rintro ⟨rfl, rfl⟩
        exact ⟨rfl, rfl, fun d hd hseen => hne (Option.map_eq_some_iff.2 ⟨d, hd, hseen⟩)⟩
      · rintro ⟨rfl, rfl, -⟩
        exact ⟨rfl, rfl⟩

/-- The edge `e` sees the value `v` of the wire, and it is the first edge or the edge before it
sees another value. -/
def SampledAt (x : DeltaTrace) (edges : List Time) (e : Time) (v : Value) : Prop :=
  ∃ before after, edges = before ++ e :: after ∧ v = valueBefore x e ∧
    ∀ d ∈ before.getLast?, valueBefore x d ≠ valueBefore x e

theorem SampledAt.eq_valueBefore {x : DeltaTrace} {edges : List Time} {e : Time} {v : Value}
    (h : SampledAt x edges e v) : v = valueBefore x e := by
  obtain ⟨-, -, -, hv, -⟩ := h
  exact hv

theorem mem_changesSeen_iff_sampledAt {x : DeltaTrace} {edges : List Time} {e : Time} {v : Value} :
    (e, v) ∈ changesSeen (valueBefore x) none edges ↔ SampledAt x edges e v := by
  simp only [mem_changesSeen, Option.or_none, SampledAt]

theorem lookup_samples_iff {x : DeltaTrace} {edges : List Time} {e : Time} {v : Value} :
    (OrderedMap.ofList (changesSeen (valueBefore x) none edges)).lookup e = some v ↔
      SampledAt x edges e v := by
  rw [OrderedMap.lookup_ofList_iff, mem_changesSeen_iff_sampledAt]
  intro _ _ _ h h'
  rw [mem_changesSeen_iff_sampledAt] at h h'
  rw [h.eq_valueBefore, h'.eq_valueBefore]

/-- The wire has a value from time 0 on. -/
def StartsAtZero (x : DeltaTrace) : Prop := ∃ v, x.first? = some (0, v)

theorem sample_of_startsAtZero {edges : List Time} {x : DeltaTrace} (hx : StartsAtZero x)
    (he : edges.Pairwise (· < ·)) :
    sample edges x = .ok (.ofList (changesSeen (valueBefore x) none edges)) := by
  obtain ⟨v, hv⟩ := hx
  have hfrom := sampleFrom_eq_changesSeen none (List.nil_append x.entries).symm (by simp) he
  rw [sample, hv]
  exact congrArg (Except.map _) hfrom

theorem startsAtZero_of_sample {edges : List Time} {x y : DeltaTrace}
    (h : sample edges x = .ok y) : StartsAtZero x := by
  unfold sample at h
  split at h
  · rename_i v hv
    exact ⟨v, hv⟩
  · cases h

theorem sample_eq_ok_iff {edges : List Time} (he : edges.Pairwise (· < ·)) {x y : DeltaTrace} :
    sample edges x = .ok y ↔
      StartsAtZero x ∧ ∀ e v, y.lookup e = some v ↔ SampledAt x edges e v := by
  constructor
  · intro h
    have hx := startsAtZero_of_sample h
    rw [sample_of_startsAtZero hx he] at h
    cases h
    exact ⟨hx, fun e v => lookup_samples_iff⟩
  · rintro ⟨hx, hy⟩
    rw [sample_of_startsAtZero hx he]
    refine congrArg Except.ok (OrderedMap.ext_lookup fun e => Option.ext fun v => ?_)
    rw [lookup_samples_iff, hy]

end TraceMining
