import Mathlib.Data.Nat.Find
import TraceMining.Proofs.Interleaving
import TraceMining.Proofs.Run

/-!
# What comes right after a change

The state of most machines depends on the last co-occurrence only (`Machine.RemembersLast`), so
whether such a machine goes on is a matter of neighbours: it reads a whole sequence if any two
neighbours are allowed (`outcome_of_chain`), and stops at the first pair that is not
(`outcome_of_break`). Two neighbours in the merged sequence are a time at which either wire changes
and the next such time, its successor (`successor_of_split`, `exists_split_of_successor`).

A machine that waits for an answer to each change of the first wire (`Machine.Waits`) takes the
successor for an answer if the second wire changes there, together with the first one or at a time
that the machine accepts. So its outcome depends on the successors of the changes of the first wire
(`outcome_of_answered`, `outcome_of_unanswered`), and the merged sequence has no part in it any
more.
-/

namespace TraceMining

/-! ## Machines that remember the last co-occurrence -/

section

variable {σ : Type} {m : Machine σ}

namespace Run

/-- A run that has met no violation. -/
def going (s : σ) (stats : Stats) : Run σ := ⟨s, ⟨stats, none⟩⟩

theorem steps_append (r : Run σ) (cs ds : List Cooccurrence) :
    r.steps m (cs ++ ds) = (r.steps m cs).steps m ds := List.foldl_append

end Run

theorem Cooccurrence.ofLeft_iff_side {c : Cooccurrence} : c.ofLeft = true ↔ c.side ≠ .b := by
  cases c <;> simp [ofLeft, left?, side]

theorem Cooccurrence.ofRight_iff_side {c : Cooccurrence} : c.ofRight = true ↔ c.side ≠ .a := by
  cases c <;> simp [ofRight, right?, side]

/-- What is taken to come before everything else: a change of the second wire only. -/
def Cooccurrence.outset : Cooccurrence := .right (0, 0)

/-- The machine is in the state `after c` when it has read `c` last, and it moves on to `d` if it
may come next. It then counts an answer if the first wire changed in `c`. -/
structure Machine.RemembersLast (m : Machine σ) (after : Cooccurrence → σ)
    (allows : Cooccurrence → Cooccurrence → Prop) : Prop where
  start : m.start = after .outset
  move : ∀ {c d}, allows c d →
    m.react (after c) d.side d.time = .move (after d) c.ofLeft (d.ofLeft && !c.ofLeft)
  violation : ∀ {c d}, ¬ allows c d → m.react (after c) d.side d.time = .violation

namespace Machine.RemembersLast

variable {after : Cooccurrence → σ} {allows : Cooccurrence → Cooccurrence → Prop}
  (hm : m.RemembersLast after allows)
include hm

theorem step_of_allowed {c d : Cooccurrence} (h : allows c d) (stats : Stats) :
    (Run.going (after c) stats).step m d =
      .going (after d) (stats.moved c.ofLeft (d.ofLeft && !c.ofLeft)) :=
  Run.step_of_move rfl (hm.move h)

/-- What a sequence of allowed neighbours comes to: every change of the first wire before the last
co-occurrence was answered. -/
theorem steps_of_chain {cs : List Cooccurrence} : ∀ {v : Cooccurrence} {stats : Stats},
    (v :: cs).IsChain allows → (v.ofLeft = true → stats.falsifiable = true) →
    (Run.going (after v) stats).steps m cs = .going (after ((v :: cs).getLast (by simp)))
      { stats with
        support := stats.support + (v :: cs).dropLast.countP (·.ofLeft)
        falsifiable := stats.falsifiable || cs.any (·.ofLeft) } := by
  induction cs with
  | nil =>
    intro v stats _ _
    simp [Run.steps]
  | cons d cs ih =>
    intro v stats hchain hv
    obtain ⟨hvd, hchain⟩ := List.isChain_cons_cons.1 hchain
    have hsupport : (stats.moved v.ofLeft (d.ofLeft && !v.ofLeft)).support +
        (d :: cs).dropLast.countP (·.ofLeft) =
          stats.support + (v :: (d :: cs).dropLast).countP (·.ofLeft) := by
      rw [Stats.support_moved, List.countP_cons]
      split <;> omega
    -- if the first wire changed in `v`, the pattern was open before `d`
    have hopen : (stats.moved v.ofLeft (d.ofLeft && !v.ofLeft)).falsifiable =
        (stats.falsifiable || d.ofLeft) := by
      cases hvl : v.ofLeft with
      | true => simp [hv hvl]
      | false => simp
    have hopened : d.ofLeft = true →
        (stats.moved v.ofLeft (d.ofLeft && !v.ofLeft)).falsifiable = true := by
      intro hd
      rw [hopen, hd, Bool.or_true]
    rw [Run.steps_cons, hm.step_of_allowed hvd, ih hchain hopened, hsupport, hopen, List.getLast_cons_cons,
      List.dropLast_cons_cons, List.any_cons, Bool.or_assoc]
    rfl

theorem steps_start_of_chain {cs : List Cooccurrence}
    (h : (Cooccurrence.outset :: cs).IsChain allows) :
    (Run.start m).steps m cs = .going (after ((Cooccurrence.outset :: cs).getLast (by simp)))
      ⟨cs.dropLast.countP (·.ofLeft), cs.any (·.ofLeft), false⟩ := by
  have hcount : (Cooccurrence.outset :: cs).dropLast.countP (·.ofLeft) =
      cs.dropLast.countP (·.ofLeft) := by
    cases cs with
    | nil => rfl
    | cons c cs => exact List.countP_cons_of_neg (by decide)
  have hstart : Cooccurrence.outset.ofLeft = true → Stats.none.falsifiable = true := by decide
  have hsteps := hm.steps_of_chain h hstart
  rw [hcount] at hsteps
  rw [Run.start, hm.start]
  simpa [Stats.none, Run.going] using hsteps

/-- The outcome if any two neighbours are allowed. -/
theorem outcome_of_chain {cs : List Cooccurrence}
    (h : (Cooccurrence.outset :: cs).IsChain allows) :
    ((Run.start m).steps m cs).outcome =
      ⟨⟨cs.dropLast.countP (·.ofLeft), cs.any (·.ofLeft), false⟩, none⟩ := by
  rw [hm.steps_start_of_chain h]
  rfl

/-- The outcome if `d` is the first one that may not come next. -/
theorem outcome_of_break {cs : List Cooccurrence} {d : Cooccurrence}
    (h : (Cooccurrence.outset :: cs).IsChain allows)
    (hd : ¬ allows ((Cooccurrence.outset :: cs).getLast (by simp)) d) (rest : List Cooccurrence) :
    ((Run.start m).steps m (cs ++ d :: rest)).outcome =
      ⟨⟨cs.dropLast.countP (·.ofLeft), cs.any (·.ofLeft), true⟩, some d.time⟩ := by
  rw [Run.steps_append, hm.steps_start_of_chain h, Run.steps_cons,
    Run.step_of_violation rfl (hm.violation hd), Run.steps_of_halted rfl]
  rfl

end Machine.RemembersLast

end

/-! ## Successors -/

/-- The first time after `s` at which either wire changes is `t`. -/
structure Successor (a b : DeltaTrace) (s t : Time) : Prop where
  lt : s < t
  mem : t ∈ a.keys ∨ t ∈ b.keys
  le : ∀ {u}, s < u → u ∈ a.keys ∨ u ∈ b.keys → t ≤ u

section

variable {a b : DeltaTrace} {s t : Time} {c d : Cooccurrence}

theorem Successor.unique (h : Successor a b s t) {u : Time} (hu : Successor a b s u) : t = u :=
  Nat.le_antisymm (h.le hu.lt hu.mem) (hu.le h.lt h.mem)

/-- Two times at which a wire changes have different successors. -/
theorem Successor.unique_left (h : Successor a b s t) {r : Time} (hr : Successor a b r t)
    (hs : s ∈ a.keys ∨ s ∈ b.keys) (hmem : r ∈ a.keys ∨ r ∈ b.keys) : s = r := by
  rcases Nat.lt_trichotomy s r with hlt | heq | hgt
  · exact absurd hr.lt (Nat.not_lt.2 (h.le hlt hmem))
  · exact heq
  · exact absurd h.lt (Nat.not_lt.2 (hr.le hgt hs))

/-- If anything comes after `s`, something comes first. -/
theorem exists_successor (hst : s < t) (ht : t ∈ a.keys ∨ t ∈ b.keys) :
    ∃ u, Successor a b s u := by
  have hlater : ∃ u, s < u ∧ (u ∈ a.keys ∨ u ∈ b.keys) := ⟨t, hst, ht⟩
  obtain ⟨hlt, hmem⟩ := Nat.find_spec hlater
  exact ⟨Nat.find hlater, hlt, hmem, fun hu hmem => Nat.find_min' hlater ⟨hu, hmem⟩⟩

/-- Something comes after `s`. -/
def HasSuccessor (a b : DeltaTrace) (s : Time) : Prop := ∃ t, Successor a b s t

theorem hasSuccessor_iff : HasSuccessor a b s ↔ ∃ t ∈ a.keys ++ b.keys, s < t := by
  constructor
  · rintro ⟨t, ht⟩
    exact ⟨t, List.mem_append.2 ht.mem, ht.lt⟩
  · rintro ⟨t, ht, hst⟩
    exact exists_successor hst (List.mem_append.1 ht)

instance (a b : DeltaTrace) (s : Time) : Decidable (HasSuccessor a b s) :=
  decidable_of_iff _ hasSuccessor_iff.symm

theorem time_asymm (c d : Cooccurrence) : c.time < d.time → ¬ d.time < c.time := Nat.lt_asymm

theorem successor_of_split {before after : List Cooccurrence}
    (h : cooccurrences a b = before ++ c :: d :: after) : Successor a b c.time d.time := by
  have hordered := h ▸ pairwise_time_cooccurrences a b
  obtain ⟨hc, -⟩ := List.pairwise_cons.1 (List.pairwise_append.1 hordered).2.1
  refine ⟨hc d List.mem_cons_self, exists_mem_cooccurrences_iff.1 ⟨d, by simp [h], rfl⟩, ?_⟩
  intro u hcu hu
  obtain ⟨e, he, rfl⟩ := exists_mem_cooccurrences_iff.2 hu
  rcases eq_or_rel_of_next time_asymm hordered (h ▸ he) hcu with rfl | hde
  · exact Nat.le_refl _
  · exact Nat.le_of_lt hde

theorem exists_split_of_successor (hs : s ∈ a.keys) (h : Successor a b s t) :
    ∃ before c d after, cooccurrences a b = before ++ c :: d :: after ∧ c.time = s ∧
      d.time = t := by
  obtain ⟨c, hc, -, rfl⟩ := exists_ofLeft hs b
  obtain ⟨before, rest, hsplit⟩ := List.append_of_mem hc
  obtain ⟨e, he, rfl⟩ := exists_mem_cooccurrences_iff.2 h.mem
  have hafter : e ∈ rest := mem_after_of_rel time_asymm
    (hsplit ▸ pairwise_time_cooccurrences a b) (hsplit ▸ he) h.lt
  cases rest with
  | nil => cases hafter
  | cons d after =>
    exact ⟨before, c, d, after, hsplit, rfl, (successor_of_split hsplit).unique h⟩

/-- Everything but the last co-occurrence has a successor. -/
theorem exists_successor_iff {l : List Cooccurrence} (h : cooccurrences a b = l ++ [c])
    {x : Cooccurrence} (hx : x ∈ cooccurrences a b) : (∃ t, Successor a b x.time t) ↔ x ∈ l := by
  have hordered := h ▸ pairwise_time_cooccurrences a b
  constructor
  · rintro ⟨t, ht⟩
    obtain ⟨e, he, rfl⟩ := exists_mem_cooccurrences_iff.2 ht.mem
    rcases mem_split_cases hordered (h ▸ hx) with ⟨hl, -⟩ | rfl | ⟨hnil, -⟩
    · exact hl
    · cases mem_after_of_rel time_asymm hordered (h ▸ he) ht.lt
    · cases hnil
  · intro hxl
    have hxc := (List.pairwise_append.1 hordered).2.2 x hxl c List.mem_cons_self
    exact exists_successor hxc (exists_mem_cooccurrences_iff.1 ⟨c, by simp [h], rfl⟩)

end

/-! ## Answers -/

section

variable {accepts : Time → Time → Prop}

/-- A change of the first wire in `c` is answered in `d`, if there is one: the second wire changes,
together with the first one or at a time that is accepted. -/
def Cooccurrence.Answered (accepts : Time → Time → Prop) (c d : Cooccurrence) : Prop :=
  c.ofLeft = true → d.ofRight = true ∧ (d.ofLeft = true ∨ accepts c.time d.time)

/-- The second wire changes at `t`, together with the first one or at a time that is accepted as an
answer to `s`. -/
def AnsweredAt (accepts : Time → Time → Prop) (a b : DeltaTrace) (s t : Time) : Prop :=
  t ∈ b.keys ∧ (t ∈ a.keys ∨ accepts s t)

variable {a b : DeltaTrace} {s t : Time} {c d : Cooccurrence}

theorem answered_iff (hc : c ∈ cooccurrences a b) (hd : d ∈ cooccurrences a b) :
    c.Answered accepts d ↔ (c.time ∈ a.keys → AnsweredAt accepts a b c.time d.time) := by
  rw [Cooccurrence.Answered, ofLeft_iff hc, ofRight_iff hd, ofLeft_iff hd, AnsweredAt]

/-- As far as the changes of the first wire are answered, neighbours are answered. -/
theorem isChain_answered {front rest : List Cooccurrence}
    (hsplit : cooccurrences a b = front ++ rest)
    (h : ∀ x y, x ∈ front → y ∈ front → x.time ∈ a.keys → Successor a b x.time y.time →
      AnsweredAt accepts a b x.time y.time) :
    front.IsChain (Cooccurrence.Answered accepts) := by
  refine List.isChain_iff_forall_rel_of_append_cons_cons.2 fun x y before after hpair => ?_
  have hxy : cooccurrences a b = before ++ x :: y :: (after ++ rest) := by simp [hsplit, hpair]
  have hx : x ∈ front := by simp [hpair]
  have hy : y ∈ front := by simp [hpair]
  have hmem : ∀ z ∈ front, z ∈ cooccurrences a b := fun z hz => by simp [hsplit, hz]
  exact (answered_iff (hmem x hx) (hmem y hy)).2 fun hxa => h x y hx hy hxa (successor_of_split hxy)

theorem isChain_outset_iff {cs : List Cooccurrence} :
    (Cooccurrence.outset :: cs).IsChain (Cooccurrence.Answered accepts) ↔
      cs.IsChain (Cooccurrence.Answered accepts) := by
  rw [List.isChain_cons, and_iff_right]
  intro c _ h
  cases h

variable {σ : Type} {m : Machine σ} {idle : σ} {armed : Time → σ}

/-- The machine waits for an answer to each change of the first wire, and for no other change. -/
structure Machine.Waits (m : Machine σ) (idle : σ) (armed : Time → σ)
    (accepts : Time → Time → Prop) : Prop where
  start : m.start = idle
  idle_a : ∀ t, m.react idle .a t = .move (armed t) false true
  idle_both : ∀ t, m.react idle .both t = .move (armed t) false true
  idle_b : ∀ t, m.react idle .b t = .move idle false false
  armed_a : ∀ s t, m.react (armed s) .a t = .violation
  armed_both : ∀ s t, m.react (armed s) .both t = .move (armed t) true false
  accepted : ∀ {s t}, accepts s t → m.react (armed s) .b t = .move idle true false
  refused : ∀ {s t}, ¬ accepts s t → m.react (armed s) .b t = .violation

/-- The state of a machine that waits, when it has read `c` last. -/
def Cooccurrence.stateAfter (idle : σ) (armed : Time → σ) (c : Cooccurrence) : σ :=
  if c.ofLeft then armed c.time else idle

theorem Machine.Waits.remembersLast (hm : m.Waits idle armed accepts) :
    m.RemembersLast (Cooccurrence.stateAfter idle armed) (Cooccurrence.Answered accepts) where
  start := hm.start
  move {c d} h := by
    cases c with
    | right _ =>
      cases d with
      | left x => exact hm.idle_a _
      | right y => exact hm.idle_b _
      | both x y => exact hm.idle_both _
    | left _ | both _ _ =>
      cases d with
      | left x => cases (h rfl).1
      | right y => exact hm.accepted ((h rfl).2.resolve_left nofun)
      | both x y => exact hm.armed_both _ _
  violation {c d} h := by
    cases c with
    | right _ => exact absurd nofun h
    | left _ | both _ _ =>
      cases d with
      | left x => exact hm.armed_a _ _
      | right y => exact hm.refused fun haccepts => h fun _ => ⟨rfl, .inr haccepts⟩
      | both x y => exact absurd (fun _ => ⟨rfl, .inl rfl⟩) h

theorem any_ofLeft (a b : DeltaTrace) : (cooccurrences a b).any (·.ofLeft) = !a.isEmpty := by
  cases h : a.entries with
  | nil =>
    rw [OrderedMap.isEmpty, h, List.any_eq_false.2 fun c hc hleft => ?_]
    · rfl
    · have hmem := (ofLeft_iff hc).1 hleft
      simp [OrderedMap.keys, h] at hmem
  | cons x entries =>
    obtain ⟨c, hc, hleft, -⟩ := exists_ofLeft (a := a) (t := x.1) (by simp [OrderedMap.keys, h]) b
    rw [OrderedMap.isEmpty, h, List.any_eq_true.2 ⟨c, hc, hleft⟩]
    rfl

/-- The changes of the first wire before the last co-occurrence are those that have a successor. -/
theorem countP_keys_of_successor {p : Time → Bool}
    (hp : ∀ s ∈ a.keys, p s = true ↔ ∃ t, Successor a b s t) :
    a.keys.countP p = (cooccurrences a b).dropLast.countP (·.ofLeft) := by
  rw [countP_keys a b]
  rcases List.eq_nil_or_concat' (cooccurrences a b) with hnil | ⟨l, c, hsplit⟩
  · rw [hnil]
    rfl
  · have hmem : ∀ x ∈ l ++ [c], (x.ofLeft && p x.time) = true ↔ x.ofLeft = true ∧ x ∈ l := by
      intro x hx
      have hx : x ∈ cooccurrences a b := hsplit ▸ hx
      rw [Bool.and_eq_true, ← exists_successor_iff hsplit hx]
      exact and_congr_right fun hleft => hp _ ((ofLeft_iff hx).1 hleft)
    have hc : c ∉ l := by
      intro hc
      have hordered := pairwise_time_cooccurrences a b
      rw [hsplit] at hordered
      exact Nat.lt_irrefl _ ((List.pairwise_append.1 hordered).2.2 c hc c List.mem_cons_self)
    rw [hsplit, List.dropLast_concat, List.countP_append,
      List.countP_eq_zero (l := [c]) |>.2 fun x hx => ?_, Nat.add_zero]
    · exact List.countP_congr fun x hx =>
        (hmem x (List.mem_append_left _ hx)).trans (and_iff_left hx)
    · rw [List.mem_singleton.1 hx, hmem c (by simp)]
      exact fun h => hc h.2

/-- The changes of the first wire before a co-occurrence are the earlier ones. -/
theorem countP_keys_lt {before after : List Cooccurrence}
    (h : cooccurrences a b = before ++ c :: after) :
    a.keys.countP (· < c.time) = before.countP (·.ofLeft) := by
  obtain ⟨hbefore, hafter⟩ := times_of_split h
  rw [countP_keys a b, h, List.countP_append, (List.countP_eq_zero (l := c :: after)).2,
    Nat.add_zero]
  · exact List.countP_congr fun x hx => by simp [hbefore x hx]
  · intro x hx
    rcases List.mem_cons.1 hx with rfl | hx
    · simp
    · simp [Nat.le_of_lt (hafter x hx)]

/-- The changes of the second wire after a co-occurrence are the later ones. -/
theorem countP_keys_gt {before after : List Cooccurrence}
    (h : cooccurrences a b = before ++ c :: after) :
    b.keys.countP (c.time < ·) = after.countP (·.ofRight) := by
  obtain ⟨hbefore, hafter⟩ := times_of_split h
  rw [countP_keys_right a b, h, List.countP_append, List.countP_cons_of_neg (by simp),
    List.countP_eq_zero.2, Nat.zero_add]
  · exact List.countP_congr fun x hx => by simp [hafter x hx]
  · intro x hx
    simp [Nat.le_of_lt (hbefore x hx)]

/-- Every change of the first wire that has a successor was answered. -/
theorem outcome_of_answered (hm : m.Waits idle armed accepts)
    (h : ∀ s ∈ a.keys, ∀ t, Successor a b s t → AnsweredAt accepts a b s t) {p : Time → Bool}
    (hp : ∀ s ∈ a.keys, p s = true ↔ ∃ t, Successor a b s t) :
    ((Run.start m).steps m (cooccurrences a b)).outcome =
      ⟨⟨a.keys.countP p, !a.isEmpty, false⟩, none⟩ := by
  have hchain : (cooccurrences a b).IsChain (Cooccurrence.Answered accepts) :=
    isChain_answered (List.append_nil _).symm fun x y _ _ hx hxy => h _ hx _ hxy
  rw [hm.remembersLast.outcome_of_chain (isChain_outset_iff.2 hchain),
    ← countP_keys_of_successor hp, any_ofLeft]

/-- The first change of the first wire that was not answered ends the run. -/
theorem outcome_of_unanswered (hm : m.Waits idle armed accepts)
    (hs : s ∈ a.keys) (hst : Successor a b s t) (hnot : ¬ AnsweredAt accepts a b s t)
    (hbefore : ∀ r ∈ a.keys, r < s → ∀ u, Successor a b r u → AnsweredAt accepts a b r u) :
    ((Run.start m).steps m (cooccurrences a b)).outcome =
      ⟨⟨a.keys.countP (· < s), true, true⟩, some t⟩ := by
  obtain ⟨before, c, d, rest, hsplit, rfl, rfl⟩ := exists_split_of_successor hs hst
  have hc : c ∈ cooccurrences a b := by simp [hsplit]
  have hd : d ∈ cooccurrences a b := by simp [hsplit]
  have hsplit' : cooccurrences a b = (before ++ [c]) ++ d :: rest := by simp [hsplit]
  have hchain : (before ++ [c]).IsChain (Cooccurrence.Answered accepts) := by
    refine isChain_answered hsplit' fun x y _ hy hxa hxy => hbefore _ hxa ?_ _ hxy
    have hyd : y.time < d.time := (times_of_split hsplit').1 y hy
    -- otherwise `y` would come between `c` and its successor
    exact Nat.lt_of_not_le fun hle =>
      Nat.not_le.2 hyd (hst.le (Nat.lt_of_le_of_lt hle hxy.lt) hxy.mem)
  have hbreak : ¬ ((Cooccurrence.outset :: (before ++ [c])).getLast (by simp)).Answered
      accepts d := by
    simpa using fun h : c.Answered accepts d => hnot ((answered_iff hc hd).1 h hs)
  have hany : (before ++ [c]).any (·.ofLeft) = true :=
    List.any_eq_true.2 ⟨c, by simp, (ofLeft_iff hc).2 hs⟩
  rw [hsplit', hm.remembersLast.outcome_of_break (isChain_outset_iff.2 hchain) hbreak,
    List.dropLast_concat, countP_keys_lt hsplit, hany]

/-- If some change of the first wire is not answered, there is a first one. -/
theorem exists_first_unanswered
    (h : ¬ ∀ s ∈ a.keys, ∀ t, Successor a b s t → AnsweredAt accepts a b s t) :
    ∃ s ∈ a.keys, ∃ t, Successor a b s t ∧ ¬ AnsweredAt accepts a b s t ∧
      ∀ r ∈ a.keys, r < s → ∀ u, Successor a b r u → AnsweredAt accepts a b r u := by
  classical
  have hexists : ∃ s, s ∈ a.keys ∧ ∃ t, Successor a b s t ∧ ¬ AnsweredAt accepts a b s t := by
    push Not at h
    exact h
  obtain ⟨hs, t, hst, hnot⟩ := Nat.find_spec hexists
  refine ⟨_, hs, t, hst, hnot, fun r hr hlt u hru => ?_⟩
  by_contra hnot
  exact Nat.find_min hexists hlt ⟨hr, u, hru, hnot⟩

/-- A machine that waits for answers meets no violation if and only if every change of the first
wire that has a successor is answered there. -/
theorem falsified_eq_false_iff (hm : m.Waits idle armed accepts) :
    ((Run.start m).steps m (cooccurrences a b)).outcome.stats.falsified = false ↔
      ∀ s ∈ a.keys, ∀ t, Successor a b s t → AnsweredAt accepts a b s t := by
  classical
  constructor
  · intro hfalsified
    by_contra hall
    obtain ⟨s, hs, t, hst, hnot, hbefore⟩ := exists_first_unanswered hall
    rw [outcome_of_unanswered hm hs hst hnot hbefore] at hfalsified
    cases hfalsified
  · intro hall
    rw [outcome_of_answered hm hall (p := fun s => decide (∃ t, Successor a b s t)) (by simp)]

end

end TraceMining
