import TraceMining.Proofs.Implication
import TraceMining.Proofs.Successors

/-!
# Wires that take turns

Two wires alternate if each change in the merged sequence is one of the wire whose turn it is,
beginning with the first one (`InTurn`). The state of the machine says whose turn it is, so it reads
on as long as the wires take turns, and counts half of what it has read (`alternating_of_inTurn`,
`alternating_of_break`).

That the merged sequence takes turns is a matter of the two wires alone: their changes interleave
strictly, one by one (`inTurn_toList_iff`). Merging hands out the first of two interleaved lists and
leaves two lists that interleave the other way round (`interleaved_cons_iff`), which is the
recursion behind it.
-/

namespace TraceMining

/-! ## Turns -/

/-- The wire whose turn it is after `k` changes, if the first wire begins. -/
def turn (k : Nat) : Side := if k % 2 = 0 then .a else .b

/-- After `k` changes before it, every co-occurrence is a change of the wire whose turn it is. -/
def InTurn (k : Nat) (cs : List Cooccurrence) : Prop :=
  ∀ i c, cs[i]? = some c → c.side = turn (k + i)

section

variable {k : Nat} {c d : Cooccurrence} {cs : List Cooccurrence}

theorem turn_of_even (h : k % 2 = 0) : turn k = .a := if_pos h

theorem turn_of_odd (h : k % 2 = 1) : turn k = .b := if_neg (by omega)

theorem turn_ne_both (k : Nat) : turn k ≠ .both := by
  unfold turn
  split <;> simp

theorem ofLeft_iff_of_turn (h : c.side = turn k) : c.ofLeft = true ↔ k % 2 = 0 := by
  rw [Cooccurrence.ofLeft_iff_side, h]
  rcases Nat.mod_two_eq_zero_or_one k with hk | hk
  · rw [turn_of_even hk]
    exact iff_of_true (by simp) hk
  · rw [turn_of_odd hk]
    exact iff_of_false (by simp) (by omega)

theorem ofRight_iff_of_turn (h : c.side = turn k) : c.ofRight = true ↔ (k + 1) % 2 = 0 := by
  rw [Cooccurrence.ofRight_iff_side, h]
  rcases Nat.mod_two_eq_zero_or_one k with hk | hk
  · rw [turn_of_even hk]
    exact iff_of_false (by simp) (by omega)
  · rw [turn_of_odd hk]
    exact iff_of_true (by simp) (by omega)

theorem inTurn_nil (k : Nat) : InTurn k [] := by
  intro i c h
  simp at h

theorem inTurn_cons_iff : InTurn k (c :: cs) ↔ c.side = turn k ∧ InTurn (k + 1) cs := by
  constructor
  · intro h
    refine ⟨h 0 c rfl, fun i d hd => ?_⟩
    rw [h (i + 1) d hd, Nat.add_assoc, Nat.add_comm 1 i]
  · rintro ⟨hc, hcs⟩ i d hd
    cases i with
    | zero =>
      cases hd
      exact hc
    | succ i => rw [hcs i d hd, Nat.add_assoc, Nat.add_comm 1 i]

theorem InTurn.side_ne_both (h : InTurn k cs) (hc : c ∈ cs) : c.side ≠ .both := by
  obtain ⟨i, hi⟩ := List.mem_iff_getElem?.1 hc
  rw [h i c hi]
  exact turn_ne_both _

/-- What does not take turns has a first place where it does not. -/
theorem exists_break_of_not_inTurn (h : ¬ InTurn k cs) :
    ∃ before c after, cs = before ++ c :: after ∧ InTurn k before ∧
      c.side ≠ turn (k + before.length) := by
  induction cs generalizing k with
  | nil => exact absurd (inTurn_nil k) h
  | cons c cs ih =>
    by_cases hc : c.side = turn k
    · have hcs : ¬ InTurn (k + 1) cs := fun hcs => h (inTurn_cons_iff.2 ⟨hc, hcs⟩)
      obtain ⟨before, d, after, rfl, hbefore, hd⟩ := ih hcs
      refine ⟨c :: before, d, after, rfl, inTurn_cons_iff.2 ⟨hc, hbefore⟩, ?_⟩
      rwa [List.length_cons, Nat.add_comm before.length, ← Nat.add_assoc]
    · exact ⟨[], c, cs, rfl, inTurn_nil k, hc⟩

/-- Every other change is one of the wire with `p`; `r` is its turn. -/
theorem InTurn.countP_of_turn {p : Cooccurrence → Bool} {r : Nat}
    (hp : ∀ {k c}, c.side = turn k → (p c = true ↔ (k + r) % 2 = 0)) (h : InTurn k cs) :
    cs.countP p = (cs.length + (k + r + 1) % 2) / 2 := by
  induction cs generalizing k with
  | nil => simp
  | cons c cs ih =>
    obtain ⟨hc, hcs⟩ := inTurn_cons_iff.1 h
    rw [List.countP_cons, ih hcs, List.length_cons]
    by_cases hk : (k + r) % 2 = 0
    · rw [if_pos ((hp hc).2 hk)]
      omega
    · rw [if_neg fun hpc => hk ((hp hc).1 hpc)]
      omega

theorem InTurn.countP_ofLeft (h : InTurn 0 cs) :
    cs.countP (·.ofLeft) = (cs.length + 1) / 2 :=
  h.countP_of_turn (r := 0) ofLeft_iff_of_turn

theorem InTurn.countP_ofRight (h : InTurn 0 cs) : cs.countP (·.ofRight) = cs.length / 2 :=
  h.countP_of_turn (r := 1) ofRight_iff_of_turn

theorem InTurn.dropLast (h : InTurn k cs) : InTurn k cs.dropLast := by
  intro i c hc
  refine h i c ?_
  rw [List.getElem?_dropLast] at hc
  split at hc
  · exact hc
  · cases hc

/-- Each change of the second wire completes an alternation. -/
theorem InTurn.countP_dropLast (h : InTurn 0 cs) :
    cs.dropLast.countP (·.ofLeft) = cs.length / 2 := by
  rw [h.dropLast.countP_ofLeft, List.length_dropLast]
  omega

/-! ## The machine -/

/-- It is the turn of the other wire than in `c`. -/
def Cooccurrence.TakesTurn (c d : Cooccurrence) : Prop := d.side = if c.ofLeft then .b else .a

theorem alternating_remembersLast (period : Time) :
    (Pattern.machine period .alternating : Machine Alternation).RemembersLast
      (Cooccurrence.stateAfter .awaitA fun _ => .awaitB) Cooccurrence.TakesTurn where
  start := rfl
  move {c d} h := by cases c <;> cases d <;> cases h <;> rfl
  violation {c d} h := by cases c <;> cases d <;> first | rfl | exact absurd rfl h

/-- Taking turns is a matter of neighbours. -/
theorem isChain_takesTurn_iff (hc : c.ofLeft = true ↔ k % 2 = 1) :
    (c :: cs).IsChain Cooccurrence.TakesTurn ↔ InTurn k cs := by
  induction cs generalizing c k with
  | nil => exact iff_of_true (.singleton c) (inTurn_nil k)
  | cons d cs ih =>
    have hturn : c.TakesTurn d ↔ d.side = turn k := by
      rw [Cooccurrence.TakesTurn]
      by_cases hk : k % 2 = 1
      · rw [if_pos (hc.2 hk), turn_of_odd hk]
      · rw [if_neg fun hleft => hk (hc.1 hleft), turn_of_even (by omega)]
    rw [List.isChain_cons_cons, inTurn_cons_iff, hturn]
    refine and_congr_right fun hd => ih ?_
    rw [ofLeft_iff_of_turn hd]
    omega

theorem isChain_takesTurn_outset_iff :
    (Cooccurrence.outset :: cs).IsChain Cooccurrence.TakesTurn ↔ InTurn 0 cs :=
  isChain_takesTurn_iff (by decide)

end

section

variable {a b : DeltaTrace} {before after : List Cooccurrence} {c : Cooccurrence}

theorem check_alternating (h : a ≠ b) (period : Time) :
    Pattern.alternating.check a b period = (Pattern.alternating.run a b period).outcome :=
  Pattern.check_eq_outcome_run (by simp [h]) (by simp) period

/-- The outcome if the wires take turns. -/
theorem alternating_of_inTurn (hne : a ≠ b) (h : InTurn 0 (cooccurrences a b)) (period : Time) :
    Pattern.alternating.check a b period =
      ⟨⟨(cooccurrences a b).length / 2, (cooccurrences a b).any (·.ofLeft), false⟩, none⟩ := by
  rw [check_alternating hne, ← h.countP_dropLast]
  exact (alternating_remembersLast period).outcome_of_chain (isChain_takesTurn_outset_iff.2 h)

/-- The outcome if `c` is the first change out of turn. -/
theorem alternating_of_break (hne : a ≠ b) (h : cooccurrences a b = before ++ c :: after)
    (hbefore : InTurn 0 before) (hc : c.side ≠ turn before.length) (period : Time) :
    Pattern.alternating.check a b period =
      ⟨⟨before.length / 2, before.any (·.ofLeft), true⟩, some c.time⟩ := by
  have hchain := isChain_takesTurn_outset_iff.2 hbefore
  have hbreak : ¬ ((Cooccurrence.outset :: before).getLast (by simp)).TakesTurn c := by
    intro hturn
    -- else `c` would prolong the chain, and be in turn
    have hlonger : (Cooccurrence.outset :: (before ++ [c])).IsChain Cooccurrence.TakesTurn := by
      rw [← List.cons_append, List.isChain_append]
      refine ⟨hchain, .singleton c, fun x hx y hy => ?_⟩
      rw [List.getLast?_eq_some_getLast (by simp)] at hx
      cases hx
      cases hy
      exact hturn
    refine hc ?_
    rw [isChain_takesTurn_outset_iff.1 hlonger before.length c (by simp), Nat.zero_add]
  rw [check_alternating hne, ← hbefore.countP_dropLast, Pattern.run, h]
  exact (alternating_remembersLast period).outcome_of_break hchain hbreak after

end

/-! ## Interleaving -/

/-- The times of two wires interleave, one by one, beginning with the first wire: the `i`-th time of
either one comes before the next one of the other. -/
structure Interleaved (as bs : List Time) : Prop where
  length : as.length = bs.length ∨ as.length = bs.length + 1
  lt_answer : ∀ (i : Nat) (s t : Time), as[i]? = some s → bs[i]? = some t → s < t
  lt_next : ∀ (i : Nat) (t s : Time), bs[i]? = some t → as[i + 1]? = some s → t < s

section

variable {s t : Time} {as bs : List Time}

theorem interleaved_nil_iff : Interleaved [] bs ↔ bs = [] := by
  constructor
  · intro h
    rcases h.length with hlength | hlength
    · exact List.eq_nil_of_length_eq_zero hlength.symm
    · simp at hlength
  · rintro rfl
    exact ⟨.inl rfl, by simp, by simp⟩

/-- Without the first time, the lists interleave the other way round. -/
theorem interleaved_cons_iff :
    Interleaved (s :: as) bs ↔ (∀ t ∈ bs.head?, s < t) ∧ Interleaved bs as := by
  constructor
  · intro h
    refine ⟨fun t ht => ?_, ?_, fun i t u ht hu => ?_, fun i u t hu ht => ?_⟩
    · exact h.lt_answer 0 s t rfl (by rw [← List.head?_eq_getElem?]; exact ht)
    · have hlength := h.length
      rw [List.length_cons] at hlength
      omega
    · exact h.lt_next i t u ht hu
    · exact h.lt_answer (i + 1) u t hu ht
  · rintro ⟨hfirst, h⟩
    refine ⟨?_, fun i u t hu ht => ?_, fun i t u ht hu => h.lt_answer i t u ht hu⟩
    · have hlength := h.length
      rw [List.length_cons]
      omega
    · cases i with
      | zero =>
        cases hu
        exact hfirst t (by rw [List.head?_eq_getElem?]; exact ht)
      | succ i => exact h.lt_next i u t hu ht

theorem not_interleaved_of_not_lt (h : ¬ s < t) : ¬ Interleaved (s :: as) (t :: bs) :=
  fun hall => h (hall.lt_answer 0 s t rfl rfl)

/-- The wire that changes next is not the one that comes second. -/
theorem not_interleaved_of_lt_head (h : ∀ t ∈ bs.head?, s < t) : ¬ Interleaved bs (s :: as) := by
  cases bs with
  | nil => simp [interleaved_nil_iff]
  | cons t bs => exact not_interleaved_of_not_lt (Nat.lt_asymm (h t rfl))

end

/-- The times of the changes. -/
def times (xs : List Change) : List Time := xs.map (·.1)

/-- The merged sequence takes turns if the changes of the two wires interleave. -/
theorem inTurn_toList_iff (m : Interleaving) (k : Nat) :
    InTurn k m.toList ↔
      if k % 2 = 0 then Interleaved (times m.left) (times m.right)
      else Interleaved (times m.right) (times m.left) := by
  -- every step passes the turn on, and with it the part of the first list
  induction m using Interleaving.toList.induct generalizing k with
  | case1 m h =>
    obtain ⟨hleft, hright⟩ := Interleaving.eq_nil_of_next?_eq_none h
    rw [Interleaving.toList_of_none h, hleft, hright]
    simp [inTurn_nil, times, interleaved_nil_iff]
  | case2 m c n h _ ih =>
    rw [Interleaving.toList_of_some h, inTurn_cons_iff, ih]
    rcases Interleaving.next?_cases h with ⟨x, rfl, hleft, hright, hx⟩ |
      ⟨y, rfl, hleft, hright, hy⟩ | ⟨x, y, rfl, hleft, hright, hxy⟩
    · have hhead : ∀ t ∈ (times m.right).head?, x.1 < t := by
        simpa [times] using fun t v hv => hx (t, v) hv
      rw [← hright, show times m.left = x.1 :: times n.left by rw [hleft]; rfl]
      rcases Nat.mod_two_eq_zero_or_one k with hk | hk
      · rw [turn_of_even hk, if_neg (by omega), if_pos hk, interleaved_cons_iff]
        exact and_congr_left' (iff_of_true rfl hhead)
      · refine iff_of_false (fun hturn => ?_) ?_
        · rw [turn_of_odd hk] at hturn
          cases hturn.1
        · rw [if_neg (by omega)]
          exact not_interleaved_of_lt_head hhead
    · have hhead : ∀ t ∈ (times m.left).head?, y.1 < t := by
        simpa [times] using fun t v hv => hy (t, v) hv
      rw [← hleft, show times m.right = y.1 :: times n.right by rw [hright]; rfl]
      rcases Nat.mod_two_eq_zero_or_one k with hk | hk
      · refine iff_of_false (fun hturn => ?_) ?_
        · rw [turn_of_even hk] at hturn
          cases hturn.1
        · rw [if_pos hk]
          exact not_interleaved_of_lt_head hhead
      · rw [turn_of_odd hk, if_pos (by omega), if_neg (by omega), interleaved_cons_iff]
        exact and_congr_left' (iff_of_true rfl hhead)
    · have hleft' : times m.left = x.1 :: times n.left := by rw [hleft]; rfl
      have hright' : times m.right = y.1 :: times n.right := by rw [hright]; rfl
      have hlt : ¬ x.1 < y.1 ∧ ¬ y.1 < x.1 := ⟨Nat.not_lt.2 hxy.ge, Nat.not_lt.2 hxy.le⟩
      refine iff_of_false (fun hturn => (turn_ne_both k) hturn.1.symm) ?_
      rw [hleft', hright']
      split
      · exact not_interleaved_of_not_lt hlt.1
      · exact not_interleaved_of_not_lt hlt.2

section

variable {a b : DeltaTrace}

theorem inTurn_cooccurrences_iff :
    InTurn 0 (cooccurrences a b) ↔ Interleaved a.keys b.keys :=
  inTurn_toList_iff ⟨a.entries, b.entries⟩ 0

/-- Wires that take turns never change together. -/
theorem neverTogether_of_inTurn (h : InTurn 0 (cooccurrences a b)) : NeverTogether a b := by
  rw [neverTogether_iff]
  rintro ⟨t, v⟩ he
  obtain ⟨c, hc, hleft, rfl⟩ := exists_ofLeft (List.mem_map_of_mem he) b
  cases hlookup : b.lookup c.time with
  | none => rfl
  | some w =>
    have hright := (ofRight_iff hc).2 (OrderedMap.mem_keys_iff.2 ⟨w, hlookup⟩)
    have hside := h.side_ne_both hc
    cases c with
    | left x => cases hright
    | right y => cases hleft
    | both x y => exact absurd rfl hside

end

/-- **What an alternation says about two wires.** It is not broken if and only if the wires are not
equal and their changes interleave one by one, beginning with the first wire and never at the same
time; it has then been completed by each change of the second wire. If the wires are not equal and
it is broken, it is so at the first change in the merged sequence that is not one of the wire whose
turn it is, and has been completed by every other change before that one. -/
theorem alternating_exact (a b : DeltaTrace) (period : Time) :
    ((Pattern.alternating.check a b period).stats.falsified = false ↔
      a ≠ b ∧ Interleaved a.keys b.keys ∧ NeverTogether a b) ∧
    ((Pattern.alternating.check a b period).stats.falsified = false →
      (Pattern.alternating.check a b period).stats.support = b.size) ∧
    (a ≠ b → (Pattern.alternating.check a b period).stats.falsified = true →
      ∃ before c after, cooccurrences a b = before ++ c :: after ∧
        InTurn 0 before ∧ c.side ≠ turn before.length ∧
        (Pattern.alternating.check a b period).falsifiedAt = some c.time ∧
        (Pattern.alternating.check a b period).stats.support = before.length / 2) := by
  by_cases hequal : a = b
  -- equal wires are not run at all
  · have hfalsified : (Pattern.alternating.check a b period).stats.falsified = true := by
      rw [Pattern.check, if_pos ⟨rfl, hequal⟩]
    rw [hfalsified]
    exact ⟨by simp [hequal], by simp, fun hne => absurd hequal hne⟩
  by_cases hturn : InTurn 0 (cooccurrences a b)
  · rw [alternating_of_inTurn hequal hturn, size_right a b, hturn.countP_ofRight]
    have hinterleaved := inTurn_cooccurrences_iff.1 hturn
    exact ⟨iff_of_true rfl ⟨hequal, hinterleaved, neverTogether_of_inTurn hturn⟩, fun _ => rfl,
      fun _ h => by cases h⟩
  · obtain ⟨before, c, after, hsplit, hbefore, hc⟩ := exists_break_of_not_inTurn hturn
    rw [Nat.zero_add] at hc
    rw [alternating_of_break hequal hsplit hbefore hc]
    refine ⟨iff_of_false (by simp) ?_, fun h => (by cases h), fun _ _ =>
      ⟨before, c, after, hsplit, hbefore, hc, rfl, rfl⟩⟩
    rintro ⟨-, hinterleaved, -⟩
    exact hturn (inTurn_cooccurrences_iff.2 hinterleaved)

/-- A wire that is still waited for when the run ends. -/
def chimes : DeltaTrace := .ofList [(1, 1), (6, 0)]

/-- Its changes and those of `chimes` interleave; the last one has no answer. -/
def strikes : DeltaTrace := .ofList [(0, 1), (5, 0), (10, 1)]

/-- Its third change comes out of turn. -/
def doubleStrikes : DeltaTrace := .ofList [(0, 1), (2, 0), (3, 1)]

theorem alternating_exact_strikes :
    (Pattern.alternating.check strikes chimes 1).stats.falsified = false ∧
    Interleaved strikes.keys chimes.keys ∧ NeverTogether strikes chimes ∧
    (Pattern.alternating.check strikes chimes 1).stats.support = chimes.size ∧
    doubleStrikes ≠ chimes ∧
    (Pattern.alternating.check doubleStrikes chimes 1).stats.falsified = true ∧
    (Pattern.alternating.check doubleStrikes chimes 1).falsifiedAt = some 3 ∧
    ∃ before c after, cooccurrences doubleStrikes chimes = before ++ c :: after ∧
      InTurn 0 before ∧ c.side ≠ turn before.length ∧
      (Pattern.alternating.check doubleStrikes chimes 1).falsifiedAt = some c.time ∧
      (Pattern.alternating.check doubleStrikes chimes 1).stats.support = before.length / 2 := by
  have hheld : (Pattern.alternating.check strikes chimes 1).stats.falsified = false := by
    decide +kernel
  have hbroken : (Pattern.alternating.check doubleStrikes chimes 1).stats.falsified = true := by
    decide +kernel
  have hne : doubleStrikes ≠ chimes := by decide +kernel
  obtain ⟨hiff, hsupport, -⟩ := alternating_exact strikes chimes 1
  obtain ⟨-, -, hbreak⟩ := alternating_exact doubleStrikes chimes 1
  obtain ⟨-, hinterleaved, hapart⟩ := hiff.1 hheld
  exact ⟨hheld, hinterleaved, hapart, hsupport hheld, hne, hbroken, by decide +kernel,
    hbreak hne hbroken⟩

end TraceMining
