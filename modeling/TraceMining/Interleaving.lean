import TraceMining.Trace

/-!
# Interleaving of two wires

SPEC_FULL.md, 4.3: the iterator `Cooccurrences` of the module `merge`.

Two wires are compared by when they change, each relative to the other. Merging their changes in
chronological order yields one co-occurrence for every time at which either of them changes, which
tells whether the first one changed, the second one, or both.
-/

namespace TraceMining

/-- A change of a wire: its time and its value. -/
abbrev Change := Time × Value

/-- What happened at one time. -/
inductive Cooccurrence where
  | left (change : Change)
  | right (change : Change)
  | both (left right : Change)
  deriving DecidableEq, Repr

namespace Cooccurrence

/-- The time at which it happened. -/
def time : Cooccurrence → Time
  | left c => c.1
  | right c => c.1
  | both c _ => c.1

/-- The change of the first wire, if it changed. -/
def left? : Cooccurrence → Option Change
  | left c => some c
  | right _ => none
  | both c _ => some c

/-- The change of the second wire, if it changed. -/
def right? : Cooccurrence → Option Change
  | left _ => none
  | right c => some c
  | both _ c => some c

end Cooccurrence

/-- The changes of two wires that have not been merged yet (`Cooccurrences`). -/
structure Interleaving where
  left : List Change
  right : List Change

namespace Interleaving

/-- The number of changes left on both sides. -/
def remaining (m : Interleaving) : Nat := m.left.length + m.right.length

/-- The earliest co-occurrence, and what is left after it (`Cooccurrences::next`). -/
def next? : Interleaving → Option (Cooccurrence × Interleaving)
  | ⟨[], []⟩ => none
  | ⟨a :: as, []⟩ => some (.left a, ⟨as, []⟩)
  | ⟨[], b :: bs⟩ => some (.right b, ⟨[], bs⟩)
  | ⟨a :: as, b :: bs⟩ =>
    if a.1 < b.1 then some (.left a, ⟨as, b :: bs⟩)
    else if b.1 < a.1 then some (.right b, ⟨a :: as, bs⟩)
    else some (.both a b, ⟨as, bs⟩)

/-- How many co-occurrences are left, at least and at most (`size_hint`). -/
def bounds (m : Interleaving) : Nat × Nat :=
  (max m.left.length m.right.length, m.left.length + m.right.length)

theorem remaining_lt_of_next? {m n : Interleaving} {c : Cooccurrence}
    (h : m.next? = some (c, n)) : n.remaining < m.remaining := by
  obtain ⟨as, bs⟩ := m
  rcases as with _ | ⟨a, as⟩ <;> rcases bs with _ | ⟨b, bs⟩
  · simp [next?] at h
  · simp only [next?, Option.some.injEq, Prod.mk.injEq] at h
    simp [← h.2, remaining]
  · simp only [next?, Option.some.injEq, Prod.mk.injEq] at h
    simp [← h.2, remaining]
  · simp only [next?] at h
    split at h
    · simp only [Option.some.injEq, Prod.mk.injEq] at h
      simp [← h.2, remaining]
    split at h
    · simp only [Option.some.injEq, Prod.mk.injEq] at h
      simp [← h.2, remaining]
    · simp only [Option.some.injEq, Prod.mk.injEq] at h
      simp only [← h.2, remaining, List.length_cons]; omega

/-- All co-occurrences that are left, in chronological order. -/
def toList (m : Interleaving) : List Cooccurrence :=
  match h : m.next? with
  | none => []
  | some (c, n) =>
    have := remaining_lt_of_next? h
    c :: n.toList
termination_by m.remaining

end Interleaving

/-- The co-occurrences of two wires (`merge::cooccurrences`). -/
def cooccurrences (a b : DeltaTrace) : List Cooccurrence :=
  Interleaving.toList ⟨a.entries, b.entries⟩

end TraceMining
