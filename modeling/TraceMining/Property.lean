import TraceMining.Signal

/-!
# Properties

SPEC_FULL.md, 3: `PropertyKind`, `Property` and `PropertyStats` of the module `property`.

A property asserts a temporal pattern of one wire against another. It is identified by its pattern
and its two wires alone; the evidence that was gathered for it is kept apart.
-/

namespace TraceMining

/-- The temporal patterns between a wire `a` and a wire `b` (`PropertyKind`). -/
inductive Pattern where
  /-- The changes of `a` and `b` alternate, beginning with `a`. -/
  | alternating
  /-- Every change of `a` is followed by a change of `b` one clock period later. -/
  | next
  /-- Between two changes of `a` there is a change of `b`. -/
  | holdUntil
  /-- Every change of `a` is followed at some time by a change of `b`. -/
  | eventual
  deriving DecidableEq, Repr, Inhabited

namespace Pattern

/-- All patterns, in their order. -/
def all : List Pattern := [alternating, next, holdUntil, eventual]

/-- The place of a pattern in the order. -/
def rank : Pattern → Nat
  | alternating => 0
  | next => 1
  | holdUntil => 2
  | eventual => 3

instance : Ord Pattern := ⟨compareOn rank⟩

instance : Std.TransOrd Pattern := inferInstanceAs (Std.TransCmp (compareOn rank))

instance : Std.LawfulEqOrd Pattern where
  compare_self {p} := by cases p <;> rfl
  eq_of_compare {p q} := by cases p <;> cases q <;> decide

/-- The name of a pattern. -/
def name : Pattern → String
  | alternating => "Alternating"
  | next => "Next"
  | holdUntil => "Until"
  | eventual => "Eventual"

/-- The pattern with a name. -/
def ofName? (s : String) : Option Pattern := all.find? (·.name == s)

end Pattern

/-- A pattern asserted of the wire `a` against the wire `b`. -/
structure Property where
  pattern : Pattern
  a : AliasGroup
  b : AliasGroup
  deriving DecidableEq

namespace Property

/-- Properties are compared by pattern, then by their first wire, then by their second wire. -/
def order : Property → Property → Ordering :=
  compareLex (compareOn pattern) (compareLex (compareOn a) (compareOn b))

instance : Ord Property := ⟨order⟩

instance : Std.TransOrd Property :=
  inferInstanceAs (Std.TransCmp (compareLex _ (compareLex _ _)))

instance : Std.LawfulEqOrd Property where
  compare_self {p} := show compareLex (compareOn pattern)
    (compareLex (compareOn a) (compareOn b)) p p = .eq from Std.ReflCmp.compare_self
  eq_of_compare {p q} h := by
    have h : compareLex (compareOn pattern) (compareLex (compareOn a) (compareOn b)) p q = .eq := h
    have ⟨hp, h⟩ := compareLex_eq_eq.1 h
    have ⟨ha, hb⟩ := compareLex_eq_eq.1 h
    have hp : p.pattern = q.pattern := Std.LawfulEqOrd.eq_of_compare hp
    have ha : p.a = q.a := Std.LawfulEqOrd.eq_of_compare ha
    have hb : p.b = q.b := Std.LawfulEqOrd.eq_of_compare hb
    cases p; cases q; simp_all

/-- Properties in their order; repeated ones stay. -/
def sort (ps : List Property) : List Property := ps.mergeSort fun p q => (compare p q).isLE

/-- The pattern with the names of both wires. -/
def display (p : Property) : String :=
  p.pattern.name ++ "(" ++ p.a.display ++ ", " ++ p.b.display ++ ")"

end Property

/-- The evidence for a property (`PropertyStats`). -/
structure Stats where
  /-- How often the pattern was completed. -/
  support : Nat
  /-- The pattern could have been violated at least once. -/
  falsifiable : Bool
  /-- The pattern was violated at least once. -/
  falsified : Bool
  deriving DecidableEq, Repr, Inhabited

/-- No evidence. -/
def Stats.none : Stats := ⟨0, false, false⟩

end TraceMining
