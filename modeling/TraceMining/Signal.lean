import TraceMining.Ordered.Set

/-!
# Signals and alias groups

SPEC_FULL.md, 3: `Signal` and `AliasGroup` of the module `signal`.

A signal is a name, qualified by the scopes it stands in, together with a width in bits. One wire
may be known under several names; the alias group of a wire is the set of its signals and is what
identifies the wire everywhere else. Main statement: membership in an alias group does not depend
on the order in which its signals were given (`mem_ofList`, of ordered sets).
-/

namespace TraceMining

/-- A wire's name, its parts joined by dots, and its width in bits. -/
structure Signal where
  name : String
  width : Nat
  deriving DecidableEq, Repr, Inhabited

namespace Signal

/-- By name, and by width among signals of one name. -/
instance : Ord Signal := ⟨compareLex (compareOn name) (compareOn width)⟩

instance : Std.TransOrd Signal := inferInstanceAs (Std.TransCmp (compareLex _ _))

instance : Std.LawfulEqOrd Signal where
  compare_self {s} :=
    show compareLex (compareOn name) (compareOn width) s s = .eq from Std.ReflCmp.compare_self
  eq_of_compare {s t} h := by
    have h : compareLex (compareOn name) (compareOn width) s t = .eq := h
    have ⟨hn, hw⟩ := compareLex_eq_eq.1 h
    have hn : s.name = t.name := Std.LawfulEqOrd.eq_of_compare hn
    have hw : s.width = t.width := Std.LawfulEqOrd.eq_of_compare hw
    cases s; cases t; simp_all

/-- What stands before the last dot of a name; nothing if there is no dot. -/
def beforeLastDot : List Char → List Char
  | [] => []
  | c :: s => if '.' ∈ s then c :: beforeLastDot s else []

/-- The path of the scope that the name places the signal in (`Signal::scope`). -/
def scope (s : Signal) : String := String.ofList (beforeLastDot s.name.toList)

end Signal

/-- The signals that name one wire. -/
abbrev AliasGroup := OrderedSet Signal

namespace AliasGroup

/-- The width of the widest signal, 0 for a group without signals (`AliasGroup::width`). -/
def width (g : AliasGroup) : Nat := g.members.foldl (fun w s => max w s.width) 0

/-- Whether a signal of the group stands directly in the scope `path` (`declared_in`). -/
def declaredIn (g : AliasGroup) (path : String) : Bool := g.any fun s => s.scope == path

/-- The names of the group's signals between braces (the `Display` of a group). -/
def display (g : AliasGroup) : String :=
  "\x7b" ++ ", ".intercalate (g.members.map Signal.name) ++ "\x7d"

end AliasGroup

end TraceMining
