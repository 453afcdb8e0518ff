/-!
# Finite sets kept in order

SPEC_FULL.md, 3: the set of signals of an `AliasGroup`.

A set is the list of its members, strictly increasing. Equal sets are equal lists, whatever order
their members were given in (`mem_ofList`), and sets are themselves ordered as those lists are,
member by member.
-/

namespace TraceMining

variable {α : Type}

/-- Puts a member in its place; a member that is already there stays alone. -/
def insertMember [Ord α] (a : α) : List α → List α
  | [] => [a]
  | b :: rest =>
    match compare a b with
    | .lt => a :: b :: rest
    | .eq => b :: rest
    | .gt => b :: insertMember a rest

theorem mem_insertMember_imp [Ord α] {a c : α} :
    ∀ {members : List α}, c ∈ insertMember a members → c = a ∨ c ∈ members
  | [], h => .inl (by simpa [insertMember] using h)
  | b :: rest, h => by
    rw [insertMember] at h
    split at h
    · simpa using h
    · exact .inr h
    · rcases List.mem_cons.1 h with h | h
      · exact .inr (h ▸ List.mem_cons_self)
      · exact (mem_insertMember_imp h).imp id (List.mem_cons_of_mem _)

/-- An insertion keeps the members increasing. -/
theorem pairwise_insertMember [Ord α] [Std.TransOrd α] (a : α) :
    ∀ {members : List α}, members.Pairwise (compare · · = .lt) →
      (insertMember a members).Pairwise (compare · · = .lt)
  | [], _ => by simp [insertMember]
  | b :: rest, h => by
    have ⟨hb, hr⟩ := List.pairwise_cons.1 h
    rw [insertMember]
    split
    · rename_i hlt
      exact List.pairwise_cons.2 ⟨fun c hc => (List.mem_cons.1 hc).elim (fun h => h ▸ hlt)
        fun hc => Std.TransCmp.lt_trans hlt (hb c hc), h⟩
    · exact h
    · rename_i hgt
      exact List.pairwise_cons.2 ⟨fun c hc => (mem_insertMember_imp hc).elim
        (fun h => h ▸ Std.OrientedCmp.gt_iff_lt.1 hgt) (hb c), pairwise_insertMember a hr⟩

/-- A finite set: strictly increasing members. -/
structure OrderedSet (α : Type) [Ord α] where
  /-- The members, in increasing order. -/
  members : List α
  increasing : members.Pairwise (compare · · = .lt)

namespace OrderedSet

variable [Ord α]

instance [DecidableEq α] : DecidableEq (OrderedSet α) := fun s t =>
  decidable_of_iff (s.members = t.members) (by cases s; cases t; simp)

instance : EmptyCollection (OrderedSet α) := ⟨⟨[], .nil⟩⟩

instance : Inhabited (OrderedSet α) := ⟨∅⟩

instance : Membership α (OrderedSet α) := ⟨fun s a => a ∈ s.members⟩

instance [DecidableEq α] (a : α) (s : OrderedSet α) : Decidable (a ∈ s) :=
  inferInstanceAs (Decidable (a ∈ s.members))

/-- Sets are compared as the lists of their members, from the least member on. -/
instance : Ord (OrderedSet α) := ⟨compareOn members⟩

instance [Std.TransOrd α] : Std.TransOrd (OrderedSet α) :=
  inferInstanceAs (Std.TransCmp (compareOn members))

instance [Std.LawfulEqOrd α] : Std.LawfulEqOrd (OrderedSet α) where
  compare_self := Std.ReflOrd.compare_self (α := List α)
  eq_of_compare {s t} h := by
    have : s.members = t.members := Std.LawfulEqOrd.eq_of_compare (α := List α) h
    cases s; cases t; simp_all

/-- The number of members. -/
def size (s : OrderedSet α) : Nat := s.members.length

def isEmpty (s : OrderedSet α) : Bool := s.members.isEmpty

/-- Whether some member satisfies `p`. -/
def any (s : OrderedSet α) (p : α → Bool) : Bool := s.members.any p

/-- The members that satisfy `p`. -/
def filter (s : OrderedSet α) (p : α → Bool) : OrderedSet α :=
  ⟨s.members.filter p, s.increasing.filter _⟩

variable [Std.TransOrd α]

/-- Adds a member. -/
def insert (s : OrderedSet α) (a : α) : OrderedSet α :=
  ⟨insertMember a s.members, pairwise_insertMember a s.increasing⟩

/-- The set of a list of members in any order, repetitions counting once. -/
def ofList (members : List α) : OrderedSet α := members.foldl insert ∅

theorem mem_insert [Std.LawfulEqOrd α] {a c : α} {s : OrderedSet α} :
    c ∈ s.insert a ↔ c = a ∨ c ∈ s := by
  refine ⟨mem_insertMember_imp, ?_⟩
  obtain ⟨members, _⟩ := s
  show c = a ∨ c ∈ members → c ∈ insertMember a members
  induction members with
  | nil => simp [insertMember]
  | cons b rest ih =>
    rw [insertMember]
    split
    · simp
    · rename_i heq
      have := Std.LawfulEqOrd.eq_of_compare heq
      simp_all
    · simp_all only [List.mem_cons]
      grind

theorem mem_ofList [Std.LawfulEqOrd α] {c : α} {members : List α} :
    c ∈ ofList members ↔ c ∈ members := by
  suffices h : ∀ (ms : List α) (s : OrderedSet α), c ∈ ms.foldl insert s ↔ c ∈ s ∨ c ∈ ms by
    exact (h members ∅).trans ⟨fun hc => hc.resolve_left (List.not_mem_nil), .inr⟩
  intro ms
  induction ms with
  | nil => simp
  | cons m ms ih => intro s; rw [List.foldl_cons, ih, mem_insert, List.mem_cons]; grind

end OrderedSet

end TraceMining
