import TraceMining.Hierarchy

/-!
# Places in a tree

The modules of a tree are numbered in the order in which they are visited. Numbered so, each module
is listed together with the place of the module around it (`Module.placed`), and the list alone
tells the children of every module: they are the modules around which it stands, in the order of the
list (`Module.childrenAt_placed`). For a subtree takes up the places from its root on, one for each
of its modules, so no module behind it or in front of it stands inside it.
-/

namespace TraceMining

namespace Module

/-- The modules of a tree in the order in which they are visited, each with the place of the module
around it. The root has the place `place` and stands inside the module at the place `around`. -/
def placed (around : Option Nat) (place : Nat) : Module → List (Module × Option Nat)
  | mk n cs => (mk n cs, around) :: inner (some place) (place + 1) cs
where
  inner (around : Option Nat) (place : Nat) : List Module → List (Module × Option Nat)
    | [] => []
    | m :: ms => placed around place m ++ inner around (place + m.size) ms

/-- The listed modules that stand inside the module at the place `place`. -/
def childrenAt (place : Nat) (listed : List (Module × Option Nat)) : List Module :=
  (listed.filter fun e => e.2 = some place).map (·.1)

theorem childrenAt_append (place : Nat) (listed more : List (Module × Option Nat)) :
    childrenAt place (listed ++ more) = childrenAt place listed ++ childrenAt place more := by
  rw [childrenAt, List.filter_append, List.map_append]
  rfl

theorem childrenAt_cons_of_ne {place : Nat} {m : Module} {around : Option Nat}
    (h : around ≠ some place) (listed : List (Module × Option Nat)) :
    childrenAt place ((m, around) :: listed) = childrenAt place listed := by
  rw [childrenAt, List.filter_cons_of_neg (by simpa using h)]
  rfl

theorem childrenAt_eq_nil {place : Nat} {listed : List (Module × Option Nat)}
    (h : ∀ e ∈ listed, e.2 ≠ some place) : childrenAt place listed = [] := by
  rw [childrenAt, List.filter_eq_nil_iff.2 fun e he => by simpa using h e he, List.map_nil]

/-! ## The places of a subtree -/

mutual

theorem map_fst_placed (around : Option Nat) (place : Nat) :
    ∀ m : Module, (m.placed around place).map (·.1) = m.preorder
  | mk n cs => by
    rw [placed, preorder, List.map_cons, map_fst_inner (some place) (place + 1) cs]

theorem map_fst_inner (around : Option Nat) (place : Nat) :
    ∀ ms : List Module, (placed.inner around place ms).map (·.1) = preorder.all ms
  | [] => rfl
  | m :: ms => by
    rw [placed.inner, preorder.all, List.map_append, map_fst_placed around place m,
      map_fst_inner around (place + m.size) ms]

end

mutual

theorem length_preorder : ∀ m : Module, m.preorder.length = m.size
  | mk n cs => by
    rw [preorder, size, List.length_cons, length_all cs, Nat.add_comm]

theorem length_all : ∀ ms : List Module, (preorder.all ms).length = size.sizes ms
  | [] => rfl
  | m :: ms => by
    rw [preorder.all, size.sizes, List.length_append, length_preorder m, length_all ms]

end

theorem length_placed (around : Option Nat) (place : Nat) (m : Module) :
    (m.placed around place).length = m.size := by
  rw [← length_preorder, ← map_fst_placed around place, List.length_map]

/-- The module around stands outside the subtree, or in one of its places. -/
def StandsIn (around : Option Nat) (place size : Nat) (inside : Option Nat) : Prop :=
  inside = around ∨ ∃ a, inside = some a ∧ place ≤ a ∧ a < place + size

theorem StandsIn.mono {around inside : Option Nat} {place place' size size' : Nat}
    (h : StandsIn around place' size' inside) (hplace : place ≤ place')
    (hsize : place' + size' ≤ place + size) : StandsIn around place size inside := by
  rcases h with h | ⟨a, h, hle, hlt⟩
  · exact .inl h
  · exact .inr ⟨a, h, by omega, by omega⟩

mutual

theorem standsIn_of_mem_placed (around : Option Nat) (place : Nat) :
    ∀ m : Module, ∀ e ∈ m.placed around place, StandsIn around place m.size e.2
  | mk n cs => fun e he => by
    rw [placed] at he
    rw [size]
    rcases List.mem_cons.1 he with rfl | he
    · exact .inl rfl
    · rcases standsIn_of_mem_inner (some place) (place + 1) cs e he with h | ⟨a, h, hle, hlt⟩
      · exact .inr ⟨place, h, by omega, by omega⟩
      · exact .inr ⟨a, h, by omega, by omega⟩

theorem standsIn_of_mem_inner (around : Option Nat) (place : Nat) :
    ∀ ms : List Module, ∀ e ∈ placed.inner around place ms,
      StandsIn around place (size.sizes ms) e.2
  | [] => fun e he => by cases he
  | m :: ms => fun e he => by
    rw [placed.inner] at he
    rw [size.sizes]
    rcases List.mem_append.1 he with he | he
    · exact (standsIn_of_mem_placed around place m e he).mono (by omega) (by omega)
    · exact (standsIn_of_mem_inner around (place + m.size) ms e he).mono (by omega) (by omega)

end

/-! ## The children of a place -/

/-- The module at the place `around` stands in front of the place. -/
def InFront (around : Option Nat) (place : Nat) : Prop := ∀ a ∈ around, a < place

theorem InFront.ne {around : Option Nat} {place place' : Nat} (h : InFront around place)
    (hle : place ≤ place') : around ≠ some place' := by
  rintro rfl
  have hlt := h place' rfl
  omega

/-- No module of the subtree stands in a place outside of it. -/
theorem childrenAt_of_outside {around : Option Nat} {place size place' : Nat}
    {listed : List (Module × Option Nat)} (h : ∀ e ∈ listed, StandsIn around place size e.2)
    (hne : around ≠ some place') (hout : place' < place ∨ place + size ≤ place') :
    childrenAt place' listed = [] := by
  refine childrenAt_eq_nil fun e he heq => ?_
  rcases h e he with hin | ⟨a, hin, hle, hlt⟩
  · exact hne (hin ▸ heq)
  · rw [hin] at heq
    cases heq
    omega

/-- The modules of a list that stand in the place around the list are its own members. -/
theorem childrenAt_inner {around place : Nat} (h : around < place) (ms : List Module) :
    childrenAt around (placed.inner (some around) place ms) = ms := by
  induction ms generalizing place with
  | nil => rfl
  | cons m ms ih =>
    obtain ⟨n, cs⟩ := m
    have hinside : childrenAt around (placed.inner (some place) (place + 1) cs) = [] :=
      childrenAt_of_outside (standsIn_of_mem_inner _ _ cs)
        (fun heq => Nat.ne_of_gt h (Option.some.inj heq)) (.inl (by omega))
    have hself : childrenAt around (placed (some around) place (mk n cs)) = [mk n cs] := by
      rw [placed, childrenAt, List.filter_cons_of_pos (by simp), List.map_cons]
      exact congrArg (mk n cs :: ·) hinside
    rw [placed.inner, childrenAt_append, hself, ih (by omega)]
    rfl

mutual

/-- The children of the module at a place are the modules that stand inside it. -/
theorem childrenAt_placed {around : Option Nat} {place : Nat} (h : InFront around place) :
    ∀ (m : Module) {i : Nat} {e : Module × Option Nat}, (m.placed around place)[i]? = some e →
      childrenAt (place + i) (m.placed around place) = e.1.children
  | mk n cs, i, e, he => by
    rw [placed] at he ⊢
    rw [childrenAt_cons_of_ne (h.ne (Nat.le_add_right place i))]
    cases i with
    | zero =>
      cases he
      exact childrenAt_inner (Nat.lt_succ_self place) cs
    | succ i =>
      rw [List.getElem?_cons_succ] at he
      have hinner : InFront (some place) (place + 1) := by
        rintro a ⟨⟩
        exact Nat.lt_succ_self place
      rw [← childrenAt_placedInner hinner cs he]
      congr 1
      omega

theorem childrenAt_placedInner {around : Option Nat} {place : Nat} (h : InFront around place) :
    ∀ (ms : List Module) {i : Nat} {e : Module × Option Nat},
      (placed.inner around place ms)[i]? = some e →
        childrenAt (place + i) (placed.inner around place ms) = e.1.children
  | [], i, e, he => by cases he
  | m :: ms, i, e, he => by
    rw [placed.inner] at he ⊢
    rw [childrenAt_append]
    have hne := h.ne (Nat.le_add_right place i)
    by_cases hi : i < m.size
    · -- the place is in the first subtree, and nothing behind it stands inside
      rw [List.getElem?_append_left (by rwa [length_placed])] at he
      rw [childrenAt_placed h m he, childrenAt_of_outside (standsIn_of_mem_inner _ _ ms) hne
        (.inl (by omega)), List.append_nil]
    · rw [List.getElem?_append_right (by rw [length_placed]; omega), length_placed] at he
      have hrest : InFront around (place + m.size) := fun a ha => by
        have hlt := h a ha
        omega
      have hplace : place + i = place + m.size + (i - m.size) := by omega
      rw [childrenAt_of_outside (standsIn_of_mem_placed _ _ m) hne (.inr (by omega)), hplace,
        childrenAt_placedInner hrest ms he]
      rfl

end

end Module

end TraceMining
