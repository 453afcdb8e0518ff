import TraceMining.Proofs.Hierarchy

/-!
# Walking a tree call by call

A walk keeps the modules still to be visited on a stack. A call takes the last of them off and puts
its children on, the last child first, so that the first child is the next to come off. Read from
its end, the stack is the work list of the tree (`Walk.pending_next_of_cons`), so the calls hand out
the modules in the order of the recursive definition, and nothing ever after (`Walk.next_after`).

Names do not tell the modules of a tree apart, but their addresses do: the numbers of the children
on the way down from the root. The modules that a walk meets stand at ascending addresses
(`pairwise_addressed`), and these are all the addresses of the tree (`mem_addressed_iff`), so every
module is met once. An address has one number for each level above its module, which is what the
line of the module in the outline is indented by (`toList_outline`).
-/

namespace TraceMining

namespace Module

/-! ## The stack -/

theorem visit_cons (m : Module) (rest : List Module) :
    visit (m :: rest) = m :: visit (m.children ++ rest) := by
  obtain ⟨n, cs⟩ := m
  rw [visit, children]

/-- A walk in progress: the modules still to be visited, the next of them at the end. -/
structure Walk where
  stack : Array Module

namespace Walk

/-- The walk of a tree before its first call. -/
def start (m : Module) : Walk := ⟨#[m]⟩

/-- One call: the module at the end of the stack is handed out and its children take its place, the
first of them at the end. When nothing is left, nothing is handed out, and nothing changes. -/
def next (w : Walk) : Option Module × Walk :=
  match w.stack.back? with
  | none => (none, w)
  | some m => (some m, ⟨w.stack.pop ++ m.children.reverse⟩)

/-- What is left of the walk after `k` calls. -/
def after (w : Walk) : Nat → Walk
  | 0 => w
  | k + 1 => (w.after k).next.2

/-- The modules of the stack in the order in which they come off. -/
def pending (w : Walk) : List Module := w.stack.toList.reverse

theorem next_of_pending_eq_nil {w : Walk} (h : w.pending = []) : w.next = (none, w) := by
  obtain ⟨⟨modules⟩⟩ := w
  obtain rfl : modules = [] := List.reverse_eq_nil_iff.1 h
  rfl

theorem pending_next_of_cons {w : Walk} {m : Module} {rest : List Module}
    (h : w.pending = m :: rest) :
    w.next.1 = some m ∧ w.next.2.pending = m.children ++ rest := by
  obtain ⟨⟨modules⟩⟩ := w
  obtain rfl : modules = rest.reverse ++ [m] := by
    rw [← List.reverse_cons, ← h, pending, List.reverse_reverse]
  simp [next, pending]

/-- A call takes the front off the modules that are still to be handed out. -/
theorem next_spec (w : Walk) :
    w.next.1 = (visit w.pending).head? ∧ visit w.next.2.pending = (visit w.pending).tail := by
  cases h : w.pending with
  | nil =>
    rw [next_of_pending_eq_nil h, h, visit]
    exact ⟨rfl, rfl⟩
  | cons m rest =>
    obtain ⟨hhanded, hleft⟩ := pending_next_of_cons h
    rw [hhanded, hleft, visit_cons]
    exact ⟨rfl, rfl⟩

theorem visit_pending_after (w : Walk) (k : Nat) :
    visit (w.after k).pending = (visit w.pending).drop k := by
  induction k with
  | zero => rfl
  | succ k ih => rw [after, (next_spec _).2, ih, List.tail_drop]

/-- The calls hand out the modules in the order of the work list, and nothing after the last. -/
theorem next_after (w : Walk) (k : Nat) : (w.after k).next.1 = (visit w.pending)[k]? := by
  rw [(next_spec _).1, visit_pending_after, List.head?_drop]

end Walk

theorem all_eq_flatMap (ms : List Module) : preorder.all ms = ms.flatMap preorder := by
  induction ms with
  | nil => rfl
  | cons m ms ih => rw [preorder.all, ih, List.flatMap_cons]

theorem walk_eq_cons (m : Module) : m.walk = m :: m.children.flatMap walk := by
  obtain ⟨n, cs⟩ := m
  rw [walk_eq_preorder, preorder, all_eq_flatMap, children, funext walk_eq_preorder]

/-- A walk ends after as many calls as the tree has modules. -/
theorem getElem?_walk_eq_none_iff {m : Module} {k : Nat} : m.walk[k]? = none ↔ m.size ≤ k := by
  rw [List.getElem?_eq_none_iff, walk_eq_preorder, length_preorder]

/-! ## Addresses -/

/-- The module at an address: `[]` is the address of the module itself, and `i :: p` the address
`p` in its child number `i`. -/
def descend (m : Module) : List Nat → Option Module
  | [] => some m
  | i :: p => m.children[i]?.bind fun c => c.descend p

/-- The modules of a tree in the order of the walk, each with its address. -/
def addressed : Module → List (List Nat × Module)
  | mk n cs => ([], mk n cs) :: inner 0 cs
where
  inner (i : Nat) : List Module → List (List Nat × Module)
    | [] => []
    | m :: ms => (addressed m).map (fun e => (i :: e.1, e.2)) ++ inner (i + 1) ms

mutual

theorem map_snd_addressed : ∀ m : Module, m.addressed.map (·.2) = m.preorder
  | mk n cs => by
    rw [addressed, preorder, List.map_cons, map_snd_inner 0 cs]

theorem map_snd_inner (i : Nat) :
    ∀ ms : List Module, (addressed.inner i ms).map (·.2) = preorder.all ms
  | [] => rfl
  | m :: ms => by
    rw [addressed.inner, preorder.all, List.map_append, List.map_map, map_snd_inner (i + 1) ms,
      ← map_snd_addressed m]
    rfl

end

theorem mem_inner_iff {p : List Nat} {n : Module} {i : Nat} {ms : List Module} :
    (p, n) ∈ addressed.inner i ms ↔
      ∃ k q c, p = (i + k) :: q ∧ ms[k]? = some c ∧ (q, n) ∈ c.addressed := by
  induction ms generalizing i with
  | nil => simp [addressed.inner]
  | cons m ms ih =>
    rw [addressed.inner, List.mem_append, List.mem_map, ih]
    constructor
    · rintro (⟨⟨q, n⟩, hmem, ⟨⟩⟩ | ⟨k, q, c, rfl, hc, hmem⟩)
      · exact ⟨0, q, m, rfl, rfl, hmem⟩
      · exact ⟨k + 1, q, c, by rw [Nat.add_assoc, Nat.add_comm 1 k], hc, hmem⟩
    · rintro ⟨k, q, c, rfl, hc, hmem⟩
      cases k with
      | zero =>
        cases hc
        exact .inl ⟨(q, n), hmem, rfl⟩
      | succ k => exact .inr ⟨k, q, c, by rw [Nat.add_assoc, Nat.add_comm 1 k], hc, hmem⟩

/-- The listed addresses are all those of the tree, each with the module it leads to. -/
theorem mem_addressed_iff {m n : Module} {p : List Nat} :
    (p, n) ∈ m.addressed ↔ m.descend p = some n := by
  -- on the address, which gets shorter with each child it leads through
  induction p generalizing m with
  | nil =>
    obtain ⟨name, cs⟩ := m
    have hinner : ([], n) ∉ addressed.inner 0 cs := fun h => by
      obtain ⟨k, q, c, hp, -⟩ := mem_inner_iff.1 h
      cases hp
    simp [addressed, descend, hinner, eq_comm]
  | cons i p ih =>
    obtain ⟨name, cs⟩ := m
    rw [addressed, List.mem_cons, mem_inner_iff, descend, children, Option.bind_eq_some_iff]
    constructor
    · rintro (h | ⟨k, q, c, hp, hc, hmem⟩)
      · cases h
      · rw [Nat.zero_add] at hp
        cases hp
        exact ⟨c, hc, ih.1 hmem⟩
    · rintro ⟨c, hc, hn⟩
      exact .inr ⟨i, p, c, by rw [Nat.zero_add], hc, ih.2 hn⟩

mutual

/-- The addresses ascend: a module comes before those inside it, and those inside a child before
those inside a later one. -/
theorem pairwise_addressed : ∀ m : Module, m.addressed.Pairwise fun e f => e.1 < f.1
  | mk n cs => by
    rw [addressed, List.pairwise_cons]
    refine ⟨fun ⟨p, c⟩ h => ?_, pairwise_inner 0 cs⟩
    obtain ⟨k, q, -, rfl, -⟩ := mem_inner_iff.1 h
    exact List.nil_lt_cons _ _

theorem pairwise_inner (i : Nat) :
    ∀ ms : List Module, (addressed.inner i ms).Pairwise fun e f => e.1 < f.1
  | [] => .nil
  | m :: ms => by
    rw [addressed.inner, List.pairwise_append, List.pairwise_map]
    refine ⟨(pairwise_addressed m).imp fun h => ?_, pairwise_inner (i + 1) ms, fun e he f hf => ?_⟩
    · exact List.cons_lt_cons_iff.2 (.inr ⟨rfl, h⟩)
    · obtain ⟨e, -, rfl⟩ := List.mem_map.1 he
      obtain ⟨p, c⟩ := f
      obtain ⟨k, q, -, rfl, -⟩ := mem_inner_iff.1 hf
      exact List.cons_lt_cons_iff.2 (.inl (by omega))

end

/-- Two modules of one name have addresses of their own. -/
example :
    (mk "TOP" [mk "TOP.a" [mk "TOP.a.b" []], mk "TOP.a" []]).addressed.map
        (fun e => (e.1, e.2.name)) =
      [([], "TOP"), ([0], "TOP.a"), ([0, 0], "TOP.a.b"), ([1], "TOP.a")] := rfl

/-! ## The outline -/

/-- The line of a module in an outline: two spaces for each level above it, its name, and a line
feed. -/
def line (depth : Nat) (m : Module) : List Char :=
  List.replicate (2 * depth) ' ' ++ m.name.toList ++ ['\n']

mutual

theorem toList_outline (depth : Nat) : ∀ m : Module,
    (m.outline depth).toList = m.addressed.flatMap fun e => line (depth + e.1.length) e.2
  | mk n cs => by
    rw [outline, addressed, List.flatMap_cons, ← toList_inner depth 0 cs]
    simp [line, name]

theorem toList_inner (depth i : Nat) : ∀ ms : List Module,
    (outline.inner depth ms).toList =
      (addressed.inner i ms).flatMap fun e => line (depth + e.1.length) e.2
  | [] => rfl
  | m :: ms => by
    rw [outline.inner, addressed.inner, String.toList_append, List.flatMap_append,
      ← toList_inner depth (i + 1) ms, toList_outline (depth + 1) m, List.flatMap_map]
    simp only [List.length_cons, Nat.add_assoc, Nat.add_comm 1]

end

/-- **A walk is the recursive order of the tree.** The calls hand out the modules of the walk one by
one and come to an end, after as many calls as the tree has modules. The walk is the module itself
and then the walks of its children from first to last. It meets every module of the tree once, by
ascending address. The outline consists of the lines of the modules in this order, each indented by
two spaces for every level of its address. -/
theorem walk_exact (m : Module) :
    (∀ k, ((Walk.start m).after k).next.1 = m.walk[k]?) ∧
    (∀ k, ((Walk.start m).after k).next.1 = none ↔ m.size ≤ k) ∧
    m.walk = m :: m.children.flatMap walk ∧
    m.addressed.map (·.2) = m.walk ∧
    (m.addressed.Pairwise fun e f => e.1 < f.1) ∧
    (∀ p n, (p, n) ∈ m.addressed ↔ m.descend p = some n) ∧
    m.display.toList = m.addressed.flatMap fun e => line e.1.length e.2 := by
  have hcalls : ∀ k, ((Walk.start m).after k).next.1 = m.walk[k]? := Walk.next_after _
  have hwalk : m.addressed.map (·.2) = m.walk := by
    rw [map_snd_addressed, walk_eq_preorder]
  have houtline : m.display.toList = m.addressed.flatMap fun e => line e.1.length e.2 := by
    rw [display, toList_outline]
    simp only [Nat.zero_add]
  exact ⟨hcalls, fun k => hcalls k ▸ getElem?_walk_eq_none_iff, walk_eq_cons m, hwalk,
    pairwise_addressed m, fun _ _ => mem_addressed_iff, houtline⟩

end Module

end TraceMining
