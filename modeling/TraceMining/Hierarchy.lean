/-!
# Design hierarchy

SPEC_FULL.md, 3: `Module` with its iterator `Walk`, a stack of modules to be visited.

The modules of a design form a tree; a module's name is its full path from the root. Main
statement: visiting the tree with a work list of modules still to be visited meets the modules in
the order of the recursive definition, a module before its children and the children from first
to last (`walk_eq_preorder`).
-/

namespace TraceMining

/-- A module of the design with the modules inside it, in their order of declaration. -/
inductive Module where
  | mk (name : String) (children : List Module)
  deriving Inhabited

namespace Module

/-- The full path of the module. -/
def name : Module → String
  | mk n _ => n

/-- The modules directly inside. -/
def children : Module → List Module
  | mk _ cs => cs

/-- The number of modules of a tree, itself included. -/
def size : Module → Nat
  | mk _ cs => 1 + sizes cs
where
  sizes : List Module → Nat
    | [] => 0
    | m :: ms => size m + sizes ms

/-- A module, then the modules of its children from first to last. -/
def preorder : Module → List Module
  | mk n cs => mk n cs :: all cs
where
  all : List Module → List Module
    | [] => []
    | m :: ms => preorder m ++ all ms

theorem sizes_append (ms ns : List Module) :
    size.sizes (ms ++ ns) = size.sizes ms + size.sizes ns := by
  induction ms with
  | nil => simp [size.sizes]
  | cons m ms ih => simp only [List.cons_append, size.sizes, ih]; omega

/-- Visits the modules of a work list: the first is met, and its children take its place. -/
def visit : List Module → List Module
  | [] => []
  | mk n cs :: rest => mk n cs :: visit (cs ++ rest)
termination_by work => size.sizes work
decreasing_by simp only [sizes_append, size.sizes, size]; omega

/-- The modules of a tree in the order in which they are visited (`Module::walk`). -/
def walk (m : Module) : List Module := visit [m]

theorem all_append (ms ns : List Module) :
    preorder.all (ms ++ ns) = preorder.all ms ++ preorder.all ns := by
  induction ms with
  | nil => simp [preorder.all]
  | cons m ms ih => simp only [List.cons_append, preorder.all, ih, List.append_assoc]

theorem visit_eq_all (work : List Module) : visit work = preorder.all work := by
  induction work using visit.induct with
  | case1 => simp [visit, preorder.all]
  | case2 n cs rest ih =>
    rw [visit, ih, all_append, preorder.all, preorder, List.cons_append]

theorem walk_eq_preorder (m : Module) : m.walk = m.preorder := by
  simp [walk, visit_eq_all, preorder.all]

/-- One line for each module, indented by two spaces for each level above it (`write_indented`). -/
def outline (depth : Nat) : Module → String
  | mk n cs => String.ofList (List.replicate (2 * depth) ' ') ++ n ++ "\n" ++ inner depth cs
where
  inner (depth : Nat) : List Module → String
    | [] => ""
    | m :: ms => outline (depth + 1) m ++ inner depth ms

/-- The tree as an indented outline. -/
def display (m : Module) : String := m.outline 0

end Module

end TraceMining
