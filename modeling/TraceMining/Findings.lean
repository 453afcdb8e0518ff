import TraceMining.Ordered.Map
import TraceMining.Property

/-!
# Findings

SPEC_FULL.md, 4.5: `MinerResult` of the module `property`, and `merge_stats`, `merge_into` and
`aggregate` of the module of that name.

Findings are the evidence for every property that was looked at, in one simulation or in several.
Findings of several simulations are absorbed one after the other: support adds up until a
simulation falsifies the property, and what was falsified or falsifiable once stays so.
-/

namespace TraceMining

/-- The evidence for each property. -/
abbrev Findings := OrderedMap Property Stats

namespace Stats

/-- The evidence after a later simulation (`merge_stats`). -/
def absorb (earlier later : Stats) : Stats :=
  let falsifiable := earlier.falsifiable || later.falsifiable
  if earlier.falsified then { earlier with falsifiable }
  else if later.falsified then ⟨earlier.support, falsifiable, true⟩
  else ⟨earlier.support + later.support, falsifiable, false⟩

/-- Whether the property was completed at least once and never violated. -/
def survives (s : Stats) : Bool := !s.falsified && decide (0 < s.support)

end Stats

namespace Findings

/-- The findings after those of a later simulation (`merge_into`). -/
def absorb (earlier later : Findings) : Findings :=
  later.entries.foldl (fun f e =>
    f.alter e.1 fun
      | some s => s.absorb e.2
      | none => e.2) earlier

/-- The findings of several simulations, in order (`aggregate`). -/
def aggregate (all : List Findings) : Findings := all.foldl absorb ∅

/-- More support comes first, and among equal support the lesser property. -/
def stronger (e f : Property × Stats) : Bool :=
  (compare f.2.support e.2.support).then (compare e.1 f.1) |>.isLE

/-- The properties that were completed and never violated, the best supported first
(`MinerResult::surviving`). -/
def surviving (f : Findings) : List (Property × Stats) :=
  (f.entries.filter (·.2.survives)).mergeSort stronger

end Findings

end TraceMining
