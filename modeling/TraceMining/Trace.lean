import TraceMining.Ordered.Map
import TraceMining.Signal

/-!
# Traces

SPEC_FULL.md, 3: `Trace`, `DeltaTrace` and `TraceStore` of the module `trace`.

A trace gives a state to each of finitely many times. It is a map in key order, so its events come
in chronological order and no time occurs twice; a state stored at an occupied time replaces the
one that was there. The states of a wire are the numbers its bits encode.
-/

namespace TraceMining

/-- A point of simulated time, in the unit of the trace. -/
abbrev Time := Nat

/-- The number that the bits of a wire encode. -/
abbrev Value := Nat

/-- States at distinct times. -/
abbrev Trace (α : Type) := OrderedMap Time α

/-- The changes of one wire. -/
abbrev DeltaTrace := Trace Value

/-- The changes of every wire of a simulation. -/
abbrev Store := OrderedMap AliasGroup DeltaTrace

namespace Trace

variable {α : Type}

/-- The events later than `t` (`Trace::retain`, as `prepare` calls it). -/
def since (t : Time) (x : Trace α) : Trace α := OrderedMap.filter (fun u _ => t < u) x

end Trace

end TraceMining
