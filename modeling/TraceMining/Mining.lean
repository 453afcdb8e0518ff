import TraceMining.Checker
import TraceMining.Findings
import TraceMining.Preparation

/-!
# Mining

SPEC_FULL.md, 2 and 11: `module_groups`, `mine_module` and `mine_trace` of the module `miner`.

Properties are proposed between wires that are declared together: every pattern is checked for
every ordered pair of different wires with a signal declared directly in one and the same module.
What reaches the least support is kept.
-/

namespace TraceMining

/-- The wires of a module, in order, with their samples (`module_groups`). -/
def moduleWires (module : Module) (store : Store) : List (AliasGroup × DeltaTrace) :=
  store.entries.filter fun e => e.1.declaredIn module.name

/-- The finding for one pattern and one pair of wires, if it has the least support. -/
def examine (period : Time) (minSupport : Nat) (a b : AliasGroup × DeltaTrace)
    (pattern : Pattern) : Option (Property × Stats) :=
  let stats := (pattern.check a.2 b.2 period).stats
  if minSupport ≤ stats.support then some (⟨pattern, a.1, b.1⟩, stats) else none

/-- The findings of one module (`mine_module`). -/
def mineModule (module : Module) (prepared : Prepared) (settings : Settings) : Findings :=
  let wires := moduleWires module prepared.store
  .ofList <| wires.flatMap fun a =>
    (wires.filter fun b => a.1 != b.1).flatMap fun b =>
      Pattern.all.filterMap (examine prepared.period settings.minSupport a b)

/-- The findings of all modules of a design (`mine_trace`). -/
def mine (prepared : Prepared) (settings : Settings) : Findings :=
  prepared.root.walk.foldl (fun f m => f.insertAll (mineModule m prepared settings).entries) ∅

end TraceMining
