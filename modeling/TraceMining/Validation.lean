import TraceMining.Checker
import TraceMining.Findings
import TraceMining.Preparation

/-!
# Validation

SPEC_FULL.md, 4.5: `check`, `validate` and `ValidationReport` of the module `validate`.

A mined property is a candidate until it was checked against a simulation that took no part in
mining. The report of such a check lists the properties that were violated, by the time of the
violation.
-/

namespace TraceMining

/-- Why a property is not checked. -/
inductive SkipReason where
  /-- One of its wires is not in the simulation. -/
  | unknownOperand
  /-- It was falsified while it was mined. -/
  | alreadyFalsified
  deriving DecidableEq, Repr

/-- What checking a property came to. -/
inductive Verdict where
  | held (stats : Stats)
  | skipped (reason : SkipReason)
  | violated (time : Time) (stats : Stats)
  deriving DecidableEq, Repr

/-- Checks a property with its mined evidence against a simulation (`check`). -/
def judge (property : Property) (mined : Stats) (prepared : Prepared) : Verdict :=
  match prepared.store.lookup property.a, prepared.store.lookup property.b with
  | some a, some b =>
    if mined.falsified then .skipped .alreadyFalsified
    else
      let outcome := property.pattern.check a b prepared.period
      match outcome.falsifiedAt with
      | some time => .violated time outcome.stats
      | none => .held outcome.stats
  | _, _ => .skipped .unknownOperand

/-- A property that a simulation violated. -/
structure Violation where
  property : Property
  /-- The time of the first violation. -/
  time : Time
  /-- The support that was mined. -/
  support : Nat
  deriving DecidableEq

namespace Violation

/-- Violations are listed by time, and at one time by property. -/
def before (v w : Violation) : Bool :=
  (compare v.time w.time).then (compare v.property w.property) |>.isLE

/-- The wording of a violation. -/
def display (v : Violation) : String :=
  v.property.display ++ " violated at " ++ v.time.repr ++ " (mined support " ++ v.support.repr
    ++ ")"

end Violation

/-- What checking many properties came to (`ValidationReport`). -/
structure Report where
  /-- The violated properties, by time and then by property. -/
  violations : List Violation
  skipped : Nat
  held : Nat
  deriving DecidableEq

namespace Report

/-- A property, its mined evidence, and the verdict on it. -/
abbrev Item := Property × Stats × Verdict

/-- The violation that an item tells of. -/
def violation? : Item → Option Violation
  | (property, mined, .violated time _) => some ⟨property, time, mined.support⟩
  | _ => none

/-- Whether an item tells that a property was not checked. -/
def isSkipped : Item → Bool
  | (_, _, .skipped _) => true
  | _ => false

/-- Whether an item tells that a property held. -/
def isHeld : Item → Bool
  | (_, _, .held _) => true
  | _ => false

/-- The report on a list of items; equal violations keep the order of the list. -/
def ofItems (items : List Item) : Report :=
  ⟨(items.filterMap violation?).mergeSort Violation.before, items.countP isSkipped,
    items.countP isHeld⟩

/-- Whether nothing was violated. -/
def isClean (r : Report) : Bool := r.violations.isEmpty

/-- The exit status that a report asks for (`exit_code`). -/
def exitCode (r : Report) : Nat := if r.isClean then 0 else 1

/-- One line for each violation. -/
def display (r : Report) : String := String.join (r.violations.map (·.display ++ "\n"))

end Report

/-- The verdict on every property of some findings. -/
def verdicts (findings : Findings) (prepared : Prepared) : List Report.Item :=
  findings.entries.map fun (property, mined) => (property, mined, judge property mined prepared)

/-- Checks all properties of some findings against a simulation (`validate`). -/
def validate (findings : Findings) (prepared : Prepared) : Report :=
  .ofItems (verdicts findings prepared)

end TraceMining
