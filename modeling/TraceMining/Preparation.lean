import TraceMining.Hierarchy
import TraceMining.Sampling
import TraceMining.Settings
import TraceMining.Waveform.Reader

/-!
# Preparing a dump for mining

SPEC_FULL.md, 6: `find_clock` and `prepare` of the module `clean`.

Mining works on wires as the edges of the clock see them. A dump is prepared by finding its clock,
dropping the names of temporaries, the wires that are too wide and those that were never driven,
sampling what is left at the rising edges of the clock, and dropping what lies at or before the
start time.
-/

namespace TraceMining

open Waveform (Dump)

/-- Why a dump has no usable clock (`ClockError`). -/
inductive ClockError where
  /-- None of the given number of wires is named as a clock. -/
  | missing (wires : Nat)
  /-- Several wires are. -/
  | multiple (names : List String)
  /-- One is, and a signal of it is not one bit wide. -/
  | wide (name : String)
  /-- The clock does not have two rising edges. -/
  | tooFewEdges (name : String) (edges : Nat)
  deriving DecidableEq, Repr

/-- The wording of a clock error. -/
def ClockError.message : ClockError → String
  | missing n => "no clock found among " ++ n.repr ++ " signal groups"
  | multiple names =>
    "found " ++ names.length.repr ++ " clock candidates: " ++ "; ".intercalate names
  | wide name => "clock " ++ name ++ " has a member wider than one bit"
  | tooFewEdges name edges =>
    "clock " ++ name ++ " has " ++ edges.repr ++ " rising edges, at least two are required"

/-- Whether one text does not come after another. -/
def textLE (s t : String) : Bool := (compare s t).isLE

/-- The only wire that is named as a clock (`find_clock`). -/
def findClock (store : Store) (settings : Settings) :
    Except ClockError (AliasGroup × DeltaTrace) :=
  match store.entries.filter fun e => e.1.any settings.isClock with
  | [] => .error (.missing store.size)
  | [(group, events)] =>
    if group.any fun s => s.width != 1 then .error (.wide group.display) else .ok (group, events)
  | several => .error (.multiple ((several.map (·.1.display)).mergeSort textLE))

/-- A dump as the edges of its clock see it (`PreparedTrace`). -/
structure Prepared where
  root : Module
  /-- The samples of the wires that are worth mining; the clock is not one of them. -/
  store : Store
  clock : AliasGroup
  /-- The period of the clock. -/
  period : Time

/-- Why a dump cannot be prepared. -/
inductive PreparationError where
  | clock (e : ClockError)
  /-- A wire, named with all its signals, cannot be sampled. -/
  | sample (group : AliasGroup) (e : SampleError)
  deriving DecidableEq

/-- The wording of an error of preparation. -/
def PreparationError.message : PreparationError → String
  | clock e => e.message
  | sample group e => "unable to sample " ++ group.display ++ ": " ++ e.message

/-- The names of a wire that are not names of temporaries. -/
def keptNames (settings : Settings) (group : AliasGroup) : AliasGroup :=
  group.filter fun s => !settings.isJunk s

/-- Whether a wire is worth sampling: it has a name left, is not too wide, and was driven. -/
def isWorthwhile (settings : Settings) (wire : AliasGroup × DeltaTrace) : Bool :=
  let kept := keptNames settings wire.1
  !kept.isEmpty && decide (kept.width ≤ settings.signalBitLimit) && !wire.2.isEmpty

/-- The samples of a wire later than the start time, under the names that are kept; one round of the
loop of `prepare`. -/
def prepareWire (settings : Settings) (edges : List Time) (wire : AliasGroup × DeltaTrace) :
    Except PreparationError (AliasGroup × DeltaTrace) :=
  match sample edges wire.2 with
  | .error e => .error (.sample wire.1 e)
  | .ok samples => .ok (keptNames settings wire.1, samples.since settings.startTime)

/-- The wires worth mining, sampled at the given edges. -/
def prepareStore (settings : Settings) (clock : AliasGroup) (edges : List Time) (store : Store) :
    Except PreparationError Store := do
  let wires := store.entries.filter fun e => e.1 != clock && isWorthwhile settings e
  let sampled ← wires.mapM (prepareWire settings edges)
  .ok (.ofList (sampled.filter fun e => !e.2.isEmpty))

/-- The dump as the edges of its clock see it (`prepare`). -/
def prepare (dump : Dump) (settings : Settings) : Except PreparationError Prepared := do
  let (clock, events) ← (findClock dump.store settings).mapError .clock
  let edges := posedges events
  match clockPeriod edges with
  | none => .error (.clock (.tooFewEdges clock.display edges.length))
  | some period =>
    let store ← prepareStore settings clock edges dump.store
    .ok ⟨dump.root, store, clock, period⟩

end TraceMining
