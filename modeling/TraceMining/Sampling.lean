import TraceMining.Trace

/-!
# Sampling at the rising edges of a clock

SPEC_FULL.md, 4.2: `posedges`, `clock_period` and `sample` of the module `sampling`.

A wire of a synchronous design matters at the instants at which the clock rises. What an edge sees
is the value that the wire held before that instant: a change at the very time of an edge is seen
by the next edge. The samples of a wire keep the value at the first edge and at every edge that
sees another value than the edge before it.
-/

namespace TraceMining

/-- The times in `events` at which the value becomes 1, `high` telling whether it was 1 before. -/
def risingFrom (high : Bool) : List (Time × Value) → List Time
  | [] => []
  | (t, v) :: rest =>
    if v = 1 then if high then risingFrom true rest else t :: risingFrom true rest
    else risingFrom false rest

/-- The times at which a clock rises: changes to 1 from another value, or from none (`posedges`). -/
def posedges (clock : DeltaTrace) : List Time := risingFrom false clock.entries

/-- The distances between neighbouring edges. -/
def gaps : List Time → List Time
  | s :: t :: rest => (t - s) :: gaps (t :: rest)
  | _ => []

/-- How often each number occurs. -/
def occurrences (ns : List Nat) : OrderedMap Nat Nat :=
  ns.foldl (fun m n => m.alter n fun count => count.getD 0 + 1) ∅

/-- The first of the entries with the greatest count. -/
def mostFrequent (counts : List (Nat × Nat)) : Option (Nat × Nat) :=
  counts.foldl (fun best e =>
    match best with
    | some b => if b.2 ≥ e.2 then some b else some e
    | none => some e) none

/-- The period of a clock: the distance of neighbouring edges that occurs most often, the smallest
of several (`clock_period`). There is none with fewer than two edges. -/
def clockPeriod (edges : List Time) : Option Time :=
  (mostFrequent (occurrences (gaps edges)).entries).map (·.1)

/-- Why a wire cannot be sampled (`SampleError`). -/
inductive SampleError where
  /-- The wire has no value at time 0; its first change, if any, is later. -/
  | missingInitialValue (first : Option Time)
  /-- An edge does not come after the one before it. -/
  | ambiguousSample (previous edge : Time)
  deriving DecidableEq, Repr

/-- The wording of a sampling error. -/
def SampleError.message : SampleError → String
  | missingInitialValue (some t) =>
    "initial value required: first change at Some(" ++ t.repr ++ ")"
  | missingInitialValue none => "initial value required: first change at None"
  | ambiguousSample previous edge =>
    "ambiguous sample: clock edge at " ++ edge.repr ++ " follows edge at " ++ previous.repr

/-- The value held after the events before the time `t`, and the events from `t` on. -/
def advance (held : Value) (t : Time) : List (Time × Value) → Value × List (Time × Value)
  | [] => (held, [])
  | (u, v) :: rest => if u < t then advance v t rest else (held, (u, v) :: rest)

/-- The samples at the remaining edges, the loop of `sample`: `held` is the value after the events
that have passed, `events` are those to come, and `last` is the previous edge with the value it
saw. -/
def sampleFrom (held : Value) (events : List (Time × Value)) (last : Option (Time × Value)) :
    List Time → Except SampleError (List (Time × Value))
  | [] => .ok []
  | edge :: edges =>
    let (seen, rest) := advance held edge events
    match last with
    | none => (sampleFrom seen rest (some (edge, seen)) edges).map ((edge, seen) :: ·)
    | some (previous, value) =>
      if previous ≥ edge then .error (.ambiguousSample previous edge)
      else if value = seen then sampleFrom seen rest (some (edge, seen)) edges
      else (sampleFrom seen rest (some (edge, seen)) edges).map ((edge, seen) :: ·)

/-- The samples of a wire at the given edges (`sample`). -/
def sample (edges : List Time) (wire : DeltaTrace) : Except SampleError DeltaTrace :=
  match wire.first? with
  | some (0, _) => (sampleFrom 0 wire.entries none edges).map .ofList
  | first => .error (.missingInitialValue (first.map (·.1)))

end TraceMining
