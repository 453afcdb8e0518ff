import TraceMining.Interleaving
import TraceMining.Property

/-!
# Checking a pattern

SPEC_FULL.md, 4.4, the module `automaton`: its transition functions `alternating`, `next`, `until`
and `eventual` are the `react` of the four types of states, and its `step`, `finish` and `run` are
`Run.step`, `Pattern.report` and `Pattern.check`.

Each pattern is a finite machine that reads the co-occurrences of two wires in chronological
order. It never looks at a value, only at the side that changed and at the time. A run of the
machine counts how often the pattern was completed and stops at the first violation; what comes
after a violation changes nothing (`Run.step_of_halted`).
-/

namespace TraceMining

/-- The side of a co-occurrence. -/
inductive Side where
  | a
  | b
  | both
  deriving DecidableEq, Repr

/-- Which of the two wires changed. -/
def Cooccurrence.side : Cooccurrence → Side
  | left _ => .a
  | right _ => .b
  | both _ _ => .both

/-- What a machine does with one co-occurrence. -/
inductive Reaction (σ : Type) where
  /-- The pattern is violated. -/
  | violation
  /-- The machine moves on; the pattern may have been completed, and it may have become possible
  to violate it. -/
  | move (state : σ) (completed opened : Bool)

/-- A machine that checks a pattern. -/
structure Machine (σ : Type) where
  start : σ
  react : σ → Side → Time → Reaction σ

/-! ## The machines of the four patterns -/

/-- Whose change an alternation waits for. -/
inductive Alternation where
  | awaitA
  | awaitB
  deriving DecidableEq, Repr

/-- The wires have to take turns, the first one beginning (`alternating`). -/
def Alternation.react : Alternation → Side → Reaction Alternation
  | awaitA, .a => .move awaitB false true
  | awaitB, .b => .move awaitA true false
  | awaitB, .a => .violation
  | awaitA, .b => .violation
  | _, .both => .violation

/-- Whether an answer is due, and since when. -/
inductive Succession where
  | idle
  | armed (since : Time)
  deriving DecidableEq, Repr

/-- An answer has to come one period after the change it answers; a change of both wires is an
answer at whatever time it comes, and asks for the next one (`next`). -/
def Succession.react (period : Time) : Succession → Side → Time → Reaction Succession
  | idle, .a, t => .move (armed t) false true
  | idle, .both, t => .move (armed t) false true
  | idle, .b, _ => .move idle false false
  | armed _, .both, t => .move (armed t) true false
  | armed _, .a, _ => .violation
  | armed since, .b, t => if t - since = period then .move idle true false else .violation

/-- Whether the first wire has to keep still. -/
inductive Hold where
  | idle
  | holding
  deriving DecidableEq, Repr

/-- The first wire has to keep still until the second one changes (`until`). -/
def Hold.react : Hold → Side → Reaction Hold
  | idle, .a => .move holding false true
  | idle, .both => .move holding false true
  | idle, .b => .move idle false false
  | holding, .both => .move holding true false
  | holding, .a => .violation
  | holding, .b => .move idle true false

/-- Whether a change waits for its answer; `answered` means that the last change of both wires
answered the change before it and waits for an answer itself. -/
inductive Expectation where
  | idle
  | pending
  | answered
  deriving DecidableEq, Repr

/-- Nothing violates an expectation, since its answer may still come (`eventual`). -/
def Expectation.react : Expectation → Side → Reaction Expectation
  | idle, .a => .move pending false true
  | idle, .both => .move pending false true
  | idle, .b => .move idle false false
  | pending, .both => .move answered true false
  | pending, .a => .move pending false false
  | answered, .both => .move answered false false
  | answered, .a => .move pending false false
  | pending, .b => .move idle true false
  | answered, .b => .move idle true false

namespace Pattern

/-- The states of the machine of a pattern. -/
def State : Pattern → Type
  | alternating => Alternation
  | next => Succession
  | holdUntil => Hold
  | eventual => Expectation

/-- The machine of a pattern, `period` being the period of the clock. -/
def machine (period : Time) : (p : Pattern) → Machine p.State
  | alternating => ⟨Alternation.awaitA, fun s side _ => Alternation.react s side⟩
  | next => ⟨Succession.idle, Succession.react period⟩
  | holdUntil => ⟨Hold.idle, fun s side _ => Hold.react s side⟩
  | eventual => ⟨Expectation.idle, fun s side _ => Expectation.react s side⟩

end Pattern

/-! ## Runs -/

/-- What was found out about a pattern on two wires (`Outcome`). -/
structure Outcome where
  stats : Stats
  /-- The time of the violation. -/
  falsifiedAt : Option Time
  deriving DecidableEq, Repr

/-- Whether the pattern was not violated. -/
def Outcome.holds (o : Outcome) : Bool := !o.stats.falsified

/-- A machine at work: its state and what it has found out so far. -/
structure Run (σ : Type) where
  state : σ
  outcome : Outcome

namespace Run

variable {σ : Type}

/-- The run that has read nothing. -/
def start (m : Machine σ) : Run σ := ⟨m.start, ⟨.none, none⟩⟩

/-- Whether the run has met a violation. -/
def isHalted (r : Run σ) : Bool := r.outcome.falsifiedAt.isSome

/-- Reads one co-occurrence, unless a violation was met (`Automaton::step`). -/
def step (m : Machine σ) (r : Run σ) (c : Cooccurrence) : Run σ :=
  if r.isHalted then r
  else
    let stats := r.outcome.stats
    match m.react r.state c.side c.time with
    | .violation => { r with outcome := ⟨{ stats with falsified := true }, some c.time⟩ }
    | .move state completed opened =>
      ⟨state, ⟨{ stats with
        support := if completed then stats.support + 1 else stats.support
        falsifiable := stats.falsifiable || opened }, none⟩⟩

theorem step_of_halted {m : Machine σ} {r : Run σ} (h : r.isHalted = true) (c : Cooccurrence) :
    r.step m c = r := by
  rw [step, if_pos h]

/-- Reads co-occurrences one after the other. -/
def steps (m : Machine σ) (r : Run σ) (cs : List Cooccurrence) : Run σ := cs.foldl (step m) r

end Run

/-- The outcome to report when a run ends (`Automaton::finish`). Since an eventual answer may always
still come, that pattern counts as falsifiable only once it was completed. -/
def Pattern.report (p : Pattern) (o : Outcome) : Outcome :=
  if p = .eventual then
    { o with stats := { o.stats with falsifiable := decide (0 < o.stats.support) } }
  else o

/-- The outcome of a pattern on two wires (`automaton::run`). A wire does not alternate with an
equal one, which is decided without running the machine. -/
def Pattern.check (p : Pattern) (a b : DeltaTrace) (period : Time) : Outcome :=
  if p = .alternating ∧ a = b then ⟨⟨0, true, true⟩, a.first?.map (·.1)⟩
  else
    let m := p.machine period
    p.report ((Run.start m).steps m (cooccurrences a b)).outcome

end TraceMining
