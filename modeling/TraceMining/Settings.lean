import TraceMining.Signal
import TraceMining.Text.Numeral

/-!
# Settings

SPEC_FULL.md, 10.3: `MinerConfig` with `contains_any`, `is_junk`, `is_clock` and `validate`.

The settings shared by mining and validation. A wire is told to be a clock or a temporary of a
generator by fragments of its names. Main statement: accepted settings name a clock fragment that
is not empty (`exists_fragment_of_validate`).
-/

namespace TraceMining

/-- The settings of a session (`MinerConfig`). -/
structure Settings where
  /-- Samples at this time or earlier are dropped. -/
  startTime : Nat
  /-- The width of the widest wire that is mined. -/
  signalBitLimit : Nat
  /-- Fragments that mark the names of temporaries. -/
  junkFragments : List String
  /-- Fragments that mark the names of the clock. -/
  clockFragments : List String
  /-- The least support of a property that is kept. -/
  minSupport : Nat
  deriving DecidableEq, Repr

namespace Settings

/-- The settings where nothing else is said. -/
def default : Settings := ⟨0, 5, ["_RAND", "_GEN", "_T", "reset"], ["clk", "clock"], 1⟩

instance : Inhabited Settings := ⟨default⟩

/-- Whether one of the fragments stands in a name (`contains_any`). The empty fragment stands in
every name. -/
def containsAny (fragments : List String) (name : String) : Bool :=
  fragments.any fun f => Text.occursIn f.toList name.toList

/-- Whether the signal is named as a temporary. -/
def isJunk (s : Settings) (signal : Signal) : Bool := containsAny s.junkFragments signal.name

/-- Whether the signal is named as a clock. -/
def isClock (s : Settings) (signal : Signal) : Bool := containsAny s.clockFragments signal.name

/-- Why settings are not acceptable. -/
inductive Flaw where
  | noClockFragment
  | noSupport
  deriving DecidableEq, Repr

/-- The wording of a flaw. -/
def Flaw.message : Flaw → String
  | noClockFragment => "invalid configuration: at least one clock fragment is required"
  | noSupport => "invalid configuration: min_support must be at least 1"

/-- The settings, if they are acceptable (`MinerConfig::validate`). -/
def validate (s : Settings) : Except Flaw Settings :=
  if s.clockFragments.all (·.isEmpty) then .error .noClockFragment
  else if s.minSupport = 0 then .error .noSupport
  else .ok s

theorem exists_fragment_of_validate {s t : Settings} (h : s.validate = .ok t) :
    ∃ f ∈ t.clockFragments, f ≠ "" := by
  unfold validate at h
  split at h
  · cases h
  · rename_i hall
    split at h
    · cases h
    · cases h
      simpa [String.isEmpty_iff] using hall

end Settings

end TraceMining
