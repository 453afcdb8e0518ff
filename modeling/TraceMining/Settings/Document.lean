import TraceMining.Settings
import TraceMining.Toml.Reader

/-!
# Settings from a TOML document

SPEC_FULL.md, 10.3: `MinerConfig::from_toml`.

A document gives some of the settings; the others keep their defaults. Every setting that is given
must have just its type. Keys that are no settings are of no concern, but the document must be
well formed as a whole.
-/

namespace TraceMining.Settings

open Text

/-- The keys of the settings. -/
inductive Key where
  | startTime
  | signalBitLimit
  | junkFragments
  | clockFragments
  | minSupport
  deriving DecidableEq, Repr

namespace Key

/-- All keys. -/
def all : List Key := [startTime, signalBitLimit, junkFragments, clockFragments, minSupport]

/-- The spelling of a key. -/
def name : Key → String
  | startTime => "start_time"
  | signalBitLimit => "signal_bit_limit"
  | junkFragments => "junk_fragments"
  | clockFragments => "clock_fragments"
  | minSupport => "min_support"

/-- Whether the setting is a list of fragments. -/
def isList : Key → Bool
  | junkFragments => true
  | clockFragments => true
  | _ => false

/-- The value of a key in a table. -/
def find? (k : Key) (t : Toml) : Option Toml := t.field? k.name.toList

end Key

/-- Why settings cannot be had. -/
inductive Error where
  /-- The document is not well formed, or a setting does not have its type. -/
  | document
  /-- A layer of settings cannot be read, or a setting cannot be converted to its type. -/
  | layers
  | flaw (f : Flaw)
  deriving DecidableEq, Repr

/-- The settings that conversions of single values find, `number` being given a limit that the
number must stay below; a setting without a value is the default. -/
def assemble (find : Key → Option Toml) (number : Nat → Toml → Option Nat)
    (fragments : Toml → Option (List String)) : Option Settings := do
  let numberOr (k : Key) (limit fallback : Nat) : Option Nat :=
    match find k with
    | some v => number limit v
    | none => some fallback
  let fragmentsOr (k : Key) (fallback : List String) : Option (List String) :=
    match find k with
    | some v => fragments v
    | none => some fallback
  some {
    startTime := ← numberOr .startTime wordLimit default.startTime
    signalBitLimit := ← numberOr .signalBitLimit halfWordLimit default.signalBitLimit
    junkFragments := ← fragmentsOr .junkFragments default.junkFragments
    clockFragments := ← fragmentsOr .clockFragments default.clockFragments
    minSupport := ← numberOr .minSupport wordLimit default.minSupport }

/-- The settings, if conversion found them and they are acceptable. -/
def accept (cause : Error) (settings : Option Settings) : Except Error Settings :=
  match settings with
  | none => .error cause
  | some s => s.validate.mapError .flaw

/-- A natural number below a limit. -/
def exactNumber (limit : Nat) : Toml → Option Nat
  | .integer n => if 0 ≤ n ∧ n < limit then some n.toNat else none
  | _ => none

/-- A list of texts. -/
def exactFragments : Toml → Option (List String)
  | .array items => items.mapM fun
    | .text s => some (String.ofList s)
    | _ => none
  | _ => none

/-- The settings that a document gives (`from_toml`). Integers of any key must fit into 128 bits,
with a sign if they are negative; dotted keys only pass through implied tables. -/
def ofToml (text : List Char) : Except Error Settings :=
  accept .document do
    let t ← Toml.read .through text
    if t.integersWithin (-(doubleWordLimit / 2 : Nat)) (doubleWordLimit - 1 : Nat) then
      assemble (·.find? t) exactNumber exactFragments
    else none

end TraceMining.Settings
