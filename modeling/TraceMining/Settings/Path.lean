import TraceMining.Text.Blank
import TraceMining.Toml.Value

/-!
# Paths in the keys of a layer

SPEC_FULL.md, 10.3: the keys of the layers that `MinerConfig::load` puts together.

A key of a layer may be a path: the name of a setting, then steps to a field of a table or to an
item of a list, counted from the end if negative. A value given for a path changes that place and
nothing else.
-/

namespace TraceMining.Settings

open Text

/-- A step of a path. -/
inductive Step where
  | field
  | item (index : Int)
  deriving DecidableEq, Repr

/-- Whether a character may stand in a name of a path. -/
def isNameChar (c : Char) : Bool := c.isAlphanum || c = '_' || c = '-'

/-- The index between brackets, a signed number of 64 bits, and what follows the closing one. -/
def index? (s : List Char) : Option (Int × List Char) :=
  let s := s.dropWhile isBlank
  let (negative, s) := match s with
    | '-' :: s => (true, s)
    | s => (false, s)
  let ds := s.takeWhile Char.isDigit
  match (s.dropWhile Char.isDigit).dropWhile isBlank with
  | ']' :: rest =>
    let i : Int := if negative then -(value ds : Int) else (value ds : Int)
    if !ds.isEmpty && Int64.minValue.toInt ≤ i && i ≤ Int64.maxValue.toInt then some (i, rest)
    else none
  | _ => none

/-- The steps of a path behind its first name, of which at most `fuel` are read. -/
def steps? : (fuel : Nat) → List Char → Option (List Step)
  | _, [] => some []
  | 0, _ => none
  | fuel + 1, '.' :: s =>
    if (s.takeWhile isNameChar).isEmpty then none
    else (steps? fuel (s.dropWhile isNameChar)).map (.field :: ·)
  | fuel + 1, '[' :: s => do
    let (i, rest) ← index? s
    (steps? fuel rest).map (.item i :: ·)
  | _ + 1, _ => none

/-- The first name of a path and the steps behind it. -/
def path? (s : List Char) : Option (List Char × List Step) :=
  let name := s.takeWhile isNameChar
  if name.isEmpty then none
  else (steps? s.length (s.dropWhile isNameChar)).map fun steps => (name, steps)

/-- What stands where nothing was given. -/
def nothing : Toml := .table .implied []

/-- A list with the item at an index changed. A list that is too short grows by items that are
nothing, at its end or, for a negative index, in front. -/
def changeItem (index : Int) (change : Toml → Toml) (items : List Toml) : List Toml :=
  let place : Int := if index < 0 then items.length + index else index
  if place < 0 then change nothing :: (List.replicate ((-place).toNat - 1) nothing ++ items)
  else
    let missing := List.replicate (place.toNat + 1 - items.length) nothing
    (items ++ missing).modify place.toNat change

/-- A value with the place at the end of some steps given the value `v`. A table is no value of a
setting, so its fields are not kept. -/
def assign : List Step → (v : Toml) → Toml → Toml
  | [], v, _ => v
  | .field :: _, _, _ => nothing
  | .item i :: steps, v, .array items => .array (changeItem i (assign steps v) items)
  | .item i :: steps, v, _ => .array (changeItem i (assign steps v) [])

end TraceMining.Settings
