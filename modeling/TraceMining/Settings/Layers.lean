import TraceMining.Settings.Document
import TraceMining.Settings.Path
import TraceMining.Text.Utf8

/-!
# Settings in layers

SPEC_FULL.md, 10.3: `MinerConfig::load`.

Settings are layered: the defaults, then a file, then the variables of the environment, each layer
going over those before it. Values of layers are converted with more tolerance than those of a
document on its own: numbers may be spelled as texts, truth values count as numbers, and numbers
as texts.
-/

namespace TraceMining.Settings

open Text

/-! ## Tolerant conversions -/

/-- The number that a text stands for: a word for true or false, or digits behind an optional plus
sign. -/
def wordOfText? (s : List Char) : Option Nat :=
  let word := String.ofList (s.map Char.toLower)
  if word ∈ ["true", "on", "yes"] then some 1
  else if word ∈ ["false", "off", "no"] then some 0
  else
    let ds := match s with
      | '+' :: ds => ds
      | ds => ds
    if ds.isEmpty || !ds.all Char.isDigit then none
    else if value ds < wordLimit then some (value ds) else none

/-- The natural number of 64 bits that a value counts as. -/
def word? : Toml → Option Nat
  | .integer n => if 0 ≤ n ∧ n < wordLimit then some n.toNat else none
  | .float x => some x.toWord
  | .bool b => some (if b then 1 else 0)
  | .text s => wordOfText? s
  | .moment s => wordOfText? s
  | _ => none

/-- The number that a value counts as, if it is below a limit. -/
def looseNumber (limit : Nat) (v : Toml) : Option Nat :=
  (word? v).bind fun n => if n < limit then some n else none

/-- The text that a value counts as. -/
def looseText : Toml → Option String
  | .text s => some (String.ofList s)
  | .moment s => some (String.ofList s)
  | .integer n => some n.repr
  | .float x => some (String.ofList x.toText)
  | .bool b => some (if b then "true" else "false")
  | _ => none

/-- The texts that the items of a list count as. -/
def looseFragments : Toml → Option (List String)
  | .array items => items.mapM looseText
  | _ => none

/-! ## The environment -/

/-- What every variable with a setting begins with, in lower case. -/
def variableStem : String := "specmine_"

/-- A character of a variable's name in lower case. Besides the capital letters, the Kelvin sign
is the only character with a letter between a and z for its lower case. -/
def lower (c : Char) : Char := if c = '\u212A' then 'k' else c.toLower

/-- The key that a variable sets, if it is one of a setting. -/
def variableKey? (name : String) : Option Key :=
  Key.all.find? fun k => name.toList.map lower == variableStem.toList ++ k.name.toList

/-- A signed integer of 64 bits in digits behind an optional sign. -/
def signedWord? (s : List Char) : Option Int :=
  let (negative, ds) := Toml.unsigned s
  if ds.isEmpty || !ds.all Char.isDigit then none
  else
    let n : Int := if negative then -(value ds : Int) else (value ds : Int)
    if Int64.minValue.toInt ≤ n ∧ n ≤ Int64.maxValue.toInt then some n else none

/-- The pieces of a text between commas. -/
def commaPieces : List Char → List (List Char)
  | [] => [[]]
  | c :: s =>
    if c = ',' then [] :: commaPieces s
    else
      match commaPieces s with
      | [] => [[c]]
      | piece :: rest => (c :: piece) :: rest

/-- What a variable's text stands for: a truth value, an integer, another number, and otherwise a
text, which is a list with commas between its items where the setting is one. -/
def variableValue (k : Key) (text : String) : Toml :=
  let s := text.toList
  let word := s.map Char.toLower
  if word = "true".toList then .bool true
  else if word = "false".toList then .bool false
  else
    match signedWord? s, Binary64.ofText? s with
    | some n, _ => .integer n
    | none, some x => .float x
    | none, none => if k.isList then .array ((commaPieces s).map .text) else .text s

/-- The value of a setting in the environment; of several variables for it the last one counts. -/
def fromEnvironment? (environment : List (String × String)) (k : Key) : Option Toml :=
  (environment.reverse.find? fun v => variableKey? v.1 = some k).map fun v => variableValue k v.2

/-! ## The file -/

/-- The text of a settings file: a byte order mark is skipped, and bytes that form no character
are replaced. -/
def fileText (bytes : List UInt8) : List Char :=
  decodeReplacing <| match bytes with
    | 0xEF :: 0xBB :: 0xBF :: rest => rest
    | bytes => bytes

/-- The document of a settings file. Integers of any key must fit into 64 bits with a sign; dotted
keys make the implied tables on their way their own. -/
def fileDocument? (bytes : List UInt8) : Option Toml := do
  let t ← Toml.read .claiming (fileText bytes)
  if t.integersWithin Int64.minValue.toInt Int64.maxValue.toInt then some t else none

/-- The default of a setting as a value of a layer. -/
def defaultValue : Key → Toml
  | .startTime => .integer default.startTime
  | .signalBitLimit => .integer default.signalBitLimit
  | .junkFragments => .array (default.junkFragments.map (.text ·.toList))
  | .clockFragments => .array (default.clockFragments.map (.text ·.toList))
  | .minSupport => .integer default.minSupport

/-- The value of a setting after one more key of a file, `before` being what the file gave so
far. -/
def refine (k : Key) (before : Option Toml) (field : TomlKey × Toml) : Option Toml :=
  match path? field.1 with
  | some (name, steps) =>
    if name = k.name.toList then some (assign steps field.2 (before.getD (defaultValue k)))
    else before
  | none => before

/-- The value of a setting in the document of a file, whose keys may be paths. -/
def fromFile? (document : Toml) (k : Key) : Option Toml :=
  match document with
  | .table _ fields => fields.foldl (refine k) none
  | _ => none

/-! ## All layers -/

/-- The value of a setting in the layers above the defaults. -/
def layered? (file : Toml) (environment : List (String × String)) (k : Key) : Option Toml :=
  (fromEnvironment? environment k).or (fromFile? file k)

/-- The settings of the defaults, a file and the environment (`load`). -/
def ofLayers (file : Option (List UInt8)) (environment : List (String × String)) :
    Except Error Settings :=
  accept .layers do
    let document ← match file with
      | some bytes => fileDocument? bytes
      | none => some (.table .header [])
    assemble (layered? document environment) looseNumber looseFragments

end TraceMining.Settings
