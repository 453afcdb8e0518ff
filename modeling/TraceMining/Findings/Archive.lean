import TraceMining.Findings
import TraceMining.Json.Printer
import TraceMining.Json.Reader
import TraceMining.Text.Utf8

/-!
# Archived findings

SPEC_FULL.md, 6 and 10.4: `to_json` and `from_json` of `MinerResult`.

Findings are handed from one session to another as JSON: a list of entries in the order of their
properties. A reader accepts more than is written: the members of a record in any order and with
unknown ones between them, a record as the array of its members in order, a pattern as an object
whose only key is its name, signals and entries in any order and repeated.
-/

namespace TraceMining.Findings

open Text

/-! ## Writing -/

def signalJson (s : Signal) : Json :=
  .record [("name", .ofString s.name), ("width", .natural s.width)]

def groupJson (g : AliasGroup) : Json := .array (g.members.map signalJson)

def propertyJson (p : Property) : Json :=
  .record [("kind", .ofString p.pattern.name), ("a", groupJson p.a), ("b", groupJson p.b)]

def statsJson (s : Stats) : Json :=
  .record [("support", .natural s.support), ("falsifiable", .bool s.falsifiable),
    ("falsified", .bool s.falsified)]

def entryJson (e : Property × Stats) : Json :=
  .record [("property", propertyJson e.1), ("stats", statsJson e.2)]

/-- The findings as JSON. -/
def toJson (f : Findings) : Json := .array (f.entries.map entryJson)

/-- The text that findings are archived as (`to_json`). -/
def archive (f : Findings) : List Char := f.toJson.render

/-! ## Reading -/

/-- The value of the only member with a key. -/
def onlyMember? (members : List (JsonText × Json)) (key : String) : Option Json :=
  match members.filter fun m => m.1 == some key.toList with
  | [(_, v)] => some v
  | _ => none

/-- The values of a record with the given keys, in their order: from an object in which every key
is a text and each of the given ones occurs once, or from an array of just these values. -/
def recordValues? (keys : List String) : Json → Option (List Json)
  | .object members =>
    if members.all (·.1.isSome) then keys.mapM (onlyMember? members) else none
  | .array items => if items.length = keys.length then some items else none
  | _ => none

/-- A natural number below a limit. -/
def naturalBelow? (limit : Nat) : Json → Option Nat
  | .natural n => if n < limit then some n else none
  | _ => none

def bool? : Json → Option Bool
  | .bool b => some b
  | _ => none

def string? : Json → Option String
  | .text t => t.map String.ofList
  | _ => none

def array? : Json → Option (List Json)
  | .array items => some items
  | _ => none

/-- A pattern by its name, alone or as the only key of an object with the value null. -/
def pattern? : Json → Option Pattern
  | .text (some s) => Pattern.ofName? (String.ofList s)
  | .object [(some s, .null)] => Pattern.ofName? (String.ofList s)
  | _ => none

def signal? (v : Json) : Option Signal :=
  match recordValues? ["name", "width"] v with
  | some [name, width] => do some ⟨← string? name, ← naturalBelow? halfWordLimit width⟩
  | _ => none

def group? (v : Json) : Option AliasGroup := do
  some (.ofList (← (← array? v).mapM signal?))

def property? (v : Json) : Option Property :=
  match recordValues? ["kind", "a", "b"] v with
  | some [kind, a, b] => do some ⟨← pattern? kind, ← group? a, ← group? b⟩
  | _ => none

def stats? (v : Json) : Option Stats :=
  match recordValues? ["support", "falsifiable", "falsified"] v with
  | some [support, falsifiable, falsified] => do
    some ⟨← naturalBelow? wordLimit support, ← bool? falsifiable, ← bool? falsified⟩
  | _ => none

def entry? (v : Json) : Option (Property × Stats) :=
  match recordValues? ["property", "stats"] v with
  | some [property, stats] => do some (← property? property, ← stats? stats)
  | _ => none

/-- The findings that JSON stands for; the last entry of a property wins. -/
def ofJson? (v : Json) : Option Findings := do
  some (.ofList (← (← array? v).mapM entry?))

/-- The findings archived in a text (`from_json`). -/
def ofArchive? (text : List Char) : Option Findings := (Json.read text).bind ofJson?

/-- The findings archived in a file. -/
def ofBytes? (bytes : List UInt8) : Option Findings :=
  (Json.readSymbols (decode bytes)).bind ofJson?

end TraceMining.Findings
