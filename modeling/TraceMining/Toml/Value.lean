import TraceMining.Text.Binary64

/-!
# TOML documents as trees

SPEC_FULL.md, 10.3: the documents of `MinerConfig::from_toml` and `MinerConfig::load`, which are of
two dialects.

A document is a table that is built up line by line. How a table came about decides what may still
be added to it: a table that was only implied by the path of another one may be opened by its own
header once, one that arose from dotted keys may be extended by dotted keys, and one that was
written between braces is complete. Whether dotted keys may add values to implied tables is a
matter of dialect (`Passage`).
-/

namespace TraceMining

/-- How a table came about. -/
inductive TableOrigin where
  /-- On the way to a table that a header opened. -/
  | implied
  /-- On the way to a value with a dotted key. -/
  | dotted
  /-- By a header of its own. -/
  | header
  /-- Between braces. -/
  | inline
  deriving DecidableEq, Repr

/-- What a dotted key does to the implied tables on its way. -/
inductive Passage where
  /-- It passes through them; its value goes into a table that dotted keys made. -/
  | through
  /-- It makes them its own, and they count as made by dotted keys from then on. -/
  | claiming
  deriving DecidableEq, Repr

/-- How a table on the way of a dotted key came about, after the key has passed. -/
def TableOrigin.passed : TableOrigin → Passage → TableOrigin
  | implied, .claiming => dotted
  | origin, _ => origin

/-- The key of a value in a table. -/
abbrev TomlKey := List Char

/-- A TOML value. -/
inductive Toml where
  | text (s : List Char)
  | integer (n : Int)
  | float (x : Text.Binary64)
  | bool (b : Bool)
  /-- A date, a time, or both, in its normal spelling. -/
  | moment (spelling : List Char)
  | array (items : List Toml)
  /-- The tables that headers in double brackets opened under one name. -/
  | tables (items : List Toml)
  | table (origin : TableOrigin) (fields : List (TomlKey × Toml))
  deriving Inhabited

namespace Toml

/-- The fields with the value of a key that is there replaced. -/
def replace (key : TomlKey) (v : Toml) (fields : List (TomlKey × Toml)) :
    List (TomlKey × Toml) :=
  fields.map fun f => if f.1 = key then (key, v) else f

/-- The value of a key in a table. -/
def field? (key : TomlKey) : Toml → Option Toml
  | .table _ fields => fields.lookup key
  | _ => none

/-- Changes the table at the end of a path of headers. The path implies the tables that are missing,
goes on in the last table of several, and enters any table but a complete one. -/
def updateHeader : (path : List TomlKey) → (Toml → Option Toml) → Toml → Option Toml
  | [], change, t => change t
  | key :: path, change, .table origin fields =>
    match fields.lookup key with
    | none => do
      let sub ← updateHeader path change (.table .implied [])
      some (.table origin (fields ++ [(key, sub)]))
    | some (.table .inline _) => none
    | some (.table o inner) => do
      let sub ← updateHeader path change (.table o inner)
      some (.table origin (replace key sub fields))
    | some (.tables items) => do
      let sub ← updateHeader path change (← items.getLast?)
      some (.table origin (replace key (.tables (items.dropLast ++ [sub])) fields))
    | some _ => none
  | _ :: _, _, _ => none

/-- Changes the table at the end of a path of dotted keys. The path makes the tables that are
missing, goes on in the last table of several, and enters implied tables and those that dotted
keys made. -/
def updateDotted (passage : Passage) :
    (path : List TomlKey) → (Toml → Option Toml) → Toml → Option Toml
  | [], change, t => change t
  | key :: path, change, .table origin fields =>
    match fields.lookup key with
    | none => do
      let sub ← updateDotted passage path change (.table .dotted [])
      some (.table origin (fields ++ [(key, sub)]))
    | some (.table .inline _) => none
    | some (.table .header _) => none
    | some (.table o inner) => do
      let sub ← updateDotted passage path change (.table (o.passed passage) inner)
      some (.table origin (replace key sub fields))
    | some (.tables items) => do
      let sub ← updateDotted passage path change (← items.getLast?)
      some (.table origin (replace key (.tables (items.dropLast ++ [sub])) fields))
    | some _ => none
  | _ :: _, _, _ => none

/-- A table with a value under a new key. -/
def add (key : TomlKey) (v : Toml) : Toml → Option Toml
  | .table origin fields =>
    if (fields.lookup key).isSome then none else some (.table origin (fields ++ [(key, v)]))
  | _ => none

/-- A table that dotted keys made, with a value under a new key. -/
def addToDotted (key : TomlKey) (v : Toml) : Toml → Option Toml
  | .table .dotted fields => add key v (.table .dotted fields)
  | _ => none

/-- A table with a value under a key, which may be dotted. -/
def addAt (passage : Passage) (path : List TomlKey) (key : TomlKey) (v : Toml) :
    Toml → Option Toml :=
  match path with
  | [] => add key v
  | path => updateDotted passage path (addToDotted key v)

/-- A document in which a header has opened the table of the given path. -/
def openTable (path : List TomlKey) (key : TomlKey) : Toml → Option Toml :=
  updateHeader path fun
    | .table origin fields =>
      match fields.lookup key with
      | none => some (.table origin (fields ++ [(key, .table .header [])]))
      | some (.table .implied inner) => some (.table origin (replace key (.table .header inner) fields))
      | some _ => none
    | _ => none

/-- A document in which a header in double brackets has opened one more table of the given path. -/
def openElement (path : List TomlKey) (key : TomlKey) : Toml → Option Toml :=
  updateHeader path fun
    | .table origin fields =>
      match fields.lookup key with
      | none => some (.table origin (fields ++ [(key, .tables [.table .header []])]))
      | some (.tables items) =>
        some (.table origin (replace key (.tables (items ++ [.table .header []])) fields))
      | some _ => none
    | _ => none

/-- Whether all integers of a value lie between two bounds. -/
def integersWithin (least greatest : Int) : Toml → Bool
  | .integer n => decide (least ≤ n) && decide (n ≤ greatest)
  | .array items => allWithin least greatest items
  | .tables items => allWithin least greatest items
  | .table _ fields => fieldsWithin least greatest fields
  | _ => true
where
  allWithin (least greatest : Int) : List Toml → Bool
    | [] => true
    | v :: vs => integersWithin least greatest v && allWithin least greatest vs
  fieldsWithin (least greatest : Int) : List (TomlKey × Toml) → Bool
    | [] => true
    | (_, v) :: fs => integersWithin least greatest v && fieldsWithin least greatest fs

end Toml

end TraceMining
