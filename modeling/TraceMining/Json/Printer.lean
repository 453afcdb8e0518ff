import TraceMining.Json.Value

/-!
# Printing JSON

SPEC_FULL.md, 10.4: the layout of the text that `MinerResult::to_json` makes.

Values are printed over several lines, each level of nesting indented by two spaces more; an empty
array or object stands on one line. In a text, only the quote, the backslash and the control
characters below the space are escaped.
-/

namespace TraceMining.Json

open Text

/-- A hexadecimal digit, in lower case. -/
def hexDigit (n : Nat) : Char := Nat.digitChar n

/-- A character as it stands in a quoted text. -/
def escape (c : Char) : List Char :=
  if c = '"' then ['\\', '"']
  else if c = '\\' then ['\\', '\\']
  else if c = '\n' then ['\\', 'n']
  else if c = '\r' then ['\\', 'r']
  else if c = '\t' then ['\\', 't']
  else if c = '\x08' then ['\\', 'b']
  else if c = '\x0c' then ['\\', 'f']
  else if c.toNat < 0x20 then
    ['\\', 'u', '0', '0', hexDigit (c.toNat / 16), hexDigit (c.toNat % 16)]
  else [c]

/-- A text in quotes; one that is no text is printed as a lone surrogate. -/
def quote : JsonText → List Char
  | some s => '"' :: s.flatMap escape ++ ['"']
  | none => "\"\\ud800\"".toList

/-- A line break and the indentation of a level. -/
def newline (level : Nat) : List Char := '\n' :: List.replicate (2 * level) ' '

/-- A value that stands at the given level of nesting. -/
def print (level : Nat) : Json → List Char
  | .null => "null".toList
  | .bool b => if b then "true".toList else "false".toList
  | .natural n => digits n
  | .otherNumber => "-0".toList
  | .text t => quote t
  | .array [] => ['[', ']']
  | .array (item :: items) =>
    '[' :: newline (level + 1) ++ print (level + 1) item ++ printItems (level + 1) items
      ++ newline level ++ [']']
  | .object [] => ['\x7b', '\x7d']
  | .object ((key, value) :: members) =>
    '\x7b' :: newline (level + 1) ++ quote key ++ [':', ' '] ++ print (level + 1) value
      ++ printMembers (level + 1) members ++ newline level ++ ['\x7d']
where
  /-- Further items of an array. -/
  printItems (level : Nat) : List Json → List Char
    | [] => []
    | item :: items => ',' :: newline level ++ print level item ++ printItems level items
  /-- Further members of an object. -/
  printMembers (level : Nat) : List (JsonText × Json) → List Char
    | [] => []
    | (key, value) :: members =>
      ',' :: newline level ++ quote key ++ [':', ' '] ++ print level value
        ++ printMembers level members

/-- The text of a value. -/
def render (v : Json) : List Char := v.print 0

end TraceMining.Json
