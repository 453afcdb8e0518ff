import TraceMining.Text.Numeral

/-!
# JSON values

SPEC_FULL.md, 10.4: the format of `MinerResult::to_json` and `from_json`.

JSON as findings are stored in it. Only plain natural numbers are ever of use, so any other number
is kept by its spelling alone. The escapes of a text may form no character (a surrogate that
stands alone), and so may the bytes of a file; such a text is `none`.
-/

namespace TraceMining

/-- The characters of a JSON text; none if its escapes or its bytes do not form characters. -/
abbrev JsonText := Option (List Char)

/-- A JSON value. Members of an object keep their order and may repeat a key. -/
inductive Json where
  | null
  | bool (b : Bool)
  /-- A number of digits alone. -/
  | natural (n : Nat)
  /-- A number with a sign, a fraction or an exponent. -/
  | otherNumber
  | text (t : JsonText)
  | array (items : List Json)
  | object (members : List (JsonText × Json))
  deriving Inhabited

namespace Json

/-- The text of a string. -/
def ofString (s : String) : Json := .text (some s.toList)

/-- An object with the given keys. -/
def record (members : List (String × Json)) : Json :=
  .object (members.map fun m => (some m.1.toList, m.2))

end Json

end TraceMining
