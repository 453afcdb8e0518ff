import TraceMining.Json.Value

/-!
# Reading JSON

SPEC_FULL.md, 10.4: the texts that `MinerResult::from_json` and `MinerResult::load` can parse.

A text is cut into tokens, and the tokens are read one after the other while the arrays and
objects that are open wait on a stack. A symbol of the text is a character, or `none` for bytes
that form no character; those may occur inside quotes only. Every array and object is closed by
its own bracket, no comma precedes a closing bracket, and nothing follows the value.
-/

namespace TraceMining.Json

open Text

/-- A character of the text, or bytes that form none. -/
abbrev Symbol := Option Char

/-- What a text is made of. -/
inductive Token where
  | openArray
  | closeArray
  | openObject
  | closeObject
  | comma
  | colon
  /-- A value that is no array and no object. -/
  | scalar (v : Json)

/-! ## Quoted texts -/

/-- The number that four symbols stand for as hexadecimal digits. -/
def hexFour? (a b c d : Symbol) : Option Nat := ([a, b, c, d].mapM id).bind hexNumber?

/-- The character that an escaped letter stands for. -/
def escaped? : Char → Option Char
  | '"' => some '"'
  | '\\' => some '\\'
  | '/' => some '/'
  | 'b' => some '\x08'
  | 'f' => some '\x0c'
  | 'n' => some '\n'
  | 'r' => some '\r'
  | 't' => some '\t'
  | _ => none

/-- The character of a code unit of 16 bits, none for a surrogate. -/
def unitChar? (unit : Nat) : Symbol :=
  if 0xD800 ≤ unit ∧ unit ≤ 0xDFFF then none else some (Char.ofNat unit)

/-- The character that two code units form together. -/
def pairChar? (high low : Nat) : Option Char :=
  if 0xD800 ≤ high ∧ high ≤ 0xDBFF ∧ 0xDC00 ≤ low ∧ low ≤ 0xDFFF then
    some (Char.ofNat (0x10000 + 0x400 * (high - 0xD800) + (low - 0xDC00)))
  else none

/-- The symbols of a quoted text up to its closing quote, and what follows that. -/
def quoted? : List Symbol → Option (List Symbol × List Symbol)
  | [] => none
  | some '"' :: rest => some ([], rest)
  | some '\\' :: some 'u' :: a :: b :: c :: d :: some '\\' :: some 'u' :: e :: f :: g :: h :: rest =>
    (hexFour? a b c d).bind fun high =>
      match (hexFour? e f g h).bind (pairChar? high) with
      | some char => (quoted? rest).map fun (s, rest) => (some char :: s, rest)
      | none =>
        (quoted? (some '\\' :: some 'u' :: e :: f :: g :: h :: rest)).map fun (s, rest) =>
          (unitChar? high :: s, rest)
  | some '\\' :: some 'u' :: a :: b :: c :: d :: rest =>
    (hexFour? a b c d).bind fun unit =>
      (quoted? rest).map fun (s, rest) => (unitChar? unit :: s, rest)
  | some '\\' :: some c :: rest =>
    (escaped? c).bind fun char => (quoted? rest).map fun (s, rest) => (some char :: s, rest)
  | some '\\' :: _ => none
  | some c :: rest =>
    if c.toNat < 0x20 then none else (quoted? rest).map fun (s, rest) => (some c :: s, rest)
  | none :: rest => (quoted? rest).map fun (s, rest) => (none :: s, rest)

/-! ## Numbers -/

/-- Whether a symbol is a decimal digit. -/
def isDigit (s : Symbol) : Bool := (s.map Char.isDigit).getD false

/-- What follows a run of digits, of which there is at least one. -/
def afterDigits? (s : List Symbol) : Option (List Symbol) :=
  match s with
  | d :: rest => if isDigit d then some (rest.dropWhile isDigit) else none
  | [] => none

/-- What follows the digits of a whole number, which do not begin with a needless zero. -/
def afterWhole? : List Symbol → Option (List Symbol)
  | some '0' :: rest => if (rest.head?.map isDigit).getD false then none else some rest
  | s => afterDigits? s

/-- What follows a fraction, if there is one. -/
def afterFraction? : List Symbol → Option (List Symbol)
  | some '.' :: rest => afterDigits? rest
  | s => some s

/-- What follows an exponent, if there is one. -/
def afterExponent? : List Symbol → Option (List Symbol)
  | some e :: rest =>
    if e = 'e' ∨ e = 'E' then
      match rest with
      | some sign :: more => if sign = '+' ∨ sign = '-' then afterDigits? more else afterDigits? rest
      | _ => afterDigits? rest
    else some (some e :: rest)
  | s => some s

/-- The number at the beginning of a text, and what follows it. -/
def number? (s : List Symbol) : Option (Json × List Symbol) :=
  let unsigned := match s with
    | some '-' :: rest => rest
    | s => s
  (afterWhole? unsigned).bind fun whole =>
    ((afterFraction? whole).bind afterExponent?).map fun rest =>
      let plain := s.take (s.length - whole.length)
      if rest.length = whole.length ∧ plain.all isDigit then
        (.natural (value (plain.filterMap id)), rest)
      else (.otherNumber, rest)

/-! ## Tokens -/

/-- What follows a literal at the beginning of a text. -/
def afterLiteral? : (literal : List Char) → List Symbol → Option (List Symbol)
  | [], s => some s
  | _ :: _, [] => none
  | l :: ls, c :: s => if c = some l then afterLiteral? ls s else none

/-- Whether a symbol may stand between tokens. -/
def isSpace (s : Symbol) : Bool :=
  s = some ' ' || s = some '\n' || s = some '\t' || s = some '\r'

/-- The token at the beginning of a text, and what follows it. -/
def token? : List Symbol → Option (Token × List Symbol)
  | some '[' :: rest => some (.openArray, rest)
  | some ']' :: rest => some (.closeArray, rest)
  | some '\x7b' :: rest => some (.openObject, rest)
  | some '\x7d' :: rest => some (.closeObject, rest)
  | some ',' :: rest => some (.comma, rest)
  | some ':' :: rest => some (.colon, rest)
  | some '"' :: rest => (quoted? rest).map fun (t, rest) => (.scalar (.text (t.mapM id)), rest)
  | some 'n' :: rest => (afterLiteral? ['u', 'l', 'l'] rest).map (.scalar .null, ·)
  | some 't' :: rest => (afterLiteral? ['r', 'u', 'e'] rest).map (.scalar (.bool true), ·)
  | some 'f' :: rest => (afterLiteral? ['a', 'l', 's', 'e'] rest).map (.scalar (.bool false), ·)
  | s => (number? s).map fun (n, rest) => (.scalar n, rest)

/-- The tokens of a text, of which at most `fuel` are read. -/
def tokensWithin : (fuel : Nat) → List Symbol → Option (List Token)
  | 0, _ => none
  | fuel + 1, s =>
    match s.dropWhile isSpace with
    | [] => some []
    | s => (token? s).bind fun (t, rest) => (tokensWithin fuel rest).map (t :: ·)

/-- The tokens of a text; a text has no more tokens than symbols. -/
def tokens? (s : List Symbol) : Option (List Token) := tokensWithin (s.length + 1) s

/-! ## Values -/

/-- An array or object that has not been closed: what it holds so far, the last first. -/
inductive Frame where
  | array (items : List Json)
  /-- An object with a member whose value is being read. -/
  | object (members : List (JsonText × Json)) (key : JsonText)

/-- What may come next. -/
inductive Expecting where
  /-- A value; directly behind an opening bracket of an array also its closing bracket. -/
  | value (orClose : Bool)
  /-- A key of an object with the members read so far; directly behind the opening bracket, where
  no member was read and no comma, also its closing bracket. -/
  | key (members : List (JsonText × Json)) (orClose : Bool)
  /-- The colon behind a key. -/
  | colon (members : List (JsonText × Json)) (key : JsonText)
  /-- A comma, or the closing bracket, behind a value that stands in the innermost frame. -/
  | separator (v : Json)

/-- The innermost open array or object first, and what may come next. -/
structure Reading where
  frames : List Frame
  expecting : Expecting

/-- Reads one token. -/
def Reading.step : Reading → Token → Option Reading
  | ⟨frames, .value _⟩, .scalar v => some ⟨frames, .separator v⟩
  | ⟨frames, .value _⟩, .openArray => some ⟨.array [] :: frames, .value true⟩
  | ⟨frames, .value _⟩, .openObject => some ⟨frames, .key [] true⟩
  | ⟨.array items :: frames, .value true⟩, .closeArray =>
    some ⟨frames, .separator (.array items.reverse)⟩
  | ⟨frames, .key members true⟩, .closeObject =>
    some ⟨frames, .separator (.object members.reverse)⟩
  | ⟨frames, .key members _⟩, .scalar (.text key) => some ⟨frames, .colon members key⟩
  | ⟨frames, .colon members key⟩, .colon => some ⟨.object members key :: frames, .value false⟩
  | ⟨.array items :: frames, .separator v⟩, .comma =>
    some ⟨.array (v :: items) :: frames, .value false⟩
  | ⟨.array items :: frames, .separator v⟩, .closeArray =>
    some ⟨frames, .separator (.array (v :: items).reverse)⟩
  | ⟨.object members key :: frames, .separator v⟩, .comma =>
    some ⟨frames, .key ((key, v) :: members) false⟩
  | ⟨.object members key :: frames, .separator v⟩, .closeObject =>
    some ⟨frames, .separator (.object ((key, v) :: members).reverse)⟩
  | _, _ => none

/-- The value that has been read, if nothing is missing. -/
def Reading.finish : Reading → Option Json
  | ⟨[], .separator v⟩ => some v
  | _ => none

/-- The value of a text that may hold bytes which form no character. -/
def readSymbols (s : List Symbol) : Option Json :=
  (tokens? s).bind fun ts => (ts.foldlM Reading.step ⟨[], .value false⟩).bind Reading.finish

/-- The value of a text. -/
def read (text : List Char) : Option Json := readSymbols (text.map some)

end TraceMining.Json
