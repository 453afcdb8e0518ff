import TraceMining.Toml.Scalar

/-!
# Reading TOML

SPEC_FULL.md, 10.3: the parsers behind `MinerConfig::from_toml` and `MinerConfig::load`.

A document is read expression by expression: a key with its value, or the header of a table. The
table that the last header opened takes the keys that follow. Values nest at most eighty deep, and
a key has at most eighty parts.
-/

namespace TraceMining.Toml

open Text

/-- The text behind spaces and tabs. -/
def skipBlanks (s : List Char) : List Char := s.dropWhile fun c => c = ' ' || c = '\t'

/-- The text behind blanks, line breaks and comments, if the comments are well formed;
`inComment` tells whether the text begins inside one. -/
def skipTrivia? : (inComment : Bool) → List Char → Option (List Char)
  | _, [] => some []
  | _, '\n' :: s => skipTrivia? false s
  | _, '\r' :: '\n' :: s => skipTrivia? false s
  | true, c :: s => if isPlain c then skipTrivia? true s else none
  | false, ' ' :: s => skipTrivia? false s
  | false, '\t' :: s => skipTrivia? false s
  | false, '#' :: s => skipTrivia? true s
  | false, s => some s

/-- What follows the end of an expression: blanks and perhaps a comment, then a line break or the
end of the document. -/
def lineEnd? (s : List Char) : Option (List Char) :=
  go false (skipBlanks s)
where
  go : (inComment : Bool) → List Char → Option (List Char)
    | _, [] => some []
    | _, '\n' :: s => some s
    | _, '\r' :: '\n' :: s => some s
    | true, c :: s => if isPlain c then go true s else none
    | false, '#' :: s => go true s
    | false, _ :: _ => none

/-! ## Keys -/

/-- Whether a character may stand in a key without quotes. -/
def isBare (c : Char) : Bool := c.isAlphanum || c = '_' || c = '-'

/-- One part of a key, and what follows it. -/
def simpleKey? : List Char → Option (TomlKey × List Char)
  | '"' :: s => basic? s
  | '\'' :: s => literal? s
  | s =>
    let key := s.takeWhile isBare
    if key.isEmpty then none else some (key, s.dropWhile isBare)

/-- A key of at most `parts` parts with dots between them, and what follows it. -/
def keyWithin? : (parts : Nat) → List Char → Option (List TomlKey × List Char)
  | 0, _ => none
  | parts + 1, s => do
    let (key, r) ← simpleKey? (skipBlanks s)
    match skipBlanks r with
    | '.' :: r => do
      let (keys, r) ← keyWithin? parts r
      some (key :: keys, r)
    | r => some ([key], r)

/-- How many parts a key may have. -/
def maxKeyParts : Nat := 80

/-- A key, and what follows it and the blanks behind it. -/
def key? (s : List Char) : Option (List TomlKey × List Char) := keyWithin? maxKeyParts s

/-- The parts of a key before the last one, and the last one. -/
def splitKey? (keys : List TomlKey) : Option (List TomlKey × TomlKey) :=
  keys.getLast?.map fun last => (keys.dropLast, last)

/-- What follows an equals sign and the blanks, line breaks and comments around it. -/
def afterEquals? (s : List Char) : Option (List Char) :=
  match skipTrivia? false s with
  | some ('=' :: s) => skipTrivia? false s
  | _ => none

/-! ## Values -/

mutual

/-- The value at the beginning of a text, and what follows it; arrays and braces nest at most
`depth` deep. -/
def value? : (fuel depth : Nat) → List Char → Option (Toml × List Char)
  | 0, _, _ => none
  | fuel + 1, depth, s =>
    match s with
    | '[' :: r =>
      match depth with
      | 0 => none
      | depth + 1 => (items? fuel depth r).map fun (vs, r) => (.array vs, r)
    | '\x7b' :: r =>
      match depth with
      | 0 => none
      | depth + 1 => members? fuel depth (.table .inline []) r
    | c :: _ =>
      if c = '"' ∨ c = '\'' then (quoted? s).map fun (t, r) => (.text t, r)
      else
        let (word, r) := unquoted s
        (ofSpelling? word).map fun v => (v, r)
    | [] => none

/-- The items of an array up to its closing bracket, and what follows it. -/
def items? : (fuel depth : Nat) → List Char → Option (List Toml × List Char)
  | 0, _, _ => none
  | fuel + 1, depth, s =>
    match skipTrivia? false s with
    | none => none
    | some (']' :: r) => some ([], r)
    | some s =>
      match value? fuel depth s with
      | none => none
      | some (v, r) =>
        match skipTrivia? false r with
        | some (',' :: r) => (items? fuel depth r).map fun (vs, r) => (v :: vs, r)
        | some (']' :: r) => some ([v], r)
        | _ => none

/-- The members of a table between braces, added to those read so far, up to its closing brace,
and what follows it. -/
def members? : (fuel depth : Nat) → Toml → List Char → Option (Toml × List Char)
  | 0, _, _, _ => none
  | fuel + 1, depth, t, s =>
    match skipTrivia? false s with
    | none => none
    | some ('\x7d' :: r) => some (t, r)
    | some s =>
      match key? s with
      | none => none
      | some (keys, r) =>
        match (afterEquals? r).bind (value? fuel depth), splitKey? keys with
        | some (v, r), some (path, key) =>
          match addAt .through path key v t, skipTrivia? false r with
          | some t, some (',' :: r) => members? fuel depth t r
          | some t, some ('\x7d' :: r) => some (t, r)
          | _, _ => none
        | _, _ => none

end

/-- How deep arrays and braces may nest. -/
def maxDepth : Nat := 80

/-- The value at the beginning of a text, and what follows it. -/
def valueOf? (s : List Char) : Option (Toml × List Char) := value? (2 * s.length + 2) maxDepth s

/-! ## Documents -/

/-- The document so far, and the path of the table that takes the keys that follow. -/
structure Building where
  document : Toml
  current : List TomlKey

/-- Reads one expression, and what follows it. -/
def expression? (passage : Passage) (b : Building) (s : List Char) : Option (Building × List Char) :=
  match s with
  | '[' :: '[' :: s => do
    let (keys, r) ← key? s
    let (path, key) ← splitKey? keys
    match r with
    | ']' :: ']' :: r => do
      let rest ← lineEnd? r
      some (⟨← openElement path key b.document, keys⟩, rest)
    | _ => none
  | '[' :: s => do
    let (keys, r) ← key? s
    let (path, key) ← splitKey? keys
    match r with
    | ']' :: r => do
      let rest ← lineEnd? r
      some (⟨← openTable path key b.document, keys⟩, rest)
    | _ => none
  | s => do
    let (keys, r) ← key? s
    let (path, key) ← splitKey? keys
    match r with
    | '=' :: r => do
      let (v, r) ← valueOf? (skipBlanks r)
      let rest ← lineEnd? r
      let document ← updateHeader b.current (addAt passage path key v) b.document
      some ({ b with document }, rest)
    | _ => none

/-- Reads the expressions of a text, of which there are at most `fuel`. -/
def expressions? (passage : Passage) : (fuel : Nat) → Building → List Char → Option Toml
  | 0, _, _ => none
  | fuel + 1, b, s =>
    match skipTrivia? false s with
    | none => none
    | some [] => some b.document
    | some s =>
      match expression? passage b s with
      | some (b, r) => expressions? passage fuel b r
      | none => none

/-- The document of a text, which may begin with a byte order mark. -/
def read (passage : Passage) (text : List Char) : Option Toml :=
  let s := match text with
    | '\uFEFF' :: s => s
    | s => s
  expressions? passage (s.length + 1) ⟨.table .header [], []⟩ s

end TraceMining.Toml
