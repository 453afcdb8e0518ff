import TraceMining.Text.Blank
import TraceMining.Text.Numeral

/-!
# The lines of a waveform dump

SPEC_FULL.md, 4.1: the grammar of the parser. Its `word`, `arg`, `integer`, `line_end` and `end` are
the parts below, and its alternatives `scope`, `upscope`, `var`, `enddefinitions`, `header`, `dump`,
`timestamp`, `vector`, `real` and `scalar` are tried in this order by `command`.

Every line of a waveform dump is a command by itself, whatever stands around it. A command is read
by ten alternatives, each of which takes the whole line or refuses it. A *word* is a run of
characters that are not white; the parts of a line are separated by blanks and may be followed by
blanks only.
-/

namespace TraceMining.Waveform

open Text

/-- What a line of a dump says (`Command`). -/
inductive Command where
  /-- A scope of the given kind is entered. -/
  | openScope (kind name : List Char)
  /-- The innermost scope is left. -/
  | closeScope
  /-- A signal is declared for an identifier code. -/
  | declare (width : Nat) (code name : List Char)
  /-- No declaration follows. -/
  | endDefinitions
  /-- A section of free text begins, with its first piece of text; it may end at once. -/
  | header (keyword text : List Char) (closed : Bool)
  /-- A marker around groups of changes. -/
  | marker
  /-- The current time from here on. -/
  | timestamp (time : Nat)
  /-- A wire changes to one bit. -/
  | scalar (bit : Char) (code : List Char)
  /-- A wire changes to a row of bits. -/
  | vector (bits code : List Char)
  /-- A wire changes to a real number. -/
  | real (code : List Char)
  deriving DecidableEq, Repr

/-! ## Parts of a line -/

/-- What follows `literal` at the beginning of a text. -/
def after? : (literal text : List Char) → Option (List Char)
  | [], s => some s
  | _ :: _, [] => none
  | l :: ls, c :: s => if l = c then after? ls s else none

/-- The first of several literals that the text begins with, and what follows it. -/
def keyword? (literals : List String) (text : List Char) : Option (List Char × List Char) :=
  literals.findSome? fun l => (after? l.toList text).map fun rest => (l.toList, rest)

/-- The word at the beginning of a text, and what follows it (`word`). -/
def word? (text : List Char) : Option (List Char × List Char) :=
  let w := text.takeWhile (!isWhite ·)
  if w.isEmpty then none else some (w, text.dropWhile (!isWhite ·))

/-- What follows the blanks at the beginning of a text, of which there is at least one. -/
def blanks? : List Char → Option (List Char)
  | [] => none
  | c :: s => if isBlank c then some (s.dropWhile isBlank) else none

/-- The word behind blanks, and what follows it (`arg`). -/
def argument? (text : List Char) : Option (List Char × List Char) := (blanks? text).bind word?

/-- The number below `limit` at the beginning of a text, and what follows it (`integer`). -/
def number? (limit : Nat) (text : List Char) : Option (Nat × List Char) :=
  let ds := text.takeWhile Char.isDigit
  if ds.isEmpty then none
  else if value ds < limit then some (value ds, text.dropWhile Char.isDigit) else none

/-- Whether only blanks are left (`line_end`). -/
def endsHere (text : List Char) : Bool := text.all isBlank

/-- Whether blanks and the closing keyword are left, and then only blanks (`end`). -/
def closes (text : List Char) : Bool :=
  match (blanks? text).bind (after? "$end".toList) with
  | some rest => endsHere rest
  | none => false

theorem length_argument?_lt {text word rest : List Char} (h : argument? text = some (word, rest)) :
    rest.length < text.length := by
  unfold argument? at h
  cases text with
  | nil => simp [blanks?] at h
  | cons c s =>
    by_cases hc : isBlank c
    · simp only [blanks?, hc, if_true, Option.bind_some, word?] at h
      split at h
      · simp at h
      · simp only [Option.some.injEq, Prod.mk.injEq] at h
        have h1 := (List.dropWhile_sublist (l := s.dropWhile isBlank) (!isWhite ·)).length_le
        have h2 := (List.dropWhile_sublist (l := s) isBlank).length_le
        rw [← h.2, List.length_cons]; omega
    · simp [blanks?, hc] at h

/-- Whether the closing keyword is left behind any number of words. -/
def closesAfterWords (text : List Char) : Bool :=
  if closes text then true
  else
    match h : argument? text with
    | some (_, rest) =>
      have := length_argument?_lt h
      closesAfterWords rest
    | none => false
termination_by text.length

/-! ## Sections of free text -/

/-- The text of a line inside a section without the white space around it, and whether the line
closes the section: its last word is the closing keyword, which then is no text
(`split_section_end`). -/
def sectionText (text : List Char) : List Char × Bool :=
  let t := trimEnd text
  let body := t.take (t.length - 4)
  if "$end".toList.isSuffixOf t && (body.getLast?.map isWhite).getD true then (trim body, true)
  else (trim t, false)

/-! ## The ten alternatives -/

/-- A scope of one of five kinds (`scope`). -/
def openScope? (line : List Char) : Option Command := do
  let rest ← blanks? (← after? "$scope".toList line)
  let (kind, rest) ← keyword? ["module", "begin", "fork", "function", "task"] rest
  let (name, rest) ← argument? rest
  if closes rest then some (.openScope kind name) else none

/-- The end of a scope (`upscope`). -/
def closeScope? (line : List Char) : Option Command := do
  let rest ← after? "$upscope".toList line
  if closes rest then some .closeScope else none

/-- A declaration: type, width, code and name, and perhaps words about the range of bits (`var`). -/
def declare? (line : List Char) : Option Command := do
  let (_, rest) ← argument? (← after? "$var".toList line)
  let (width, rest) ← number? halfWordLimit (← blanks? rest)
  let (code, rest) ← argument? rest
  let (name, rest) ← argument? rest
  if closesAfterWords rest then some (.declare width code name) else none

/-- The end of the declarations (`enddefinitions`). -/
def endDefinitions? (line : List Char) : Option Command := do
  let rest ← after? "$enddefinitions".toList line
  if closes rest then some .endDefinitions else none

/-- A keyword alone or with text behind blanks (`header`). -/
def header? (line : List Char) : Option Command := do
  let (keyword, rest) ← keyword? ["$date", "$version", "$timescale", "$comment"] line
  let text ← if rest.isEmpty then some [] else blanks? rest
  let (text, closed) := sectionText text
  some (.header keyword text closed)

/-- A marker, with or without its closing keyword (`dump`). -/
def marker? (line : List Char) : Option Command := do
  let (_, rest) ← keyword? ["$dumpvars", "$dumpall", "$dumpon", "$dumpoff", "$end"] line
  if closes rest || endsHere rest then some .marker else none

/-- A time (`timestamp`). -/
def timestamp? : List Char → Option Command
  | '#' :: line => do
    let (time, rest) ← number? wordLimit line
    if endsHere rest then some (.timestamp time) else none
  | _ => none

/-- Whether a character is a bit: known, unknown, or not driven (`is_bit`). -/
def isBit (c : Char) : Bool := c ∈ ['0', '1', 'x', 'X', 'z', 'Z']

/-- A row of bits, then a code behind blanks (`vector`). -/
def vector? : List Char → Option Command
  | [] => none
  | c :: line => do
    let bits := line.takeWhile isBit
    if (c == 'b' || c == 'B') && !bits.isEmpty then
      let (code, rest) ← argument? (line.dropWhile isBit)
      if endsHere rest then some (.vector bits code) else none
    else none

/-- A real number, then a code behind blanks (`real`). -/
def real? : List Char → Option Command
  | [] => none
  | c :: line =>
    if c == 'r' || c == 'R' then do
      let (_, rest) ← word? line
      let (code, rest) ← argument? rest
      if endsHere rest then some (.real code) else none
    else none

/-- A bit directly before a code (`scalar`). -/
def scalar? : List Char → Option Command
  | [] => none
  | bit :: line =>
    if isBit bit then do
      let (code, rest) ← word? line
      if endsHere rest then some (.scalar bit code) else none
    else none

/-- The alternatives, in the order in which they are tried. -/
def alternatives : List (List Char → Option Command) :=
  [openScope?, closeScope?, declare?, endDefinitions?, header?, marker?, timestamp?, vector?, real?,
    scalar?]

/-- The command that a line says, whatever white space stands in front of it (`command`). -/
def command? (line : List Char) : Option Command :=
  alternatives.findSome? (· (trimStart line))

end TraceMining.Waveform
