import TraceMining.Hierarchy
import TraceMining.Text.Lines
import TraceMining.Text.Utf8
import TraceMining.Trace
import TraceMining.Waveform.Error

/-!
# Reading a waveform dump

SPEC_FULL.md, 4.1, without the grammar of the lines: the state is `ParseContext`, its operations
are `feed`, `close_section`, `open_scope`, `close_scope`, `declare`, `change` and `finish`, and the
loop over the lines is `parse_lines`, of a text in `parse_trace` and of a file in `read_trace`.

A dump is read line by line. What has been read is kept as the scopes that are open, the modules
that are finished, and for every identifier code the signals declared for it and its changes. The
names of a wire are collected until the dump ends, so a code that is declared several times ends
up as one alias group with all its names.

The codes are kept in a hash table, which has an order of its own in every run. The order matters
where two codes end up with the same names, since the one that is visited last stays, and so it is a
parameter (`CodeOrder`).
-/

namespace TraceMining.Waveform

open Text

/-- What a dump holds. -/
structure Dump where
  /-- The root of the design. -/
  root : Module
  /-- The changes of every wire as they were recorded. -/
  store : Store
  /-- The text of the last time scale section. -/
  timescale : Option String

/-- A scope that has been entered and not left: its own name and the modules finished in it. -/
structure OpenScope where
  name : String
  finished : List Module

/-- What is known of an identifier code. -/
structure Wire where
  aliases : AliasGroup
  events : DeltaTrace

/-- The order in which `finish` visits the codes. Nothing that is written in a dump fixes it. -/
class CodeOrder where
  visit : OrderedMap (List Char) Wire → List Wire
  perm : ∀ wires, (visit wires).Perm wires.values

/-- The codes in ascending order, where no other order is given. -/
instance : CodeOrder := ⟨OrderedMap.values, fun _ => .refl _⟩

/-- A section of free text that has not been closed. -/
structure Section where
  keyword : List Char
  pieces : List (List Char)

/-- What has been read of a dump (`ParseContext`). -/
structure Progress where
  /-- The open scopes, the innermost first. -/
  scopes : List OpenScope
  /-- The finished outermost modules. -/
  roots : List Module
  wires : OrderedMap (List Char) Wire
  time : Time
  definitionsDone : Bool
  pending : Option Section
  timescale : Option String

/-! ## Values -/

/-- The number that binary digits stand for; there is one digit at least. -/
def binary? (ds : List Char) : Option Value :=
  if ds.isEmpty then none
  else ds.foldlM (fun n d =>
    if d = '0' then some (2 * n) else if d = '1' then some (2 * n + 1) else none) 0

/-- The binary digit as which a bit counts: unknown bits and bits that are not driven count as 0. -/
def binaryDigit (bit : Char) : Char := if bit = '1' then '1' else '0'

/-- The number of a row of bits, each of them written as a binary digit (`decode_bits`). -/
def decodeBits? (bits : List Char) : Option Value := binary? (bits.map binaryDigit)

/-! ## Commands -/

namespace Progress

/-- Before the first line. -/
def start : Progress := ⟨[], [], ∅, 0, false, none, none⟩

/-- The path of the innermost of some open scopes. -/
def path (scopes : List OpenScope) : String :=
  ".".intercalate (scopes.reverse.map OpenScope.name)

/-- Closes a section; only the text of a time scale is kept, its pieces put in one line
(`close_section`). -/
def closeSection (p : Progress) (s : Section) : Progress :=
  let text := [' '].intercalate (s.pieces.filter (!·.isEmpty))
  { p with
    pending := none
    timescale := if s.keyword = "$timescale".toList then some (String.ofList text) else p.timescale }

/-- Adds a piece of text to a section, which may close it. -/
def extend (p : Progress) (s : Section) (piece : List Char) (closed : Bool) : Progress :=
  let s := { s with pieces := s.pieces ++ [piece] }
  if closed then p.closeSection s else { p with pending := some s }

/-- Leaves the innermost scope: its module becomes a child of the scope around it, or a root
(`close_scope`). -/
def closeScope (p : Progress) : Except Fault Progress :=
  match p.scopes with
  | [] => .error .unbalancedUpscope
  | scope :: outer =>
    let left := Module.mk (path p.scopes) scope.finished
    match outer with
    | [] => .ok { p with scopes := [], roots := p.roots ++ [left] }
    | parent :: rest =>
      .ok { p with scopes := { parent with finished := parent.finished ++ [left] } :: rest }

/-- The full name of a signal declared in the innermost of some open scopes. -/
def qualify (scopes : List OpenScope) (name : List Char) : String :=
  if scopes.isEmpty then String.ofList name else path scopes ++ "." ++ String.ofList name

/-- Adds a signal to the names of a code (`declare`). -/
def declare (p : Progress) (width : Nat) (code name : List Char) : Except Fault Progress :=
  if p.definitionsDone then .error .lateDeclaration
  else
    let signal : Signal := ⟨qualify p.scopes name, width⟩
    .ok { p with wires := p.wires.alter code fun
      | some w => { w with aliases := w.aliases.insert signal }
      | none => ⟨OrderedSet.insert ∅ signal, ∅⟩ }

/-- Records the value of a code at the current time (`change`). -/
def change (p : Progress) (code : List Char) (value : Value) : Except Fault Progress :=
  match p.wires.lookup code with
  | none => .error (.undeclaredCode (String.ofList code))
  | some w =>
    .ok { p with wires := p.wires.insert code { w with events := w.events.insert p.time value } }

/-- The value of one bit. -/
def bitValue (bit : Char) : Value := if bit = '1' then 1 else 0

/-- What a command does. A row that cannot be decoded is a malformed change. -/
def obey (p : Progress) : Command → Except Fault Progress
  | .openScope _ name => .ok { p with scopes := ⟨String.ofList name, []⟩ :: p.scopes }
  | .closeScope => p.closeScope
  | .declare width code name => p.declare width code name
  | .endDefinitions => .ok { p with definitionsDone := true }
  | .header keyword text closed => .ok (p.extend ⟨keyword, []⟩ text closed)
  | .marker => .ok p
  | .timestamp time => .ok { p with time := time }
  | .scalar bit code => p.change code (bitValue bit)
  | .vector bits code =>
    match decodeBits? bits with
    | some value => p.change code value
    | none => .error .malformedChange
  | .real _ => .ok p

/-- Reads one more line (`feed`). Inside a section every line is text; elsewhere a line of white
space says nothing. -/
def feed (p : Progress) (line : List Char) : Except Fault Progress :=
  match p.pending with
  | some s =>
    let (piece, closed) := sectionText line
    .ok (p.extend s piece closed)
  | none =>
    if isWhiteOnly line then .ok p
    else
      match command? line with
      | some c => p.obey c
      | none => .error (malformed line)

/-- The dump, if it may end here (`finish`). Of several codes with the same names the one that is
visited last stays. -/
def finish [CodeOrder] (p : Progress) : Except Fault Dump :=
  match p.pending with
  | some s => .error (.unterminatedSection (String.ofList s.keyword))
  | none =>
    if p.scopes.isEmpty then
      match p.roots with
      | [root] =>
        .ok ⟨root, .ofList ((CodeOrder.visit p.wires).map fun w => (w.aliases, w.events)),
          p.timescale⟩
      | roots => .error (.rootCount roots.length)
    else .error (.unclosedScopes p.scopes.length)

/-- Reads a line that has the given number. -/
def feedNumbered (p : Progress) (line : List Char × Nat) : Except ReadError Progress :=
  (p.feed line.1).mapError (.located line.2 line.1)

/-- The dump after the given lines; what is missing at the end is missing at the last line. -/
def conclude [CodeOrder] (p : Progress) (lines : List (List Char)) : Except ReadError Dump :=
  p.finish.mapError (.located lines.length (lines.getLast?.getD []))

end Progress

/-! ## Texts and files -/

/-- Reads the lines of a dump, up to the first one that is refused (`parse_lines`). -/
def readLines [CodeOrder] (lines : List (List Char)) : Except ReadError Dump := do
  let p ← (lines.zipIdx 1).foldlM Progress.feedNumbered Progress.start
  p.conclude lines

/-- Reads the text of a dump (`parse_trace`). -/
def read [CodeOrder] (text : List Char) : Except ReadError Dump := readLines (lines text)

/-- Why the bytes of a file are no dump. -/
inductive FileError where
  /-- A line that is no text stands before the first line that is refused. -/
  | undecodable
  | refused (e : ReadError)
  deriving DecidableEq, Repr

/-- Reads a line of a file, which may not be text. -/
def feedBytes (p : Progress) (line : List UInt8 × Nat) : Except FileError Progress :=
  match decode? line.1 with
  | none => .error .undecodable
  | some text => (p.feedNumbered (text, line.2)).mapError .refused

/-- Reads the bytes of a dump line by line, so that only the lines before the first error matter
(`parse_lines`, as `read_trace` calls it). -/
def readBytes [CodeOrder] (bytes : List UInt8) : Except FileError Dump := do
  let lines := byteLines bytes
  let p ← (lines.zipIdx 1).foldlM feedBytes Progress.start
  (p.conclude (lines.filterMap decode?)).mapError .refused

end TraceMining.Waveform
