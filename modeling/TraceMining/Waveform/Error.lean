import TraceMining.Waveform.Line

/-!
# Why a dump is refused

SPEC_FULL.md, 4.1 and 7: `ErrorKind` and `ParseError` of the parser, and its `malformed`.

A fault is the reason why a line, or the end of a dump, is not acceptable; a read error is a fault
with the place where it was found. The wording of both is fixed here.
-/

namespace TraceMining.Waveform

open Text

/-- A reason to refuse a dump (`ErrorKind`). -/
inductive Fault where
  /-- A known directive that is not written as it should be. -/
  | malformedDirective (keyword : String)
  /-- A directive that is not known, or the opening of a section that is not well written. -/
  | unknownDirective (keyword : String)
  /-- Any other line that says nothing. -/
  | malformedChange
  /-- A change of an identifier code that no declaration named. -/
  | undeclaredCode (code : String)
  /-- A scope is left although none is open. -/
  | unbalancedUpscope
  /-- A declaration behind the end of the definitions. -/
  | lateDeclaration
  /-- The dump ends inside a section. -/
  | unterminatedSection (keyword : String)
  /-- The dump ends while scopes are open. -/
  | unclosedScopes (count : Nat)
  /-- The dump does not have exactly one outermost scope. -/
  | rootCount (count : Nat)
  deriving DecidableEq, Repr

/-- The wording of a fault. -/
def Fault.message : Fault → String
  | malformedDirective k => "malformed " ++ k ++ " directive"
  | unknownDirective k => "unrecognized directive " ++ k
  | malformedChange => "malformed value change"
  | undeclaredCode c => "value change for undeclared identifier `" ++ c ++ "`"
  | unbalancedUpscope => "$upscope without a matching $scope"
  | lateDeclaration => "$var declared after $enddefinitions"
  | unterminatedSection k => k ++ " section is never closed with $end"
  | unclosedScopes n => n.repr ++ " scope(s) still open at end of trace"
  | rootCount n => "expected exactly one root module, found " ++ n.repr

/-- The directives for which a line that is not well written counts as malformed. -/
def knownDirectives : List String :=
  ["$scope", "$upscope", "$var", "$enddefinitions", "$dumpvars", "$dumpall", "$dumpon", "$dumpoff",
    "$end"]

/-- The fault of a line that no alternative takes: its first word decides (`malformed`). -/
def malformed (line : List Char) : Fault :=
  let word := String.ofList (firstWord line)
  if word ∈ knownDirectives then .malformedDirective word
  else if word.toList.head? = some '$' then .unknownDirective word
  else .malformedChange

/-- A fault with the number and the trimmed text of the line where it was found, and the file if
it is known (`ParseError`). -/
structure ReadError where
  file : Option String
  line : Nat
  text : String
  fault : Fault
  deriving DecidableEq, Repr

namespace ReadError

/-- A fault found at the line numbered `number` (`ParseError::new`). -/
def located (number : Nat) (line : List Char) (fault : Fault) : ReadError :=
  ⟨none, number, String.ofList (trim line), fault⟩

/-- The error with the name of the file it was found in (`with_file`). -/
def inFile (e : ReadError) (name : String) : ReadError := { e with file := some name }

/-- The wording of an error: place, fault, text of the line. -/
def message (e : ReadError) : String :=
  let place := match e.file with
    | some name => name ++ ":" ++ e.line.repr
    | none => "line " ++ e.line.repr
  place ++ ": " ++ e.fault.message ++ " (`" ++ e.text ++ "`)"

end ReadError

end TraceMining.Waveform
