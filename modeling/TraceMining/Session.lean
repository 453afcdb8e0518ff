import TraceMining.Findings.Archive
import TraceMining.Mining
import TraceMining.Settings.Layers
import TraceMining.Validation

/-!
# Sessions on files

SPEC_FULL.md, 6 and 11: what works on files, namely `read_trace`, `mine_file` with `mine_files`,
`validate_file` with `validate_files`, `MinerConfig::load`, and `save` and `load` of `MinerResult`.

A session mines some files, aggregates what was found, archives it, and validates it against other
files. A file that cannot be read stops nothing but its own treatment. The files of a working
directory are a value: names with their bytes.
-/

namespace TraceMining

open Waveform (CodeOrder Dump)

/-- The files of a working directory; of several with one name the last one is there. -/
abbrev Files := List (String × List UInt8)

/-- The bytes of the file with a name. -/
def Files.bytes? (files : Files) (name : String) : Option (List UInt8) :=
  if name.isEmpty then none else (files.reverse.find? (·.1 == name)).map (·.2)

/-! ## Dumps -/

/-- Why a file of a dump cannot be used. -/
inductive DumpError where
  /-- There is no such file. -/
  | absent
  /-- A line that is no text comes before any line that is refused. -/
  | undecodable
  | refused (e : Waveform.ReadError)
  | preparation (e : PreparationError)
  deriving DecidableEq

/-- The wording of an error. -/
def DumpError.message : DumpError → String
  | absent => "unable to read trace: No such file or directory (os error 2)"
  | undecodable => "unable to read trace: stream did not contain valid UTF-8"
  | refused e => e.message
  | preparation e => e.message

/-- Reads the dump in a file (`read_trace`). -/
def readDump [CodeOrder] (files : Files) (name : String) : Except DumpError Dump :=
  match files.bytes? name with
  | none => .error .absent
  | some bytes =>
    (Waveform.readBytes bytes).mapError fun
      | .undecodable => .undecodable
      | .refused e => .refused (e.inFile name)

/-- Reads the dump in a file and prepares it. -/
def prepareFile [CodeOrder] (files : Files) (name : String) (settings : Settings) :
    Except DumpError Prepared := do
  let dump ← readDump files name
  (prepare dump settings).mapError .preparation

/-- Mines the dump in a file (`mine_file`). -/
def mineFile [CodeOrder] (files : Files) (name : String) (settings : Settings) :
    Except DumpError Findings := do
  let prepared ← prepareFile files name settings
  .ok (mine prepared settings)

/-- Validates findings against the dump in a file (`validate_file`). -/
def validateFile [CodeOrder] (files : Files) (findings : Findings) (name : String)
    (settings : Settings) : Except DumpError Report := do
  let prepared ← prepareFile files name settings
  .ok (validate findings prepared)

/-! ## Archives -/

/-- Why archived findings cannot be had. -/
inductive ArchiveError where
  /-- There is no such file. -/
  | absent
  /-- The text is no archive of findings. -/
  | malformed
  deriving DecidableEq, Repr

/-- The findings archived in a text. -/
def readArchive (text : List Char) : Except ArchiveError Findings :=
  match Findings.ofArchive? text with
  | some f => .ok f
  | none => .error .malformed

/-- The wording for an archive that is not there. -/
def ArchiveError.absentMessage : String :=
  "unable to access property file: No such file or directory (os error 2)"

/-- The bytes that findings are saved as (`MinerResult::save`). -/
def save (findings : Findings) : List UInt8 := Text.encode findings.archive

/-- Loads the findings saved in a file (`MinerResult::load`). -/
def load (files : Files) (name : String) : Except ArchiveError Findings :=
  match files.bytes? name with
  | none => .error .absent
  | some bytes =>
    match Findings.ofBytes? bytes with
    | some f => .ok f
    | none => .error .malformed

/-! ## Settings -/

/-- Loads settings from the defaults, a file if one is named, and the environment
(`MinerConfig::load`). A name without a file of its own also stands for the file with the ending of
TOML documents. -/
def loadSettings (files : Files) (name : Option String) (environment : List (String × String)) :
    Except Settings.Error Settings :=
  match name with
  | none => Settings.ofLayers none environment
  | some name =>
    match (files.bytes? name).or (if name.isEmpty then none else files.bytes? (name ++ ".toml")) with
    | some bytes => Settings.ofLayers (some bytes) environment
    | none => .error .layers

/-! ## A whole session -/

/-- What a session came to. -/
structure Session where
  /-- What mining each file came to. -/
  mined : List (String × Except DumpError Findings)
  /-- What was found in all files that could be mined. -/
  findings : Findings
  /-- The findings as they were loaded again after they were saved. -/
  reloaded : Except ArchiveError Findings
  /-- What validating each file came to. -/
  reports : List (String × Except DumpError Report)

/-- The name under which a session saves its findings. -/
def archiveName : String := "properties.json"

/-- Mines the first files, saves and loads what was found in them, and validates it against the
other files. -/
def Session.run [CodeOrder] (files : Files) (toMine toValidate : List String)
    (settings : Settings) : Session :=
  let mined := toMine.map fun name => (name, mineFile files name settings)
  let findings := Findings.aggregate (mined.filterMap (·.2.toOption))
  let files := files ++ [(archiveName, save findings)]
  let reloaded := load files archiveName
  let reports := toValidate.map fun name =>
    (name, validateFile files (reloaded.toOption.getD ∅) name settings)
  ⟨mined, findings, reloaded, reports⟩

end TraceMining
