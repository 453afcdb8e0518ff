import TraceMining.Proofs.Text.LineDecoding
import TraceMining.Proofs.Waveform.Denotation
import TraceMining.Proofs.Waveform.Layout
import TraceMining.Session

/-!
# Where reading stops

A dump is read up to its first line that is refused, or, in a file, that is no text, and this line
alone is reported with its number (`readLines_of_refused`, `readBytes_of_undecodable`): what follows
it has no part in the report. If no line is refused, only the end of the dump can be at fault, and
then the last line stands for it (`Fault.AtEnd`). A file whose bytes are text is read like that
text, and its name is added to the report (`readDump_of_decodes`).

All of this holds in every order of the codes. The file and the text need not be read in the same
order: the reports are the same nevertheless, and so are the dumps, unless two codes have the same
signals (`read_eq_of_codesApart`).
-/

namespace TraceMining.Waveform

open Text

/-- The lines are accepted one after the other, and `p` is what has been read then. -/
def Accepts (ls : List (List Char)) (p : Progress) : Prop := ls.foldlM Progress.feed .start = .ok p

/-- The fault of a dump that ends too early, or with the wrong number of outermost scopes. -/
def Fault.AtEnd : Fault → Prop
  | .unterminatedSection _ => True
  | .unclosedScopes _ => True
  | .rootCount _ => True
  | _ => False

theorem Fault.AtEnd.of_finish [CodeOrder] {p : Progress} {fault : Fault}
    (h : p.finish = .error fault) : fault.AtEnd := by
  unfold Progress.finish at h
  split at h
  · cases h
    trivial
  · split at h
    · split at h
      · cases h
      · cases h
        trivial
    · cases h
      trivial

variable {ls front rest : List (List Char)} {line : List Char} {p : Progress} {fault : Fault}

/-! ## Lines -/

theorem foldlM_feedNumbered (h : Accepts ls p) (n : Nat) :
    (ls.zipIdx n).foldlM Progress.feedNumbered .start = .ok p := by
  rw [Accepts, ← mapError_fault_foldlM ls .start n] at h
  exact mapError_eq_ok_iff.1 h

/-- A refused line behind accepted ones is reported, whatever follows it. -/
theorem readLines_of_refused [CodeOrder] (h : Accepts front p)
    (hline : p.feed line = .error fault) :
    readLines (front ++ line :: rest) = .error (.located (front.length + 1) line fault) := by
  unfold readLines
  rw [List.zipIdx_append, List.zipIdx_cons, List.foldlM_append, foldlM_feedNumbered h 1,
    Nat.add_comm]
  simp only [bind, Except.bind, List.foldlM_cons, Progress.feedNumbered, hline]
  rfl

theorem readLines_of_accepts [CodeOrder] (h : Accepts ls p) : readLines ls = p.conclude ls := by
  unfold readLines
  rw [foldlM_feedNumbered h 1]
  rfl

/-- If all lines are accepted, the last one stands for the end. -/
theorem exists_fault_of_conclude [CodeOrder] {e : ReadError} (h : p.conclude ls = .error e) :
    ∃ fault : Fault, fault.AtEnd ∧ e = .located ls.length (ls.getLast?.getD []) fault := by
  unfold Progress.conclude at h
  cases hfinish : p.finish with
  | ok dump =>
    rw [hfinish] at h
    cases h
  | error fault =>
    rw [hfinish] at h
    cases h
    exact ⟨fault, .of_finish hfinish, rfl⟩

/-! ## Bytes -/

/-- The lines of a file are text, line by line the given one. -/
def Decodes (raw : List (List UInt8)) (ls : List (List Char)) : Prop := raw.map decode? = ls.map some

variable {raw rawFront rawRest : List (List UInt8)} {rawLine : List UInt8}

theorem Decodes.filterMap (h : Decodes raw ls) : raw.filterMap decode? = ls := by
  have hmap : raw.filterMap decode? = (raw.map decode?).filterMap id := by
    rw [List.filterMap_map, Function.id_comp]
  rw [hmap, h, List.filterMap_map, Function.id_comp, List.filterMap_some]

theorem Decodes.foldlM_feedBytes (h : Decodes raw ls) (n : Nat) (p : Progress) :
    (raw.zipIdx n).foldlM feedBytes p =
      ((ls.zipIdx n).foldlM Progress.feedNumbered p).mapError .refused := by
  induction raw generalizing ls n p with
  | nil =>
    cases ls with
    | nil => rfl
    | cons l ls => simp [Decodes] at h
  | cons r raw ih =>
    cases ls with
    | nil => simp [Decodes] at h
    | cons l ls =>
      simp only [Decodes, List.map_cons, List.cons.injEq] at h
      rw [List.zipIdx_cons, List.zipIdx_cons, List.foldlM_cons, List.foldlM_cons, feedBytes, h.1]
      simp only
      cases p.feedNumbered (l, n) with
      | error e => rfl
      | ok q => exact ih h.2 (n + 1) q

theorem readBytes_eq [CodeOrder] (bytes : List UInt8) :
    readBytes bytes = ((byteLines bytes).zipIdx 1).foldlM feedBytes .start >>= fun p =>
      (p.conclude ((byteLines bytes).filterMap decode?)).mapError .refused := rfl

/-- If all lines are text, they are read as text. -/
theorem readBytes_of_decodes [CodeOrder] {bytes : List UInt8} (h : Decodes (byteLines bytes) ls) :
    readBytes bytes = (readLines ls).mapError .refused := by
  rw [readBytes_eq, h.foldlM_feedBytes, h.filterMap, readLines]
  cases (ls.zipIdx 1).foldlM Progress.feedNumbered .start <;> rfl

theorem Decodes.length (h : Decodes raw ls) : raw.length = ls.length := by
  rw [← List.length_map decode?, h, List.length_map]

theorem foldlM_feedBytes_cons (hdecodes : Decodes rawFront front) (h : Accepts front p) :
    ((rawFront ++ rawLine :: rawRest).zipIdx 1).foldlM feedBytes .start =
      (((rawLine, front.length + 1) :: rawRest.zipIdx (front.length + 2)).foldlM feedBytes p) := by
  rw [List.zipIdx_append, List.foldlM_append, hdecodes.foldlM_feedBytes, foldlM_feedNumbered h,
    hdecodes.length, List.zipIdx_cons, Nat.add_comm 1]
  rfl

theorem readBytes_of_refused [CodeOrder] {bytes : List UInt8}
    (hbytes : byteLines bytes = rawFront ++ rawLine :: rawRest) (hdecodes : Decodes rawFront front)
    (h : Accepts front p) (hline : decode? rawLine = some line)
    (hfault : p.feed line = .error fault) :
    readBytes bytes = .error (.refused (.located (front.length + 1) line fault)) := by
  rw [readBytes_eq, hbytes, foldlM_feedBytes_cons hdecodes h, List.foldlM_cons, feedBytes, hline]
  simp only [Progress.feedNumbered, hfault]
  rfl

theorem readBytes_of_undecodable [CodeOrder] {bytes : List UInt8}
    (hbytes : byteLines bytes = rawFront ++ rawLine :: rawRest) (hdecodes : Decodes rawFront front)
    (h : Accepts front p) (hline : decode? rawLine = none) :
    readBytes bytes = .error .undecodable := by
  rw [readBytes_eq, hbytes, foldlM_feedBytes_cons hdecodes h, List.foldlM_cons, feedBytes, hline]
  rfl

/-! ## Files -/

/-- An error of a file as it is reported. -/
def FileError.inFile (name : String) : FileError → DumpError
  | undecodable => .undecodable
  | refused e => .refused (e.inFile name)

theorem readDump_of_bytes? [CodeOrder] {files : Files} {name : String} {bytes : List UInt8}
    (hfile : files.bytes? name = some bytes) :
    readDump files name = (readBytes bytes).mapError (FileError.inFile name) := by
  rw [readDump, hfile]
  rfl

theorem readDump_of_decodes [CodeOrder] {files : Files} {name : String} {bytes : List UInt8}
    (hfile : files.bytes? name = some bytes) (h : Decodes (byteLines bytes) ls) :
    readDump files name = (readLines ls).mapError fun e => .refused (e.inFile name) := by
  rw [readDump_of_bytes? hfile, readBytes_of_decodes h]
  cases readLines ls <;> rfl

/-- **The first line at fault decides.** A refused line behind accepted ones is reported with its
number and its trimmed text, and in a file a line that is no text as unreadable; what follows has no
part in it. If no line is refused, an error is one of the end and carries the last line, or 0 and no
text if there is none. A file of text is read like that text, except that an error names the file;
this holds also if the file is read in another order of the codes, unless the text is accepted and
two of its codes have the same signals. -/
theorem first_line_at_fault [order : CodeOrder] (files : Files) (name : String) (bytes : List UInt8)
    (text : List Char) (hfile : files.bytes? name = some bytes) :
    (∀ front line p fault, Accepts front p → p.feed line = .error fault →
      (∀ rest, lines text = front ++ line :: rest →
        read text = .error ⟨none, front.length + 1, String.ofList (trim line), fault⟩) ∧
      ∀ rawFront rawLine rawRest, byteLines bytes = rawFront ++ rawLine :: rawRest →
        Decodes rawFront front → decode? rawLine = some line →
        readDump files name =
          .error (.refused ⟨some name, front.length + 1, String.ofList (trim line), fault⟩)) ∧
    (∀ front p rawFront rawLine rawRest, Accepts front p →
      byteLines bytes = rawFront ++ rawLine :: rawRest → Decodes rawFront front →
      decode? rawLine = none → readDump files name = .error .undecodable) ∧
    (∀ ls p, Accepts ls p →
      (∀ e, lines text = ls → read text = .error e → ∃ fault : Fault, fault.AtEnd ∧
        e = ⟨none, ls.length, String.ofList (trim (ls.getLast?.getD [])), fault⟩) ∧
      ∀ e, Decodes (byteLines bytes) ls → readDump files name = .error e →
        ∃ fault : Fault, fault.AtEnd ∧
          e = .refused ⟨some name, ls.length, String.ofList (trim (ls.getLast?.getD [])), fault⟩) ∧
    (decode? bytes = some text →
      readDump files name = (read text).mapError (fun e => .refused (e.inFile name)) ∧
      ∀ order' : CodeOrder, CodesApart text ∨ (∃ e, @read order text = .error e) →
        @readDump order' files name =
          (@read order text).mapError fun e => .refused (e.inFile name)) := by
  refine ⟨fun front line p fault hfront hline => ⟨fun rest htext => ?_, ?_⟩, ?_,
    fun ls p hls => ⟨fun e htext he => ?_, fun e hdecodes he => ?_⟩, fun htext => ?_⟩
  · rw [read, htext]
    exact readLines_of_refused hfront hline
  · intro rawFront rawLine rawRest hbytes hdecodes hraw
    rw [readDump_of_bytes? hfile, readBytes_of_refused hbytes hdecodes hfront hraw hline]
    rfl
  · intro front p rawFront rawLine rawRest hfront hbytes hdecodes hraw
    rw [readDump_of_bytes? hfile, readBytes_of_undecodable hbytes hdecodes hfront hraw]
    rfl
  · rw [read, htext, readLines_of_accepts hls] at he
    exact exists_fault_of_conclude he
  · rw [readDump_of_decodes hfile hdecodes, readLines_of_accepts hls] at he
    cases hconclude : p.conclude ls with
    | ok dump =>
      rw [hconclude] at he
      cases he
    | error e' =>
      rw [hconclude] at he
      cases he
      obtain ⟨fault, hend, rfl⟩ := exists_fault_of_conclude hconclude
      exact ⟨fault, hend, rfl⟩
  · have hdecodes : Decodes (byteLines bytes) (lines text) := map_decode?_byteLines htext
    refine ⟨readDump_of_decodes hfile hdecodes, fun order' horder => ?_⟩
    rw [← read_eq_of_order horder order']
    exact readDump_of_decodes hfile hdecodes

/-- The line that opens a scope, and what has been read behind it. -/
def scopeLine : List Char := "$scope module TOP $end".toList

def inScope : Progress := ⟨[⟨"TOP", []⟩], [], ∅, 0, false, none, none⟩

/-- Behind the scope, a line that is refused and one that is no text. -/
def spoilt : List UInt8 := encode "$scope module TOP $end\n\t1 ?! \r\n".toList ++ [0xFF]

/-- Behind the scope, a line that is no text and one that is refused. -/
def garbled : List UInt8 := encode "$scope module TOP $end\n".toList ++ 0xFF :: encode "\n1 ?!".toList

def unclosed : List Char := "$scope module TOP $end\n".toList

def dumps : Files :=
  [("spoilt", spoilt), ("garbled", garbled), ("unclosed", encode unclosed), ("empty", []),
    ("wandering", encode wandering)]

/-- A refused line, a line that is no text, two dumps that end too early, and one that is read in two
orders. -/
theorem first_line_at_fault_spoilt :
    readDump dumps "spoilt" = .error (.refused ⟨some "spoilt", 2, "1 ?!", .malformedChange⟩) ∧
    readDump dumps "garbled" = .error .undecodable ∧
    readDump dumps "unclosed" =
      .error (.refused ⟨some "unclosed", 1, "$scope module TOP $end", .unclosedScopes 1⟩) ∧
    (∀ e, readDump dumps "empty" = .error e →
      ∃ fault : Fault, fault.AtEnd ∧ e = .refused ⟨some "empty", 0, "", fault⟩) ∧
    CodesApart wandering ∧ ∃ dump, read wandering = .ok dump ∧
      readDump dumps "wandering" = .ok dump ∧
      @readDump descending dumps "wandering" = .ok dump := by
  have hscope : Accepts [scopeLine] inScope := rfl
  have hdecodes : Decodes [encode scopeLine] [scopeLine] := by
    simp only [Decodes, List.map_cons, decode?_encode, List.map_nil]
  refine ⟨?_, ?_, ?_, ?_, codesApart_wandering, ?_⟩
  · have hrefused : inScope.feed "\t1 ?! ".toList = .error .malformedChange := rfl
    exact ((first_line_at_fault dumps "spoilt" spoilt [] (by decide +kernel)).1 _ _ _ _ hscope
      hrefused).2 [encode scopeLine] (encode "\t1 ?! ".toList) [[0xFF]] (by decide +kernel) hdecodes
      (decode?_encode _)
  · exact (first_line_at_fault dumps "garbled" garbled [] (by decide +kernel)).2.1 _ _
      [encode scopeLine] [0xFF] [encode "1 ?!".toList] hscope (by decide +kernel) hdecodes
      (by decide +kernel)
  · rw [(first_line_at_fault dumps "unclosed" (encode unclosed) unclosed (by decide +kernel)).2.2.2
      (decode?_encode _) |>.1]
    rfl
  · intro e he
    exact ((first_line_at_fault dumps "empty" [] [] (by decide +kernel)).2.2.1 [] .start rfl).2 e rfl he
  · have haccepted : (read wandering).toOption.isSome = true := by decide +kernel
    obtain ⟨dump, hsome⟩ := Option.isSome_iff_exists.1 haccepted
    have hread := toOption_eq_some_iff.1 hsome
    obtain ⟨hsame, hother⟩ := (first_line_at_fault dumps "wandering" (encode wandering) wandering
      (by decide +kernel)).2.2.2 (decode?_encode _)
    refine ⟨dump, hread, ?_, ?_⟩
    · rw [hsame, hread]
      rfl
    · rw [hother descending (.inl codesApart_wandering), hread]
      rfl

end TraceMining.Waveform
