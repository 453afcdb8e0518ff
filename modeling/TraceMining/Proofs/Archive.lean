import Mathlib.Data.List.Nodup
import TraceMining.Proofs.Except
import TraceMining.Proofs.Json.RoundTrip
import TraceMining.Proofs.Ordered
import TraceMining.Session

/-!
# Findings and their archives

An archive spells findings out as a list of entries. Whoever writes one by hand may put the entries
and the signals of a wire in any order and repeat them (`Spelling`); what is read is then the map of
these entries, in which the last entry of a property stands (`ofJson?_spellings`). Findings spell
themselves out in order, so they come back from their archive unchanged, and an archive is a
canonical form: it is the same text for equal findings only, and reading any text and archiving what
was read gives a text that stays as it is (`archive_canonical`).

Numbers are stored in words. Widths and supports that fit are read back, and what was read from any
text fits (`wordSized_of_ofArchive?`).
-/

namespace TraceMining

namespace OrderedSet

variable {α : Type} [Ord α] [Std.TransOrd α] [Std.LawfulEqOrd α]

theorem ofList_members (s : OrderedSet α) : ofList s.members = s :=
  ext_mem fun _ => mem_ofList

end OrderedSet

namespace Findings

open Text

/-! ## Records -/

theorem onlyMember?_of_mem {members : List (String × Json)}
    (hkeys : (members.map (·.1)).Nodup) {k : String} {v : Json} (h : (k, v) ∈ members) :
    onlyMember? (members.map fun m => (some m.1.toList, m.2)) k = some v := by
  have hinjective : ∀ s t : String, some s.toList = some t.toList → s = t :=
    fun s t heq => String.toList_inj.1 (Option.some.inj heq)
  have honly : ∀ m ∈ members, m.1 = k → m = (k, v) := by
    intro m hm hk
    exact List.inj_on_of_nodup_map hkeys hm h hk
  have hnodup : (members.map fun m => ((some m.1.toList : JsonText), m.2)).Nodup := by
    refine (List.Nodup.of_map _ hkeys).map ?_
    rintro ⟨k, v⟩ ⟨k', v'⟩ heq
    cases hinjective k k' (congrArg Prod.fst heq)
    cases congrArg Prod.snd heq
    rfl
  have hfilter : (members.map fun m => ((some m.1.toList : JsonText), m.2)).filter
      (fun m => m.1 == some k.toList) = [(some k.toList, v)] := by
    refine (filter_eq_singleton_iff hnodup).2 ⟨List.mem_map.2 ⟨_, h, rfl⟩, by simp, ?_⟩
    intro m hm hk
    obtain ⟨m, hmem, rfl⟩ := List.mem_map.1 hm
    rw [honly m hmem (hinjective _ _ (by simpa using hk))]
  rw [onlyMember?, hfilter]

theorem recordValues?_record {members : List (String × Json)}
    (hkeys : (members.map (·.1)).Nodup) :
    recordValues? (members.map (·.1)) (.record members) = some (members.map (·.2)) := by
  have htexts :
      (members.map fun m => ((some m.1.toList : JsonText), m.2)).all (·.1.isSome) = true := by
    simp
  rw [Json.record, recordValues?, if_pos htexts]
  exact mapM_map_eq_some fun m hm => onlyMember?_of_mem hkeys hm

theorem string?_ofString (s : String) : string? (.ofString s) = some s :=
  congrArg some String.ofList_toList

theorem naturalBelow?_natural {limit n : Nat} (h : n < limit) :
    naturalBelow? limit (.natural n) = some n :=
  if_pos h

theorem pattern?_name (p : Pattern) : pattern? (.ofString p.name) = some p := by
  simp only [pattern?, Json.ofString, String.ofList_toList]
  cases p <;> rfl

theorem signal?_signalJson {s : Signal} (h : s.width < halfWordLimit) :
    signal? (signalJson s) = some s := by
  have hvalues : recordValues? ["name", "width"] (signalJson s) =
      some [.ofString s.name, .natural s.width] :=
    @recordValues?_record [("name", .ofString s.name), ("width", .natural s.width)] (by simp)
  simp only [signal?, hvalues, string?_ofString, naturalBelow?_natural h]
  rfl

theorem stats?_statsJson {s : Stats} (h : s.support < wordLimit) : stats? (statsJson s) = some s := by
  have hvalues : recordValues? ["support", "falsifiable", "falsified"] (statsJson s) =
      some [.natural s.support, .bool s.falsifiable, .bool s.falsified] :=
    @recordValues?_record [("support", .natural s.support), ("falsifiable", .bool s.falsifiable),
      ("falsified", .bool s.falsified)] (by simp)
  simp only [stats?, hvalues, naturalBelow?_natural h]
  rfl

theorem group?_array {signals : List Signal} (h : ∀ s ∈ signals, s.width < halfWordLimit) :
    group? (.array (signals.map signalJson)) = some (.ofList signals) := by
  have hread : (signals.map signalJson).mapM signal? = some (signals.map id) :=
    mapM_map_eq_some fun s hs => signal?_signalJson (h s hs)
  rw [List.map_id] at hread
  show ((signals.map signalJson).mapM signal?).bind _ = _
  rw [hread]
  rfl

/-! ## Spelling findings out -/

/-- An entry as an archive may spell it: the signals of either wire in any order, any of them
repeated. -/
structure Spelling where
  pattern : Pattern
  a : List Signal
  b : List Signal
  stats : Stats

namespace Spelling

/-- The entry that is meant. -/
def entry (e : Spelling) : Property × Stats := (⟨e.pattern, .ofList e.a, .ofList e.b⟩, e.stats)

def json (e : Spelling) : Json :=
  .record [
    ("property", .record [("kind", .ofString e.pattern.name), ("a", .array (e.a.map signalJson)),
      ("b", .array (e.b.map signalJson))]),
    ("stats", statsJson e.stats)]

/-- The spelling of an entry in which the signals stand in order. -/
def ofEntry (e : Property × Stats) : Spelling := ⟨e.1.pattern, e.1.a.members, e.1.b.members, e.2⟩

/-- Every width fits a word of 32 bits, and the support one of 64 bits. -/
structure WordSized (e : Spelling) : Prop where
  a : ∀ s ∈ e.a, s.width < halfWordLimit
  b : ∀ s ∈ e.b, s.width < halfWordLimit
  support : e.stats.support < wordLimit

theorem entry_ofEntry (e : Property × Stats) : (ofEntry e).entry = e := by
  rw [entry, ofEntry, OrderedSet.ofList_members, OrderedSet.ofList_members]

theorem read_json {e : Spelling} (h : e.WordSized) : entry? e.json = some e.entry := by
  have hentry : recordValues? ["property", "stats"] e.json = some _ :=
    @recordValues?_record [("property", .record [("kind", .ofString e.pattern.name),
      ("a", .array (e.a.map signalJson)), ("b", .array (e.b.map signalJson))]),
      ("stats", statsJson e.stats)] (by simp)
  have hproperty : recordValues? ["kind", "a", "b"] (.record [("kind", .ofString e.pattern.name),
      ("a", .array (e.a.map signalJson)), ("b", .array (e.b.map signalJson))]) = some _ :=
    @recordValues?_record [("kind", .ofString e.pattern.name),
      ("a", .array (e.a.map signalJson)), ("b", .array (e.b.map signalJson))] (by simp)
  unfold entry? property?
  simp only [hentry, List.map_cons, List.map_nil, hproperty, pattern?_name, group?_array h.a,
    group?_array h.b, stats?_statsJson h.support]
  rfl

end Spelling

/-- Every number of the findings fits the word that it is stored in. -/
def WordSized (f : Findings) : Prop := ∀ e ∈ f.entries, (Spelling.ofEntry e).WordSized

/-- The spelled entries are read in order, and of several for one property the last one stands. -/
theorem ofJson?_spellings {es : List Spelling} (h : ∀ e ∈ es, e.WordSized) :
    ofJson? (.array (es.map Spelling.json)) = some (.ofList (es.map Spelling.entry)) := by
  have hread : (es.map Spelling.json).mapM entry? = some (es.map Spelling.entry) :=
    mapM_map_eq_some fun e he => Spelling.read_json (h e he)
  show ((es.map Spelling.json).mapM entry?).bind _ = _
  rw [hread]
  rfl

theorem ofJson?_toJson {f : Findings} (h : f.WordSized) : ofJson? f.toJson = some f := by
  have hspell : f.toJson = .array ((f.entries.map Spelling.ofEntry).map Spelling.json) := by
    rw [List.map_map]
    rfl
  have hmeant : (f.entries.map Spelling.ofEntry).map Spelling.entry = f.entries := by
    rw [List.map_map]
    exact List.map_id'' Spelling.entry_ofEntry f.entries
  rw [hspell, ofJson?_spellings, hmeant, OrderedMap.ofList_entries]
  exact List.forall_mem_map.2 h

theorem ofArchive?_render (v : Json) : ofArchive? v.render = ofJson? v := by
  rw [ofArchive?, Json.read, Json.readSymbols_render, Option.bind_some]

theorem ofArchive?_archive {f : Findings} (h : f.WordSized) : ofArchive? f.archive = some f :=
  (ofArchive?_render f.toJson).trans (ofJson?_toJson h)

/-! ## What was read fits -/

theorem lt_of_naturalBelow? {limit n : Nat} {v : Json} (h : naturalBelow? limit v = some n) :
    n < limit := by
  unfold naturalBelow? at h
  split at h
  · obtain ⟨hlt, rfl⟩ := Option.ite_none_right_eq_some.1 h |>.imp id Option.some.inj
    exact hlt
  · cases h

theorem width_lt_of_signal? {v : Json} {s : Signal} (h : signal? v = some s) :
    s.width < halfWordLimit := by
  unfold signal? at h
  split at h
  · obtain ⟨name, -, h⟩ := Option.bind_eq_some_iff.1 h
    obtain ⟨width, hwidth, h⟩ := Option.bind_eq_some_iff.1 h
    cases h
    exact lt_of_naturalBelow? hwidth
  · cases h

theorem width_lt_of_group? {v : Json} {g : AliasGroup} (h : group? v = some g) :
    ∀ s ∈ g.members, s.width < halfWordLimit := by
  obtain ⟨items, -, h⟩ := Option.bind_eq_some_iff.1 h
  obtain ⟨signals, hsignals, h⟩ := Option.bind_eq_some_iff.1 h
  cases h
  intro s hs
  obtain ⟨item, -, hitem⟩ := exists_of_mapM_eq_some hsignals s (OrderedSet.mem_ofList.1 hs)
  exact width_lt_of_signal? hitem

theorem support_lt_of_stats? {v : Json} {s : Stats} (h : stats? v = some s) :
    s.support < wordLimit := by
  unfold stats? at h
  split at h
  · obtain ⟨support, hsupport, h⟩ := Option.bind_eq_some_iff.1 h
    obtain ⟨_, -, h⟩ := Option.bind_eq_some_iff.1 h
    obtain ⟨_, -, h⟩ := Option.bind_eq_some_iff.1 h
    cases h
    exact lt_of_naturalBelow? hsupport
  · cases h

theorem wordSized_of_entry? {v : Json} {e : Property × Stats} (h : entry? v = some e) :
    (Spelling.ofEntry e).WordSized := by
  unfold entry? at h
  split at h
  · obtain ⟨p, hp, h⟩ := Option.bind_eq_some_iff.1 h
    obtain ⟨stats, hstats, h⟩ := Option.bind_eq_some_iff.1 h
    cases h
    unfold property? at hp
    split at hp
    · obtain ⟨_, -, hp⟩ := Option.bind_eq_some_iff.1 hp
      obtain ⟨a, ha, hp⟩ := Option.bind_eq_some_iff.1 hp
      obtain ⟨b, hb, hp⟩ := Option.bind_eq_some_iff.1 hp
      cases hp
      exact ⟨width_lt_of_group? ha, width_lt_of_group? hb, support_lt_of_stats? hstats⟩
    · cases hp
  · cases h

/-- The entries that an archive spells out, in the order of its text. -/
def entriesOf? (text : List Char) : Option (List (Property × Stats)) := do
  (← array? (← Json.read text)).mapM entry?

/-- What was read from a text is the map of the entries spelled out there. -/
theorem ofArchive?_eq_some_iff {text : List Char} {f : Findings} :
    ofArchive? text = some f ↔ ∃ entries, entriesOf? text = some entries ∧ .ofList entries = f := by
  have hentries : ofArchive? text = (entriesOf? text).map .ofList := by
    unfold ofArchive? ofJson? entriesOf?
    cases Json.read text with
    | none => rfl
    | some v =>
      show (array? v).bind _ = ((array? v).bind _).map _
      cases array? v with
      | none => rfl
      | some items =>
        show (items.mapM entry?).bind _ = (items.mapM entry?).map _
        cases items.mapM entry? with
        | none => rfl
        | some entries => rfl
  rw [hentries, Option.map_eq_some_iff]

theorem wordSized_of_ofArchive? {text : List Char} {f : Findings} (h : ofArchive? text = some f) :
    f.WordSized := by
  obtain ⟨entries, hentries, rfl⟩ := ofArchive?_eq_some_iff.1 h
  obtain ⟨v, -, hentries⟩ := Option.bind_eq_some_iff.1 hentries
  obtain ⟨items, -, hentries⟩ := Option.bind_eq_some_iff.1 hentries
  rintro ⟨p, stats⟩ he
  rw [OrderedMap.mem_entries_iff, OrderedMap.lookup_ofList] at he
  obtain ⟨item, -, hitem⟩ := exists_of_mapM_eq_some hentries _ (mem_of_lastEntry he)
  exact wordSized_of_entry? hitem

end Findings

/-! ## Archives in files -/

theorem readArchive_eq_ok_iff {text : List Char} {f : Findings} :
    readArchive text = .ok f ↔ Findings.ofArchive? text = some f := by
  unfold readArchive
  cases Findings.ofArchive? text with
  | none =>
    constructor
    · intro h
      cases h
    · intro h
      cases h
  | some g => rw [Except.ok.injEq, Option.some.injEq]

theorem bytes?_concat (files : Files) {name : String} (hname : name ≠ "") (bytes : List UInt8) :
    (files ++ [(name, bytes)]).bytes? name = some bytes := by
  have hnonempty : ¬ name.isEmpty = true := by simpa using hname
  rw [Files.bytes?, if_neg hnonempty]
  simp

/-- What was saved last under a name is loaded from it. -/
theorem load_save (files : Files) {name : String} (hname : name ≠ "") {f : Findings}
    (h : f.WordSized) : load (files ++ [(name, save f)]) name = .ok f := by
  have hread : Findings.ofBytes? (save f) = some f := by
    rw [Findings.ofBytes?, save, Text.decode_encode]
    exact Findings.ofArchive?_archive h
  simp only [load, bytes?_concat files hname, hread]

/-- The text that an archive turns into when it is read and written again. -/
def rewriteArchive (text : List Char) : Except ArchiveError (List Char) :=
  (readArchive text).map Findings.archive

open Findings in
/-- **An archive is a faithful and canonical form of findings.** Findings whose numbers fit their
words are read back from their archive, and from the file that they were saved in, exactly as they
were; different findings have different archives. Of any text that is accepted the last entry of
each property stands, and the archive of what was read stays the same when it is read and archived
again. Among the texts that are accepted are the spellings of all entries in any order, repeated or
not, with the signals of each wire in any order, repeated or not. -/
theorem archive_canonical :
    (∀ f : Findings, f.WordSized → readArchive f.archive = .ok f ∧
      ∀ (files : Files) (name : String), name ≠ "" →
        load (files ++ [(name, save f)]) name = .ok f) ∧
    (∀ f g : Findings, f.WordSized → g.WordSized → (f.archive = g.archive ↔ f = g)) ∧
    (∀ text text', rewriteArchive text = .ok text' → rewriteArchive text' = .ok text') ∧
    (∀ text f, readArchive text = .ok f →
      ∃ entries, entriesOf? text = some entries ∧ ∀ p, f.lookup p = lastEntry p entries) ∧
    ∀ es : List Spelling, (∀ e ∈ es, e.WordSized) →
      ∃ f, readArchive (Json.array (es.map Spelling.json)).render = .ok f ∧
        ∀ p, f.lookup p = lastEntry p (es.map Spelling.entry) := by
  have hread : ∀ f : Findings, f.WordSized → readArchive f.archive = .ok f :=
    fun f hf => readArchive_eq_ok_iff.2 (ofArchive?_archive hf)
  refine ⟨fun f hf => ⟨hread f hf, fun files _ hname => load_save files hname hf⟩, ?_, ?_, ?_, ?_⟩
  · intro f g hf hg
    constructor
    · intro h
      have hsame := hread f hf
      rw [h, hread g hg] at hsame
      exact (Except.ok.inj hsame).symm
    · rintro rfl
      rfl
  · intro text text' h
    unfold rewriteArchive at h ⊢
    cases hf : readArchive text with
    | error e =>
      rw [hf] at h
      cases h
    | ok f =>
      rw [hf] at h
      cases h
      rw [hread f (wordSized_of_ofArchive? (readArchive_eq_ok_iff.1 hf))]
      rfl
  · intro text f h
    obtain ⟨entries, hentries, rfl⟩ := ofArchive?_eq_some_iff.1 (readArchive_eq_ok_iff.1 h)
    exact ⟨entries, hentries, OrderedMap.lookup_ofList entries⟩
  · intro es hes
    refine ⟨.ofList (es.map Spelling.entry), readArchive_eq_ok_iff.2 ?_,
      OrderedMap.lookup_ofList _⟩
    rw [ofArchive?_render, ofJson?_spellings hes]

/-- A name of characters that are escaped and characters of several bytes, and the greatest width. -/
def awkwardSignal : Signal := ⟨"TOP.\"\\\n\x01é😀", 4294967295⟩

/-- A wire without a name against one with an awkward name. -/
def awkwardProperty : Property := ⟨.holdUntil, .ofList [], .ofList [awkwardSignal]⟩

/-- The greatest support. -/
def awkwardStats : Stats := ⟨18446744073709551615, true, false⟩

def awkwardFindings : Findings := .ofList [(awkwardProperty, awkwardStats)]

/-- The same with a repeated signal, behind an entry that it takes the place of. -/
def awkwardSpellings : List Findings.Spelling :=
  [⟨.holdUntil, [], [awkwardSignal], ⟨7, true, true⟩⟩,
    ⟨.holdUntil, [], [awkwardSignal, awkwardSignal], awkwardStats⟩]

open Findings in
theorem archive_canonical_awkward :
    awkwardFindings.WordSized ∧ (∀ e ∈ awkwardSpellings, e.WordSized) ∧
      readArchive awkwardFindings.archive = .ok awkwardFindings ∧
      load ([] ++ [(archiveName, save awkwardFindings)]) archiveName = .ok awkwardFindings ∧
      awkwardFindings.archive ≠ (∅ : Findings).archive ∧
      rewriteArchive awkwardFindings.archive = .ok awkwardFindings.archive ∧
      ∃ f, readArchive (Json.array (awkwardSpellings.map Spelling.json)).render = .ok f ∧
        f.lookup awkwardProperty = some awkwardStats := by
  obtain ⟨hread, heq, hrewrite, -, hspell⟩ := archive_canonical
  have hsignal : awkwardSignal.width < Text.halfWordLimit := by decide
  have hfindings : awkwardFindings.WordSized := by
    refine List.forall_mem_singleton.2 ⟨?_, ?_, ?_⟩
    · exact List.forall_mem_nil _
    · exact List.forall_mem_singleton.2 hsignal
    · decide
  have hspellings : ∀ e ∈ awkwardSpellings, e.WordSized := by
    simp only [awkwardSpellings, List.forall_mem_cons]
    refine ⟨⟨by simp, by simpa using hsignal, by decide⟩,
      ⟨by simp, by simpa using hsignal, by decide⟩, by simp⟩
  have hempty : (∅ : Findings).WordSized := List.forall_mem_nil _
  obtain ⟨hback, hload⟩ := hread awkwardFindings hfindings
  obtain ⟨f, hf, hlookup⟩ := hspell awkwardSpellings hspellings
  refine ⟨hfindings, hspellings, hback, hload [] archiveName (by decide), ?_, ?_, f, hf, ?_⟩
  · intro h
    have hentries := congrArg OrderedMap.entries ((heq _ _ hfindings hempty).1 h)
    cases hentries
  · refine hrewrite awkwardFindings.archive awkwardFindings.archive ?_
    rw [rewriteArchive, hback]
    rfl
  · have hwire : OrderedSet.ofList [awkwardSignal, awkwardSignal] = .ofList [awkwardSignal] :=
      OrderedSet.ext_mem fun s => by simp [OrderedSet.mem_ofList]
    have hlast : (Spelling.mk .holdUntil [] [awkwardSignal, awkwardSignal] awkwardStats).entry =
        (awkwardProperty, awkwardStats) := by
      rw [Spelling.entry, hwire]
      rfl
    rw [hlookup, awkwardSpellings, List.map_cons, List.map_cons, List.map_nil, hlast,
      lastEntry_cons, lastEntry_cons, if_pos rfl]
    rfl

end TraceMining
