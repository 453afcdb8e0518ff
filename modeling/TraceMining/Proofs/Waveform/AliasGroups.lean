import Mathlib.Tactic.ByContra
import TraceMining.Proofs.Waveform.Acceptance
import TraceMining.Proofs.Waveform.Denotation

/-!
# Signals in alias groups

The keys of the store are the sets of signals that were declared for one code. No signal is lost,
and none is added. But the keys need not be disjoint: only codes that have all their signals in
common end up with one key. A name that is declared again for another code, or a vector whose bits
are declared one by one under the same name, puts its signal in the groups of both codes, and these
differ as soon as one of the codes has a further name (`groups_of_read`).
-/

namespace TraceMining.Waveform

variable {text : List Char} {dump : Dump} {s : Signal}

/-- Two codes of the signal differ in a signal that only one of them has. -/
def NamedApart (text : List Char) (s : Signal) : Prop :=
  ∃ code code' s', (code, s) ∈ declarations text ∧ (code', s) ∈ declarations text ∧
    (code, s') ∈ declarations text ∧ (code', s') ∉ declarations text

theorem exists_mem_of_mem_keys [CodeOrder] (h : read text = .ok dump) {g : AliasGroup}
    (hg : g ∈ dump.store.keys) : ∃ s, s ∈ g := by
  obtain ⟨code, x, hdenotes⟩ := (mem_keys_store_iff h).1 hg
  obtain ⟨s, hs⟩ := hdenotes.declared
  exact ⟨s, (hdenotes.names s).2 hs⟩

theorem exists_key_iff [CodeOrder] (h : read text = .ok dump) :
    (∃ g ∈ dump.store.keys, s ∈ g) ↔ ∃ code, (code, s) ∈ declarations text := by
  constructor
  · rintro ⟨g, hg, hs⟩
    obtain ⟨code, x, hdenotes⟩ := (mem_keys_store_iff h).1 hg
    exact ⟨code, (hdenotes.names s).1 hs⟩
  · rintro ⟨code, hs⟩
    obtain ⟨g, x, hdenotes⟩ := exists_denotes h ⟨s, hs⟩
    exact ⟨g, (mem_keys_store_iff h).2 ⟨code, x, hdenotes⟩, (hdenotes.names s).2 hs⟩

/-- Codes of a signal that is not named apart have the same signals. -/
theorem mem_declarations_of_not_namedApart (h : ¬ NamedApart text s) {code code' : List Char}
    (hs : (code, s) ∈ declarations text) (hs' : (code', s) ∈ declarations text) {s' : Signal}
    (hother : (code, s') ∈ declarations text) : (code', s') ∈ declarations text := by
  by_contra hnot
  exact h ⟨code, code', s', hs, hs', hother, hnot⟩

/-- A signal is in one key only, unless it is named apart. -/
theorem eq_of_mem_keys_iff [CodeOrder] (h : read text = .ok dump) :
    (∀ g ∈ dump.store.keys, ∀ g' ∈ dump.store.keys, s ∈ g → s ∈ g' → g = g') ↔
      ¬ NamedApart text s := by
  constructor
  · rintro hone ⟨code, code', s', hs, hs', hother, hnot⟩
    obtain ⟨g, x, hg⟩ := exists_denotes h ⟨s, hs⟩
    obtain ⟨g', x', hg'⟩ := exists_denotes h ⟨s, hs'⟩
    have hsame : g = g' :=
      hone g ((mem_keys_store_iff h).2 ⟨code, x, hg⟩) g' ((mem_keys_store_iff h).2 ⟨code', x', hg'⟩)
        ((hg.names s).2 hs) ((hg'.names s).2 hs')
    apply hnot
    rw [← hg'.names, ← hsame, hg.names]
    exact hother
  · intro hapart g hg g' hg' hs hs'
    obtain ⟨code, x, hdenotes⟩ := (mem_keys_store_iff h).1 hg
    obtain ⟨code', x', hdenotes'⟩ := (mem_keys_store_iff h).1 hg'
    have hcode := (hdenotes.names s).1 hs
    have hcode' := (hdenotes'.names s).1 hs'
    apply OrderedSet.ext_mem
    intro s'
    rw [hdenotes.names, hdenotes'.names]
    exact ⟨mem_declarations_of_not_namedApart hapart hcode hcode',
      mem_declarations_of_not_namedApart hapart hcode' hcode⟩

/-- **How far the keys of the store partition the signals.** No key of an accepted text is empty,
and the signals in the keys are exactly the declared ones. A signal is in two different keys exactly
if two codes are declared for it of which one has a signal that the other one has not. -/
theorem groups_of_read [CodeOrder] (h : read text = .ok dump) :
    (∀ g ∈ dump.store.keys, ∃ s, s ∈ g) ∧
    (∀ s, (∃ g ∈ dump.store.keys, s ∈ g) ↔ ∃ code, (code, s) ∈ declarations text) ∧
    ∀ s, (∀ g ∈ dump.store.keys, ∀ g' ∈ dump.store.keys, s ∈ g → s ∈ g' → g = g') ↔
      ¬ NamedApart text s :=
  ⟨fun _ => exists_mem_of_mem_keys h, fun _ => exists_key_iff h, fun _ => eq_of_mem_keys_iff h⟩

/-- A vector of two bits that have one name, one of which has another name in an inner scope. -/
def bitwise : List Char :=
  ofLines ["$scope module TOP $end", "$var wire 1 ! data [0] $end", "$var wire 1 # data [1] $end",
    "$scope module core $end", "$var wire 1 ! sel $end", "$upscope $end", "$upscope $end",
    "$enddefinitions $end"]

theorem declarations_bitwise : declarations bitwise =
    [(['!'], ⟨"TOP.data", 1⟩), (['#'], ⟨"TOP.data", 1⟩), (['!'], ⟨"TOP.core.sel", 1⟩)] := by
  decide +kernel

theorem exists_read_bitwise :
    ∃ dump, read bitwise = .ok dump ∧ dump.store.keys =
      [.ofList [⟨"TOP.core.sel", 1⟩, ⟨"TOP.data", 1⟩], .ofList [⟨"TOP.data", 1⟩]] := by
  have hread : (read bitwise).toOption.map (·.store.keys) =
      some [.ofList [⟨"TOP.core.sel", 1⟩, ⟨"TOP.data", 1⟩], .ofList [⟨"TOP.data", 1⟩]] := by
    decide +kernel
  exact map_toOption_eq_some_iff.1 hread

theorem groups_of_read_bitwise :
    ∃ dump, read bitwise = .ok dump ∧
      (∃ g ∈ dump.store.keys, ⟨"TOP.core.sel", 1⟩ ∈ g) ∧
      (∀ g ∈ dump.store.keys, ∀ g' ∈ dump.store.keys,
        ⟨"TOP.core.sel", 1⟩ ∈ g → ⟨"TOP.core.sel", 1⟩ ∈ g' → g = g') ∧
      ¬ ∀ g ∈ dump.store.keys, ∀ g' ∈ dump.store.keys,
        ⟨"TOP.data", 1⟩ ∈ g → ⟨"TOP.data", 1⟩ ∈ g' → g = g' := by
  obtain ⟨dump, hdump, -⟩ := exists_read_bitwise
  obtain ⟨-, hcovered, hone⟩ := groups_of_read hdump
  refine ⟨dump, hdump, ?_, ?_, ?_⟩
  · exact (hcovered _).2 ⟨['!'], by simp [declarations_bitwise]⟩
  · apply (hone _).2
    have honly : ∀ code, (code, ⟨"TOP.core.sel", 1⟩) ∈ declarations bitwise → code = ['!'] := by
      intro code hs
      simpa [declarations_bitwise] using hs
    rintro ⟨code, code', s', hs, hs', hother, hnot⟩
    rw [honly code' hs', ← honly code hs] at hnot
    exact hnot hother
  · rw [hone, not_not]
    exact ⟨['!'], ['#'], ⟨"TOP.core.sel", 1⟩, by simp [declarations_bitwise]⟩

/-- The signal `TOP.data` is in two keys. -/
theorem keys_share_data :
    ∃ dump, read bitwise = .ok dump ∧ ∃ g ∈ dump.store.keys, ∃ g' ∈ dump.store.keys,
      g ≠ g' ∧ ⟨"TOP.data", 1⟩ ∈ g ∧ ⟨"TOP.data", 1⟩ ∈ g' := by
  obtain ⟨dump, hdump, hkeys⟩ := exists_read_bitwise
  refine ⟨dump, hdump, .ofList [⟨"TOP.core.sel", 1⟩, ⟨"TOP.data", 1⟩], ?_,
    .ofList [⟨"TOP.data", 1⟩], ?_, by decide +kernel, by decide +kernel, by decide +kernel⟩
  · simp [hkeys]
  · simp [hkeys]

end TraceMining.Waveform
