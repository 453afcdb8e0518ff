import TraceMining.Proofs.Except
import TraceMining.Waveform.Reader

/-!
# What the lines of a dump say

The lines inside the sections of free text are set aside (`outside`); the others say commands, one
after the other, and each command stands in the scopes and at the time that the commands before it
have set (`inContext`). Nothing else of a text matters for what is read from it: a property of the
commands and of what was read holds after all the lines if every command and every line of a
section keeps it (`Progress.run_induction`). A change to a row of bits is a change to the value of
the row, which every row has but the empty one (`decodeBits?_of_ne_nil`, `Progress.obey_vector`).
-/

namespace TraceMining.Waveform

open Text

/-! ## Lines outside sections -/

/-- The command begins a section that its line does not close. -/
def Command.opensSection : Command → Bool
  | .header _ _ closed => !closed
  | _ => false

/-- The line begins a section that it does not close. -/
def opensSection (line : List Char) : Bool := (command? line).any Command.opensSection

/-- The lines that do not stand inside a section; the flag tells whether the first one does. -/
def outside : Bool → List (List Char) → List (List Char)
  | _, [] => []
  | true, line :: rest => outside (!(sectionText line).2) rest
  | false, line :: rest => line :: outside (opensSection line) rest

/-- The commands of a text, in the order of their lines. -/
def commands (text : List Char) : List Command :=
  (outside false (lines text)).filterMap command?

theorem trimStart_eq_nil {line : List Char} (h : isWhiteOnly line = true) :
    trimStart line = [] := by
  rw [trimStart, ← List.append_nil line, List.dropWhile_append_of_pos (List.all_eq_true.1 h)]
  rfl

theorem command?_of_isWhiteOnly {line : List Char} (h : isWhiteOnly line = true) :
    command? line = none := by
  unfold command?
  rw [trimStart_eq_nil h]
  decide +kernel

/-! ## The context of a command -/

/-- Where a command stands: the scopes that are open, the innermost first, and the time. -/
structure Context where
  scopes : List (List Char)
  time : Time
  deriving DecidableEq, Repr

namespace Context

/-- Before the first command. -/
def start : Context := ⟨[], 0⟩

/-- The context behind a command. -/
def behind (ctx : Context) : Command → Context
  | .openScope _ name => { ctx with scopes := name :: ctx.scopes }
  | .closeScope => { ctx with scopes := ctx.scopes.tail }
  | .timestamp time => { ctx with time := time }
  | _ => ctx

/-- The names of the open scopes and a name declared in them, joined by dots. -/
def fullName (ctx : Context) (name : List Char) : String :=
  ".".intercalate ((ctx.scopes.reverse ++ [name]).map String.ofList)

end Context

/-- Commands, each in its context. -/
def inContext (ctx : Context) : List Command → List (Context × Command)
  | [] => []
  | c :: rest => (ctx, c) :: inContext (ctx.behind c) rest

/-- The commands of a text, each in its context. -/
def script (text : List Char) : List (Context × Command) := inContext .start (commands text)

/-- The context behind all the commands. -/
def contextAfter (cs : List Command) : Context := cs.foldl Context.behind .start

theorem contextAfter_concat (cs : List Command) (c : Command) :
    contextAfter (cs ++ [c]) = (contextAfter cs).behind c := by
  unfold contextAfter
  rw [List.foldl_append, List.foldl_cons, List.foldl_nil]

theorem inContext_append (cs ds : List Command) (ctx : Context) :
    inContext ctx (cs ++ ds) = inContext ctx cs ++ inContext (cs.foldl Context.behind ctx) ds := by
  induction cs generalizing ctx with
  | nil => rfl
  | cons c cs ih =>
    rw [List.cons_append, inContext, inContext, ih]
    rfl

theorem filterMap_inContext_concat {α : Type} (f : Context × Command → Option α)
    (cs : List Command) (c : Command) :
    (inContext .start (cs ++ [c])).filterMap f =
      (inContext .start cs).filterMap f ++ (f (contextAfter cs, c)).toList := by
  rw [inContext_append, List.filterMap_append]
  change _ ++ [(contextAfter cs, c)].filterMap f = _
  cases h : f (contextAfter cs, c) with
  | none => rw [List.filterMap_cons_none h]; rfl
  | some a => rw [List.filterMap_cons_some h]; rfl

/-! ## Rows of bits -/

/-- The value of a row of bits, the most significant first. -/
def Progress.bitsValue (bits : List Char) : Value :=
  bits.foldl (fun n bit => 2 * n + Progress.bitValue bit) 0

/-- Every row but the empty one can be decoded. -/
theorem decodeBits?_of_ne_nil {bits : List Char} (h : bits ≠ []) :
    decodeBits? bits = some (Progress.bitsValue bits) := by
  have hstep : ∀ (n : Value) (bit : Char),
      (if binaryDigit bit = '0' then some (2 * n)
        else if binaryDigit bit = '1' then some (2 * n + 1) else none) =
        some (2 * n + Progress.bitValue bit) := by
    intro n bit
    unfold binaryDigit Progress.bitValue
    by_cases hbit : bit = '1' <;> simp [hbit]
  unfold decodeBits? binary? Progress.bitsValue
  rw [if_neg (by simpa using h), List.foldlM_map]
  simp only [hstep]
  exact List.foldlM_pure

/-! ## Reading line by line -/

namespace Progress

theorem exists_of_closeScope_eq_ok {p q : Progress} (h : p.closeScope = .ok q) :
    p.scopes ≠ [] ∧ ∃ scopes roots, q = { p with scopes := scopes, roots := roots } ∧
      scopes.map OpenScope.name = (p.scopes.map OpenScope.name).tail := by
  unfold closeScope at h
  split at h
  · cases h
  · rename_i scope outer hscopes
    rw [hscopes]
    refine ⟨List.cons_ne_nil _ _, ?_⟩
    simp only at h
    split at h
    · cases h
      exact ⟨_, _, rfl, rfl⟩
    · cases h
      exact ⟨_, _, rfl, rfl⟩

/-- What is known of a code after one more signal is declared for it. -/
def withSignal (s : Signal) : Option Wire → Wire
  | some w => { w with aliases := w.aliases.insert s }
  | none => ⟨OrderedSet.insert ∅ s, ∅⟩

theorem declare_eq_ok_iff {p q : Progress} {width : Nat} {code name : List Char} :
    p.declare width code name = .ok q ↔ p.definitionsDone = false ∧
      q = { p with wires := p.wires.alter code (withSignal ⟨qualify p.scopes name, width⟩) } := by
  unfold declare
  constructor
  · intro h
    split at h
    · cases h
    · rename_i hdone
      cases h
      exact ⟨Bool.eq_false_iff.2 hdone, rfl⟩
  · rintro ⟨hdone, rfl⟩
    rw [hdone]
    rfl

theorem change_eq_ok_iff {p q : Progress} {code : List Char} {v : Value} :
    p.change code v = .ok q ↔ ∃ w, p.wires.lookup code = some w ∧
      q = { p with
        wires := p.wires.insert code { w with events := w.events.insert p.time v } } := by
  unfold change
  constructor
  · intro h
    split at h
    · cases h
    · rename_i w hw
      cases h
      exact ⟨w, hw, rfl⟩
  · rintro ⟨w, hw, rfl⟩
    rw [hw]

/-- A row of bits is a change to its value. -/
theorem obey_vector {bits : List Char} (h : bits ≠ []) (p : Progress) (code : List Char) :
    p.obey (.vector bits code) = p.change code (bitsValue bits) := by
  rw [obey, decodeBits?_of_ne_nil h]

theorem obey_vector_eq_ok_iff {p q : Progress} {bits code : List Char} :
    p.obey (.vector bits code) = .ok q ↔ bits ≠ [] ∧ ∃ w, p.wires.lookup code = some w ∧
      q = { p with wires :=
        p.wires.insert code { w with events := w.events.insert p.time (bitsValue bits) } } := by
  by_cases hnil : bits = []
  · subst hnil
    exact iff_of_false (fun h => nomatch h) fun h => h.1 rfl
  · rw [obey_vector hnil, and_iff_right hnil]
    exact change_eq_ok_iff

theorem isSome_pending_extend (p : Progress) (s : Section) (piece : List Char) (closed : Bool) :
    (p.extend s piece closed).pending.isSome = !closed := by
  unfold extend
  cases closed <;> rfl

theorem isSome_pending_obey {p q : Progress} {c : Command} (hp : p.pending = none)
    (h : p.obey c = .ok q) : q.pending.isSome = c.opensSection := by
  have hkept : q.pending = p.pending → c.opensSection = false →
      q.pending.isSome = c.opensSection := by
    intro hq hc
    rw [hq, hp, hc]
    rfl
  cases c with
  | header keyword text closed =>
    cases h
    exact isSome_pending_extend p _ text closed
  | closeScope =>
    obtain ⟨-, scopes, roots, rfl, -⟩ := exists_of_closeScope_eq_ok h
    exact hkept rfl rfl
  | declare width code name =>
    obtain ⟨-, rfl⟩ := declare_eq_ok_iff.1 h
    exact hkept rfl rfl
  | scalar bit code =>
    obtain ⟨w, -, rfl⟩ := change_eq_ok_iff.1 h
    exact hkept rfl rfl
  | vector bits code =>
    obtain ⟨-, w, -, rfl⟩ := obey_vector_eq_ok_iff.1 h
    exact hkept rfl rfl
  | openScope kind name | endDefinitions | marker | timestamp time | real code =>
    cases h
    exact hkept rfl rfl

/-- The scopes that are open and the time are those of the context. -/
structure StandsIn (p : Progress) (ctx : Context) : Prop where
  scopes : p.scopes.map OpenScope.name = ctx.scopes.map String.ofList
  time : p.time = ctx.time

theorem StandsIn.obey {p q : Progress} {ctx : Context} {c : Command} (h : p.StandsIn ctx)
    (hq : p.obey c = .ok q) : q.StandsIn (ctx.behind c) := by
  cases c with
  | openScope kind name =>
    cases hq
    refine ⟨?_, h.time⟩
    simp only [Context.behind, List.map_cons, h.scopes]
  | closeScope =>
    obtain ⟨-, scopes, roots, rfl, hscopes⟩ := exists_of_closeScope_eq_ok hq
    refine ⟨?_, h.time⟩
    simp only [Context.behind, hscopes, h.scopes, List.map_tail]
  | timestamp time =>
    cases hq
    exact ⟨h.scopes, rfl⟩
  | declare width code name =>
    obtain ⟨-, rfl⟩ := declare_eq_ok_iff.1 hq
    exact ⟨h.scopes, h.time⟩
  | scalar bit code =>
    obtain ⟨w, -, rfl⟩ := change_eq_ok_iff.1 hq
    exact ⟨h.scopes, h.time⟩
  | vector bits code =>
    obtain ⟨-, w, -, rfl⟩ := obey_vector_eq_ok_iff.1 hq
    exact ⟨h.scopes, h.time⟩
  | header keyword text closed =>
    cases hq
    cases closed <;> exact ⟨h.scopes, h.time⟩
  | endDefinitions | marker | real code =>
    cases hq
    exact ⟨h.scopes, h.time⟩

theorem StandsIn.extend {p : Progress} {ctx : Context} (h : p.StandsIn ctx) (s : Section)
    (piece : List Char) (closed : Bool) : (p.extend s piece closed).StandsIn ctx := by
  cases closed <;> exact ⟨h.scopes, h.time⟩

/-- The full name of a declared signal is that of its context. -/
theorem StandsIn.qualify {p : Progress} {ctx : Context} (h : p.StandsIn ctx) (name : List Char) :
    Progress.qualify p.scopes name = ctx.fullName name := by
  have hnames : p.scopes.reverse.map OpenScope.name = ctx.scopes.reverse.map String.ofList := by
    rw [List.map_reverse, h.scopes, List.map_reverse]
  unfold Progress.qualify Context.fullName
  rw [List.map_append, ← hnames]
  split
  · rename_i hnone
    rw [List.isEmpty_iff.1 hnone]
    exact String.intercalate_singleton.symm
  · rename_i hsome
    have hne : p.scopes.reverse.map OpenScope.name ≠ [] := by
      simpa [List.isEmpty_iff] using hsome
    rw [String.intercalate_append_of_ne_nil hne (by simp)]
    simp [Progress.path]

theorem feed_of_pending {p : Progress} {s : Section} (h : p.pending = some s) (line : List Char) :
    p.feed line = .ok (p.extend s (sectionText line).1 (sectionText line).2) := by
  unfold feed
  rw [h]

theorem feed_of_isWhiteOnly {p : Progress} {line : List Char} (h : p.pending = none)
    (hwhite : isWhiteOnly line = true) : p.feed line = .ok p := by
  unfold feed
  rw [h]
  exact if_pos hwhite

theorem feed_of_command? {p : Progress} {line : List Char} {c : Command} (h : p.pending = none)
    (hc : command? line = some c) : p.feed line = p.obey c := by
  have hwhite : ¬isWhiteOnly line = true := by
    intro hwhite
    rw [command?_of_isWhiteOnly hwhite] at hc
    cases hc
  unfold feed
  rw [h, hc]
  exact if_neg hwhite

theorem feed_of_command?_eq_none {p : Progress} {line : List Char} (h : p.pending = none)
    (hwhite : isWhiteOnly line = false) (hc : command? line = none) :
    p.feed line = .error (malformed line) := by
  unfold feed
  rw [h, hc, hwhite]
  rfl

/-- Every way in which a line can be read. -/
theorem feed_cases {p q : Progress} {line : List Char} (h : p.feed line = .ok q) :
    (∃ s, p.pending = some s ∧ q = p.extend s (sectionText line).1 (sectionText line).2) ∨
    (p.pending = none ∧ isWhiteOnly line = true ∧ q = p) ∨
    (p.pending = none ∧ ∃ c, command? line = some c ∧ p.obey c = .ok q) := by
  cases hp : p.pending with
  | some s =>
    rw [feed_of_pending hp] at h
    cases h
    exact .inl ⟨s, rfl, rfl⟩
  | none =>
    cases hc : command? line with
    | some c =>
      rw [feed_of_command? hp hc] at h
      exact .inr (.inr ⟨rfl, c, rfl, h⟩)
    | none =>
      cases hwhite : isWhiteOnly line with
      | true =>
        rw [feed_of_isWhiteOnly hp hwhite] at h
        cases h
        exact .inr (.inl ⟨rfl, rfl, rfl⟩)
      | false =>
        rw [feed_of_command?_eq_none hp hwhite hc] at h
        cases h

/-- What every command and every line of a section keeps holds after all the lines. -/
theorem run_induction (P : List Command → Progress → Prop)
    (hobey : ∀ {cs p c q}, P cs p → p.pending = none → p.obey c = .ok q → P (cs ++ [c]) q)
    (hextend : ∀ {cs p s piece closed}, P cs p → p.pending = some s →
      P cs (p.extend s piece closed)) :
    ∀ {lines : List (List Char × Nat)} {cs : List Command} {p q : Progress}, P cs p →
      lines.foldlM feedNumbered p = .ok q →
      P (cs ++ (outside p.pending.isSome (lines.map Prod.fst)).filterMap command?) q
  | [], cs, p, q, hp, h => by
    cases h
    simpa [outside] using hp
  | (line, n) :: rest, cs, p, q, hp, h => by
    rw [List.foldlM_cons] at h
    obtain ⟨p', hline, hrest⟩ := bind_eq_ok_iff.1 h
    have hfeed : p.feed line = .ok p' := mapError_eq_ok_iff.1 hline
    rw [List.map_cons]
    rcases feed_cases hfeed with ⟨s, hs, rfl⟩ | ⟨hnone, hwhite, rfl⟩ | ⟨hnone, c, hcommand, hq⟩
    · have ih := run_induction P hobey hextend (hextend hp hs) hrest
      rw [isSome_pending_extend] at ih
      rw [hs, Option.isSome_some, outside]
      exact ih
    · have hcommand := command?_of_isWhiteOnly hwhite
      have ih := run_induction P hobey hextend hp hrest
      rw [hnone, Option.isSome_none] at ih ⊢
      rw [outside, List.filterMap_cons_none hcommand, opensSection, hcommand]
      exact ih
    · have ih := run_induction P hobey hextend (hobey hp hnone hq) hrest
      rw [isSome_pending_obey hnone hq, List.append_assoc] at ih
      rw [hnone, Option.isSome_none, outside, List.filterMap_cons_some hcommand, opensSection,
        hcommand]
      exact ih

/-- A text may end where no section and no scope is open and one module is outermost; the wires are
then stored under their names, one after the other as they are visited. -/
theorem of_finish_eq_ok [CodeOrder] {p : Progress} {dump : Dump} (h : p.finish = .ok dump) :
    p.scopes = [] ∧ p.roots = [dump.root] ∧
      dump.store = .ofList ((CodeOrder.visit p.wires).map fun w => (w.aliases, w.events)) := by
  unfold finish at h
  split at h
  · cases h
  · split at h
    · rename_i hscopes
      split at h
      · rename_i root hroots
        cases h
        exact ⟨List.isEmpty_iff.1 hscopes, hroots, rfl⟩
      · cases h
    · cases h

end Progress

/-- What holds before the first line and is kept in every context holds when a text was read. -/
theorem exists_progress_of_read [CodeOrder] (P : List Command → Progress → Prop)
    (hstart : P [] .start)
    (hobey : ∀ {cs p c q}, P cs p → p.StandsIn (contextAfter cs) → p.obey c = .ok q →
      P (cs ++ [c]) q)
    (hextend : ∀ {cs p s piece closed}, P cs p → P cs (p.extend s piece closed))
    {text : List Char} {dump : Dump} (h : read text = .ok dump) :
    ∃ p, P (commands text) p ∧ p.StandsIn (contextAfter (commands text)) ∧
      p.finish = .ok dump := by
  obtain ⟨p, hlines, hfinish⟩ := bind_eq_ok_iff.1 h
  have hp := Progress.run_induction (fun cs p => P cs p ∧ p.StandsIn (contextAfter cs))
    (fun hp _ hq => ⟨hobey hp.1 hp.2 hq, contextAfter_concat _ _ ▸ hp.2.obey hq⟩)
    (fun hp _ => ⟨hextend hp.1, hp.2.extend _ _ _⟩) ⟨hstart, rfl, rfl⟩ hlines
  rw [List.zipIdx_map_fst] at hp
  exact ⟨p, hp.1, hp.2, mapError_eq_ok_iff.1 hfinish⟩

end TraceMining.Waveform
