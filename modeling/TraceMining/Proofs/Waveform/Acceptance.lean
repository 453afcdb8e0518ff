import TraceMining.Proofs.Ordered
import TraceMining.Proofs.Waveform.Grammar

/-!
# Which dumps are accepted

A text is accepted if its lines outside sections say commands, every command fits those before it,
and at the end no section and no scope is open and one scope was outermost (`read_accepts_iff`). The
commands that were read decide all of this: whether the definitions are done, which codes are
declared, how many scopes are open and how many were outermost (`Progress.Tracks`). What a command
does to these four is said once (`Progress.effect_of_obey`), so the run over the lines succeeds
exactly if every command fits (`Progress.Tracks.exists_run_iff`).
-/

namespace TraceMining.Waveform

open Text

/-! ## Commands that fit -/

namespace Command

/-- The command enters a scope. -/
def entersScope : Command → Bool
  | .openScope _ _ => true
  | _ => false

/-- The command leaves a scope. -/
def leavesScope : Command → Bool
  | .closeScope => true
  | _ => false

/-- The command declares a signal for the code. -/
def Declares (code : List Char) (c : Command) : Prop := ∃ width name, c = .declare width code name

/-- What a command asks of the commands before it. -/
def Fits (before : List Command) : Command → Prop
  | .closeScope => (contextAfter before).scopes ≠ []
  | .declare _ _ _ => .endDefinitions ∉ before
  | .scalar _ code => ∃ c ∈ before, c.Declares code
  | .vector _ code => ∃ c ∈ before, c.Declares code
  | _ => True

end Command

/-- Every command fits the ones in front of it, `before` being in front of all. -/
def AllFit (before cs : List Command) : Prop :=
  ∀ front c rest, cs = front ++ c :: rest → c.Fits (before ++ front)

theorem allFit_nil (before : List Command) : AllFit before [] := by
  intro front c rest h
  simp at h

theorem allFit_cons {before cs : List Command} {c : Command} :
    AllFit before (c :: cs) ↔ c.Fits before ∧ AllFit (before ++ [c]) cs := by
  constructor
  · intro h
    refine ⟨?_, fun front d rest hcs => ?_⟩
    · have hc := h [] c cs rfl
      rwa [List.append_nil] at hc
    · rw [List.append_assoc]
      exact h (c :: front) d rest (congrArg (c :: ·) hcs)
  · rintro ⟨hc, hcs⟩ front d rest h
    cases front with
    | nil =>
      cases h
      rwa [List.append_nil]
    | cons e front =>
      cases h
      have hd := hcs front d rest rfl
      rwa [List.append_assoc] at hd

/-- The number of scopes that are entered and not left. -/
def openScopes (cs : List Command) : Nat :=
  cs.countP Command.entersScope - cs.countP Command.leavesScope

/-- The name of a scope that is entered while no scope is open. -/
def outermost? : Context × Command → Option (List Char)
  | (ctx, .openScope _ name) => if ctx.scopes.isEmpty then some name else none
  | _ => none

/-- The number of scopes that are entered while no scope is open. -/
def outermostScopes (cs : List Command) : Nat :=
  ((inContext .start cs).filterMap outermost?).length

theorem outermostScopes_concat (cs : List Command) (c : Command) :
    outermostScopes (cs ++ [c]) = outermostScopes cs +
      if c.entersScope && (contextAfter cs).scopes.isEmpty then 1 else 0 := by
  unfold outermostScopes
  rw [filterMap_inContext_concat, List.length_append]
  congr 1
  generalize contextAfter cs = ctx
  cases c with
  | openScope kind name =>
    simp only [outermost?, Command.entersScope, Bool.true_and]
    split <;> rfl
  | _ => rfl

/-- The keyword of the section that the line begins and does not close. -/
def sectionBegun (line : List Char) : Option (List Char) :=
  match command? line with
  | some (.header keyword _ false) => some keyword
  | _ => none

/-- The keyword of the section that is open behind the lines, given the one open before them. -/
def sectionBehind : Option (List Char) → List (List Char) → Option (List Char)
  | open?, [] => open?
  | some keyword, line :: rest =>
    sectionBehind (if (sectionText line).2 then none else some keyword) rest
  | none, line :: rest => sectionBehind (sectionBegun line) rest

/-! ## What the commands have done -/

namespace Progress

/-- The number of outermost modules, finished or not. -/
def outermostCount (p : Progress) : Nat := p.roots.length + if p.scopes.isEmpty then 0 else 1

theorem counts_of_closeScope {p q : Progress} (h : p.closeScope = .ok q) :
    q.scopes.length + 1 = p.scopes.length ∧ q.outermostCount = p.outermostCount := by
  unfold closeScope at h
  unfold outermostCount
  split at h
  · cases h
  · rename_i scope outer hscopes
    rw [hscopes]
    simp only at h
    split at h
    · cases h
      simp
    · cases h
      simp

/-- What a command does to the four things that decide about the commands behind it. -/
structure Effect (c : Command) (p q : Progress) : Prop where
  done : q.definitionsDone = true ↔ p.definitionsDone = true ∨ c = .endDefinitions
  declared : ∀ code, (q.wires.lookup code).isSome = true ↔
    (p.wires.lookup code).isSome = true ∨ c.Declares code
  depth : q.scopes.length + (if c.leavesScope then 1 else 0) =
    p.scopes.length + (if c.entersScope then 1 else 0)
  outermost : q.outermostCount =
    p.outermostCount + (if c.entersScope && p.scopes.isEmpty then 1 else 0)

/-- None of the four things depends on the command. -/
structure Neutral (c : Command) : Prop where
  ne_endDefinitions : c ≠ .endDefinitions
  ne_declare : ∀ width code name, c ≠ .declare width code name
  leavesScope : c.leavesScope = false
  entersScope : c.entersScope = false

theorem Effect.of_neutral {c : Command} {p q : Progress} (hc : Neutral c)
    (hdone : q.definitionsDone = p.definitionsDone)
    (hwires : ∀ code, (q.wires.lookup code).isSome = (p.wires.lookup code).isSome)
    (hscopes : q.scopes = p.scopes) (hroots : q.roots = p.roots) : Effect c p q := by
  have hdeclares : ∀ code, ¬c.Declares code :=
    fun code ⟨width, name, heq⟩ => hc.ne_declare width code name heq
  refine ⟨?_, fun code => ?_, ?_, ?_⟩
  · rw [hdone, or_iff_left hc.ne_endDefinitions]
  · rw [hwires, or_iff_left (hdeclares code)]
  · rw [hscopes, hc.leavesScope, hc.entersScope]
  · rw [outermostCount, hscopes, hroots, hc.entersScope]
    rfl

theorem isSome_lookup_insert (wires : OrderedMap (List Char) Wire) {code : List Char} {w v : Wire}
    (hw : wires.lookup code = some w) (code' : List Char) :
    ((wires.insert code v).lookup code').isSome = (wires.lookup code').isSome := by
  rw [OrderedMap.lookup_insert]
  split
  · rename_i heq
    rw [heq, hw]
    rfl
  · rfl

theorem effect_of_obey {p q : Progress} {c : Command} (h : p.obey c = .ok q) : Effect c p q := by
  cases c with
  | openScope kind name =>
    cases h
    refine ⟨by simp, fun code => by simp [Command.Declares], rfl, ?_⟩
    cases hscopes : p.scopes <;> simp [outermostCount, hscopes, Command.entersScope]
  | closeScope =>
    obtain ⟨-, scopes, roots, rfl, -⟩ := exists_of_closeScope_eq_ok h
    obtain ⟨hdepth, houtermost⟩ := counts_of_closeScope h
    exact ⟨by simp, fun code => by simp [Command.Declares], hdepth, houtermost⟩
  | declare width code name =>
    obtain ⟨-, rfl⟩ := declare_eq_ok_iff.1 h
    refine ⟨by simp, fun code' => ?_, rfl, rfl⟩
    rw [OrderedMap.lookup_alter]
    have hdeclares : (Command.declare width code name).Declares code' ↔ code' = code := by
      simp [Command.Declares, eq_comm]
    rw [hdeclares]
    split
    · rename_i heq
      simp [heq]
    · rename_i hne
      simp [hne]
  | endDefinitions =>
    cases h
    exact ⟨by simp, fun code => by simp [Command.Declares], rfl, rfl⟩
  | scalar bit code =>
    obtain ⟨w, hw, rfl⟩ := change_eq_ok_iff.1 h
    exact .of_neutral ⟨by simp, by simp, rfl, rfl⟩ rfl
      (isSome_lookup_insert p.wires hw) rfl rfl
  | vector bits code =>
    obtain ⟨-, w, hw, rfl⟩ := obey_vector_eq_ok_iff.1 h
    exact .of_neutral ⟨by simp, by simp, rfl, rfl⟩ rfl
      (isSome_lookup_insert p.wires hw) rfl rfl
  | header keyword text closed =>
    cases h
    refine .of_neutral ⟨by simp, by simp, rfl, rfl⟩ ?_ (fun code' => ?_) ?_ ?_ <;>
      cases closed <;> rfl
  | marker | timestamp time | real code =>
    cases h
    exact .of_neutral ⟨by simp, by simp, rfl, rfl⟩ rfl (fun _ => rfl) rfl rfl

/-- What has been read is what the commands say. -/
structure Tracks (cs : List Command) (p : Progress) : Prop where
  standsIn : p.StandsIn (contextAfter cs)
  done : p.definitionsDone = true ↔ .endDefinitions ∈ cs
  declared : ∀ code, (p.wires.lookup code).isSome = true ↔ ∃ c ∈ cs, c.Declares code
  depth : p.scopes.length + cs.countP Command.leavesScope = cs.countP Command.entersScope
  outermost : p.outermostCount = outermostScopes cs

theorem Tracks.start : Tracks [] .start where
  standsIn := ⟨rfl, rfl⟩
  done := by simp [Progress.start]
  declared := by simp [Progress.start]
  depth := rfl
  outermost := rfl

theorem StandsIn.isEmpty_scopes {p : Progress} {ctx : Context} (h : p.StandsIn ctx) :
    ctx.scopes.isEmpty = p.scopes.isEmpty := by
  have hscopes := congrArg List.isEmpty h.scopes
  rw [List.isEmpty_map, List.isEmpty_map] at hscopes
  exact hscopes.symm

variable {cs : List Command} {p q : Progress}

theorem Tracks.obey {c : Command} (h : Tracks cs p) (hq : p.obey c = .ok q) :
    Tracks (cs ++ [c]) q := by
  have heffect := effect_of_obey hq
  refine ⟨contextAfter_concat cs c ▸ h.standsIn.obey hq, ?_, fun code => ?_, ?_, ?_⟩
  · rw [heffect.done, h.done, List.mem_append, List.mem_singleton, eq_comm]
  · rw [heffect.declared, h.declared]
    simp only [List.mem_append, List.mem_singleton, or_and_right, exists_or, exists_eq_left]
  · have hdepth := heffect.depth
    have hbefore := h.depth
    simp only [List.countP_append, List.countP_singleton]
    omega
  · rw [heffect.outermost, h.outermost, outermostScopes_concat, h.standsIn.isEmpty_scopes]

theorem Tracks.extend (h : Tracks cs p) (s : Section) (piece : List Char) (closed : Bool) :
    Tracks cs (p.extend s piece closed) := by
  have hstands := h.standsIn.extend s piece closed
  cases closed <;> exact ⟨hstands, h.done, h.declared, h.depth, h.outermost⟩

/-- A code can change exactly if it was declared. -/
theorem Tracks.exists_change_iff (h : Tracks cs p) (code : List Char) (v : Value) :
    (∃ q, p.change code v = .ok q) ↔ ∃ c ∈ cs, c.Declares code := by
  rw [← h.declared, Option.isSome_iff_exists]
  constructor
  · rintro ⟨q, hq⟩
    obtain ⟨w, hw, -⟩ := change_eq_ok_iff.1 hq
    exact ⟨w, hw⟩
  · rintro ⟨w, hw⟩
    exact ⟨_, change_eq_ok_iff.2 ⟨w, hw, rfl⟩⟩

/-- A command that a line says is obeyed exactly if it fits those before it. -/
theorem Tracks.exists_obey_iff {line : List Char} {c : Command} (h : Tracks cs p)
    (hcommand : command? line = some c) : (∃ q, p.obey c = .ok q) ↔ c.Fits cs := by
  cases c with
  | closeScope =>
    change (∃ q, p.closeScope = .ok q) ↔ (contextAfter cs).scopes ≠ []
    have hempty := h.standsIn.isEmpty_scopes
    constructor
    · rintro ⟨q, hq⟩ hnone
      rw [hnone] at hempty
      exact (exists_of_closeScope_eq_ok hq).1 (List.isEmpty_iff.1 hempty.symm)
    · intro hopen
      unfold closeScope
      split
      · rename_i hnone
        rw [hnone] at hempty
        exact absurd (List.isEmpty_iff.1 hempty) hopen
      · split <;> exact ⟨_, rfl⟩
  | declare width code name =>
    change (∃ q, p.declare width code name = .ok q) ↔ .endDefinitions ∉ cs
    rw [← h.done, Bool.not_eq_true]
    constructor
    · rintro ⟨q, hq⟩
      exact (declare_eq_ok_iff.1 hq).1
    · intro hdone
      exact ⟨_, declare_eq_ok_iff.2 ⟨hdone, rfl⟩⟩
  | scalar bit code => exact h.exists_change_iff code _
  | vector bits code =>
    rw [obey_vector (ne_nil_of_command? hcommand)]
    exact h.exists_change_iff code _
  | openScope | endDefinitions | header | marker | timestamp | real =>
    exact ⟨fun _ => trivial, fun _ => ⟨_, rfl⟩⟩

/-! ## Reading all the lines -/

/-- The line says a command unless it is only white space. -/
def Spoken (line : List Char) : Prop := isWhiteOnly line = false → ∃ c, command? line = some c

theorem exists_run_cons_iff {line : List Char} {n : Nat} {rest : List (List Char × Nat)} :
    (∃ q, ((line, n) :: rest).foldlM feedNumbered p = .ok q) ↔
      ∃ p', p.feed line = .ok p' ∧ ∃ q, rest.foldlM feedNumbered p' = .ok q := by
  simp only [List.foldlM_cons, bind_eq_ok_iff, feedNumbered, mapError_eq_ok_iff]
  constructor
  · rintro ⟨q, p', hfeed, hrest⟩
    exact ⟨p', hfeed, q, hrest⟩
  · rintro ⟨p', hfeed, q, hrest⟩
    exact ⟨q, p', hfeed, hrest⟩

/-- The lines are read to the end exactly if those outside sections say commands that fit. -/
theorem Tracks.exists_run_iff (h : Tracks cs p) (lines : List (List Char × Nat)) :
    (∃ q, lines.foldlM feedNumbered p = .ok q) ↔
      (∀ line ∈ outside p.pending.isSome (lines.map Prod.fst), Spoken line) ∧
      AllFit cs ((outside p.pending.isSome (lines.map Prod.fst)).filterMap command?) := by
  induction lines generalizing cs p with
  | nil =>
    simp only [List.map_nil, outside, List.filterMap_nil]
    exact ⟨fun _ => ⟨by simp, allFit_nil cs⟩, fun _ => ⟨p, rfl⟩⟩
  | cons numbered rest ih =>
    obtain ⟨line, n⟩ := numbered
    rw [exists_run_cons_iff, List.map_cons]
    cases hp : p.pending with
    | some s =>
      have hrest := ih (h.extend s (sectionText line).1 (sectionText line).2)
      rw [isSome_pending_extend] at hrest
      simp only [feed_of_pending hp, Except.ok.injEq, exists_eq_left', hrest, Option.isSome_some,
        outside]
    | none =>
      rw [Option.isSome_none, outside, List.forall_mem_cons]
      cases hcommand : command? line with
      | some c =>
        have hspoken : Spoken line := fun _ => ⟨c, hcommand⟩
        rw [feed_of_command? hp hcommand, List.filterMap_cons_some hcommand, opensSection,
          hcommand, and_iff_right hspoken, allFit_cons, ← h.exists_obey_iff hcommand]
        have hrest : ∀ p', p.obey c = .ok p' → _ := fun p' hq => ih (h.obey hq)
        constructor
        · rintro ⟨p', hq, hrun⟩
          have hlines := (hrest p' hq).1 hrun
          rw [isSome_pending_obey hp hq] at hlines
          exact ⟨hlines.1, ⟨p', hq⟩, hlines.2⟩
        · rintro ⟨hlines, ⟨p', hq⟩, hfit⟩
          refine ⟨p', hq, (hrest p' hq).2 ?_⟩
          rw [isSome_pending_obey hp hq]
          exact ⟨hlines, hfit⟩
      | none =>
        rw [List.filterMap_cons_none hcommand, opensSection, hcommand]
        cases hwhite : isWhiteOnly line with
        | true =>
          have hspoken : Spoken line := fun hnot => by rw [hwhite] at hnot; cases hnot
          have hrest := ih h
          rw [hp] at hrest
          simp only [feed_of_isWhiteOnly hp hwhite, Except.ok.injEq, exists_eq_left', hrest,
            and_iff_right hspoken]
          rfl
        | false =>
          rw [feed_of_command?_eq_none hp hwhite hcommand]
          constructor
          · rintro ⟨p', hfeed, -⟩
            cases hfeed
          · rintro ⟨⟨hspoken, -⟩, -⟩
            obtain ⟨c, hc⟩ := hspoken hwhite
            rw [hcommand] at hc
            cases hc

/-- The keyword of the section that is open. -/
def openKeyword (p : Progress) : Option (List Char) := p.pending.map Section.keyword

theorem openKeyword_extend (p : Progress) (s : Section) (piece : List Char) (closed : Bool) :
    (p.extend s piece closed).openKeyword = if closed then none else some s.keyword := by
  cases closed <;> rfl

theorem openKeyword_obey {line : List Char} {c : Command} (hp : p.pending = none)
    (hcommand : command? line = some c) (hq : p.obey c = .ok q) :
    q.openKeyword = sectionBegun line := by
  have hclosed : c.opensSection = false → q.openKeyword = none := by
    intro hc
    have hpending := isSome_pending_obey hp hq
    rw [hc, Option.isSome_eq_false_iff, Option.isNone_iff_eq_none] at hpending
    rw [openKeyword, hpending, Option.map_none]
  unfold sectionBegun
  rw [hcommand]
  cases c with
  | header keyword text closed =>
    cases hq
    cases closed <;> rfl
  | _ => exact hclosed rfl

theorem openKeyword_feed {line : List Char} (h : p.feed line = .ok q) :
    sectionBehind p.openKeyword [line] = q.openKeyword := by
  rcases feed_cases h with ⟨s, hs, rfl⟩ | ⟨hnone, hwhite, rfl⟩ | ⟨hnone, c, hcommand, hq⟩
  · rw [openKeyword_extend, openKeyword, hs]
    rfl
  · rw [openKeyword, hnone, Option.map_none, sectionBehind, sectionBegun,
      command?_of_isWhiteOnly hwhite]
    rfl
  · rw [openKeyword_obey hnone hcommand hq, openKeyword, hnone]
    rfl

theorem sectionBehind_cons (open? : Option (List Char)) (line : List Char)
    (rest : List (List Char)) :
    sectionBehind open? (line :: rest) = sectionBehind (sectionBehind open? [line]) rest := by
  cases open? <;> rfl

theorem openKeyword_run {lines : List (List Char × Nat)}
    (h : lines.foldlM feedNumbered p = .ok q) :
    sectionBehind p.openKeyword (lines.map Prod.fst) = q.openKeyword := by
  induction lines generalizing p with
  | nil =>
    cases h
    rfl
  | cons numbered rest ih =>
    rw [List.foldlM_cons] at h
    obtain ⟨p', hline, hrest⟩ := bind_eq_ok_iff.1 h
    rw [List.map_cons, sectionBehind_cons, openKeyword_feed (mapError_eq_ok_iff.1 hline), ih hrest]

/-! ## The end of a dump -/

theorem finish_of_openKeyword [CodeOrder] {keyword : List Char} (h : p.openKeyword = some keyword) :
    p.finish = .error (.unterminatedSection (String.ofList keyword)) := by
  obtain ⟨s, hs, rfl⟩ := Option.map_eq_some_iff.1 h
  unfold finish
  rw [hs]

theorem finish_of_scopes [CodeOrder] (h : p.openKeyword = none) (hscopes : p.scopes ≠ []) :
    p.finish = .error (.unclosedScopes p.scopes.length) := by
  unfold finish
  rw [Option.map_eq_none_iff.1 h]
  simp only [List.isEmpty_iff, hscopes, if_false]

theorem finish_of_outermostCount [CodeOrder] (h : p.openKeyword = none) (hscopes : p.scopes = [])
    (hroots : p.outermostCount ≠ 1) : p.finish = .error (.rootCount p.outermostCount) := by
  have hcount : p.outermostCount = p.roots.length := by
    rw [outermostCount, hscopes]
    rfl
  rw [hcount] at hroots ⊢
  unfold finish
  rw [Option.map_eq_none_iff.1 h, hscopes]
  simp only [List.isEmpty_nil, if_true]
  split
  · rename_i root hroot
    rw [hroot] at hroots
    exact absurd rfl hroots
  · rfl

theorem exists_finish [CodeOrder] (h : p.openKeyword = none) (hscopes : p.scopes = [])
    (hroots : p.outermostCount = 1) : ∃ dump, p.finish = .ok dump := by
  rw [outermostCount, hscopes] at hroots
  obtain ⟨root, hroot⟩ := List.length_eq_one_iff.1 hroots
  unfold finish
  rw [Option.map_eq_none_iff.1 h, hscopes, hroot]
  exact ⟨_, rfl⟩

end Progress

/-! ## Accepted texts -/

/-- The lines outside sections say commands, and every command fits those before it. -/
structure LinesAcceptable (text : List Char) : Prop where
  spoken : ∀ line ∈ outside false (lines text), isWhiteOnly line = false →
    ∃ c, command? line = some c
  fitting : ∀ front c rest, commands text = front ++ c :: rest → c.Fits front

/-- The keyword of the section that is open at the end of a text. -/
def openSection (text : List Char) : Option (List Char) := sectionBehind none (lines text)

/-- The error of a fault at the last line of a text. -/
def faultAtEnd (text : List Char) (fault : Fault) : ReadError :=
  .located (lines text).length ((lines text).getLast?.getD []) fault

/-- The progress behind all lines of a text. -/
def run (text : List Char) : Except ReadError Progress :=
  ((lines text).zipIdx 1).foldlM Progress.feedNumbered .start

theorem linesAcceptable_iff {text : List Char} :
    LinesAcceptable text ↔ ∃ p, run text = .ok p := by
  have hrun := Progress.Tracks.start.exists_run_iff ((lines text).zipIdx 1)
  rw [List.zipIdx_map_fst] at hrun
  refine Iff.trans ⟨fun h => ⟨h.spoken, h.fitting⟩, fun h => ⟨h.1, h.2⟩⟩ hrun.symm

instance (text : List Char) : Decidable (LinesAcceptable text) :=
  decidable_of_iff ((run text).toOption.isSome = true) <| by
    simp only [linesAcceptable_iff, Option.isSome_iff_exists, toOption_eq_some_iff]

theorem tracks_of_run {text : List Char} {p : Progress} (h : run text = .ok p) :
    Progress.Tracks (commands text) p := by
  have htracks := Progress.run_induction Progress.Tracks (fun hp _ hq => hp.obey hq)
    (fun hp _ => hp.extend _ _ _) Progress.Tracks.start h
  rw [List.zipIdx_map_fst] at htracks
  exact htracks

theorem openSection_eq_of_run {text : List Char} {p : Progress} (h : run text = .ok p) :
    openSection text = p.openKeyword := by
  have hkeyword := Progress.openKeyword_run h
  rwa [List.zipIdx_map_fst] at hkeyword

theorem read_of_run [CodeOrder] {text : List Char} {p : Progress} (h : run text = .ok p) :
    read text = p.finish.mapError (faultAtEnd text) := by
  unfold read readLines
  rw [show ((lines text).zipIdx 1).foldlM Progress.feedNumbered .start = .ok p from h]
  rfl

theorem length_scopes_of_run {text : List Char} {p : Progress} (h : run text = .ok p) :
    p.scopes.length = openScopes (commands text) := by
  have hdepth := (tracks_of_run h).depth
  unfold openScopes
  omega

section

variable {text : List Char} (hlines : LinesAcceptable text)

include hlines

theorem read_of_openSection [CodeOrder] {keyword : List Char}
    (h : openSection text = some keyword) :
    read text = .error (faultAtEnd text (.unterminatedSection (String.ofList keyword))) := by
  obtain ⟨p, hrun⟩ := linesAcceptable_iff.1 hlines
  rw [openSection_eq_of_run hrun] at h
  rw [read_of_run hrun, Progress.finish_of_openKeyword h]
  rfl

theorem read_of_openScopes [CodeOrder] (hsection : openSection text = none)
    (h : 0 < openScopes (commands text)) :
    read text = .error (faultAtEnd text (.unclosedScopes (openScopes (commands text)))) := by
  obtain ⟨p, hrun⟩ := linesAcceptable_iff.1 hlines
  rw [openSection_eq_of_run hrun] at hsection
  rw [← length_scopes_of_run hrun] at h ⊢
  rw [read_of_run hrun, Progress.finish_of_scopes hsection (List.ne_nil_of_length_pos h)]
  rfl

theorem read_of_outermostScopes [CodeOrder] (hsection : openSection text = none)
    (hclosed : openScopes (commands text) = 0) (h : outermostScopes (commands text) ≠ 1) :
    read text = .error (faultAtEnd text (.rootCount (outermostScopes (commands text)))) := by
  obtain ⟨p, hrun⟩ := linesAcceptable_iff.1 hlines
  rw [openSection_eq_of_run hrun] at hsection
  rw [← length_scopes_of_run hrun, List.length_eq_zero_iff] at hclosed
  rw [← (tracks_of_run hrun).outermost] at h ⊢
  rw [read_of_run hrun, Progress.finish_of_outermostCount hsection hclosed h]
  rfl

theorem exists_read [CodeOrder] (hsection : openSection text = none)
    (hclosed : openScopes (commands text) = 0) (h : outermostScopes (commands text) = 1) :
    ∃ dump, read text = .ok dump := by
  obtain ⟨p, hrun⟩ := linesAcceptable_iff.1 hlines
  rw [openSection_eq_of_run hrun] at hsection
  rw [← length_scopes_of_run hrun, List.length_eq_zero_iff] at hclosed
  rw [← (tracks_of_run hrun).outermost] at h
  obtain ⟨dump, hfinish⟩ := Progress.exists_finish hsection hclosed h
  exact ⟨dump, by rw [read_of_run hrun, hfinish]; rfl⟩

end

/-- **Which texts are accepted.** A text is read exactly if its lines outside sections say commands,
each one fitting those before it, and at its end no section is open, no scope is open, and one scope
was outermost. If the lines are acceptable and the end is not, the error stands at the last line and
tells of the first of these three that fails. -/
theorem read_accepts_iff [CodeOrder] (text : List Char) :
    ((∃ dump, read text = .ok dump) ↔
      LinesAcceptable text ∧ openSection text = none ∧ openScopes (commands text) = 0 ∧
        outermostScopes (commands text) = 1) ∧
    (LinesAcceptable text →
      (∀ keyword, openSection text = some keyword →
        read text = .error (faultAtEnd text (.unterminatedSection (String.ofList keyword)))) ∧
      (openSection text = none → 0 < openScopes (commands text) →
        read text = .error (faultAtEnd text (.unclosedScopes (openScopes (commands text))))) ∧
      (openSection text = none → openScopes (commands text) = 0 →
        outermostScopes (commands text) ≠ 1 →
        read text =
          .error (faultAtEnd text (.rootCount (outermostScopes (commands text)))))) := by
  constructor
  · constructor
    · rintro ⟨dump, hread⟩
      obtain ⟨p, hrun, hfinish⟩ := bind_eq_ok_iff.1 hread
      have hlines := linesAcceptable_iff.2 ⟨p, hrun⟩
      refine ⟨hlines, ?_⟩
      -- each of the three faults at the end would have been the result
      cases hsection : openSection text with
      | some keyword =>
        rw [read_of_openSection hlines hsection] at hread
        cases hread
      | none =>
        rcases Nat.eq_zero_or_pos (openScopes (commands text)) with hclosed | hopen
        · by_cases hroots : outermostScopes (commands text) = 1
          · exact ⟨rfl, hclosed, hroots⟩
          · rw [read_of_outermostScopes hlines hsection hclosed hroots] at hread
            cases hread
        · rw [read_of_openScopes hlines hsection hopen] at hread
          cases hread
    · rintro ⟨hlines, hsection, hclosed, hroots⟩
      exact exists_read hlines hsection hclosed hroots
  · intro hlines
    exact ⟨fun keyword => read_of_openSection hlines, read_of_openScopes hlines,
      read_of_outermostScopes hlines⟩

def ofLines (ls : List String) : List Char := ls.flatMap fun l => l.toList ++ ['\n']

/-- One scope, a scope that is open together with a section, that scope without the section, and two
scopes. -/
theorem read_accepts_scopes :
    (∃ dump, read (ofLines ["$scope module TOP $end", "$upscope $end"]) = .ok dump) ∧
    read (ofLines ["$scope module TOP $end", "$comment 1!"]) =
      .error ⟨none, 2, "$comment 1!", .unterminatedSection "$comment"⟩ ∧
    read (ofLines ["$scope module TOP $end"]) =
      .error ⟨none, 1, "$scope module TOP $end", .unclosedScopes 1⟩ ∧
    read (ofLines ["$scope module A $end", "$upscope $end", "$scope module B $end",
      "$upscope $end"]) = .error ⟨none, 4, "$upscope $end", .rootCount 2⟩ := by
  refine ⟨?_, ?_, ?_, ?_⟩
  · exact (read_accepts_iff _).1.2
      ⟨by decide +kernel, by decide +kernel, by decide +kernel, by decide +kernel⟩
  · rw [((read_accepts_iff _).2 (by decide +kernel)).1 "$comment".toList (by decide +kernel)]
    exact congrArg Except.error (by decide +kernel)
  · rw [((read_accepts_iff _).2 (by decide +kernel)).2.1 (by decide +kernel) (by decide +kernel)]
    exact congrArg Except.error (by decide +kernel)
  · rw [((read_accepts_iff _).2 (by decide +kernel)).2.2 (by decide +kernel) (by decide +kernel)
      (by decide +kernel)]
    exact congrArg Except.error (by decide +kernel)

end TraceMining.Waveform
