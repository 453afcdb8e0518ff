import TraceMining.Proofs.Ordered
import TraceMining.Proofs.Waveform.Script

/-!
# What a dump denotes

The commands of a text declare signals for identifier codes and record changes of them. A code
denotes the set of all its signals, however far apart they are declared, and the trace that holds,
for every time, the last change recorded at that time (`Denotes`). The wires that have been read
are those that the declarations and changes so far denote (`Recorded`), and each declaration and
each change keeps them so. At the end, the entries of the store and the declared codes correspond
to each other one to one (`read_denotes`), unless two codes have the same signals.

Which of two codes with the same signals stays is decided by the order in which the codes are
visited. For nothing else that is read does this order matter (`map_read_order`,
`read_eq_of_codesApart`).
-/

namespace TraceMining.Waveform

/-! ## Declarations and changes -/

/-- The code and the signal of a declaration. -/
def declaration? : Context × Command → Option (List Char × Signal)
  | (ctx, .declare width code name) => some (code, ⟨ctx.fullName name, width⟩)
  | _ => none

/-- The code, the time and the value of a change. -/
def change? : Context × Command → Option (List Char × Time × Value)
  | (ctx, .scalar bit code) => some (code, ctx.time, Progress.bitValue bit)
  | (ctx, .vector bits code) => some (code, ctx.time, Progress.bitsValue bits)
  | _ => none

/-- The declarations of a text, in the order of its lines. -/
def declarations (text : List Char) : List (List Char × Signal) :=
  (script text).filterMap declaration?

/-- The changes of a text, in the order of its lines. -/
def changes (text : List Char) : List (List Char × Time × Value) :=
  (script text).filterMap change?

/-- The value of the last change of the code at the time `t`. -/
def lastChange (es : List (List Char × Time × Value)) (code : List Char) (t : Time) :
    Option Value :=
  ((es.filter fun e => e.1 = code ∧ e.2.1 = t).getLast?).map (·.2.2)

theorem lastChange_concat (es : List (List Char × Time × Value)) (code code' : List Char)
    (t t' : Time) (v : Value) :
    lastChange (es ++ [(code, t, v)]) code' t' =
      if code' = code ∧ t' = t then some v else lastChange es code' t' := by
  unfold lastChange
  rw [List.filter_append]
  split
  · rename_i heq
    obtain ⟨rfl, rfl⟩ := heq
    simp
  · rename_i hne
    have hnil : [(code, t, v)].filter (fun e => e.1 = code' ∧ e.2.1 = t') = [] := by
      simp only [List.filter_eq_nil_iff, List.mem_singleton, forall_eq, decide_eq_true_eq]
      rintro ⟨rfl, rfl⟩
      exact hne ⟨rfl, rfl⟩
    rw [hnil, List.append_nil]

/-! ## What has been recorded -/

/-- What the wires hold of a code, which is nothing for a code that was not declared. -/
def wireOf (wires : OrderedMap (List Char) Wire) (code : List Char) : Wire :=
  (wires.lookup code).getD ⟨∅, ∅⟩

theorem wireOf_of_lookup {wires : OrderedMap (List Char) Wire} {code : List Char} {w : Wire}
    (hw : wires.lookup code = some w) :
    wireOf wires code = w := by
  unfold wireOf
  rw [hw, Option.getD_some]

theorem wireOf_alter (wires : OrderedMap (List Char) Wire) (code code' : List Char) (s : Signal) :
    wireOf (wires.alter code (Progress.withSignal s)) code' =
      if code' = code then
        { wireOf wires code with aliases := (wireOf wires code).aliases.insert s }
      else wireOf wires code' := by
  unfold wireOf
  rw [OrderedMap.lookup_alter]
  split
  · cases wires.lookup code <;> rfl
  · rfl

/-- The wires are those of the declarations and the changes. -/
structure Recorded (ds : List (List Char × Signal)) (es : List (List Char × Time × Value))
    (wires : OrderedMap (List Char) Wire) : Prop where
  declared : ∀ code, (wires.lookup code).isSome = true ↔ ∃ s, (code, s) ∈ ds
  names : ∀ code s, s ∈ (wireOf wires code).aliases ↔ (code, s) ∈ ds
  events : ∀ code t, (wireOf wires code).events.lookup t = lastChange es code t

namespace Recorded

variable {ds : List (List Char × Signal)} {es : List (List Char × Time × Value)}
  {wires : OrderedMap (List Char) Wire}

theorem empty : Recorded [] [] ∅ := by
  refine ⟨fun code => ?_, fun code s => ?_, fun code t => rfl⟩
  · simp
  · exact iff_of_false List.not_mem_nil List.not_mem_nil

theorem declare (h : Recorded ds es wires) (code : List Char) (s : Signal) :
    Recorded (ds ++ [(code, s)]) es (wires.alter code (Progress.withSignal s)) := by
  refine ⟨fun code' => ?_, fun code' s' => ?_, fun code' t => ?_⟩
  · rw [OrderedMap.lookup_alter]
    split
    · rename_i heq
      subst heq
      exact iff_of_true rfl ⟨s, by simp⟩
    · rename_i hne
      simp [h.declared, hne]
  · rw [wireOf_alter]
    split
    · rename_i heq
      subst heq
      rw [OrderedSet.mem_insert, h.names]
      simp [or_comm]
    · rename_i hne
      simp [h.names, hne]
  · rw [wireOf_alter]
    split
    · rename_i heq
      subst heq
      exact h.events code' t
    · exact h.events code' t

theorem change (h : Recorded ds es wires) {code : List Char} {w : Wire}
    (hw : wires.lookup code = some w) (t : Time) (v : Value) :
    Recorded ds (es ++ [(code, t, v)])
      (wires.insert code { w with events := w.events.insert t v }) := by
  have hinsert : ∀ code', wireOf (wires.insert code { w with events := w.events.insert t v }) code'
      = if code' = code then { w with events := w.events.insert t v } else wireOf wires code' := by
    intro code'
    unfold wireOf
    rw [OrderedMap.lookup_insert]
    split <;> rfl
  refine ⟨fun code' => ?_, fun code' s => ?_, fun code' u => ?_⟩
  · rw [OrderedMap.lookup_insert, ← h.declared]
    split
    · rename_i heq
      subst heq
      rw [hw]
      exact Iff.rfl
    · exact Iff.rfl
  · rw [hinsert, ← h.names]
    split
    · rename_i heq
      subst heq
      rw [wireOf_of_lookup hw]
    · exact Iff.rfl
  · rw [hinsert, lastChange_concat, ← h.events]
    split
    · rename_i heq
      subst heq
      simp only [true_and, OrderedMap.lookup_insert, wireOf_of_lookup hw]
    · rename_i hne
      rw [if_neg fun heq => hne heq.1]

end Recorded

/-! ## Reading records what the commands say -/

/-- What a command does to the wires: a declaration or a change of it is recorded. -/
theorem wires_obey_cases {p q : Progress} {ctx : Context} {c : Command} (h : p.StandsIn ctx)
    (hq : p.obey c = .ok q) :
    (∃ code s, declaration? (ctx, c) = some (code, s) ∧ change? (ctx, c) = none ∧
      q.wires = p.wires.alter code (Progress.withSignal s)) ∨
    (∃ code v w, declaration? (ctx, c) = none ∧ change? (ctx, c) = some (code, ctx.time, v) ∧
      p.wires.lookup code = some w ∧
      q.wires = p.wires.insert code { w with events := w.events.insert ctx.time v }) ∨
    (declaration? (ctx, c) = none ∧ change? (ctx, c) = none ∧ q.wires = p.wires) := by
  cases c with
  | declare width code name =>
    obtain ⟨-, rfl⟩ := Progress.declare_eq_ok_iff.1 hq
    refine .inl ⟨code, _, rfl, rfl, ?_⟩
    rw [h.qualify]
  | scalar bit code =>
    obtain ⟨w, hw, rfl⟩ := Progress.change_eq_ok_iff.1 hq
    refine .inr (.inl ⟨code, _, w, rfl, rfl, hw, ?_⟩)
    rw [h.time]
  | vector bits code =>
    obtain ⟨-, w, hw, rfl⟩ := Progress.obey_vector_eq_ok_iff.1 hq
    refine .inr (.inl ⟨code, _, w, rfl, rfl, hw, ?_⟩)
    rw [h.time]
  | closeScope =>
    obtain ⟨-, scopes, roots, rfl, -⟩ := Progress.exists_of_closeScope_eq_ok hq
    exact .inr (.inr ⟨rfl, rfl, rfl⟩)
  | header keyword text closed =>
    cases hq
    refine .inr (.inr ⟨rfl, rfl, ?_⟩)
    cases closed <;> rfl
  | openScope kind name | endDefinitions | marker | timestamp time | real code =>
    cases hq
    exact .inr (.inr ⟨rfl, rfl, rfl⟩)

/-- What the commands declare and change is recorded. -/
def Reflects (cs : List Command) (p : Progress) : Prop :=
  Recorded ((inContext .start cs).filterMap declaration?) ((inContext .start cs).filterMap change?)
    p.wires

theorem Reflects.obey {cs : List Command} {p q : Progress} {c : Command} (h : Reflects cs p)
    (hctx : p.StandsIn (contextAfter cs)) (hq : p.obey c = .ok q) : Reflects (cs ++ [c]) q := by
  unfold Reflects
  rw [filterMap_inContext_concat, filterMap_inContext_concat]
  rcases wires_obey_cases hctx hq with ⟨code, s, hd, he, hw⟩ | ⟨code, v, w, hd, he, hl, hw⟩ |
    ⟨hd, he, hw⟩
  · rw [hd, he, hw, Option.toList_none, List.append_nil]
    exact Recorded.declare h code s
  · rw [hd, he, hw, Option.toList_none, List.append_nil]
    exact Recorded.change h hl (contextAfter cs).time v
  · rw [hd, he, hw, Option.toList_none, Option.toList_none, List.append_nil, List.append_nil]
    exact h

theorem Reflects.extend {cs : List Command} {p : Progress} (h : Reflects cs p) (s : Section)
    (piece : List Char) (closed : Bool) : Reflects cs (p.extend s piece closed) := by
  cases closed <;> exact h

/-- What was recorded of an accepted text is stored under the names of its codes. -/
theorem exists_recorded_of_read [CodeOrder] {text : List Char} {dump : Dump}
    (h : read text = .ok dump) :
    ∃ wires, Recorded (declarations text) (changes text) wires ∧
      dump.store = .ofList ((CodeOrder.visit wires).map fun w => (w.aliases, w.events)) := by
  obtain ⟨p, hp, -, hfinish⟩ := exists_progress_of_read Reflects .empty
    (fun hp hctx hq => hp.obey hctx hq) (fun hp => hp.extend _ _ _) h
  exact ⟨p.wires, hp, (Progress.of_finish_eq_ok hfinish).2.2⟩

/-! ## The entries of the store -/

/-- The group and the trace are those of the code, which is declared. -/
structure Denotes (text : List Char) (code : List Char) (group : AliasGroup)
    (trace : DeltaTrace) : Prop where
  declared : ∃ s, (code, s) ∈ declarations text
  names : ∀ s, s ∈ group ↔ (code, s) ∈ declarations text
  events : ∀ t, trace.lookup t = lastChange (changes text) code t

theorem Denotes.unique {text code : List Char} {g g' : AliasGroup} {x x' : DeltaTrace}
    (h : Denotes text code g x) (h' : Denotes text code g' x') : g = g' ∧ x = x' := by
  constructor
  · apply OrderedSet.ext_mem
    intro s
    rw [h.names, h'.names]
  · apply OrderedMap.ext_lookup
    intro t
    rw [h.events, h'.events]

theorem Recorded.denotes_of_lookup {text code : List Char} {wires : OrderedMap (List Char) Wire}
    (h : Recorded (declarations text) (changes text) wires) {w : Wire}
    (hw : wires.lookup code = some w) : Denotes text code w.aliases w.events := by
  refine ⟨(h.declared code).1 (hw ▸ rfl), fun s => ?_, fun t => ?_⟩
  · rw [← wireOf_of_lookup hw]
    exact h.names code s
  · rw [← wireOf_of_lookup hw]
    exact h.events code t

theorem Recorded.mem_visit_iff [CodeOrder] {text : List Char}
    {wires : OrderedMap (List Char) Wire}
    (h : Recorded (declarations text) (changes text) wires) {g : AliasGroup} {x : DeltaTrace} :
    (g, x) ∈ (CodeOrder.visit wires).map (fun w => (w.aliases, w.events)) ↔
      ∃ code, Denotes text code g x := by
  rw [((CodeOrder.perm wires).map _).mem_iff]
  constructor
  · intro hmem
    obtain ⟨w, hvalue, hentry⟩ := List.mem_map.1 hmem
    obtain ⟨⟨code, w'⟩, hw, rfl⟩ := List.mem_map.1 hvalue
    cases hentry
    exact ⟨code, h.denotes_of_lookup (OrderedMap.mem_entries_iff.1 hw)⟩
  · rintro ⟨code, hdenotes⟩
    obtain ⟨w, hw⟩ := Option.isSome_iff_exists.1 ((h.declared code).2 hdenotes.declared)
    obtain ⟨rfl, rfl⟩ := hdenotes.unique (h.denotes_of_lookup hw)
    have hvalue : w ∈ wires.values := List.mem_map_of_mem (OrderedMap.mem_entries_iff.2 hw)
    exact List.mem_map_of_mem hvalue

/-- No two declared codes have the same signals. -/
def CodesApart (text : List Char) : Prop :=
  ∀ code code', (∃ s, (code, s) ∈ declarations text) → (∃ s, (code', s) ∈ declarations text) →
    (∀ s, (code, s) ∈ declarations text ↔ (code', s) ∈ declarations text) → code = code'

theorem Denotes.code_unique {text code code' : List Char} (hapart : CodesApart text)
    {g : AliasGroup} {x x' : DeltaTrace} (h : Denotes text code g x)
    (h' : Denotes text code' g x') : code = code' :=
  hapart code code' h.declared h'.declared fun s => by rw [← h.names, ← h'.names]

theorem lookup_store_iff [CodeOrder] {text : List Char} {dump : Dump} (h : read text = .ok dump)
    (hapart : CodesApart text) {g : AliasGroup} {x : DeltaTrace} :
    dump.store.lookup g = some x ↔ ∃ code, Denotes text code g x := by
  obtain ⟨wires, hwires, hstore⟩ := exists_recorded_of_read h
  rw [hstore, OrderedMap.lookup_ofList_iff, hwires.mem_visit_iff]
  intro g x x' hx hx'
  obtain ⟨code, hcode⟩ := hwires.mem_visit_iff.1 hx
  obtain ⟨code', hcode'⟩ := hwires.mem_visit_iff.1 hx'
  have heq := hcode.code_unique hapart hcode'
  subst heq
  exact (hcode.unique hcode').2

theorem exists_denotes [CodeOrder] {text code : List Char} {dump : Dump} (h : read text = .ok dump)
    (hcode : ∃ s, (code, s) ∈ declarations text) : ∃ g x, Denotes text code g x := by
  obtain ⟨wires, hwires, -⟩ := exists_recorded_of_read h
  obtain ⟨w, hw⟩ := Option.isSome_iff_exists.1 ((hwires.declared code).2 hcode)
  exact ⟨w.aliases, w.events, hwires.denotes_of_lookup hw⟩

/-- The keys of the store are the groups of the declared codes. -/
theorem mem_keys_store_iff [CodeOrder] {text : List Char} {dump : Dump} (h : read text = .ok dump)
    {g : AliasGroup} : g ∈ dump.store.keys ↔ ∃ code x, Denotes text code g x := by
  obtain ⟨wires, hwires, hstore⟩ := exists_recorded_of_read h
  rw [OrderedMap.mem_keys_iff, hstore]
  simp only [OrderedMap.lookup_ofList]
  constructor
  · rintro ⟨x, hx⟩
    obtain ⟨code, hdenotes⟩ := hwires.mem_visit_iff.1 (mem_of_lastEntry hx)
    exact ⟨code, x, hdenotes⟩
  · rintro ⟨code, x, hdenotes⟩
    have hentry := hwires.mem_visit_iff.2 ⟨code, hdenotes⟩
    exact Option.isSome_iff_exists.1 (isSome_lastEntry hentry)

/-- **What an accepted text denotes.** Unless two codes have the same signals, the entries of the
store and the declared codes correspond to each other one to one: the key of the entry of a code is
the set of all its signals, and the trace holds the last change of the code at every time. -/
theorem read_denotes [CodeOrder] {text : List Char} {dump : Dump} (h : read text = .ok dump)
    (hapart : CodesApart text) :
    (∀ code, (∃ s, (code, s) ∈ declarations text) →
      ∃ e ∈ dump.store.entries, Denotes text code e.1 e.2 ∧
        ∀ e' ∈ dump.store.entries, Denotes text code e'.1 e'.2 → e' = e) ∧
    ∀ e ∈ dump.store.entries, ∃ code, Denotes text code e.1 e.2 ∧
      ∀ code', Denotes text code' e.1 e.2 → code' = code := by
  have hentry : ∀ e : AliasGroup × DeltaTrace, e ∈ dump.store.entries ↔
      ∃ code, Denotes text code e.1 e.2 := by
    intro e
    rw [← lookup_store_iff h hapart]
    exact OrderedMap.mem_entries_iff
  constructor
  · intro code hcode
    obtain ⟨g, x, hdenotes⟩ := exists_denotes h hcode
    refine ⟨(g, x), (hentry _).2 ⟨code, hdenotes⟩, hdenotes, ?_⟩
    rintro ⟨g', x'⟩ - hdenotes'
    obtain ⟨rfl, rfl⟩ := hdenotes.unique hdenotes'
    rfl
  · intro e he
    obtain ⟨code, hdenotes⟩ := (hentry e).1 he
    exact ⟨code, hdenotes, fun code' hdenotes' => hdenotes'.code_unique hapart hdenotes⟩

/-- A text with two names for one code, changes that go back in time, and changes in a comment. -/
def wandering : List Char :=
  ["$scope module TOP $end", "$var wire 1 ! req $end", "$var wire 2 # data $end",
    "$scope module core $end", "$var wire 1 ! io_req $end", "$upscope $end", "$upscope $end",
    "$comment", "#7", "1#", "$end", "#5", "1!", "b10 #", "#3", "0!", "#5", "0!"].flatMap
    fun line => line.toList ++ ['\n']

theorem declarations_wandering : declarations wandering =
    [(['!'], ⟨"TOP.req", 1⟩), (['#'], ⟨"TOP.data", 2⟩), (['!'], ⟨"TOP.core.io_req", 1⟩)] := by
  decide +kernel

theorem changes_wandering : changes wandering =
    [(['!'], 5, 1), (['#'], 5, 2), (['!'], 3, 0), (['!'], 5, 0)] := by
  decide +kernel

theorem codesApart_wandering : CodesApart wandering := by
  rintro code code' ⟨s, hs⟩ - hsame
  have hs' := (hsame s).1 hs
  rw [declarations_wandering] at hs hs'
  simp only [List.mem_cons, Prod.mk.injEq, List.not_mem_nil, or_false] at hs hs'
  rcases hs with ⟨rfl, rfl⟩ | ⟨rfl, rfl⟩ | ⟨rfl, rfl⟩ <;> simpa [or_comm, eq_comm] using hs'

theorem read_denotes_wandering :
    ∃ dump, read wandering = .ok dump ∧ CodesApart wandering ∧
      ∃ e ∈ dump.store.entries, Denotes wandering ['!'] e.1 e.2 ∧ e.2.lookup 5 = some 0 := by
  have haccepted : (read wandering).toOption.isSome = true := by decide +kernel
  obtain ⟨dump, hsome⟩ := Option.isSome_iff_exists.1 haccepted
  have hdump := toOption_eq_some_iff.1 hsome
  have hdeclared : ∃ s, (['!'], s) ∈ declarations wandering :=
    ⟨_, declarations_wandering ▸ List.mem_cons_self⟩
  obtain ⟨e, he, hdenotes, -⟩ := (read_denotes hdump codesApart_wandering).1 _ hdeclared
  refine ⟨dump, hdump, codesApart_wandering, e, he, hdenotes, ?_⟩
  rw [hdenotes.events, changes_wandering]
  decide

/-! ## The order of the codes -/

/-- Whatever order the codes have, all but the store is read in the same way, and so is the error. -/
theorem map_read_order (order order' : CodeOrder) (text : List Char) :
    (@read order text).map (fun dump => (dump.root, dump.timescale)) =
      (@read order' text).map fun dump => (dump.root, dump.timescale) := by
  unfold read readLines
  cases ((Text.lines text).zipIdx 1).foldlM Progress.feedNumbered .start with
  | error e => rfl
  | ok p =>
    show (@Progress.conclude order p (Text.lines text)).map _ =
      (@Progress.conclude order' p (Text.lines text)).map _
    unfold Progress.conclude Progress.finish
    cases p.pending with
    | some s => rfl
    | none =>
      dsimp only
      split
      · split <;> rfl
      · rfl

/-- An error is found in every order. -/
theorem read_eq_error_of_order {order : CodeOrder} {text : List Char} {e : ReadError}
    (h : @read order text = .error e) (order' : CodeOrder) : @read order' text = .error e := by
  have hmap := map_read_order order order' text
  rw [h] at hmap
  cases h' : @read order' text with
  | ok dump =>
    rw [h'] at hmap
    cases hmap
  | error e' =>
    rw [h'] at hmap
    cases hmap
    rfl

/-- Unless two codes have the same signals, the order of the codes does not matter. -/
theorem read_eq_of_codesApart {text : List Char} (h : CodesApart text)
    (order order' : CodeOrder) : @read order text = @read order' text := by
  cases hread : @read order text with
  | error e => exact (read_eq_error_of_order hread order').symm
  | ok dump =>
    have hmap := map_read_order order order' text
    rw [hread] at hmap
    cases hread' : @read order' text with
    | error e =>
      rw [hread'] at hmap
      cases hmap
    | ok dump' =>
      rw [hread'] at hmap
      have hstore : dump.store = dump'.store := by
        apply OrderedMap.ext_lookup
        intro g
        apply Option.ext
        intro x
        rw [@lookup_store_iff order _ _ hread h, @lookup_store_iff order' _ _ hread' h]
      obtain ⟨hroot, htimescale⟩ := Prod.mk.inj (Except.ok.inj hmap)
      rw [Except.ok.injEq, Dump.mk.injEq]
      exact ⟨hroot, hstore, htimescale⟩

theorem read_eq_of_order {order : CodeOrder} {text : List Char}
    (h : CodesApart text ∨ ∃ e, @read order text = .error e) (order' : CodeOrder) :
    @read order' text = @read order text := by
  rcases h with hapart | ⟨e, he⟩
  · exact read_eq_of_codesApart hapart order' order
  · rw [he]
    exact read_eq_error_of_order he order'

/-- The codes in descending order. -/
abbrev descending : CodeOrder :=
  ⟨fun wires => wires.values.reverse, fun wires => wires.values.reverse_perm⟩

/-- Two codes with one name, which change to different values. -/
def homonyms : List Char :=
  ["$scope module TOP $end", "$var wire 1 ! a $end", "$var wire 1 # a $end", "$upscope $end", "0!",
    "1#"].flatMap fun line => line.toList ++ ['\n']

/-- The order matters where two codes have the same signals: the code visited last stays. -/
example : (read homonyms).toOption.map (·.store.values.map OrderedMap.entries) =
      some [[(0, 1)]] ∧
    (@read descending homonyms).toOption.map (·.store.values.map OrderedMap.entries) =
      some [[(0, 0)]] := by
  decide +kernel

end TraceMining.Waveform
