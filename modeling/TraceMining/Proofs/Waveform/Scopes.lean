import Mathlib.Data.List.Induction
import TraceMining.Proofs.Waveform.Acceptance
import TraceMining.Proofs.Waveform.Denotation

/-!
# The scope of a declaration

A module of the tree is named by the path of its scope, and the modules of an accepted text are
those of its scopes, in the order in which they are entered (`names_preorder_of_read`): leaving a
scope moves its module but keeps the order of all names (`Progress.namesRead_of_closeScope`). A
declared signal is named by the path of the scopes around it and its own word, and its scope is
found again in that name as what stands before the last dot. The two agree exactly if the word has
no dot of its own (`scope_declared_iff`). So a wire is placed in the module that declares it, and in
no module of another name, unless it was declared with a dotted word (`declared_in_open_scope`).
-/

namespace TraceMining

/-! ## The last dot of a name -/

theorem Signal.beforeLastDot_append (path name : List Char) :
    Signal.beforeLastDot (path ++ '.' :: name) =
      if '.' ∈ name then path ++ '.' :: Signal.beforeLastDot name else path := by
  induction path with
  | nil => rw [List.nil_append, Signal.beforeLastDot, List.nil_append]
  | cons c path ih =>
    rw [List.cons_append, Signal.beforeLastDot, if_pos (by simp), ih]
    split <;> rfl

theorem AliasGroup.declaredIn_iff {g : AliasGroup} {path : String} :
    g.declaredIn path = true ↔ ∃ s ∈ g, s.scope = path := by
  simp only [AliasGroup.declaredIn, OrderedSet.any, List.any_eq_true, beq_iff_eq]
  rfl

namespace Waveform

/-! ## Paths of scopes -/

/-- The names of some scopes, the innermost first, joined from the outermost on. -/
def joined (scopes : List (List Char)) : String :=
  ".".intercalate (scopes.reverse.map String.ofList)

/-- The path of the open scopes. -/
def Context.path (ctx : Context) : String := joined ctx.scopes

theorem Context.fullName_of_scopes {ctx : Context} (h : ctx.scopes ≠ []) (name : List Char) :
    ctx.fullName name = ctx.path ++ "." ++ String.ofList name := by
  unfold Context.fullName Context.path joined
  rw [List.map_append, String.intercalate_append_of_ne_nil (by simpa using h) (by simp)]
  simp

theorem toList_fullName {ctx : Context} (h : ctx.scopes ≠ []) (name : List Char) :
    (ctx.fullName name).toList = ctx.path.toList ++ '.' :: name := by
  rw [Context.fullName_of_scopes h]
  simp

/-- The scope of a declared signal is that of its declaration, unless its word has a dot. -/
theorem scope_declared {ctx : Context} (h : ctx.scopes ≠ []) (name : List Char) (width : Nat) :
    Signal.scope ⟨ctx.fullName name, width⟩ =
      if '.' ∈ name then ctx.path ++ "." ++ String.ofList (Signal.beforeLastDot name)
      else ctx.path := by
  unfold Signal.scope
  rw [toList_fullName h, Signal.beforeLastDot_append]
  split
  · apply String.toList_injective
    simp
  · exact String.ofList_toList

theorem scope_declared_iff {ctx : Context} (h : ctx.scopes ≠ []) (name : List Char) (width : Nat) :
    Signal.scope ⟨ctx.fullName name, width⟩ = ctx.path ↔ '.' ∉ name := by
  rw [scope_declared h]
  split
  · rename_i hdot
    refine iff_of_false (fun heq => ?_) (not_not.2 hdot)
    have hlength := congrArg (fun s : String => s.toList.length) heq
    simp at hlength
  · rename_i hdot
    exact iff_of_true rfl hdot

/-! ## Scopes that are entered -/

/-- The path of the scope that a command enters. -/
def entered? : Context × Command → Option String
  | (ctx, .openScope _ name) => some (joined (name :: ctx.scopes))
  | _ => none

/-- The paths of the scopes that are entered, in the order of the commands. -/
def enteredPaths (cs : List Command) : List String := (inContext .start cs).filterMap entered?

theorem enteredPaths_concat (cs : List Command) (c : Command) :
    enteredPaths (cs ++ [c]) = enteredPaths cs ++ (entered? (contextAfter cs, c)).toList :=
  filterMap_inContext_concat entered? cs c

theorem enteredPaths_append (cs ds : List Command) :
    ∃ paths, enteredPaths (cs ++ ds) = enteredPaths cs ++ paths := by
  unfold enteredPaths
  rw [inContext_append, List.filterMap_append]
  exact ⟨_, rfl⟩

/-- Every scope that is open was entered before. -/
theorem joined_mem_enteredPaths (cs : List Command) :
    ∀ scopes, scopes ≠ [] → scopes <:+ (contextAfter cs).scopes →
      joined scopes ∈ enteredPaths cs := by
  induction cs using List.reverseRecOn with
  | nil =>
    intro scopes hne hsuffix
    exact absurd (List.suffix_nil.1 hsuffix) hne
  | append_singleton cs c ih =>
    intro scopes hne hsuffix
    rw [contextAfter_concat] at hsuffix
    rw [enteredPaths_concat]
    have hkept : scopes <:+ (contextAfter cs).scopes →
        joined scopes ∈ enteredPaths cs ++ (entered? (contextAfter cs, c)).toList :=
      fun h => List.mem_append_left _ (ih scopes hne h)
    cases c with
    | openScope kind name =>
      rcases List.suffix_cons_iff.1 hsuffix with rfl | hsuffix
      · exact List.mem_append_right _ List.mem_cons_self
      · exact hkept hsuffix
    | closeScope => exact hkept (hsuffix.trans (List.tail_suffix _))
    | _ => exact hkept hsuffix

theorem exists_front_of_mem_inContext {ctx₀ ctx : Context} {c : Command} {cs : List Command}
    (h : (ctx, c) ∈ inContext ctx₀ cs) :
    ∃ front rest, cs = front ++ c :: rest ∧ ctx = front.foldl Context.behind ctx₀ := by
  induction cs generalizing ctx₀ with
  | nil => cases h
  | cons d cs ih =>
    rcases List.mem_cons.1 h with heq | h
    · cases heq
      exact ⟨[], cs, rfl, rfl⟩
    · obtain ⟨front, rest, rfl, rfl⟩ := ih h
      exact ⟨d :: front, rest, rfl, rfl⟩

theorem path_mem_enteredPaths {ctx : Context} {c : Command} {cs : List Command}
    (h : (ctx, c) ∈ inContext .start cs) (hopen : ctx.scopes ≠ []) :
    ctx.path ∈ enteredPaths cs := by
  obtain ⟨front, rest, rfl, rfl⟩ := exists_front_of_mem_inContext h
  obtain ⟨paths, hpaths⟩ := enteredPaths_append front (c :: rest)
  rw [hpaths]
  exact List.mem_append_left _ (joined_mem_enteredPaths front _ hopen (List.suffix_refl _))

/-! ## The names of the modules -/

/-- The names of some modules and of all modules inside them. -/
def namesOf (modules : List Module) : List String :=
  (Module.preorder.all modules).map Module.name

theorem namesOf_append (ms ns : List Module) : namesOf (ms ++ ns) = namesOf ms ++ namesOf ns := by
  unfold namesOf
  rw [Module.all_append, List.map_append]

theorem namesOf_singleton (name : String) (children : List Module) :
    namesOf [.mk name children] = name :: namesOf children := by
  simp [namesOf, Module.preorder.all, Module.preorder, Module.name]

namespace Progress

/-- The names of the modules that have been entered in some open scopes and not been left for
good, the outermost first. -/
def openNames : List OpenScope → List String
  | [] => []
  | scope :: outer => openNames outer ++ path (scope :: outer) :: namesOf scope.finished

/-- The names of all modules that have been entered. -/
def namesRead (p : Progress) : List String := namesOf p.roots ++ openNames p.scopes

theorem namesRead_of_closeScope {p q : Progress} (h : p.closeScope = .ok q) :
    q.namesRead = p.namesRead := by
  unfold closeScope at h
  unfold namesRead
  split at h
  · cases h
  · rename_i scope outer hscopes
    rw [hscopes]
    simp only at h
    split at h
    · cases h
      simp [namesOf_append, namesOf_singleton, openNames, hscopes]
    · rename_i parent rest
      cases h
      have hpath : path ({ parent with finished := parent.finished ++
          [.mk (path (scope :: parent :: rest)) scope.finished] } :: rest) =
          path (parent :: rest) := by
        simp [path]
      simp [openNames, namesOf_append, namesOf_singleton, hscopes, hpath]

theorem StandsIn.path_openScope {p : Progress} {ctx : Context} (h : p.StandsIn ctx)
    (name : List Char) : path (⟨String.ofList name, []⟩ :: p.scopes) = joined (name :: ctx.scopes) := by
  unfold path joined
  rw [List.map_reverse, List.map_reverse, List.map_cons, List.map_cons, h.scopes]

theorem namesRead_obey {p q : Progress} {ctx : Context} {c : Command} (h : p.StandsIn ctx)
    (hq : p.obey c = .ok q) : q.namesRead = p.namesRead ++ (entered? (ctx, c)).toList := by
  cases c with
  | openScope kind name =>
    cases hq
    simp [namesRead, openNames, entered?, h.path_openScope, namesOf, Module.preorder.all]
  | closeScope =>
    rw [namesRead_of_closeScope hq]
    exact (List.append_nil _).symm
  | declare width code name =>
    obtain ⟨-, rfl⟩ := declare_eq_ok_iff.1 hq
    exact (List.append_nil _).symm
  | scalar bit code =>
    obtain ⟨w, -, rfl⟩ := change_eq_ok_iff.1 hq
    exact (List.append_nil _).symm
  | vector bits code =>
    obtain ⟨-, w, -, rfl⟩ := obey_vector_eq_ok_iff.1 hq
    exact (List.append_nil _).symm
  | header keyword text closed =>
    cases hq
    cases closed <;> exact (List.append_nil _).symm
  | endDefinitions | marker | timestamp time | real code =>
    cases hq
    exact (List.append_nil _).symm

end Progress

/-- The modules of an accepted text are those of the scopes it enters, in the same order. -/
theorem names_preorder_of_read [CodeOrder] {text : List Char} {dump : Dump}
    (h : read text = .ok dump) :
    dump.root.preorder.map Module.name = enteredPaths (commands text) := by
  obtain ⟨p, hp, -, hfinish⟩ := exists_progress_of_read
    (fun cs p => p.namesRead = enteredPaths cs) rfl
    (fun {cs p c q} hp hctx hq => by
      rw [Progress.namesRead_obey hctx hq, hp, enteredPaths_concat])
    (fun {cs p s piece closed} hp => by cases closed <;> exact hp) h
  obtain ⟨hscopes, hroots, -⟩ := Progress.of_finish_eq_ok hfinish
  rw [← hp, Progress.namesRead, hscopes, hroots]
  simp [namesOf, Module.preorder.all, Progress.openNames]

/-! ## Where a wire is placed -/

theorem exists_module_of_open [CodeOrder] {text : List Char} {dump : Dump}
    (h : read text = .ok dump) {ctx : Context} {c : Command} (hc : (ctx, c) ∈ script text) (hopen : ctx.scopes ≠ []) :
    ∃ m ∈ dump.root.preorder, m.name = ctx.path := by
  have hpath := path_mem_enteredPaths hc hopen
  rw [← names_preorder_of_read h] at hpath
  exact List.mem_map.1 hpath

/-- The signals of a declared code are the key of an entry of the store. -/
theorem exists_group_of_declared [CodeOrder] {text code : List Char} {s : Signal} {dump : Dump}
    (h : read text = .ok dump) (hs : (code, s) ∈ declarations text) :
    ∃ g x, dump.store.lookup g = some x ∧ ∀ s, s ∈ g ↔ (code, s) ∈ declarations text := by
  obtain ⟨g, x, hdenotes⟩ := exists_denotes h ⟨s, hs⟩
  have hkey := (mem_keys_store_iff h).2 ⟨code, x, hdenotes⟩
  obtain ⟨x', hx'⟩ := OrderedMap.mem_keys_iff.1 hkey
  exact ⟨g, x', hx', hdenotes.names⟩

theorem mem_declarations_of_mem_script {text code name : List Char} {ctx : Context} {width : Nat}
    (h : (ctx, .declare width code name) ∈ script text) :
    (code, ⟨ctx.fullName name, width⟩) ∈ declarations text :=
  List.mem_filterMap.2 ⟨_, h, rfl⟩

/-- **Where a declaration places its wire.** Let a signal be declared in some open scopes of an
accepted text. The tree has a module named by the path of these scopes, and the store has an entry
whose key holds the signals of the declared code, this one among them. The scope of the signal is
that path exactly if the declared word has no dot; then the wire is declared in the module of that
name, and its declaration places it in no module of another name. The dots of a word count as part
of the scope, up to the last one. -/
theorem declared_in_open_scope [CodeOrder] {text code name : List Char} {dump : Dump}
    {ctx : Context} {width : Nat} (h : read text = .ok dump)
    (hdeclared : (ctx, .declare width code name) ∈ script text) (hopen : ctx.scopes ≠ []) :
    (∃ m ∈ dump.root.preorder, m.name = ctx.path) ∧
    (Signal.scope ⟨ctx.fullName name, width⟩ = ctx.path ↔ '.' ∉ name) ∧
    ('.' ∈ name → Signal.scope ⟨ctx.fullName name, width⟩ =
      ctx.path ++ "." ++ String.ofList (Signal.beforeLastDot name)) ∧
    (∃ g x, dump.store.lookup g = some x ∧ (∀ s, s ∈ g ↔ (code, s) ∈ declarations text) ∧
      ⟨ctx.fullName name, width⟩ ∈ g ∧ ('.' ∉ name → g.declaredIn ctx.path = true)) ∧
    ('.' ∉ name → ∀ m ∈ dump.root.preorder,
      Signal.scope ⟨ctx.fullName name, width⟩ = m.name → m.name = ctx.path) := by
  have hscope := scope_declared_iff hopen name width
  refine ⟨exists_module_of_open h hdeclared hopen, hscope, fun hdot => ?_, ?_, ?_⟩
  · rw [scope_declared hopen, if_pos hdot]
  · have hmem := mem_declarations_of_mem_script hdeclared
    obtain ⟨g, x, hg, hnames⟩ := exists_group_of_declared h hmem
    refine ⟨g, x, hg, hnames, (hnames _).2 hmem, fun hdot => ?_⟩
    exact AliasGroup.declaredIn_iff.2 ⟨_, (hnames _).2 hmem, hscope.2 hdot⟩
  · intro hdot m _ hm
    rw [← hm, hscope.2 hdot]

/-- A module that declares a wire by a dotted word, and a wire by a plain one. -/
def dotted : List Char :=
  ofLines ["$scope module TOP $end", "$scope module a $end", "$upscope $end",
    "$var wire 1 ! a.req $end", "$var wire 1 # ack $end", "$upscope $end"]

/-- What the root of `dotted` declares, in its context. -/
def declaredInTop (code name : List Char) : Context × Command :=
  (⟨["TOP".toList], 0⟩, .declare 1 code name)

theorem exists_read_dotted :
    ∃ dump, read dotted = .ok dump ∧ dump.root.preorder.map Module.name = ["TOP", "TOP.a"] := by
  have hread : (read dotted).toOption.map (·.root.preorder.map Module.name) =
      some ["TOP", "TOP.a"] := by
    decide +kernel
  obtain ⟨dump, hdump, hnames⟩ := Option.map_eq_some_iff.1 hread
  exact ⟨dump, toOption_eq_some_iff.1 hdump, hnames⟩

theorem declared_in_open_scope_dotted :
    ∃ dump, read dotted = .ok dump ∧
      declaredInTop ['#'] "ack".toList ∈ script dotted ∧ ["TOP".toList] ≠ [] ∧
      '.' ∉ "ack".toList ∧ Signal.scope ⟨"TOP.ack", 1⟩ = "TOP" ∧
      ∃ g x, dump.store.lookup g = some x ∧ g.declaredIn "TOP" = true := by
  obtain ⟨dump, hdump, -⟩ := exists_read_dotted
  have hdeclared : declaredInTop ['#'] "ack".toList ∈ script dotted := by decide +kernel
  have hword : '.' ∉ "ack".toList := by decide
  have hpath : Context.path ⟨["TOP".toList], 0⟩ = "TOP" := by decide +kernel
  have hname : Context.fullName ⟨["TOP".toList], 0⟩ "ack".toList = "TOP.ack" := by decide +kernel
  obtain ⟨-, hscope, -, ⟨g, x, hg, -, -, hplaced⟩, -⟩ :=
    declared_in_open_scope hdump hdeclared (List.cons_ne_nil _ _)
  rw [hname, hpath] at hscope
  rw [hpath] at hplaced
  exact ⟨dump, hdump, hdeclared, List.cons_ne_nil _ _, hword, hscope.2 hword, g, x, hg,
    hplaced hword⟩

/-- The wire `a.req` is declared in `TOP` and placed in its child `TOP.a`, which declares nothing. -/
theorem dotted_word_misplaced :
    (∃ dump, read dotted = .ok dump ∧ dump.root.preorder.map Module.name = ["TOP", "TOP.a"] ∧
      ∃ g x, dump.store.lookup g = some x ∧ ⟨"TOP.a.req", 1⟩ ∈ g ∧
        g.declaredIn "TOP" = false ∧ g.declaredIn "TOP.a" = true) ∧
    declaredInTop ['!'] "a.req".toList ∈ script dotted ∧
    Context.path ⟨["TOP".toList], 0⟩ = "TOP" ∧
    Context.fullName ⟨["TOP".toList], 0⟩ "a.req".toList = "TOP.a.req" ∧
    Signal.scope ⟨"TOP.a.req", 1⟩ = "TOP.a" := by
  have hread : (read dotted).toOption.map (fun dump =>
      (dump.root.preorder.map Module.name, dump.store.lookup (.ofList [⟨"TOP.a.req", 1⟩]))) =
        some (["TOP", "TOP.a"], some ∅) := by
    decide +kernel
  obtain ⟨dump, hdump, hfields⟩ := Option.map_eq_some_iff.1 hread
  obtain ⟨hnames, hstored⟩ := Prod.mk.inj hfields
  exact ⟨⟨dump, toOption_eq_some_iff.1 hdump, hnames, _, _, hstored, by decide +kernel,
    by decide +kernel, by decide +kernel⟩, by decide +kernel, by decide +kernel, by decide +kernel,
    by decide +kernel⟩

end Waveform

end TraceMining
