import TraceMining.Proofs.Hierarchy
import TraceMining.Proofs.Waveform.Scopes

/-!
# The tree of the scopes

The scopes of a text are numbered in the order in which they are entered. The open ones among them
are told by these numbers (`Nesting`), so for every scope it is known which scope was the innermost
open one when it was entered (`enclosing`). A module gets its children only when they are left, but
the open scopes and the finished modules, each in its place, are at every moment those of the
commands that were read (`Progress.Nested`): leaving a scope moves its module and keeps all places.
So the tree of an accepted text has one module for each scope, and the children of a module are the
modules of the scopes that were entered directly in its own (`walk_mirrors_scopes`).
-/

namespace TraceMining.Waveform

/-! ## Nested scopes -/

/-- The scopes that were entered, numbered in their order from 0 on. -/
structure Nesting where
  /-- How many were entered. -/
  entered : Nat
  /-- The open ones, the innermost first. -/
  opened : List Nat

namespace Nesting

/-- Before the first command. -/
def start : Nesting := ⟨0, []⟩

/-- The nesting behind a command. -/
def behind (n : Nesting) : Command → Nesting
  | .openScope _ _ => ⟨n.entered + 1, n.entered :: n.opened⟩
  | .closeScope => { n with opened := n.opened.tail }
  | _ => n

end Nesting

/-- The nesting behind all the commands. -/
def nestingAfter (cs : List Command) : Nesting := cs.foldl Nesting.behind .start

/-- For every scope that is entered, the innermost open scope around it, if there is one. -/
def enclosingFrom (n : Nesting) : List Command → List (Option Nat)
  | [] => []
  | c :: cs => (if c.entersScope then [n.opened.head?] else []) ++ enclosingFrom (n.behind c) cs

/-- For every scope that the commands enter, in their order, the innermost open scope around it. -/
def enclosing (cs : List Command) : List (Option Nat) := enclosingFrom .start cs

theorem nestingAfter_concat (cs : List Command) (c : Command) :
    nestingAfter (cs ++ [c]) = (nestingAfter cs).behind c := by
  unfold nestingAfter
  rw [List.foldl_append, List.foldl_cons, List.foldl_nil]

theorem enclosing_concat (cs : List Command) (c : Command) :
    enclosing (cs ++ [c]) =
      enclosing cs ++ if c.entersScope then [(nestingAfter cs).opened.head?] else [] := by
  have hfrom : ∀ n : Nesting, enclosingFrom n (cs ++ [c]) = enclosingFrom n cs ++
      if c.entersScope then [(cs.foldl Nesting.behind n).opened.head?] else [] := by
    induction cs with
    | nil => exact fun n => List.append_nil _
    | cons d cs ih =>
      intro n
      rw [List.cons_append, enclosingFrom, ih, enclosingFrom, List.append_assoc]
      rfl
  exact hfrom .start

theorem length_enclosing (cs : List Command) :
    (enclosing cs).length = cs.countP Command.entersScope := by
  have hfrom : ∀ n : Nesting, (enclosingFrom n cs).length = cs.countP Command.entersScope := by
    induction cs with
    | nil => exact fun _ => rfl
    | cons c cs ih =>
      intro n
      rw [enclosingFrom, List.length_append, ih, List.countP_cons]
      split
      · exact Nat.add_comm _ _
      · exact Nat.zero_add _
  exact hfrom .start

/-! ## The places of what was read -/

open TraceMining.Module

namespace Progress

/-- How many modules were begun, `base` being the number of those in front of the open scopes. -/
def begun (base : Nat) : List OpenScope → Nat
  | [] => base
  | scope :: outer => begun base outer + 1 + size.sizes scope.finished

/-- The places of the open scopes, the innermost first. -/
def places (base : Nat) : List OpenScope → List Nat
  | [] => []
  | _ :: outer => begun base outer :: places base outer

/-- For every module that was begun in some open scopes, the place of the module around it. -/
def around (base : Nat) : List OpenScope → List (Option Nat)
  | [] => []
  | scope :: outer => around base outer ++ (places base outer).head? ::
      (placed.inner (some (begun base outer)) (begun base outer + 1) scope.finished).map (·.2)

/-- For some finished modules and the modules inside them, the place of the module around. -/
def aroundFinished (roots : List Module) : List (Option Nat) :=
  (placed.inner none 0 roots).map (·.2)

theorem inner_concat (around : Option Nat) (place : Nat) (ms : List Module) (m : Module) :
    placed.inner around place (ms ++ [m]) =
      placed.inner around place ms ++ m.placed around (place + size.sizes ms) := by
  induction ms generalizing place with
  | nil => simp [placed.inner, size.sizes]
  | cons k ms ih =>
    rw [List.cons_append, placed.inner, ih, placed.inner, List.append_assoc, size.sizes,
      Nat.add_assoc]

theorem sizes_concat (ms : List Module) (name : String) (children : List Module) :
    size.sizes (ms ++ [.mk name children]) = size.sizes ms + 1 + size.sizes children := by
  rw [sizes_append, size.sizes, size, size.sizes]
  omega

/-- The two ways to leave a scope: the outermost one becomes a root, any other one a child. -/
theorem closeScope_cases {p q : Progress} (h : p.closeScope = .ok q) :
    (∃ scope, p.scopes = [scope] ∧ q.scopes = [] ∧
      q.roots = p.roots ++ [.mk (path p.scopes) scope.finished]) ∨
    (∃ scope parent rest, p.scopes = scope :: parent :: rest ∧ q.roots = p.roots ∧
      q.scopes = { parent with
        finished := parent.finished ++ [.mk (path p.scopes) scope.finished] } :: rest) := by
  unfold closeScope at h
  split at h
  · cases h
  · rename_i scope outer hscopes
    simp only at h
    split at h
    · cases h
      exact .inl ⟨scope, hscopes, rfl, rfl⟩
    · rename_i parent rest
      cases h
      exact .inr ⟨scope, parent, rest, hscopes, rfl, rfl⟩

/-- What was read is nested as the commands say. -/
structure Nested (cs : List Command) (p : Progress) : Prop where
  entered : begun (size.sizes p.roots) p.scopes = (nestingAfter cs).entered
  opened : places (size.sizes p.roots) p.scopes = (nestingAfter cs).opened
  enclosing : aroundFinished p.roots ++ around (size.sizes p.roots) p.scopes = enclosing cs

theorem Nested.start : Nested [] .start := ⟨rfl, rfl, rfl⟩

variable {cs : List Command} {p q : Progress}

/-- Leaving a scope keeps all places. -/
theorem places_of_closeScope (h : p.closeScope = .ok q) :
    begun (size.sizes q.roots) q.scopes = begun (size.sizes p.roots) p.scopes ∧
    places (size.sizes q.roots) q.scopes = (places (size.sizes p.roots) p.scopes).tail ∧
    aroundFinished q.roots ++ around (size.sizes q.roots) q.scopes =
      aroundFinished p.roots ++ around (size.sizes p.roots) p.scopes := by
  rcases closeScope_cases h with ⟨scope, hp, hq, hroots⟩ | ⟨scope, parent, rest, hp, hroots, hq⟩
  · rw [hq, hroots, hp]
    refine ⟨sizes_concat _ _ _, rfl, ?_⟩
    simp only [aroundFinished, inner_concat, placed, around, begun, places, List.map_append,
      List.map_cons, Nat.zero_add, List.head?_nil, List.nil_append, List.append_nil]
  · rw [hq, hroots, hp]
    refine ⟨?_, rfl, ?_⟩
    · simp only [begun, sizes_concat]
      omega
    · simp only [around, inner_concat, placed, places, begun, List.map_append, List.map_cons,
        List.head?_cons, List.append_assoc, List.cons_append]

theorem Nested.of_unchanged {c : Command} (h : Nested cs p) (hscopes : q.scopes = p.scopes)
    (hroots : q.roots = p.roots) (hc : (nestingAfter cs).behind c = nestingAfter cs)
    (henters : c.entersScope = false) : Nested (cs ++ [c]) q := by
  refine ⟨?_, ?_, ?_⟩
  · rw [hscopes, hroots, nestingAfter_concat, hc, h.entered]
  · rw [hscopes, hroots, nestingAfter_concat, hc, h.opened]
  · rw [hscopes, hroots, enclosing_concat, henters, h.enclosing]
    exact (List.append_nil _).symm

theorem Nested.obey {c : Command} (h : Nested cs p) (hq : p.obey c = .ok q) :
    Nested (cs ++ [c]) q := by
  cases c with
  | openScope kind name =>
    cases hq
    refine ⟨?_, ?_, ?_⟩
    · rw [nestingAfter_concat]
      exact congrArg (· + 1) h.entered
    · rw [nestingAfter_concat, Nesting.behind, ← h.opened, ← h.entered]
      rfl
    · rw [enclosing_concat, ← h.enclosing, ← h.opened, List.append_assoc]
      rfl
  | closeScope =>
    obtain ⟨hbegun, hplaces, haround⟩ := places_of_closeScope hq
    refine ⟨?_, ?_, ?_⟩
    · rw [hbegun, h.entered, nestingAfter_concat]
      rfl
    · rw [hplaces, h.opened, nestingAfter_concat]
      rfl
    · rw [haround, h.enclosing, enclosing_concat]
      exact (List.append_nil _).symm
  | declare width code name =>
    obtain ⟨-, rfl⟩ := declare_eq_ok_iff.1 hq
    exact h.of_unchanged rfl rfl rfl rfl
  | scalar bit code =>
    obtain ⟨w, -, rfl⟩ := change_eq_ok_iff.1 hq
    exact h.of_unchanged rfl rfl rfl rfl
  | vector bits code =>
    obtain ⟨-, w, -, rfl⟩ := obey_vector_eq_ok_iff.1 hq
    exact h.of_unchanged rfl rfl rfl rfl
  | header keyword text closed =>
    cases hq
    cases closed <;> exact h.of_unchanged rfl rfl rfl rfl
  | endDefinitions | marker | timestamp time | real code =>
    cases hq
    exact h.of_unchanged rfl rfl rfl rfl

theorem Nested.extend (h : Nested cs p) (s : Section) (piece : List Char) (closed : Bool) :
    Nested cs (p.extend s piece closed) := by
  cases closed <;> exact ⟨h.entered, h.opened, h.enclosing⟩

end Progress

/-! ## The tree of an accepted text -/

variable {text : List Char} {dump : Dump}

/-- The modules of an accepted text stand in the modules of the scopes around them. -/
theorem map_snd_placed_of_read [CodeOrder] (h : read text = .ok dump) :
    (dump.root.placed none 0).map (·.2) = enclosing (commands text) := by
  obtain ⟨p, hp, -, hfinish⟩ := exists_progress_of_read Progress.Nested .start
    (fun hp _ hq => hp.obey hq) (fun hp => hp.extend _ _ _) h
  obtain ⟨hscopes, hroots, -⟩ := Progress.of_finish_eq_ok hfinish
  rw [← hp.enclosing, hscopes, hroots]
  simp [Progress.aroundFinished, Progress.around, placed.inner]

theorem zip_enclosing_of_read [CodeOrder] (h : read text = .ok dump) :
    dump.root.walk.zip (enclosing (commands text)) = dump.root.placed none 0 := by
  rw [walk_eq_preorder, ← map_fst_placed none 0, ← map_snd_placed_of_read h]
  have hzip := List.zip_unzip (dump.root.placed none 0)
  rwa [List.unzip_fst, List.unzip_snd] at hzip

theorem length_walk_of_read [CodeOrder] (h : read text = .ok dump) :
    dump.root.walk.length = (commands text).countP Command.entersScope := by
  rw [← length_enclosing, ← map_snd_placed_of_read h, List.length_map, length_placed,
    walk_eq_preorder, length_preorder]

/-- **The tree of an accepted text is that of its scopes.** Visiting the tree meets one module for
every scope that is entered, in the order in which they are entered, and its name joins the names of
the scopes that are open behind the command that enters it. The children of a module are, in their
order, the modules of the scopes that were entered while its own scope was the innermost open
one. -/
theorem walk_mirrors_scopes [CodeOrder] (h : read text = .ok dump) :
    dump.root.walk.length = (commands text).countP Command.entersScope ∧
    dump.root.walk.map Module.name = enteredPaths (commands text) ∧
    ∀ (i : Nat) (m : Module), dump.root.walk[i]? = some m →
      m.children = ((dump.root.walk.zip (enclosing (commands text))).filter
        fun e => e.2 = some i).map (·.1) := by
  refine ⟨length_walk_of_read h, ?_, fun i m hm => ?_⟩
  · rw [walk_eq_preorder]
    exact names_preorder_of_read h
  · rw [walk_eq_preorder, ← map_fst_placed none 0, List.getElem?_map,
      Option.map_eq_some_iff] at hm
    obtain ⟨e, he, rfl⟩ := hm
    have hfront : InFront none 0 := fun a ha => by cases ha
    have hchildren := childrenAt_placed hfront dump.root he
    rw [zip_enclosing_of_read h, ← hchildren, Nat.zero_add]
    rfl

/-- Scopes of one name next to each other and one in the other, and a scope in a comment. -/
def namesakes : List Char :=
  ofLines ["$scope module TOP $end", "$var wire 1 ! clk $end", "$scope module a $end",
    "$upscope $end", "$scope begin b $end", "$scope module a $end", "$upscope $end", "$comment",
    "$scope module c $end", "$end", "$upscope $end", "$scope module a $end", "$upscope $end",
    "$upscope $end"]

theorem walk_mirrors_scopes_namesakes :
    ∃ dump, read namesakes = .ok dump ∧ dump.root.walk.length = 5 ∧
      dump.root.walk.map Module.name = ["TOP", "TOP.a", "TOP.b", "TOP.b.a", "TOP.a"] ∧
      dump.root.children = ((dump.root.walk.zip [none, some 0, some 0, some 2, some 0]).filter
        fun e => e.2 = some 0).map (·.1) := by
  have haccepted : (read namesakes).toOption.isSome = true := by decide +kernel
  obtain ⟨dump, hsome⟩ := Option.isSome_iff_exists.1 haccepted
  have hdump := toOption_eq_some_iff.1 hsome
  have hcount : (commands namesakes).countP Command.entersScope = 5 := by decide +kernel
  have hpaths : enteredPaths (commands namesakes) =
      ["TOP", "TOP.a", "TOP.b", "TOP.b.a", "TOP.a"] := by
    decide +kernel
  have henclosing : enclosing (commands namesakes) = [none, some 0, some 0, some 2, some 0] := by
    decide +kernel
  have hroot : dump.root.walk[0]? = some dump.root := by
    rw [walk_eq_preorder]
    cases dump.root
    rfl
  obtain ⟨hlength, hnames, hchildren⟩ := walk_mirrors_scopes hdump
  rw [hcount] at hlength
  rw [hpaths] at hnames
  have hinside := hchildren 0 dump.root hroot
  rw [henclosing] at hinside
  exact ⟨dump, hdump, hlength, hnames, hinside⟩

end TraceMining.Waveform
