import TraceMining.Mining
import TraceMining.Proofs.Outcome

/-!
# What mining finds

The findings of a module are exactly the properties of its wires that reach the least support
(`lookup_mineModule_iff`). The findings of several modules overwrite each other without harm, since
what is stored for a property depends on its wires alone and not on the module
(`lookup_mineModules_iff`). So a property is found in a design if and only if some module proposes
it, however many modules do and in whatever order they are visited (`mine_exact`).
-/

namespace TraceMining

/-- Some module of the design has a signal of each wire directly in it. -/
def DeclaredTogether (root : Module) (a b : AliasGroup) : Prop :=
  ∃ m ∈ root.preorder, a.declaredIn m.name = true ∧ b.declaredIn m.name = true

/-- The findings of some modules, visited in the given order. -/
def mineModules (prepared : Prepared) (settings : Settings) (modules : List Module) : Findings :=
  modules.foldl (fun f m => f.insertAll (mineModule m prepared settings).entries) ∅

theorem mine_eq_mineModules (prepared : Prepared) (settings : Settings) :
    mine prepared settings = mineModules prepared settings prepared.root.walk := rfl

/-! ## One module -/

theorem mem_moduleWires {m : Module} {store : Store} {e : AliasGroup × DeltaTrace} :
    e ∈ moduleWires m store ↔ store.lookup e.1 = some e.2 ∧ e.1.declaredIn m.name = true := by
  rw [moduleWires, List.mem_filter, OrderedMap.mem_entries_iff]

theorem examine_eq_some_iff {period : Time} {minSupport : Nat} {a b : AliasGroup × DeltaTrace}
    {p : Pattern} {q : Property} {stats : Stats} :
    examine period minSupport a b p = some (q, stats) ↔
      minSupport ≤ (p.check a.2 b.2 period).stats.support ∧
        q = ⟨p, a.1, b.1⟩ ∧ stats = (p.check a.2 b.2 period).stats := by
  simp only [examine, Option.ite_none_right_eq_some, Option.some.injEq, Prod.mk.injEq]
  constructor
  · rintro ⟨hs, rfl, rfl⟩
    exact ⟨hs, rfl, rfl⟩
  · rintro ⟨hs, rfl, rfl⟩
    exact ⟨hs, rfl, rfl⟩

theorem Pattern.mem_all (p : Pattern) : p ∈ Pattern.all := by
  cases p <;> decide

/-- What the module `m` contributes: a property of two different wires that it declares, with the
support that is asked for. -/
def Contributes (prepared : Prepared) (settings : Settings) (m : Module) (q : Property)
    (stats : Stats) : Prop :=
  q.a ≠ q.b ∧ q.a.declaredIn m.name = true ∧ q.b.declaredIn m.name = true ∧
    ∃ o, q.outcome? prepared = some o ∧ settings.minSupport ≤ o.stats.support ∧ o.stats = stats

variable {prepared : Prepared} {settings : Settings} {q : Property} {stats : Stats}

theorem Contributes.stats_eq {m m' : Module} {stats' : Stats}
    (h : Contributes prepared settings m q stats) (h' : Contributes prepared settings m' q stats') :
    stats = stats' := by
  obtain ⟨-, -, -, o, ho, -, rfl⟩ := h
  obtain ⟨-, -, -, o', ho', -, rfl⟩ := h'
  rw [ho] at ho'
  cases ho'
  rfl

theorem mem_moduleFindings {m : Module} :
    (q, stats) ∈ ((moduleWires m prepared.store).flatMap fun a =>
      ((moduleWires m prepared.store).filter fun b => a.1 != b.1).flatMap fun b =>
        Pattern.all.filterMap (examine prepared.period settings.minSupport a b)) ↔
      Contributes prepared settings m q stats := by
  simp only [List.mem_flatMap, List.mem_filter, List.mem_filterMap, mem_moduleWires, bne_iff_ne,
    examine_eq_some_iff]
  constructor
  · rintro ⟨a, ⟨ha, hma⟩, b, ⟨⟨hb, hmb⟩, hne⟩, p, -, hs, rfl, rfl⟩
    exact ⟨hne, hma, hmb, _, Property.outcome?_eq_some_iff.2 ⟨_, _, ha, hb, rfl⟩, hs, rfl⟩
  · rintro ⟨hne, hma, hmb, o, ho, hs, rfl⟩
    obtain ⟨a, b, ha, hb, rfl⟩ := Property.outcome?_eq_some_iff.1 ho
    exact ⟨(q.a, a), ⟨ha, hma⟩, (q.b, b), ⟨⟨hb, hmb⟩, hne⟩, q.pattern, Pattern.mem_all _, hs, rfl,
      rfl⟩

theorem lookup_mineModule_iff {m : Module} :
    (mineModule m prepared settings).lookup q = some stats ↔
      Contributes prepared settings m q stats := by
  have hone : OneValued ((moduleWires m prepared.store).flatMap fun a =>
      ((moduleWires m prepared.store).filter fun b => a.1 != b.1).flatMap fun b =>
        Pattern.all.filterMap (examine prepared.period settings.minSupport a b)) :=
    fun _ _ _ h h' => (mem_moduleFindings.1 h).stats_eq (mem_moduleFindings.1 h')
  rw [mineModule, OrderedMap.lookup_ofList_iff hone, mem_moduleFindings]

/-! ## All modules -/

/-- The maps of the modules, stored one over the other, are the map of all their entries. -/
theorem mineModules_eq_ofList (prepared : Prepared) (settings : Settings) (modules : List Module) :
    mineModules prepared settings modules =
      .ofList (modules.flatMap fun m => (mineModule m prepared settings).entries) := by
  rw [mineModules, OrderedMap.ofList, OrderedMap.insertAll, List.foldl_flatMap]
  rfl

theorem mem_flatMap_mineModule {modules : List Module} :
    (q, stats) ∈ (modules.flatMap fun m => (mineModule m prepared settings).entries) ↔
      ∃ m ∈ modules, Contributes prepared settings m q stats := by
  simp only [List.mem_flatMap, OrderedMap.mem_entries_iff, lookup_mineModule_iff]

theorem lookup_mineModules_iff {modules : List Module} :
    (mineModules prepared settings modules).lookup q = some stats ↔
      ∃ m ∈ modules, Contributes prepared settings m q stats := by
  rw [mineModules_eq_ofList, OrderedMap.lookup_ofList_iff, mem_flatMap_mineModule]
  intro _ _ _ h h'
  obtain ⟨m, -, hm⟩ := mem_flatMap_mineModule.1 h
  obtain ⟨m', -, hm'⟩ := mem_flatMap_mineModule.1 h'
  exact hm.stats_eq hm'

/-- Only the names of the modules that are visited matter. -/
theorem mineModules_congr {modules modules' : List Module}
    (h : ∀ name, name ∈ modules.map Module.name ↔ name ∈ modules'.map Module.name) :
    mineModules prepared settings modules = mineModules prepared settings modules' := by
  have half : ∀ {ms ns : List Module},
      (∀ name, name ∈ ms.map Module.name → name ∈ ns.map Module.name) → ∀ {q stats},
        (∃ m ∈ ms, Contributes prepared settings m q stats) →
          ∃ n ∈ ns, Contributes prepared settings n q stats := by
    rintro ms ns hsub q stats ⟨m, hm, hc⟩
    obtain ⟨n, hn, hname⟩ := List.mem_map.1 (hsub _ (List.mem_map_of_mem hm))
    refine ⟨n, hn, ?_⟩
    unfold Contributes at hc ⊢
    rw [hname]
    exact hc
  refine OrderedMap.ext_lookup fun q => Option.ext fun stats => ?_
  rw [lookup_mineModules_iff, lookup_mineModules_iff]
  exact ⟨half fun name => (h name).1, half fun name => (h name).2⟩

theorem lookup_mine_iff :
    (mine prepared settings).lookup q = some stats ↔
      q.a ≠ q.b ∧ DeclaredTogether prepared.root q.a q.b ∧
        ∃ o, q.outcome? prepared = some o ∧ settings.minSupport ≤ o.stats.support ∧
          o.stats = stats := by
  rw [mine_eq_mineModules, lookup_mineModules_iff, Module.walk_eq_preorder]
  constructor
  · rintro ⟨m, hm, hne, ha, hb, ho⟩
    exact ⟨hne, ⟨m, hm, ha, hb⟩, ho⟩
  · rintro ⟨hne, ⟨m, hm, ha, hb⟩, ho⟩
    exact ⟨m, hm, hne, ha, hb, ho⟩

/-- **What mining finds.** A property is found exactly if its wires are two different wires of the
simulation, some module has a signal of each directly in it, and the run of its pattern on them
reaches the least support; what is stored is the evidence of that run. It is stored once, and
visiting any modules with the same names, in any order and any number of times, finds the same. -/
theorem mine_exact (prepared : Prepared) (settings : Settings) :
    (∀ (p : Pattern) (a b : AliasGroup) (stats : Stats),
      (mine prepared settings).lookup ⟨p, a, b⟩ = some stats ↔
        a ≠ b ∧ DeclaredTogether prepared.root a b ∧
          ∃ x y, prepared.store.lookup a = some x ∧ prepared.store.lookup b = some y ∧
            settings.minSupport ≤ (p.check x y prepared.period).stats.support ∧
            stats = (p.check x y prepared.period).stats) ∧
    (mine prepared settings).keys.Nodup ∧
    ∀ modules : List Module,
      (∀ name, name ∈ modules.map Module.name ↔ name ∈ prepared.root.walk.map Module.name) →
        mineModules prepared settings modules = mine prepared settings := by
  refine ⟨fun p a b stats => ?_, OrderedMap.nodup_keys _, fun modules h => mineModules_congr h⟩
  rw [lookup_mine_iff]
  constructor
  · rintro ⟨hne, ht, o, ho, hs, rfl⟩
    obtain ⟨x, y, hx, hy, rfl⟩ := Property.outcome?_eq_some_iff.1 ho
    exact ⟨hne, ht, x, y, hx, hy, hs, rfl⟩
  · rintro ⟨hne, ht, x, y, hx, hy, hs, rfl⟩
    exact ⟨hne, ht, _, Property.outcome?_eq_some_iff.2 ⟨x, y, hx, hy, rfl⟩, hs, rfl⟩

def pingWire : AliasGroup := .ofList [⟨"TOP.ping", 1⟩, ⟨"TOP.core.ping", 1⟩]

def pongWire : AliasGroup := .ofList [⟨"TOP.pong", 1⟩, ⟨"TOP.core.pong", 1⟩]

/-- Two wires that a module and its child both declare. -/
def nested : Prepared where
  root := .mk "TOP" [.mk "TOP.core" []]
  store := .ofList [(pingWire, .ofList [(15, 1)]), (pongWire, .ofList [(25, 1)])]
  clock := .ofList [⟨"TOP.clock", 1⟩]
  period := 10

theorem mine_exact_nested :
    (∀ name, name ∈ ["TOP.core", "TOP", "TOP"] ↔ name ∈ nested.root.walk.map Module.name) ∧
    mineModules nested .default [.mk "TOP.core" [], .mk "TOP" [], .mk "TOP" []] =
      mine nested .default ∧
    (mine nested .default).lookup ⟨.next, pingWire, pongWire⟩ = some ⟨1, true, false⟩ ∧
    DeclaredTogether nested.root pingWire pongWire := by
  have hwalk : nested.root.walk.map Module.name = ["TOP", "TOP.core"] := by decide +kernel
  have hnames : ∀ name, name ∈ ["TOP.core", "TOP", "TOP"] ↔
      name ∈ nested.root.walk.map Module.name := by
    intro name
    rw [hwalk]
    simp [or_comm]
  have hfound : (mine nested .default).lookup ⟨.next, pingWire, pongWire⟩ =
      some ⟨1, true, false⟩ := by
    decide +kernel
  obtain ⟨hexact, -, hvisits⟩ := mine_exact nested .default
  obtain ⟨-, htogether, -⟩ := (hexact _ _ _ _).1 hfound
  exact ⟨hnames, hvisits _ hnames, hfound, htogether⟩

end TraceMining
