import TraceMining.Proofs.Interleaving
import TraceMining.Proofs.Mining
import TraceMining.Proofs.Preparation
import TraceMining.Proofs.Rescaling.Preparation
import TraceMining.Proofs.Run
import TraceMining.Proofs.Validation

/-!
# Mining and validation in a finer unit of time

The machines never see more of a time than its order and its distance to another one. So a run in a
unit of time that is `k` times finer makes the same moves, and meets a violation `k` times as late
(`Pattern.check_scale`). Mining finds the same (`mine_scale`), and validation reports the same
violations in the same order, with their times in the finer unit (`validate_scale`).
-/

namespace TraceMining

open Waveform (Dump)

/-! ## Co-occurrences -/

def Cooccurrence.scale (k : ℕ+) : Cooccurrence → Cooccurrence
  | left x => .left (scaleEvent k x)
  | right y => .right (scaleEvent k y)
  | both x y => .both (scaleEvent k x) (scaleEvent k y)

@[simp] theorem Cooccurrence.side_scale (k : ℕ+) (c : Cooccurrence) :
    (c.scale k).side = c.side := by
  cases c <;> rfl

@[simp] theorem Cooccurrence.time_scale (k : ℕ+) (c : Cooccurrence) :
    (c.scale k).time = scaleTime k c.time := by
  cases c <;> rfl

namespace Interleaving

def scale (k : ℕ+) (m : Interleaving) : Interleaving :=
  ⟨m.left.map (scaleEvent k), m.right.map (scaleEvent k)⟩

theorem next?_scale (k : ℕ+) (m : Interleaving) :
    (m.scale k).next? = m.next?.map (Prod.map (Cooccurrence.scale k) (scale k)) := by
  obtain ⟨as, bs⟩ := m
  rcases as with _ | ⟨⟨s, v⟩, as⟩ <;> rcases bs with _ | ⟨⟨t, w⟩, bs⟩
  · rfl
  · rfl
  · rfl
  · simp only [scale, List.map_cons, scaleEvent_mk, next?, scaleTime_lt_iff]
    split
    · rfl
    split <;> rfl

theorem toList_scale (k : ℕ+) (m : Interleaving) :
    (m.scale k).toList = m.toList.map (Cooccurrence.scale k) := by
  induction m using toList.induct with
  | case1 m h =>
    have hscaled : (m.scale k).next? = none := by rw [next?_scale, h, Option.map_none]
    rw [toList_of_none hscaled, toList_of_none h, List.map_nil]
  | case2 m c n h _ ih =>
    have hscaled : (m.scale k).next? = some (c.scale k, n.scale k) := by
      rw [next?_scale, h]
      rfl
    rw [toList_of_some hscaled, toList_of_some h, List.map_cons, ih]

end Interleaving

theorem cooccurrences_scale (k : ℕ+) (a b : DeltaTrace) :
    cooccurrences (a.scale k) (b.scale k) = (cooccurrences a b).map (Cooccurrence.scale k) :=
  Interleaving.toList_scale k ⟨a.entries, b.entries⟩

/-! ## Runs -/

def Reaction.map {σ τ : Type} (f : σ → τ) : Reaction σ → Reaction τ
  | violation => .violation
  | move state completed opened => .move (f state) completed opened

def Outcome.scale (k : ℕ+) (o : Outcome) : Outcome :=
  { o with falsifiedAt := o.falsifiedAt.map (scaleTime k) }

namespace Run

variable {σ τ : Type}

/-- A run in a finer unit of time; `f` translates the states of the machine. -/
def scale (k : ℕ+) (f : σ → τ) (r : Run σ) : Run τ := ⟨f r.state, r.outcome.scale k⟩

theorem isHalted_scale (k : ℕ+) (f : σ → τ) (r : Run σ) :
    (r.scale k f).isHalted = r.isHalted := by
  rw [isHalted, isHalted, scale, Outcome.scale, Option.isSome_map]

variable {k : ℕ+} {m : Machine σ} {n : Machine τ} {f : σ → τ}

theorem step_scale
    (h : ∀ s side t, n.react (f s) side (scaleTime k t) = (m.react s side t).map f) (r : Run σ)
    (c : Cooccurrence) : (r.scale k f).step n (c.scale k) = (r.step m c).scale k f := by
  have hreact : n.react (f r.state) (c.scale k).side (c.scale k).time =
      (m.react r.state c.side c.time).map f := by
    rw [Cooccurrence.side_scale, Cooccurrence.time_scale, h]
  have hhalted := isHalted_scale k f r
  rcases step_cases m r c with ⟨hr, hstep⟩ | ⟨hr, hviolation, hstep⟩ |
    ⟨hr, s, completed, opened, hmove, hstep⟩
  · rw [hstep, step_of_halted (hhalted.trans hr)]
  · rw [hstep, step_of_violation (hhalted.trans hr)]
    · simp only [Cooccurrence.time_scale]
      rfl
    · rw [hviolation] at hreact
      exact hreact
  · rw [hstep, step_of_move (hhalted.trans hr)]
    · rfl
    · rw [hmove] at hreact
      exact hreact

theorem steps_scale
    (h : ∀ s side t, n.react (f s) side (scaleTime k t) = (m.react s side t).map f) (r : Run σ)
    (cs : List Cooccurrence) :
    (r.scale k f).steps n (cs.map (Cooccurrence.scale k)) = (r.steps m cs).scale k f := by
  induction cs generalizing r with
  | nil => rfl
  | cons c cs ih => rw [List.map_cons, steps_cons, steps_cons, step_scale h, ih]

end Run

def Succession.scale (k : ℕ+) : Succession → Succession
  | idle => .idle
  | armed since => .armed (scaleTime k since)

namespace Pattern

/-- The state of a pattern's machine in a finer unit of time. -/
def scaleState (k : ℕ+) : (p : Pattern) → p.State → p.State
  | alternating => id
  | next => Succession.scale k
  | holdUntil => id
  | eventual => id

theorem react_scale (k : ℕ+) (p : Pattern) (period : Time) (s : p.State) (side : Side) (t : Time) :
    (p.machine (scaleTime k period)).react (p.scaleState k s) side (scaleTime k t) =
      ((p.machine period).react s side t).map (p.scaleState k) := by
  cases p with
  | next =>
    change Succession.react (scaleTime k period) (Succession.scale k s) side (scaleTime k t) =
      (Succession.react period s side t).map (Succession.scale k)
    cases s with
    | idle => cases side <;> rfl
    | armed since =>
      cases side with
      | a => rfl
      | both => rfl
      | b =>
        simp only [Succession.scale, Succession.react, ← scaleTime_sub, scaleTime_inj]
        split <;> rfl
  | alternating | holdUntil | eventual => cases s <;> cases side <;> rfl

theorem report_scale (k : ℕ+) (p : Pattern) (o : Outcome) :
    p.report (o.scale k) = (p.report o).scale k := by
  unfold report
  split <;> rfl

theorem run_scale (k : ℕ+) (p : Pattern) (a b : DeltaTrace) (period : Time) :
    p.run (a.scale k) (b.scale k) (scaleTime k period) =
      (p.run a b period).scale k (p.scaleState k) := by
  have hstart : Run.start (p.machine (scaleTime k period)) =
      (Run.start (p.machine period)).scale k (p.scaleState k) := by
    cases p <;> rfl
  rw [run, run, cooccurrences_scale, hstart]
  exact Run.steps_scale (react_scale k p period) _ _

theorem check_scale (k : ℕ+) (p : Pattern) (a b : DeltaTrace) (period : Time) :
    p.check (a.scale k) (b.scale k) (scaleTime k period) = (p.check a b period).scale k := by
  by_cases h : p = .alternating ∧ a = b
  · rw [check, check, if_pos h, if_pos ⟨h.1, (Trace.scale_inj k).2 h.2⟩, Trace.first?_scale,
      Outcome.scale, Option.map_map, Option.map_map]
    rfl
  · have hscaled : ¬(p = .alternating ∧ a.scale k = b.scale k) := by rwa [Trace.scale_inj]
    rw [check_eq_report_run h, check_eq_report_run hscaled, run_scale]
    exact report_scale k p _

end Pattern

/-! ## Mining -/

theorem Property.outcome?_scale (k : ℕ+) (q : Property) (prepared : Prepared) :
    q.outcome? (prepared.scale k) = (q.outcome? prepared).map (Outcome.scale k) := by
  unfold outcome? Prepared.scale
  simp only [Store.lookup_scale]
  cases prepared.store.lookup q.a with
  | none => rfl
  | some a =>
    cases prepared.store.lookup q.b with
    | none => rfl
    | some b => exact congrArg some (Pattern.check_scale k q.pattern a b prepared.period)

theorem mine_scale (k : ℕ+) (prepared : Prepared) (settings : Settings) :
    mine (prepared.scale k) (settings.scale k) = mine prepared settings := by
  refine OrderedMap.ext_lookup fun q => Option.ext fun stats => ?_
  rw [lookup_mine_iff, lookup_mine_iff, Property.outcome?_scale]
  constructor
  · rintro ⟨hne, ht, o, ho, hs, rfl⟩
    obtain ⟨o', ho', rfl⟩ := Option.map_eq_some_iff.1 ho
    exact ⟨hne, ht, o', ho', hs, rfl⟩
  · rintro ⟨hne, ht, o, ho, hs, rfl⟩
    exact ⟨hne, ht, o.scale k, Option.map_eq_some_iff.2 ⟨o, ho, rfl⟩, hs, rfl⟩

/-! ## Validation -/

def Verdict.scale (k : ℕ+) : Verdict → Verdict
  | held stats => .held stats
  | skipped reason => .skipped reason
  | violated time stats => .violated (scaleTime k time) stats

def Violation.scale (k : ℕ+) (v : Violation) : Violation := { v with time := scaleTime k v.time }

def Report.scale (k : ℕ+) (r : Report) : Report :=
  { r with violations := r.violations.map (Violation.scale k) }

theorem judge_scale (k : ℕ+) (q : Property) (mined : Stats) (prepared : Prepared) :
    judge q mined (prepared.scale k) = (judge q mined prepared).scale k := by
  rw [judge_eq, judge_eq, Property.outcome?_scale]
  cases q.outcome? prepared with
  | none => rfl
  | some o =>
    obtain ⟨stats, at?⟩ := o
    simp only [Option.map_some, Outcome.scale]
    split
    · rfl
    · cases at? <;> rfl

theorem Violation.before_scale (k : ℕ+) (v w : Violation) :
    (v.scale k).before (w.scale k) = v.before w := by
  unfold before scale
  rw [keepsOrder_scaleTime]

namespace Report

def scaleItem (k : ℕ+) : Item → Item
  | (q, mined, verdict) => (q, mined, verdict.scale k)

theorem violation?_scaleItem (k : ℕ+) (item : Item) :
    violation? (scaleItem k item) = (violation? item).map (Violation.scale k) := by
  obtain ⟨q, mined, verdict⟩ := item
  cases verdict <;> rfl

theorem isSkipped_scaleItem (k : ℕ+) (item : Item) :
    isSkipped (scaleItem k item) = isSkipped item := by
  obtain ⟨q, mined, verdict⟩ := item
  cases verdict <;> rfl

theorem isHeld_scaleItem (k : ℕ+) (item : Item) : isHeld (scaleItem k item) = isHeld item := by
  obtain ⟨q, mined, verdict⟩ := item
  cases verdict <;> rfl

theorem ofItems_scale (k : ℕ+) (items : List Item) :
    ofItems (items.map (scaleItem k)) = (ofItems items).scale k := by
  have hsort : ((items.filterMap violation?).map (Violation.scale k)).mergeSort Violation.before =
      ((items.filterMap violation?).mergeSort Violation.before).map (Violation.scale k) :=
    (List.map_mergeSort fun v _ w _ => (Violation.before_scale k v w).symm).symm
  have hviolations : (items.map (scaleItem k)).filterMap violation? =
      (items.filterMap violation?).map (Violation.scale k) := by
    rw [List.filterMap_map, List.map_filterMap]
    simp only [Function.comp_def, violation?_scaleItem]
  unfold ofItems scale
  rw [hviolations, hsort]
  simp only [List.countP_map, Function.comp_def, isSkipped_scaleItem, isHeld_scaleItem]

end Report

theorem validate_scale (k : ℕ+) (findings : Findings) (prepared : Prepared) :
    validate findings (prepared.scale k) = (validate findings prepared).scale k := by
  have hverdicts : verdicts findings (prepared.scale k) =
      (verdicts findings prepared).map (Report.scaleItem k) := by
    unfold verdicts
    rw [List.map_map]
    simp only [Function.comp_def, judge_scale, Report.scaleItem]
  rw [validate, hverdicts, Report.ofItems_scale]
  rfl

/-- **The unit of time does not matter.** In a unit of time that is `k` times finer, a dump fails
to be prepared for the same reason as before, or is prepared with the same wires, the period and
every event in the finer unit; mining finds exactly the same, and validation reports the same
violations in the same order, each at the same time in the finer unit. -/
theorem session_scale (k : ℕ+) (dump : Dump) (settings : Settings) :
    (∀ e, prepare dump settings = .error e →
      prepare (dump.scale k) (settings.scale k) = .error (e.scale k)) ∧
    ∀ prepared, prepare dump settings = .ok prepared →
      prepare (dump.scale k) (settings.scale k) = .ok (prepared.scale k) ∧
      (prepared.scale k).store.keys = prepared.store.keys ∧
      (prepared.scale k).period = k * prepared.period ∧
      (∀ g x, prepared.store.lookup g = some x → ∃ y, (prepared.scale k).store.lookup g = some y ∧
        y.entries = x.entries.map fun e => ((k : ℕ) * e.1, e.2)) ∧
      mine (prepared.scale k) (settings.scale k) = mine prepared settings ∧
      ∀ findings, (validate findings (prepared.scale k)).held = (validate findings prepared).held ∧
        (validate findings (prepared.scale k)).skipped = (validate findings prepared).skipped ∧
        (validate findings (prepared.scale k)).violations =
          (validate findings prepared).violations.map fun v => { v with time := (k : ℕ) * v.time } := by
  have hprepare := prepare_scale k dump settings
  constructor
  · intro e he
    rw [he] at hprepare
    exact hprepare
  · intro prepared hok
    rw [hok] at hprepare
    have hkeys : (prepared.scale k).store.keys = prepared.store.keys :=
      (OrderedMap.keys_relabel keepsOrder_id _ prepared.store).trans (List.map_id _)
    refine ⟨hprepare, hkeys, rfl, fun g x hx => ⟨x.scale k, ?_, rfl⟩, mine_scale k prepared settings,
      fun findings => ?_⟩
    · exact (Store.lookup_scale k prepared.store g).trans (by rw [hx]; rfl)
    · rw [validate_scale]
      exact ⟨rfl, rfl, rfl⟩

/-- One of the wires has no value at time 0. -/
def undriven : Dump := { ticking with store := ticking.store.insert readyWire (.ofList [(6, 1)]) }

def seenValid : Property := ⟨.next, .ofList [⟨"TOP.valid", 1⟩], .ofList [⟨"TOP.ready", 1⟩]⟩

def seenReady : Property := ⟨.next, .ofList [⟨"TOP.ready", 1⟩], .ofList [⟨"TOP.valid", 1⟩]⟩

theorem session_scale_ticking :
    prepare (undriven.scale 10) (Settings.default.scale 10) =
      .error (.sample readyWire (.missingInitialValue (some 60))) ∧
    ∃ prepared, prepare ticking .default = .ok prepared ∧
      prepare (ticking.scale 10) (Settings.default.scale 10) = .ok (prepared.scale 10) ∧
      (prepared.scale 10).period = 100 ∧
      (mine (prepared.scale 10) (Settings.default.scale 10)).lookup seenReady =
        some ⟨1, true, false⟩ ∧
      (validate (.ofList [(seenValid, ⟨1, true, false⟩)]) (prepared.scale 10)).violations =
        [⟨seenValid, 150, 1⟩] := by
  have hfailure : (match prepare undriven .default with
      | .error e => some e
      | .ok _ => none) = some (.sample readyWire (.missingInitialValue (some 6))) := by
    decide +kernel
  have hvalues : (prepare ticking .default).toOption.map (fun p =>
      (p.period, (mine p .default).lookup seenReady,
        (validate (.ofList [(seenValid, ⟨1, true, false⟩)]) p).violations)) =
      some (10, some ⟨1, true, false⟩, [⟨seenValid, 15, 1⟩]) := by
    decide +kernel
  constructor
  · split at hfailure
    · rename_i e he
      rw [(session_scale 10 undriven .default).1 e he, Option.some.inj hfailure]
      rfl
    · cases hfailure
  · obtain ⟨prepared, hp, hfields⟩ := Option.map_eq_some_iff.1 hvalues
    simp only [Prod.mk.injEq] at hfields
    obtain ⟨hperiod, hmined, hviolated⟩ := hfields
    have hp := toOption_eq_some_iff.1 hp
    obtain ⟨hok, -, hscaled, -, hsame, hreport⟩ := (session_scale 10 ticking .default).2 prepared hp
    obtain ⟨-, -, hviolations⟩ := hreport (.ofList [(seenValid, ⟨1, true, false⟩)])
    refine ⟨prepared, hp, hok, ?_, ?_, ?_⟩
    · rw [hscaled, hperiod]
      rfl
    · rw [hsame, hmined]
    · rw [hviolations, hviolated]
      rfl

end TraceMining
