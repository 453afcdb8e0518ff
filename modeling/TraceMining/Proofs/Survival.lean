import TraceMining.Proofs.Aggregation
import TraceMining.Proofs.Mining
import TraceMining.Proofs.Validation

/-!
# What survives

Mining keeps a run only if the run reaches the least support and some module declares its wires
together. A falsification that was kept is never forgotten by an aggregate
(`lookup_of_mem_surviving`), but one that was not kept leaves no trace in it. So a survivor may be
violated by a simulation it was mined from, and `violated_surviving_iff` says exactly when.
-/

namespace TraceMining

/-- A surviving property was found in some simulation and falsified by no finding. -/
theorem lookup_of_mem_surviving {all : List Findings} {q : Property} {stats : Stats}
    (h : (q, stats) ∈ (Findings.aggregate all).surviving) :
    stats.falsified = false ∧ (∃ f ∈ all, ∃ s, f.lookup q = some s) ∧
      ∀ f ∈ all, ∀ s, f.lookup q = some s → s.falsified = false := by
  obtain ⟨hl, hs⟩ := Findings.mem_surviving_iff.1 h
  have hf : stats.falsified = false := Stats.falsified_of_survives hs
  refine ⟨hf, ?_, fun f hmem s hs => ?_⟩
  · have hsome := Findings.isSome_lookup_aggregate all q
    rw [hl, Option.isSome_some] at hsome
    obtain ⟨f, hmem, hsome⟩ := List.any_eq_true.1 hsome.symm
    exact ⟨f, hmem, Option.isSome_iff_exists.1 hsome⟩
  · rw [Findings.falsified_of_lookup_aggregate hl] at hf
    have hany := List.any_eq_false.1 hf f hmem
    rw [hs] at hany
    exact Bool.eq_false_iff.2 hany

/-! ## Survivors that a mined simulation violates -/

def reqWire : AliasGroup := .ofList [⟨"TOP.req", 1⟩]

def ackWire : AliasGroup := .ofList [⟨"TOP.ack", 1⟩]

/-- A simulation of two wires, with the times and values of their changes. -/
def handshake (root : Module) (req ack : List (Time × Value)) : Prepared :=
  ⟨root, .ofList [(reqWire, .ofList req), (ackWire, .ofList ack)], .ofList [⟨"TOP.clock", 1⟩], 10⟩

/-- Every request is answered. -/
def answered : Prepared := handshake (.mk "TOP" []) [(15, 1)] [(25, 1)]

/-- The second request comes before any answer. -/
def unanswered : Prepared := handshake (.mk "TOP" []) [(15, 1), (25, 0)] [(45, 1)]

/-- The third request comes before the second answer, and no module declares both wires. -/
def apart : Prepared :=
  handshake (.mk "TOP.core" []) [(15, 1), (35, 0), (45, 1)] [(25, 1), (55, 0)]

/-- A falsification with too little support, or of wires that are not declared together, is not
kept: the property survives, and the simulations that falsified it violate it. -/
theorem survivor_violated_by_mined :
    1 ≤ Settings.default.minSupport ∧
    (⟨.holdUntil, reqWire, ackWire⟩, ⟨1, true, false⟩) ∈
      (Findings.aggregate ([unanswered, apart, answered].map (mine · .default))).surviving ∧
    judge ⟨.holdUntil, reqWire, ackWire⟩ ⟨1, true, false⟩ unanswered
      = .violated 25 ⟨0, true, true⟩ ∧
    judge ⟨.holdUntil, reqWire, ackWire⟩ ⟨1, true, false⟩ apart = .violated 45 ⟨1, true, true⟩ :=
  ⟨Nat.le_refl 1, Findings.mem_surviving_iff.2 ⟨by decide +kernel, rfl⟩, by decide +kernel,
    by decide +kernel⟩

/-- **Which violations mining forgets.** A property that survives a set of simulations is violated
by one of these very simulations exactly if that one has both wires, the run on them meets a
violation, and mining did not keep this run: its support is too small, or no module of the
simulation declares the wires together. -/
theorem violated_surviving_iff (settings : Settings) (traces : List Prepared) {q : Property}
    {stats : Stats}
    (hq : (q, stats) ∈ (Findings.aggregate (traces.map (mine · settings))).surviving)
    {t : Prepared} (ht : t ∈ traces) (time : Time) (s : Stats) :
    judge q stats t = .violated time s ↔
      ∃ x y, t.store.lookup q.a = some x ∧ t.store.lookup q.b = some y ∧
        q.pattern.check x y t.period = ⟨s, some time⟩ ∧
        (s.support < settings.minSupport ∨ ¬ DeclaredTogether t.root q.a q.b) := by
  obtain ⟨hf, ⟨f, hmem, s', hs'⟩, hall⟩ := lookup_of_mem_surviving hq
  rw [judge_eq_violated_iff, Property.outcome?_eq_some_iff]
  constructor
  · rintro ⟨-, x, y, hx, hy, ho⟩
    refine ⟨x, y, hx, hy, ho, ?_⟩
    rcases Nat.lt_or_ge s.support settings.minSupport with hlt | hge
    · exact .inl hlt
    refine .inr fun htogether => ?_
    -- otherwise the run was kept, and its falsification would be in the aggregate
    have hne : q.a ≠ q.b := by
      obtain ⟨t', -, rfl⟩ := List.mem_map.1 hmem
      exact (lookup_mine_iff.1 hs').1
    have hkept : (mine t settings).lookup q = some s :=
      lookup_mine_iff.2 ⟨hne, htogether, ⟨s, some time⟩,
        Property.outcome?_eq_some_iff.2 ⟨x, y, hx, hy, ho⟩, hge, rfl⟩
    have hclean := hall _ (List.mem_map_of_mem ht) s hkept
    have hfalsified := Pattern.falsified_check (congrArg Outcome.falsifiedAt ho)
    rw [ho, hclean] at hfalsified
    cases hfalsified
  · rintro ⟨x, y, hx, hy, ho, -⟩
    exact ⟨hf, x, y, hx, hy, ho⟩

theorem violated_surviving_unanswered :
    (⟨.holdUntil, reqWire, ackWire⟩, ⟨1, true, false⟩) ∈
      (Findings.aggregate ([unanswered, answered].map (mine · .default))).surviving ∧
    unanswered ∈ [unanswered, answered] ∧
    ∃ x y, unanswered.store.lookup reqWire = some x ∧ unanswered.store.lookup ackWire = some y ∧
      Pattern.check .holdUntil x y 10 = ⟨⟨0, true, true⟩, some 25⟩ ∧
      (0 < 1 ∨ ¬ DeclaredTogether unanswered.root reqWire ackWire) := by
  have hq : (⟨.holdUntil, reqWire, ackWire⟩, ⟨1, true, false⟩) ∈
      (Findings.aggregate ([unanswered, answered].map (mine · .default))).surviving :=
    Findings.mem_surviving_iff.2 ⟨by decide +kernel, rfl⟩
  have ht : unanswered ∈ [unanswered, answered] := List.mem_cons_self
  exact ⟨hq, ht, (violated_surviving_iff .default _ hq ht 25 ⟨0, true, true⟩).1 (by decide +kernel)⟩

end TraceMining
