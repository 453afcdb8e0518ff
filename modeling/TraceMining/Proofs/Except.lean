/-!
# Computations that may fail

A computation in steps succeeds exactly if every step does. The lemmas here take such a computation
apart: into its first step and the rest (`bind_eq_ok_iff`), and into the steps of a traversal
(`mem_of_mapM_eq_ok`, `exists_mapM_eq_ok`; `exists_of_mapM_eq_some` where no error is told). Its
error is the error of one of them (`bind_eq_error_iff`, `exists_of_mapM_eq_error`). If every step of
one computation does what the step of another one does, up to a translation of errors and values, so
do the computations (`translate_bind`, `mapM_map_translate`).
-/

namespace TraceMining

variable {ε ε' α α' β β' : Type}

theorem bind_eq_ok_iff {x : Except ε α} {f : α → Except ε β} {b : β} :
    x >>= f = .ok b ↔ ∃ a, x = .ok a ∧ f a = .ok b := by
  constructor
  · intro h
    cases x with
    | error e => cases h
    | ok a => exact ⟨a, rfl, h⟩
  · rintro ⟨a, rfl, h⟩
    exact h

theorem bind_eq_error_iff {x : Except ε α} {f : α → Except ε β} {e : ε} :
    x >>= f = .error e ↔ x = .error e ∨ ∃ a, x = .ok a ∧ f a = .error e := by
  constructor
  · intro h
    cases x with
    | error e' =>
      cases h
      exact .inl rfl
    | ok a => exact .inr ⟨a, rfl, h⟩
  · rintro (rfl | ⟨a, rfl, h⟩)
    · rfl
    · exact h

theorem mapError_eq_ok_iff {x : Except ε α} {f : ε → ε'} {a : α} :
    x.mapError f = .ok a ↔ x = .ok a := by
  cases x with
  | error e =>
    constructor
    · intro h
      cases h
    · intro h
      cases h
  | ok b =>
    constructor
    · intro h
      cases h
      rfl
    · intro h
      cases h
      rfl

theorem mapError_eq_error_iff {x : Except ε α} {f : ε → ε'} {e' : ε'} :
    x.mapError f = .error e' ↔ ∃ e, x = .error e ∧ f e = e' := by
  constructor
  · intro h
    cases x with
    | error e =>
      cases h
      exact ⟨e, rfl, rfl⟩
    | ok a => cases h
  · rintro ⟨e, rfl, rfl⟩
    rfl

theorem toOption_eq_some_iff {x : Except ε α} {a : α} : x.toOption = some a ↔ x = .ok a := by
  cases x with
  | error e =>
    constructor
    · intro h
      cases h
    · intro h
      cases h
  | ok b =>
    constructor
    · intro h
      cases h
      rfl
    · intro h
      cases h
      rfl

theorem map_toOption_eq_some_iff {x : Except ε α} {f : α → β} {b : β} :
    x.toOption.map f = some b ↔ ∃ a, x = .ok a ∧ f a = b := by
  simp only [Option.map_eq_some_iff, toOption_eq_some_iff]

theorem mem_of_mapM_eq_ok {f : α → Except ε β} :
    ∀ {as : List α} {bs : List β}, as.mapM f = .ok bs → ∀ b, b ∈ bs ↔ ∃ a ∈ as, f a = .ok b
  | [], bs, h, b => by
    rw [List.mapM_nil] at h
    cases h
    simp
  | a :: as, bs, h, b => by
    rw [List.mapM_cons] at h
    obtain ⟨b', hb', h⟩ := bind_eq_ok_iff.1 h
    obtain ⟨bs', hbs', h⟩ := bind_eq_ok_iff.1 h
    cases h
    rw [List.mem_cons, mem_of_mapM_eq_ok hbs']
    constructor
    · rintro (rfl | ⟨a', ha', hb⟩)
      · exact ⟨a, List.mem_cons_self, hb'⟩
      · exact ⟨a', List.mem_cons_of_mem _ ha', hb⟩
    · rintro ⟨a', ha', hb⟩
      rcases List.mem_cons.1 ha' with rfl | ha'
      · rw [hb'] at hb
        cases hb
        exact .inl rfl
      · exact .inr ⟨a', ha', hb⟩

theorem exists_mapM_eq_ok {f : α → Except ε β} {as : List α} :
    (∃ bs, as.mapM f = .ok bs) ↔ ∀ a ∈ as, ∃ b, f a = .ok b := by
  induction as with
  | nil => exact ⟨fun _ a ha => by simp at ha, fun _ => ⟨[], List.mapM_nil⟩⟩
  | cons a as ih =>
    rw [List.forall_mem_cons, ← ih, List.mapM_cons]
    constructor
    · rintro ⟨bs, h⟩
      obtain ⟨b, hb, h⟩ := bind_eq_ok_iff.1 h
      obtain ⟨bs', hbs', -⟩ := bind_eq_ok_iff.1 h
      exact ⟨⟨b, hb⟩, bs', hbs'⟩
    · rintro ⟨⟨b, hb⟩, bs, hbs⟩
      exact ⟨b :: bs, bind_eq_ok_iff.2 ⟨b, hb, bind_eq_ok_iff.2 ⟨bs, hbs, rfl⟩⟩⟩

theorem length_of_mapM_eq_ok {f : α → Except ε β} :
    ∀ {as : List α} {bs : List β}, as.mapM f = .ok bs → bs.length = as.length
  | [], bs, h => by
    rw [List.mapM_nil] at h
    cases h
    rfl
  | a :: as, bs, h => by
    rw [List.mapM_cons] at h
    obtain ⟨b, -, h⟩ := bind_eq_ok_iff.1 h
    obtain ⟨bs', hbs', h⟩ := bind_eq_ok_iff.1 h
    cases h
    exact congrArg (· + 1) (length_of_mapM_eq_ok hbs')

/-- A traversal that fails does so at one of its steps, with the error of that step. -/
theorem exists_of_mapM_eq_error {f : α → Except ε β} {as : List α} {e : ε}
    (h : as.mapM f = .error e) : ∃ a ∈ as, f a = .error e := by
  induction as with
  | nil =>
    rw [List.mapM_nil] at h
    cases h
  | cons a as ih =>
    rw [List.mapM_cons] at h
    rcases bind_eq_error_iff.1 h with ha | ⟨b, -, h⟩
    · exact ⟨a, List.mem_cons_self, ha⟩
    · rcases bind_eq_error_iff.1 h with has | ⟨bs, -, h⟩
      · obtain ⟨a', ha', herror⟩ := ih has
        exact ⟨a', List.mem_cons_of_mem a ha', herror⟩
      · cases h

theorem mapM_map_eq_some {f : α → α'} {g : α' → Option β} {h : α → β} {as : List α}
    (hg : ∀ a ∈ as, g (f a) = some (h a)) : (as.map f).mapM g = some (as.map h) := by
  induction as with
  | nil => rfl
  | cons a as ih =>
    rw [List.map_cons, List.mapM_cons, hg a List.mem_cons_self,
      ih fun a ha => hg a (List.mem_cons_of_mem _ ha)]
    rfl

theorem exists_of_mapM_eq_some {f : α → Option β} :
    ∀ {as : List α} {bs : List β}, as.mapM f = some bs → ∀ b ∈ bs, ∃ a ∈ as, f a = some b
  | [], bs, h, b, hb => by
    rw [List.mapM_nil] at h
    cases h
    cases hb
  | a :: as, bs, h, b, hb => by
    rw [List.mapM_cons] at h
    obtain ⟨b', hb', h⟩ := Option.bind_eq_some_iff.1 h
    obtain ⟨bs', hbs', h⟩ := Option.bind_eq_some_iff.1 h
    cases h
    rcases List.mem_cons.1 hb with rfl | hb
    · exact ⟨a, List.mem_cons_self, hb'⟩
    · obtain ⟨a', ha', hb⟩ := exists_of_mapM_eq_some hbs' b hb
      exact ⟨a', List.mem_cons_of_mem _ ha', hb⟩

/-! ## Translation -/

/-- The result with its error and its value translated. -/
def translate (e : ε → ε') (f : α → α') : Except ε α → Except ε' α'
  | .error x => .error (e x)
  | .ok a => .ok (f a)

variable {e : ε → ε'} {f : α → α'} {g : β → β'}

theorem translate_bind {k : α → Except ε β} {k' : α' → Except ε' β'}
    (h : ∀ a, k' (f a) = translate e g (k a)) (x : Except ε α) :
    translate e f x >>= k' = translate e g (x >>= k) := by
  cases x with
  | error x => rfl
  | ok a => exact h a

theorem translate_map {k : α → β} {k' : α' → β'} (h : ∀ a, k' (f a) = g (k a)) (x : Except ε α) :
    (translate e f x).map k' = translate e g (x.map k) := by
  cases x with
  | error x => rfl
  | ok a => exact congrArg Except.ok (h a)

theorem mapM_map_translate {k : α → Except ε β} {k' : α' → Except ε' β'}
    (h : ∀ a, k' (f a) = translate e g (k a)) (as : List α) :
    (as.map f).mapM k' = translate e (List.map g) (as.mapM k) := by
  induction as with
  | nil => rfl
  | cons a as ih =>
    rw [List.map_cons, List.mapM_cons, List.mapM_cons, h, ih]
    refine translate_bind (fun b => ?_) (k a)
    exact translate_bind (f := List.map g) (fun bs => rfl) (as.mapM k)

end TraceMining
