import TraceMining.Json.Printer
import TraceMining.Json.Reader
import TraceMining.Proofs.Except

/-!
# The tokens of a printed value

A printed value is cut into the tokens that it is made of (`lexes_print`), whatever its level of
nesting: the line breaks and the indentation between them are no tokens, a quoted text is read back
character by character (`token?_quote`), and the digits of a number end where it ends
(`number?_digits`), since only a comma, a line break or nothing follows a value (`Delimited`).
-/

namespace TraceMining.Json

open Text

/-! ## Quoted texts -/

theorem quoted?_plain {c : Char} (hquote : c ≠ '"') (hslash : c ≠ '\\') (hc : 0x20 ≤ c.toNat)
    (rest : List Symbol) :
    quoted? (some c :: rest) = (quoted? rest).map fun (s, rest) => (some c :: s, rest) := by
  rw [quoted?, if_neg (by omega)]
  · simpa using hquote
  all_goals
    intros
    simp_all

theorem quoted?_escaped {e c : Char} (h : escaped? e = some c) (rest : List Symbol) :
    quoted? (some '\\' :: some e :: rest) =
      (quoted? rest).map fun (s, rest) => (some c :: s, rest) := by
  have hunit : e ≠ 'u' := by
    rintro rfl
    cases h
  rw [quoted?, h, Option.bind_some]
  all_goals
    intros
    simp_all

/-- A code unit that is no first half of a pair stands for itself, whatever follows it. -/
theorem quoted?_unit {a b c d : Symbol} {unit : Nat} (h : hexFour? a b c d = some unit)
    (hsingle : unit < 0xD800) (rest : List Symbol) :
    quoted? (some '\\' :: some 'u' :: a :: b :: c :: d :: rest) =
      (quoted? rest).map fun (s, rest) => (unitChar? unit :: s, rest) := by
  by_cases hpair : ∃ e f g i tail, rest = some '\\' :: some 'u' :: e :: f :: g :: i :: tail
  · obtain ⟨e, f, g, i, tail, rfl⟩ := hpair
    have hnone : (hexFour? e f g i).bind (pairChar? unit) = none :=
      Option.bind_eq_none_iff.2 fun low _ => if_neg (by omega)
    rw [quoted?, h, Option.bind_some, hnone]
  · rw [quoted?, h, Option.bind_some]
    rintro e f g i tail rfl
    exact hpair ⟨e, f, g, i, tail, rfl⟩

theorem hexFour?_of_lt : ∀ n < 0x20,
    hexFour? (some '0') (some '0') (some (hexDigit (n / 16))) (some (hexDigit (n % 16))) = some n := by
  decide

/-- The characters with an escaped letter of their own. -/
theorem exists_letter_of_mem : ∀ c ∈ ['"', '\\', '\n', '\r', '\t', '\x08', '\x0c'],
    ∃ e, escape c = ['\\', e] ∧ escaped? e = some c := by
  simp only [List.forall_mem_cons]
  exact ⟨⟨'"', rfl, rfl⟩, ⟨'\\', rfl, rfl⟩, ⟨'n', rfl, rfl⟩, ⟨'r', rfl, rfl⟩, ⟨'t', rfl, rfl⟩,
    ⟨'b', rfl, rfl⟩, ⟨'f', rfl, rfl⟩, List.forall_mem_nil _⟩

theorem quoted?_escape (c : Char) (rest : List Symbol) :
    quoted? ((escape c).map some ++ rest) =
      (quoted? rest).map fun (s, rest) => (some c :: s, rest) := by
  by_cases hletter : c ∈ ['"', '\\', '\n', '\r', '\t', '\x08', '\x0c']
  · obtain ⟨e, hescape, he⟩ := exists_letter_of_mem c hletter
    rw [hescape]
    exact quoted?_escaped he rest
  · simp only [List.mem_cons, List.not_mem_nil, not_or] at hletter
    obtain ⟨hquote, hslash, hline, hreturn, htab, hback, hfeed, -⟩ := hletter
    rw [escape, if_neg hquote, if_neg hslash, if_neg hline, if_neg hreturn, if_neg htab,
      if_neg hback, if_neg hfeed]
    by_cases hcontrol : c.toNat < 0x20
    · have hchar : unitChar? c.toNat = some c := by
        rw [unitChar?, if_neg (by omega), Char.ofNat_toNat]
      rw [if_pos hcontrol, ← hchar]
      exact quoted?_unit (hexFour?_of_lt c.toNat hcontrol) (by omega) rest
    · rw [if_neg hcontrol]
      exact quoted?_plain hquote hslash (by omega) rest

theorem quoted?_flatMap_escape (s : List Char) (rest : List Symbol) :
    quoted? ((s.flatMap escape).map some ++ some '"' :: rest) = some (s.map some, rest) := by
  induction s with
  | nil => simp [quoted?]
  | cons c s ih =>
    rw [List.flatMap_cons, List.map_append, List.append_assoc, quoted?_escape, ih]
    rfl

theorem quoted?_surrogate (rest : List Symbol) :
    quoted? (some '\\' :: some 'u' :: some 'd' :: some '8' :: some '0' :: some '0' :: some '"' ::
      rest) = some ([none], rest) := by
  have hunit : hexFour? (some 'd') (some '8') (some '0') (some '0') = some 0xD800 := by decide
  rw [quoted?, hunit, Option.bind_some, quoted?]
  · rfl
  · rintro e f g i tail h
    cases h

theorem token?_quotationMark (rest : List Symbol) :
    token? (some '"' :: rest) =
      (quoted? rest).map fun (t, rest) => (.scalar (.text (t.mapM id)), rest) := by
  rw [token?]

theorem quote_none : quote none = ['"', '\\', 'u', 'd', '8', '0', '0', '"'] := by
  unfold quote
  simp

/-- A quoted text is read back as one token. -/
theorem token?_quote (t : JsonText) (rest : List Symbol) :
    token? ((quote t).map some ++ rest) = some (.scalar (.text t), rest) := by
  cases t with
  | none =>
    simp only [quote_none, List.map_cons, List.cons_append, List.map_nil, List.nil_append]
    rw [token?_quotationMark, quoted?_surrogate]
    rfl
  | some s =>
    have hquote : (quote (some s)).map some ++ rest =
        some '"' :: ((s.flatMap escape).map some ++ some '"' :: rest) := by
      show ('"' :: s.flatMap escape ++ ['"']).map some ++ rest = _
      simp
    have hread : (s.map some).mapM id = some (s.map id) := mapM_map_eq_some fun _ _ => rfl
    rw [List.map_id] at hread
    rw [hquote, token?_quotationMark, quoted?_flatMap_escape, Option.map_some]
    simp only [hread]

/-! ## Numbers -/

/-- What may follow a value. -/
def Delimited (rest : List Symbol) : Prop :=
  rest = [] ∨ ∃ tail, rest = some ',' :: tail ∨ rest = some '\n' :: tail

theorem isDigit_of_mem_digits {n : Nat} {c : Char} (h : c ∈ digits n) : c.isDigit = true :=
  Nat.isDigit_of_mem_toDigits (by decide) (by decide) h

theorem digits_ne_nil (n : Nat) : digits n ≠ [] :=
  List.ne_nil_of_length_pos Nat.length_toDigits_pos

/-- Only the number 0 begins with the digit 0. -/
theorem head_digits_ne_zero {n : Nat} (h : n ≠ 0) : (digits n).head? ≠ some '0' := by
  induction n using Nat.strongRecOn with
  | ind n ih =>
    unfold digits at ih ⊢
    rw [Nat.toDigits_eq_if (by decide)]
    split
    · rename_i hlt
      have hall : ∀ m < 10, m ≠ 0 → ([m.digitChar] : List Char).head? ≠ some '0' := by decide
      exact hall n hlt h
    · rename_i hge
      have hfront := ih (n / 10) (by omega) (by omega)
      rw [List.head?_append]
      cases hd : (Nat.toDigits 10 (n / 10)).head? with
      | none => exact absurd (List.head?_eq_none_iff.1 hd) (digits_ne_nil (n / 10))
      | some d => rwa [hd] at hfront

theorem isDigit_head?_of_delimited {rest : List Symbol} (h : Delimited rest) :
    (rest.head?.map isDigit).getD false = false := by
  rcases h with rfl | ⟨tail, rfl | rfl⟩ <;> rfl

theorem dropWhile_isDigit_of_delimited {rest : List Symbol} (h : Delimited rest) :
    rest.dropWhile isDigit = rest := by
  rcases h with rfl | ⟨tail, rfl | rfl⟩ <;> rfl

/-- Neither a fraction nor an exponent follows. -/
theorem after_whole_of_delimited {rest : List Symbol} (h : Delimited rest) :
    (afterFraction? rest).bind afterExponent? = some rest := by
  rcases h with rfl | ⟨tail, rfl | rfl⟩
  · rfl
  · simp [afterFraction?, afterExponent?]
  · simp [afterFraction?, afterExponent?]

theorem afterWhole?_digits (n : Nat) {rest : List Symbol} (h : Delimited rest) :
    afterWhole? ((digits n).map some ++ rest) = some rest := by
  by_cases hn : n = 0
  · subst hn
    have hdigits : (digits 0).map some ++ rest = some '0' :: rest := rfl
    rw [hdigits, afterWhole?, isDigit_head?_of_delimited h]
    rfl
  · have hhead := head_digits_ne_zero hn
    have hall : ∀ c ∈ digits n, c.isDigit = true := fun c => isDigit_of_mem_digits
    cases hd : digits n with
    | nil => exact absurd hd (digits_ne_nil n)
    | cons d ds =>
      rw [hd] at hhead hall
      have hzero : d ≠ '0' := fun heq => hhead (heq ▸ rfl)
      have hdrop : (ds.map some ++ rest).dropWhile isDigit = rest := by
        rw [List.dropWhile_append_of_pos, dropWhile_isDigit_of_delimited h]
        intro symbol hsymbol
        obtain ⟨c, hc, rfl⟩ := List.mem_map.1 hsymbol
        exact hall c (List.mem_cons_of_mem _ hc)
      rw [List.map_cons, List.cons_append, afterWhole?, afterDigits?, hdrop]
      · exact if_pos (hall d List.mem_cons_self)
      · simpa using hzero

theorem number?_digits (n : Nat) {rest : List Symbol} (h : Delimited rest) :
    number? ((digits n).map some ++ rest) = some (.natural n, rest) := by
  have hall : ∀ c ∈ digits n, c.isDigit = true := fun c => isDigit_of_mem_digits
  have hunsigned : ∀ tail, (digits n).map some ++ rest = some '-' :: tail → False := by
    intro tail heq
    cases hd : digits n with
    | nil => exact digits_ne_nil n hd
    | cons d ds =>
      rw [hd] at heq hall
      cases heq
      exact absurd (hall '-' List.mem_cons_self) (by decide)
  have hplain : ((digits n).map some ++ rest).take
      (((digits n).map some ++ rest).length - rest.length) = (digits n).map some := by
    rw [List.length_append, Nat.add_sub_cancel, List.take_left]
  have hdigits : ((digits n).map some).all isDigit = true := by
    rw [List.all_map, List.all_eq_true]
    exact hall
  rw [number?.eq_2 _ hunsigned, afterWhole?_digits n h, Option.bind_some,
    after_whole_of_delimited h, Option.map_some, hplain, if_pos ⟨rfl, hdigits⟩,
    List.filterMap_map]
  show some (natural (value ((digits n).filterMap some)), rest) = _
  rw [List.filterMap_some, value_digits]

theorem number?_negativeZero {rest : List Symbol} (h : Delimited rest) :
    number? (some '-' :: some '0' :: rest) = some (.otherNumber, rest) := by
  have hplain : (some '-' :: some '0' :: rest : List Symbol).take
      ((some '-' :: some '0' :: rest : List Symbol).length - rest.length) =
        [some '-', some '0'] := by
    rw [List.length_cons, List.length_cons, Nat.add_assoc, Nat.add_sub_cancel_left]
    rfl
  rw [number?, afterWhole?, isDigit_head?_of_delimited h, if_neg Bool.false_ne_true,
    Option.bind_some, after_whole_of_delimited h, Option.map_some, hplain]
  exact congrArg some (if_neg fun h => absurd h.2 (by decide))

/-- A text that begins like a number begins with no other token. -/
theorem token?_number {c : Char} (hc : c.isDigit = true ∨ c = '-') (s : List Symbol) :
    token? (some c :: s) = (number? (some c :: s)).map fun (n, rest) => (.scalar n, rest) := by
  rw [token?]
  all_goals
    rintro rest h
    cases h
    revert hc
    decide

theorem token?_digits (n : Nat) {rest : List Symbol} (h : Delimited rest) :
    token? ((digits n).map some ++ rest) = some (.scalar (.natural n), rest) := by
  have hnumber := number?_digits n h
  have hall : ∀ c ∈ digits n, c.isDigit = true := fun c => isDigit_of_mem_digits
  cases hd : digits n with
  | nil => exact absurd hd (digits_ne_nil n)
  | cons d ds =>
    rw [hd] at hnumber hall
    rw [List.map_cons, List.cons_append] at hnumber ⊢
    rw [token?_number (.inl (hall d List.mem_cons_self)), hnumber]
    rfl

theorem isSpace_of_isDigit {c : Char} (h : c.isDigit = true) : isSpace (some c) = false := by
  have hne : ∀ d : Char, d.isDigit = false → c ≠ d := by
    rintro d hd rfl
    rw [h] at hd
    cases hd
  simp [isSpace, hne ' ' rfl, hne '\n' rfl, hne '\t' rfl, hne '\r' rfl]

/-! ## Cutting a text -/

/-- The text is cut into these tokens, as soon as there is fuel enough. -/
def Lexes (s : List Symbol) (ts : List Token) : Prop :=
  ∀ fuel, s.length < fuel → tokensWithin fuel s = some ts

namespace Lexes

variable {s rest : List Symbol} {ts : List Token}

theorem nil : Lexes [] [] := by
  intro fuel hfuel
  cases fuel with
  | zero => cases hfuel
  | succ fuel => rfl

theorem space {c : Symbol} (hc : isSpace c = true) (h : Lexes s ts) : Lexes (c :: s) ts := by
  intro fuel hfuel
  cases fuel with
  | zero => cases hfuel
  | succ fuel =>
    have hs := h (fuel + 1) (by simp only [List.length_cons] at hfuel; omega)
    rw [tokensWithin] at hs ⊢
    rwa [List.dropWhile_cons_of_pos hc]

theorem newline (level : Nat) (h : Lexes s ts) : Lexes ((Json.newline level).map some ++ s) ts := by
  have hspaces : ∀ n, Lexes ((List.replicate n ' ').map some ++ s) ts := by
    intro n
    induction n with
    | zero => exact h
    | succ n ih => exact space rfl ih
  exact space rfl (hspaces (2 * level))

theorem token {c : Char} {cs : List Char} {t : Token} (hc : isSpace (some c) = false)
    (ht : token? ((c :: cs).map some ++ rest) = some (t, rest)) (h : Lexes rest ts) :
    Lexes ((c :: cs).map some ++ rest) (t :: ts) := by
  intro fuel hfuel
  cases fuel with
  | zero => cases hfuel
  | succ fuel =>
    rw [List.map_cons, List.cons_append] at ht hfuel ⊢
    have hshort : rest.length < fuel := by
      rw [List.length_cons, List.length_append] at hfuel
      omega
    rw [tokensWithin, List.dropWhile_cons_of_neg (by simp [hc])]
    simp only [ht, Option.bind_some, h fuel hshort, Option.map_some]

theorem mark {c : Char} {t : Token} (hc : isSpace (some c) = false)
    (ht : token? (some c :: rest) = some (t, rest)) (h : Lexes rest ts) :
    Lexes (some c :: rest) (t :: ts) :=
  show Lexes ([c].map some ++ rest) (t :: ts) from token hc ht h

theorem quote (t : JsonText) (h : Lexes rest ts) :
    Lexes ((Json.quote t).map some ++ rest) (.scalar (.text t) :: ts) := by
  have ht := token?_quote t rest
  obtain ⟨cs, hcs⟩ : ∃ cs, Json.quote t = '"' :: cs := by
    cases t with
    | none => exact ⟨_, quote_none⟩
    | some s => exact ⟨_, rfl⟩
  rw [hcs] at ht ⊢
  exact token rfl ht h

theorem digits (n : Nat) (hrest : Delimited rest) (h : Lexes rest ts) :
    Lexes ((Text.digits n).map some ++ rest) (.scalar (.natural n) :: ts) := by
  have ht := token?_digits n hrest
  have hall : ∀ c ∈ Text.digits n, isSpace (some c) = false :=
    fun c hc => isSpace_of_isDigit (isDigit_of_mem_digits hc)
  cases hd : Text.digits n with
  | nil => exact absurd hd (digits_ne_nil n)
  | cons d ds =>
    rw [hd] at ht hall
    exact token (hall d List.mem_cons_self) ht h

end Lexes

/-! ## The tokens of a value -/

/-- What a value is made of. -/
def tokens : Json → List Token
  | .null => [.scalar .null]
  | .bool b => [.scalar (.bool b)]
  | .natural n => [.scalar (.natural n)]
  | .otherNumber => [.scalar .otherNumber]
  | .text t => [.scalar (.text t)]
  | .array [] => [.openArray, .closeArray]
  | .array (item :: items) => .openArray :: tokens item ++ itemTokens items ++ [.closeArray]
  | .object [] => [.openObject, .closeObject]
  | .object ((key, value) :: members) =>
    .openObject :: .scalar (.text key) :: .colon :: tokens value ++ memberTokens members
      ++ [.closeObject]
where
  /-- Further items of an array. -/
  itemTokens : List Json → List Token
    | [] => []
    | item :: items => .comma :: tokens item ++ itemTokens items
  /-- Further members of an object. -/
  memberTokens : List (JsonText × Json) → List Token
    | [] => []
    | (key, value) :: members =>
      .comma :: .scalar (.text key) :: .colon :: tokens value ++ memberTokens members

theorem delimited_newline (level : Nat) (rest : List Symbol) :
    Delimited ((newline level).map some ++ rest) :=
  .inr ⟨_, .inr rfl⟩

theorem delimited_printItems {level : Nat} (items : List Json) {rest : List Symbol}
    (h : Delimited rest) : Delimited ((print.printItems level items).map some ++ rest) := by
  cases items with
  | nil => exact h
  | cons item items => exact .inr ⟨_, .inl rfl⟩

theorem delimited_printMembers {level : Nat} (members : List (JsonText × Json))
    {rest : List Symbol} (h : Delimited rest) :
    Delimited ((print.printMembers level members).map some ++ rest) := by
  cases members with
  | nil => exact h
  | cons member members => exact .inr ⟨_, .inl rfl⟩

-- The level changes with the nesting, and what follows a value is different at each place where
-- one stands; both are therefore general in all three statements.
mutual

/-- A printed value is cut into the tokens it is made of. -/
theorem lexes_print (level : Nat) : ∀ (v : Json) {rest : List Symbol} {ts : List Token},
    Delimited rest → Lexes rest ts → Lexes ((print level v).map some ++ rest) (tokens v ++ ts)
  | .null, rest, ts, _, h => by
    have hprint : print level .null = ['n', 'u', 'l', 'l'] := by
      unfold print
      simp
    rw [hprint, tokens]
    exact .token rfl (by simp [token?, afterLiteral?]) h
  | .bool false, rest, ts, _, h => by
    have hprint : print level (.bool false) = ['f', 'a', 'l', 's', 'e'] := by
      unfold print
      simp
    rw [hprint, tokens]
    exact .token rfl (by simp [token?, afterLiteral?]) h
  | .bool true, rest, ts, _, h => by
    have hprint : print level (.bool true) = ['t', 'r', 'u', 'e'] := by
      unfold print
      simp
    rw [hprint, tokens]
    exact .token rfl (by simp [token?, afterLiteral?]) h
  | .natural n, rest, ts, hrest, h => by
    rw [print, tokens]
    exact .digits n hrest h
  | .otherNumber, rest, ts, hrest, h => by
    have hprint : print level .otherNumber = ['-', '0'] := by
      unfold print
      simp
    rw [hprint, tokens]
    refine .token rfl ?_ h
    simp only [List.map_cons, List.map_nil, List.cons_append, List.nil_append]
    rw [token?_number (.inr rfl), number?_negativeZero hrest]
    rfl
  | .text t, rest, ts, _, h => by
    rw [print, tokens]
    exact .quote t h
  | .array [], rest, ts, _, h => by
    rw [print, tokens]
    exact .mark rfl rfl (.mark rfl rfl h)
  | .array (item :: items), rest, ts, hrest, h => by
    simp only [print, tokens, List.map_append, List.map_cons, List.append_assoc, List.cons_append]
    refine .mark rfl rfl (.newline _ (lexes_print _ item ?_ ?_))
    · exact delimited_printItems items (delimited_newline level _)
    · exact lexes_printItems _ items (delimited_newline level _) (.newline _ (.mark rfl rfl h))
  | .object [], rest, ts, _, h => by
    rw [print, tokens]
    exact .mark rfl rfl (.mark rfl rfl h)
  | .object ((key, value) :: members), rest, ts, hrest, h => by
    simp only [print, tokens, List.map_append, List.map_cons, List.append_assoc, List.cons_append]
    refine .mark rfl rfl (.newline _ (.quote key (.mark rfl rfl (.space rfl
      (lexes_print _ value ?_ ?_)))))
    · exact delimited_printMembers members (delimited_newline level _)
    · exact lexes_printMembers _ members (delimited_newline level _) (.newline _ (.mark rfl rfl h))

theorem lexes_printItems (level : Nat) : ∀ (items : List Json) {rest : List Symbol}
    {ts : List Token}, Delimited rest → Lexes rest ts →
      Lexes ((print.printItems level items).map some ++ rest) (tokens.itemTokens items ++ ts)
  | [], _, _, _, h => h
  | item :: items, rest, ts, hrest, h => by
    simp only [print.printItems, tokens.itemTokens, List.map_append, List.map_cons,
      List.append_assoc, List.cons_append]
    refine .mark rfl rfl (.newline _ (lexes_print _ item ?_ ?_))
    · exact delimited_printItems items hrest
    · exact lexes_printItems _ items hrest h

theorem lexes_printMembers (level : Nat) : ∀ (members : List (JsonText × Json))
    {rest : List Symbol} {ts : List Token}, Delimited rest → Lexes rest ts →
      Lexes ((print.printMembers level members).map some ++ rest) (tokens.memberTokens members ++ ts)
  | [], _, _, _, h => h
  | (key, value) :: members, rest, ts, hrest, h => by
    simp only [print.printMembers, tokens.memberTokens, List.map_append, List.map_cons,
      List.append_assoc, List.cons_append]
    refine .mark rfl rfl (.newline _ (.quote key (.mark rfl rfl (.space rfl
      (lexes_print _ value ?_ ?_)))))
    · exact delimited_printMembers members hrest
    · exact lexes_printMembers _ members hrest h

end

end TraceMining.Json
