import TraceMining.Proofs.Json.Tokens

/-!
# Reading back a printed value

The tokens of a value bring the reader from where a value may come to where that value has been
read, whatever is open around it (`foldlM_tokens`). A printed value is cut into these tokens, so it
is read back without loss (`readSymbols_render`): nested in any depth, with repeated keys, and with
texts that are no texts.
-/

namespace TraceMining.Json

theorem foldlM_step_cons {r r' : Reading} {t : Token} (h : r.step t = some r') (ts : List Token) :
    (t :: ts).foldlM Reading.step r = ts.foldlM Reading.step r' := by
  rw [List.foldlM_cons, h]
  rfl

mutual

/-- The tokens of a value are read as that value. -/
theorem foldlM_tokens : ∀ (v : Json) (frames : List Frame) (orClose : Bool) (rest : List Token),
    (tokens v ++ rest).foldlM Reading.step ⟨frames, .value orClose⟩ =
      rest.foldlM Reading.step ⟨frames, .separator v⟩
  | .null, _, _, rest => foldlM_step_cons rfl rest
  | .bool _, _, _, rest => foldlM_step_cons rfl rest
  | .natural _, _, _, rest => foldlM_step_cons rfl rest
  | .otherNumber, _, _, rest => foldlM_step_cons rfl rest
  | .text _, _, _, rest => foldlM_step_cons rfl rest
  | .array [], _, _, rest => by
    rw [tokens]
    exact (foldlM_step_cons rfl _).trans (foldlM_step_cons rfl rest)
  | .array (item :: items), frames, orClose, rest => by
    simp only [tokens, List.cons_append, List.append_assoc, List.nil_append]
    rw [foldlM_step_cons rfl, foldlM_tokens item, foldlM_itemTokens items]
    rfl
  | .object [], _, _, rest => by
    rw [tokens]
    exact (foldlM_step_cons rfl _).trans (foldlM_step_cons rfl rest)
  | .object ((key, value) :: members), frames, orClose, rest => by
    simp only [tokens, List.cons_append, List.append_assoc, List.nil_append]
    rw [foldlM_step_cons rfl, foldlM_step_cons rfl, foldlM_step_cons rfl, foldlM_tokens value,
      foldlM_memberTokens members]
    rfl

theorem foldlM_itemTokens : ∀ (items : List Json) (frames : List Frame) (done : List Json)
    (v : Json) (rest : List Token),
    (tokens.itemTokens items ++ .closeArray :: rest).foldlM Reading.step
        ⟨.array done :: frames, .separator v⟩ =
      rest.foldlM Reading.step ⟨frames, .separator (.array (done.reverse ++ v :: items))⟩
  | [], frames, done, v, rest => by
    rw [tokens.itemTokens, List.nil_append, foldlM_step_cons rfl, List.reverse_cons]
  | item :: items, frames, done, v, rest => by
    simp only [tokens.itemTokens, List.cons_append, List.append_assoc]
    rw [foldlM_step_cons rfl, foldlM_tokens item, foldlM_itemTokens items, List.reverse_cons,
      List.append_assoc]
    rfl

theorem foldlM_memberTokens : ∀ (members : List (JsonText × Json)) (frames : List Frame)
    (done : List (JsonText × Json)) (key : JsonText) (v : Json) (rest : List Token),
    (tokens.memberTokens members ++ .closeObject :: rest).foldlM Reading.step
        ⟨.object done key :: frames, .separator v⟩ =
      rest.foldlM Reading.step ⟨frames, .separator (.object (done.reverse ++ (key, v) :: members))⟩
  | [], frames, done, key, v, rest => by
    rw [tokens.memberTokens, List.nil_append, foldlM_step_cons rfl, List.reverse_cons]
  | (key', value) :: members, frames, done, key, v, rest => by
    simp only [tokens.memberTokens, List.cons_append, List.append_assoc]
    rw [foldlM_step_cons rfl, foldlM_step_cons rfl, foldlM_step_cons rfl, foldlM_tokens value,
      foldlM_memberTokens members, List.reverse_cons, List.append_assoc]
    rfl

end

/-- A printed value is read back without loss. -/
theorem readSymbols_render (v : Json) : readSymbols (v.render.map some) = some v := by
  have hlexes : Lexes ((print 0 v).map some ++ []) (tokens v ++ []) :=
    lexes_print 0 v (.inl rfl) .nil
  rw [List.append_nil] at hlexes
  have htokens : tokens? (v.render.map some) = some (tokens v ++ []) :=
    hlexes _ (Nat.lt_succ_self _)
  rw [readSymbols, htokens, Option.bind_some, foldlM_tokens]
  rfl

end TraceMining.Json
