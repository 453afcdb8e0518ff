/-!
# Lines

SPEC_FULL.md, 4.1: the lines that `parse_trace` and `read_trace` hand to `parse_lines`.

A line ends at a line feed; one carriage return directly before that line feed belongs to the line
end, any other one belongs to the line. What stands behind the last line feed is a line only if
there is something. The rule is the same for characters and for bytes. Main statements: a line is
found again in front of either line end (`cut_append_lf`, `cut_append_cr_lf`) and at the end of a
text (`cut_of_not_mem`).
-/

namespace TraceMining.Text

variable {α : Type} [DecidableEq α]

/-- The lines of a sequence, `lf` being its line feed and `cr` its carriage return. -/
def cut (lf cr : α) : List α → List (List α)
  | [] => []
  | c :: s =>
    if c = lf then [] :: cut lf cr s
    else if c = cr ∧ s.head? = some lf then cut lf cr s
    else
      match cut lf cr s with
      | [] => [[c]]
      | line :: rest => (c :: line) :: rest

/-- The lines of a text. -/
def lines (text : List Char) : List (List Char) := cut '\n' '\r' text

/-- The lines of a file. -/
def byteLines (bytes : List UInt8) : List (List UInt8) := cut 0x0A 0x0D bytes

/-- A line that does not end in a carriage return is found again. -/
theorem cut_append_lf {lf cr : α} {line : List α} (h : lf ∉ line)
    (hlast : line.getLast? ≠ some cr) (s : List α) :
    cut lf cr (line ++ lf :: s) = line :: cut lf cr s := by
  induction line with
  | nil => simp [cut]
  | cons c line ih =>
    have hlf : c ≠ lf := fun e => h (e ▸ List.mem_cons_self)
    have hrest : lf ∉ line := fun e => h (List.mem_cons_of_mem _ e)
    cases line with
    | nil =>
      have hcr : c ≠ cr := fun e => hlast (e ▸ rfl)
      rw [List.cons_append, cut, if_neg hlf, if_neg fun e => hcr e.1, ih hrest (by simp)]
    | cons d line =>
      have hd : d ≠ lf := fun e => hrest (e ▸ List.mem_cons_self)
      rw [List.getLast?_cons_cons] at hlast
      rw [List.cons_append, cut, if_neg hlf, if_neg fun e => hd (Option.some.inj e.2),
        ih hrest hlast]

/-- The carriage return directly before a line feed is no part of the line. -/
theorem cut_append_cr_lf {lf cr : α} {line : List α} (h : lf ∉ line) (hne : cr ≠ lf)
    (s : List α) : cut lf cr (line ++ cr :: lf :: s) = line :: cut lf cr s := by
  induction line with
  | nil => simp [cut, hne]
  | cons c line ih =>
    have hlf : c ≠ lf := fun e => h (e ▸ List.mem_cons_self)
    have hrest : lf ∉ line := fun e => h (List.mem_cons_of_mem _ e)
    have hhead : (line ++ cr :: lf :: s).head? ≠ some lf := by
      cases line with
      | nil => exact fun e => hne (Option.some.inj e)
      | cons d line => exact fun e => hrest (Option.some.inj e ▸ List.mem_cons_self)
    rw [List.cons_append, cut, if_neg hlf, if_neg fun e => hhead e.2, ih hrest]

/-- What stands behind the last line feed. -/
theorem cut_of_not_mem {lf cr : α} {line : List α} (h : lf ∉ line) (hne : line ≠ []) :
    cut lf cr line = [line] := by
  induction line with
  | nil => exact absurd rfl hne
  | cons c line ih =>
    have hlf : c ≠ lf := fun e => h (e ▸ List.mem_cons_self)
    have hrest : lf ∉ line := fun e => h (List.mem_cons_of_mem _ e)
    have hhead : line.head? ≠ some lf := fun e => hrest (List.mem_of_head? e)
    rw [cut, if_neg hlf, if_neg fun e => hhead e.2]
    cases line with
    | nil => rfl
    | cons d line => rw [ih hrest (List.cons_ne_nil _ _)]

end TraceMining.Text
