import TraceMining.Toml.Value

/-!
# TOML texts, numbers and dates

SPEC_FULL.md, 10.3.

The values of a document that hold no other values. Texts stand in quotes, in one line or in
several, where line breaks are kept as they stand; numbers, truth values, dates and times are
spelled without quotes, and it is their spelling alone that tells which of them they are.
-/

namespace TraceMining.Toml

open Text

/-! ## Texts -/

/-- Whether a character may stand in a text or a comment as itself: no control character but the
tab. -/
def isPlain (c : Char) : Bool := c = '\t' || (0x20 ≤ c.toNat && c.toNat ≠ 0x7F)

/-- The character with a code point. -/
def scalar? (n : Nat) : Option Char := if n.isValidChar then some (Char.ofNat n) else none

/-- The character with a code point in hexadecimal digits. -/
def hexChar? (ds : List Char) : Option Char := (hexNumber? ds).bind scalar?

/-- The character that an escaped letter stands for. -/
def escaped? : Char → Option Char
  | '"' => some '"'
  | '\\' => some '\\'
  | 'b' => some '\x08'
  | 'e' => some '\x1b'
  | 'f' => some '\x0c'
  | 'n' => some '\n'
  | 'r' => some '\r'
  | 't' => some '\t'
  | _ => none

/-- Puts a character in front of a text that was read. -/
def cons? (c? : Option Char) (r : Option (List Char × List Char)) :
    Option (List Char × List Char) :=
  match c?, r with
  | some c, some (s, rest) => some (c :: s, rest)
  | _, _ => none

/-- A text with escapes, in one line, up to its closing quote, and what follows. -/
def basic? : List Char → Option (List Char × List Char)
  | [] => none
  | '"' :: rest => some ([], rest)
  | '\\' :: 'x' :: a :: b :: rest => cons? (hexChar? [a, b]) (basic? rest)
  | '\\' :: 'u' :: a :: b :: c :: d :: rest => cons? (hexChar? [a, b, c, d]) (basic? rest)
  | '\\' :: 'U' :: a :: b :: c :: d :: e :: f :: g :: h :: rest =>
    cons? (hexChar? [a, b, c, d, e, f, g, h]) (basic? rest)
  | '\\' :: c :: rest => cons? (escaped? c) (basic? rest)
  | c :: rest => if isPlain c then cons? (some c) (basic? rest) else none

/-- A text without escapes, in one line, up to its closing quote, and what follows. -/
def literal? : List Char → Option (List Char × List Char)
  | [] => none
  | '\'' :: rest => some ([], rest)
  | c :: rest => if isPlain c then cons? (some c) (literal? rest) else none

/-- What stands between the last characters of a text of several lines and what follows its
closing quotes: up to two quotes directly before the closing ones belong to the text. -/
def closing (quote : Char) : List Char → List Char × List Char
  | a :: b :: rest =>
    if a = quote then if b = quote then ([a, b], rest) else ([a], b :: rest) else ([], a :: b :: rest)
  | [a] => if a = quote then ([a], []) else ([], [a])
  | [] => ([], [])

/-- Whether a line break stands behind blanks at the beginning of a text. -/
def breaksLine (s : List Char) : Bool :=
  match s.dropWhile isBlankChar with
  | '\n' :: _ => true
  | '\r' :: '\n' :: _ => true
  | _ => false
where
  isBlankChar (c : Char) : Bool := c = ' ' || c = '\t'

/-- A text with escapes, in several lines, up to its closing quotes, and what follows. A backslash
at the end of a line takes away the blanks and line breaks up to the next character, which is
what `skipping` tells. -/
def basicLines? : (skipping : Bool) → List Char → Option (List Char × List Char)
  | _, [] => none
  | true, ' ' :: rest => basicLines? true rest
  | true, '\t' :: rest => basicLines? true rest
  | true, '\n' :: rest => basicLines? true rest
  | true, '\r' :: '\n' :: rest => basicLines? true rest
  | _, '"' :: '"' :: '"' :: rest => some (closing '"' rest)
  | _, '\\' :: 'x' :: a :: b :: rest => cons? (hexChar? [a, b]) (basicLines? false rest)
  | _, '\\' :: 'u' :: a :: b :: c :: d :: rest =>
    cons? (hexChar? [a, b, c, d]) (basicLines? false rest)
  | _, '\\' :: 'U' :: a :: b :: c :: d :: e :: f :: g :: h :: rest =>
    cons? (hexChar? [a, b, c, d, e, f, g, h]) (basicLines? false rest)
  | _, '\\' :: c :: rest =>
    if breaksLine (c :: rest) then basicLines? true (c :: rest)
    else cons? (escaped? c) (basicLines? false rest)
  | _, '\r' :: '\n' :: rest => cons? (some '\r') (cons? (some '\n') (basicLines? false rest))
  | _, c :: rest =>
    if isPlain c || c = '\n' then cons? (some c) (basicLines? false rest) else none

/-- A text without escapes, in several lines, up to its closing quotes, and what follows. -/
def literalLines? : List Char → Option (List Char × List Char)
  | [] => none
  | '\'' :: '\'' :: '\'' :: rest => some (closing '\'' rest)
  | '\r' :: '\n' :: rest => cons? (some '\r') (cons? (some '\n') (literalLines? rest))
  | c :: rest => if isPlain c || c = '\n' then cons? (some c) (literalLines? rest) else none

/-- A text without the line break directly behind its opening quotes. -/
def dropBreak : List Char → List Char
  | '\n' :: rest => rest
  | '\r' :: '\n' :: rest => rest
  | s => s

/-- The text at the beginning of a document's rest, if a quote begins it, and what follows. -/
def quoted? : List Char → Option (List Char × List Char)
  | '"' :: '"' :: '"' :: rest => basicLines? false (dropBreak rest)
  | '"' :: rest => basic? rest
  | '\'' :: '\'' :: '\'' :: rest => literalLines? (dropBreak rest)
  | '\'' :: rest => literal? rest
  | _ => none

/-! ## Numbers -/

/-- Digits between which single underscores may stand, without the underscores. -/
def digitRun? (isDigit : Char → Bool) : List Char → Option (List Char)
  | [] => none
  | [d] => if isDigit d then some [d] else none
  | d :: '_' :: rest => if isDigit d then (digitRun? isDigit rest).map (d :: ·) else none
  | d :: rest => if isDigit d then (digitRun? isDigit rest).map (d :: ·) else none

/-- The digits of a whole number without a needless zero in front. -/
def wholeDigits? (s : List Char) : Option (List Char) :=
  match digitRun? Char.isDigit s with
  | some ['0'] => some ['0']
  | some ('0' :: _) => none
  | ds => ds

/-- Whether there is a minus sign, and what follows the sign if there is one. -/
def unsigned : List Char → Bool × List Char
  | '-' :: s => (true, s)
  | '+' :: s => (false, s)
  | s => (false, s)

/-- The value of a digit of any base up to 16. -/
def digitValue (c : Char) : Nat := (hexValue? c).getD 16

/-- A number in one of the bases 16, 8 and 2, which have no sign. -/
def based? (base : Nat) (s : List Char) : Option Toml :=
  (digitRun? (fun c => decide (digitValue c < base)) s).map fun ds =>
    .integer (ds.foldl (fun n c => base * n + digitValue c) 0 : Nat)

def integer? : List Char → Option Toml
  | '0' :: 'x' :: s => based? 16 s
  | '0' :: 'o' :: s => based? 8 s
  | '0' :: 'b' :: s => based? 2 s
  | s =>
    let (negative, s) := unsigned s
    (wholeDigits? s).map fun ds =>
      .integer (if negative then -(value ds : Int) else (value ds : Int))

/-- A number with a fraction, an exponent, or both; one that is too great for a finite number is
refused. -/
def decimal? (s : List Char) : Option Toml :=
  let (negative, s) := unsigned s
  let isMark (c : Char) : Bool := c = 'e' || c = 'E'
  let mantissa := s.takeWhile (!isMark ·)
  let exponent := s.dropWhile (!isMark ·)
  let whole := mantissa.takeWhile (· ≠ '.')
  let fraction := mantissa.dropWhile (· ≠ '.')
  if fraction.isEmpty && exponent.isEmpty then none
  else do
    let wholeDs ← wholeDigits? whole
    let fractionDs ← match fraction with
      | [] => some []
      | _ :: ds => digitRun? Char.isDigit ds
    let e ← match exponent with
      | [] => some 0
      | _ :: ds =>
        let (below, ds) := unsigned ds
        (digitRun? Char.isDigit ds).map fun ds =>
          if below then -(value ds : Int) else (value ds : Int)
    match Binary64.ofDecimal negative (wholeDs ++ fractionDs) (e - fractionDs.length) with
    | .infinite _ => none
    | x => some (.float x)

/-- The spelled-out floating-point numbers. -/
def spelledFloat? (s : List Char) : Option Toml :=
  let (negative, s) := unsigned s
  if s = "inf".toList then some (.float (.infinite negative))
  else if s = "nan".toList then some (.float .nan)
  else none

/-! ## Dates and times -/

/-- A number of exactly `n` digits, and what follows it. -/
def twoDigits? (n : Nat) (s : List Char) : Option (Nat × List Char) :=
  let ds := s.take n
  if ds.length = n && ds.all Char.isDigit then some (value ds, s.drop n) else none

/-- What follows one of some characters. -/
def after? (cs : List Char) : List Char → Option (List Char)
  | c :: s => if c ∈ cs then some s else none
  | [] => none

/-- The number of days of a month. -/
def daysIn (year month : Nat) : Nat :=
  if month = 2 then
    if year % 4 = 0 ∧ (year % 100 ≠ 0 ∨ year % 400 = 0) then 29 else 28
  else if month ∈ [4, 6, 9, 11] then 30 else 31

/-- A date, and what follows it. -/
def date? (s : List Char) : Option (List Char × List Char) := do
  let (year, r) ← twoDigits? 4 s
  let (month, r) ← twoDigits? 2 (← after? ['-'] r)
  let (day, r) ← twoDigits? 2 (← after? ['-'] r)
  if 1 ≤ month ∧ month ≤ 12 ∧ 1 ≤ day ∧ day ≤ daysIn year month then some (s.take 10, r) else none

/-- The fraction of a second in its normal spelling: nine digits at most, and no zeros at the end
but the only digit. -/
def fractionText (ds : List Char) : List Char :=
  let ds := ((ds.take 9).reverse.dropWhile (· = '0')).reverse
  if ds.isEmpty then ['.', '0'] else '.' :: ds

/-- A time of day, and what follows it. The seconds may be missing, and so may their fraction. -/
def time? (s : List Char) : Option (List Char × List Char) := do
  let (hour, r) ← twoDigits? 2 s
  let (minute, r) ← twoDigits? 2 (← after? [':'] r)
  if hour ≤ 23 ∧ minute ≤ 59 then
    let hourMinute := s.take 5
    match r with
    | ':' :: r => do
      let (second, rest) ← twoDigits? 2 r
      if second ≤ 60 then
        let clock := hourMinute ++ ':' :: r.take 2
        match rest with
        | '.' :: rest =>
          let ds := rest.takeWhile Char.isDigit
          if ds.isEmpty then none
          else some (clock ++ fractionText ds, rest.dropWhile Char.isDigit)
        | rest => some (clock, rest)
      else none
    | r => some (hourMinute, r)
  else none

/-- The distance from universal time behind a date and a time; nothing follows it. -/
def offset? : List Char → Option (List Char)
  | [] => some []
  | ['Z'] => some ['Z']
  | ['z'] => some ['Z']
  | sign :: s => do
    let (hour, r) ← twoDigits? 2 s
    let (minute, r) ← twoDigits? 2 (← after? [':'] r)
    if (sign = '+' ∨ sign = '-') ∧ hour ≤ 23 ∧ minute ≤ 59 ∧ r = [] then
      let sign := if hour = 0 ∧ minute = 0 then '+' else sign
      some (sign :: s.take 5)
    else none

/-- A date, a date with a time, or a time. -/
def moment? (s : List Char) : Option Toml :=
  match date? s with
  | some (date, []) => some (.moment date)
  | some (date, r) => do
    let (time, r) ← time? (← after? ['T', 't', ' '] r)
    let offset ← offset? r
    some (.moment (date ++ 'T' :: time ++ offset))
  | none =>
    match time? s with
    | some (time, []) => some (.moment time)
    | _ => none

/-! ## Unquoted values -/

/-- Whether a character may stand in a value without quotes. -/
def isUnquoted (c : Char) : Bool := c.isAlphanum || c ∈ ['+', '-', '_', '.', ':']

/-- Whether a text is a date by its shape alone. -/
def hasDateShape (s : List Char) : Bool :=
  s.length = 10 && (s.drop 4).head? = some '-' && (s.drop 7).head? = some '-'

/-- The spelling of the value without quotes at the beginning of a text, and what follows it. A
space may stand between a date and a time. -/
def unquoted (s : List Char) : List Char × List Char :=
  let word := s.takeWhile isUnquoted
  let rest := s.dropWhile isUnquoted
  match rest with
  | ' ' :: c :: more =>
    if hasDateShape word && c.isDigit then
      (word ++ ' ' :: (c :: more).takeWhile isUnquoted, (c :: more).dropWhile isUnquoted)
    else (word, rest)
  | rest => (word, rest)

/-- The value that a spelling without quotes stands for. -/
def ofSpelling? (s : List Char) : Option Toml :=
  if s = "true".toList then some (.bool true)
  else if s = "false".toList then some (.bool false)
  else (spelledFloat? s).or ((integer? s).or ((decimal? s).or (moment? s)))

end TraceMining.Toml
