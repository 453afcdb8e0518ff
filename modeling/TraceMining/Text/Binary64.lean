import TraceMining.Text.Numeral

/-!
# Binary floating-point numbers of 64 bits

SPEC_FULL.md, 10.3: the numbers with a fraction in the layers of `MinerConfig::load`.

A finite number is kept exactly, as a significand of 53 bits times a power of two, so that
reading, rounding and writing are exact arithmetic. A decimal numeral is read as the nearest
number, ties going to the even significand; a number is written with the fewest decimal digits
that are read back as it, and never with an exponent.
-/

namespace TraceMining.Text

/-- A binary floating-point number of 64 bits. -/
inductive Binary64 where
  | nan
  | infinite (negative : Bool)
  /-- The number `significand * 2 ^ exponent`, with its sign. -/
  | finite (negative : Bool) (significand : Nat) (exponent : Int)
  deriving DecidableEq, Repr

namespace Binary64

/-- The least exponent of a finite number. -/
def minExponent : Int := -1074

/-- The greatest exponent of a finite number. -/
def maxExponent : Int := 971

/-- One more than the greatest significand. -/
def significandLimit : Nat := 1 <<< 53

/-- A quotient rounded to the nearest whole number, a tie to the even one. -/
def roundEven (n d : Nat) : Nat :=
  let q := n / d
  let r := n % d
  if 2 * r < d then q else if d < 2 * r then q + 1 else q + q % 2

/-- The fraction `n / d` times `2 ^ e`, as a fraction. -/
def scale (n d : Nat) (e : Int) : Nat × Nat := (n <<< e.toNat, d <<< (-e).toNat)

/-- The exponent of the greatest power of two that is not above `n / d`. -/
def log2Quotient (n d : Nat) : Int :=
  let e : Int := (Nat.log2 n : Int) - Nat.log2 d
  let (n', d') := scale n d (-e)
  if n' < d' then e - 1 else e

/-- The number nearest to `n / d`. -/
def ofQuotient (negative : Bool) (n d : Nat) : Binary64 :=
  if n = 0 then .finite negative 0 minExponent
  else
    let e := max (log2Quotient n d - 52) minExponent
    let (n', d') := scale n d (-e)
    let m := roundEven n' d'
    if maxExponent < e ∨ (e = maxExponent ∧ significandLimit ≤ m) then .infinite negative
    else if m = significandLimit then .finite negative (significandLimit / 2) (e + 1)
    else .finite negative m e

/-- A power of ten as a fraction. -/
def tenPower (e : Int) : Nat × Nat := (Nat.pow 10 e.toNat, Nat.pow 10 (-e).toNat)

/-- The number nearest to `digits * 10 ^ e`, the digits being those of a decimal numeral. Far
outside the range of finite numbers the answer is known without computing the power. -/
def ofDecimal (negative : Bool) (ds : List Char) (e : Int) : Binary64 :=
  let n := value ds
  let order : Int := (digits n).length + e
  if n = 0 ∨ order < -400 then .finite negative 0 minExponent
  else if 400 < order then .infinite negative
  else
    let (p, q) := tenPower e
    ofQuotient negative (n * p) q

/-- The number that a decimal numeral stands for: digits with at most one point among them, at
least one digit, and perhaps an exponent. -/
def ofNumeral? (negative : Bool) (s : List Char) : Option Binary64 :=
  let whole := s.takeWhile Char.isDigit
  let rest := s.dropWhile Char.isDigit
  let (fraction, rest) := match rest with
    | '.' :: more => (more.takeWhile Char.isDigit, more.dropWhile Char.isDigit)
    | rest => ([], rest)
  if whole.isEmpty && fraction.isEmpty then none
  else
    let number (e : Int) := ofDecimal negative (whole ++ fraction) (e - fraction.length)
    match rest with
    | [] => some (number 0)
    | mark :: exponent =>
      if mark = 'e' ∨ mark = 'E' then
        let (below, ds) := match exponent with
          | '-' :: ds => (true, ds)
          | '+' :: ds => (false, ds)
          | ds => (false, ds)
        if ds.isEmpty || !ds.all Char.isDigit then none
        else some (number (if below then -(value ds : Int) else value ds))
      else none

/-- The number that a text stands for, with or without a sign; infinity and the absence of a
number are spelled in letters of any case. -/
def ofText? (s : List Char) : Option Binary64 :=
  let (negative, s) := match s with
    | '-' :: s => (true, s)
    | '+' :: s => (false, s)
    | s => (false, s)
  let word := s.map Char.toLower
  if word = "inf".toList ∨ word = "infinity".toList then some (.infinite negative)
  else if word = "nan".toList then some .nan
  else ofNumeral? negative s

/-- The number rounded to a whole number, halves away from zero, and kept within the natural
numbers of 64 bits; what is no number counts as 0. -/
def toWord : Binary64 → Nat
  | .nan => 0
  | .infinite negative => if negative then 0 else wordLimit - 1
  | .finite negative m e =>
    if negative then 0
    else
      let (n, d) := scale m 1 e
      min ((2 * n + d) / (2 * d)) (wordLimit - 1)

/-! ## The shortest decimal -/

/-- The greatest `k` from `guess` downwards, in at most `fuel` steps, for which `10 ^ k` is not
above `n / d`. -/
def log10From (n d : Nat) (guess : Int) : (fuel : Nat) → Int
  | 0 => guess
  | fuel + 1 =>
    let (p, q) := tenPower guess
    if p * d ≤ n * q then guess else log10From n d (guess - 1) fuel

/-- The multiple of `10 ^ k` nearest to `m * 2 ^ e` that is read back as that number, the greater
one of two equally near, if one of the two multiples around it is. -/
def onGrid? (m : Nat) (e k : Int) : Option Nat :=
  let (n, d) := scale m 1 e
  let (p, q) := tenPower k
  let below := n * q / (d * p)
  let reads (x : Nat) : Bool := ofQuotient false (x * p) q == .finite false m e
  let distance (x : Nat) : Nat := (x * p * d - n * q) + (n * q - x * p * d)
  let above := below + 1
  if reads below && reads above then
    some (if distance above ≤ distance below then above else below)
  else if reads below then some below
  else if reads above then some above
  else none

/-- The shortest decimal of `m * 2 ^ e` with at least `17 - fuel` digits: a whole number and the
power of ten it is multiplied by. -/
def shortestFrom (m : Nat) (e order : Int) : (fuel : Nat) → Nat × Int
  | 0 => ((onGrid? m e (order - 16)).getD 0, order - 16)
  | fuel + 1 =>
    match onGrid? m e (order - (15 - fuel : Int)) with
    | some x => (x, order - (15 - fuel : Int))
    | none => shortestFrom m e order fuel

/-- A whole number times a power of ten, without an exponent. -/
def positional (x : Nat) (k : Int) : List Char :=
  let ds := digits x
  if 0 ≤ k then ds ++ List.replicate k.toNat '0'
  else
    let places := (-k).toNat
    let ds := List.replicate (places + 1 - ds.length) '0' ++ ds
    ds.take (ds.length - places) ++ '.' :: ds.drop (ds.length - places)

/-- Takes the zeros off the end of a whole number, which is multiplied by a power of ten. -/
def dropZeros (x : Nat) (k : Int) : (fuel : Nat) → Nat × Int
  | 0 => (x, k)
  | fuel + 1 => if x % 10 = 0 then dropZeros (x / 10) (k + 1) fuel else (x, k)

/-- The text of a number. -/
def toText : Binary64 → List Char
  | .nan => "NaN".toList
  | .infinite negative => if negative then "-inf".toList else "inf".toList
  | .finite negative m e =>
    let unsigned :=
      if m = 0 then ['0']
      else
        let (n, d) := scale m 1 e
        let guess : Int := log2Quotient n d * 302 / 1000 + 2
        let order := log10From n d guess 400
        let (x, k) := shortestFrom m e order 16
        let (x, k) := dropZeros x k 400
        positional x k
    if negative then '-' :: unsigned else unsigned

end Binary64

end TraceMining.Text
