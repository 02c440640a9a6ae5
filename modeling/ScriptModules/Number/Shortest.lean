import ScriptModules.Number.Binary64

/-!
# The shortest text of a double

Of the decimals that read back as a double, the one with the fewest digits is written, and of
those the nearest. The search goes through the decimal grids from coarse to fine in exact
arithmetic.
-/

namespace ScriptModules.Number

/-- A decimal: digits without a zero at either end, and the power of ten of the first digit. -/
structure Decimal where
  digits : List Char
  exponent : Int
  deriving DecidableEq, Repr

namespace Binary64

/-- The reals that round to a double, in quarters of its last binary place: from `low` to `high`,
ends included when the significand is even. -/
private def interval (x : Binary64) : Nat × Nat :=
  let low :=
    if x.significand = Nat.pow 2 52 ∧ x.exponent > leastExponent then 4 * x.significand - 1
    else 4 * x.significand - 2
  (low, 4 * x.significand + 2)

/-- The power of ten of the first digit of a quotient, searched downward from `guess`. -/
private def leadingPower (num den : Nat) : Nat → Int → Int
  | 0, guess => guess
  | fuel + 1, guess =>
    if den * Nat.pow 10 guess.toNat ≤ num * Nat.pow 10 (-guess).toNat then guess
    else leadingPower num den fuel (guess - 1)

/-- The nearest point of the grid of the given spacing that reads back as the double. -/
private def gridPoint? (x : Binary64) (spacing : Int) : Option Nat :=
  let (low, high) := x.interval
  -- Everything is measured in units of the grid over a common denominator.
  let up := Nat.pow 10 (-spacing).toNat * Nat.pow 2 x.exponent.toNat
  let den := 4 * Nat.pow 2 (-x.exponent).toNat * Nat.pow 10 spacing.toNat
  let value := 4 * x.significand * up
  let reads (k : Nat) : Bool :=
    if x.significand % 2 == 0 then low * up ≤ k * den && k * den ≤ high * up
    else low * up < k * den && k * den < high * up
  let below := value / den
  let rest := value % den
  match reads below && below != 0, reads (below + 1) with
  | true, true =>
    if 2 * rest < den || (2 * rest == den && below % 2 == 0) then some below else some (below + 1)
  | true, false => some below
  | false, true => some (below + 1)
  | false, false => none

/-- Search the grids with one more digit each time. -/
private def search (x : Binary64) (lead : Int) : Nat → Nat → Nat × Int
  | 0, count => (x.significand, lead - count)
  | fuel + 1, count =>
    match x.gridPoint? (lead - count) with
    | some k => (k, lead - count)
    | none => search x lead fuel (count + 1)

/-- The shortest decimal of a double's magnitude. -/
def shortest (x : Binary64) : Decimal :=
  if x.isZero then ⟨['0'], 0⟩
  else
    let guess : Int := ((x.significand.log2 : Int) + x.exponent) * 30103 / 100000 + 1
    let lead := leadingPower x.numerator x.denominator 4 guess
    let (k, spacing) := search x lead 20 0
    let digits := (toString k).toList
    let trimmed := (digits.reverse.dropWhile (· == '0')).reverse
    ⟨trimmed, spacing + (digits.length - 1 : Nat)⟩

/-- Decimals between 10^-5 and 10^16 are written by position, all others with a signed exponent
of at least one digit. There is always a digit after a decimal point. -/
def text (x : Binary64) : String :=
  let d := x.shortest
  let zeros (n : Nat) : List Char := List.replicate n '0'
  let body : List Char :=
    if d.exponent < -5 || d.exponent ≥ 16 then
      let mantissa :=
        match d.digits with
        | [] => []
        | [c] => [c]
        | c :: r => c :: '.' :: r
      let sign := if d.exponent < 0 then '-' else '+'
      mantissa ++ 'e' :: sign :: (toString d.exponent.natAbs).toList
    else if d.exponent < 0 then
      '0' :: '.' :: (zeros (d.exponent.natAbs - 1) ++ d.digits)
    else
      let whole := d.exponent.toNat + 1
      let first := d.digits.take whole
      let second := d.digits.drop whole
      first ++ zeros (whole - first.length) ++ '.' :: (if second.isEmpty then ['0'] else second)
  String.ofList (if x.negative then '-' :: body else body)

end Binary64

end ScriptModules.Number
