/-!
# Double-precision numbers

A finite double is a sign, a significand below 2^53 and a power of two. Products and quotients
are exact results rounded to the nearest double, ties to the even significand.
-/

namespace ScriptModules.Number

/-- A finite double. Its magnitude is `significand * 2 ^ exponent`; the significand is at least
2^52 unless the exponent is the least one, -1074. -/
structure Binary64 where
  negative : Bool
  significand : Nat
  exponent : Int
  deriving DecidableEq, Repr, Inhabited

namespace Binary64

/-- The least exponent. -/
def leastExponent : Int := -1074

/-- The greatest exponent of a finite double. -/
def greatestExponent : Int := 971

/-- The numerator of a fraction multiplied by a power of two. -/
private def scaleUp (n : Nat) (e : Int) : Nat := n * Nat.pow 2 e.toNat

/-- The quotient of two numbers rounded to the nearest, ties to even. -/
def divideEven (num den : Nat) : Nat :=
  let q := num / den
  let r := num % den
  if 2 * r < den then q
  else if 2 * r > den then q + 1
  else if q % 2 == 0 then q else q + 1

/-- The exponent at which the quotient of two numbers has 53 binary digits, and no less than the
least exponent. -/
def exponentOf (num den : Nat) : Int :=
  let guess : Int := (num.log2 : Int) - den.log2 - 52
  let e := if scaleUp num (-guess) < scaleUp den guess * Nat.pow 2 52 then guess - 1 else guess
  max e leastExponent

/-- The double nearest to the quotient of two numbers, unless it exceeds every finite one. -/
def ofRatio? (negative : Bool) (num den : Nat) : Option Binary64 :=
  if num = 0 then some ⟨negative, 0, leastExponent⟩
  else
    let e := exponentOf num den
    let q := divideEven (scaleUp num (-e)) (scaleUp den e)
    let (q, e) := if q = Nat.pow 2 53 then (Nat.pow 2 52, e + 1) else (q, e)
    if e > greatestExponent then none else some ⟨negative, q, e⟩

/-- A double is zero when its significand is. -/
def isZero (x : Binary64) : Bool := x.significand == 0

/-- Zero with the given sign. -/
def zero (negative : Bool) : Binary64 := ⟨negative, 0, leastExponent⟩

/-- The numerator of a double's magnitude as a fraction. -/
def numerator (x : Binary64) : Nat := scaleUp x.significand x.exponent

/-- The denominator of a double's magnitude as a fraction. -/
def denominator (x : Binary64) : Nat := scaleUp 1 (-x.exponent)

/-- The rounded product, unless it is too large. -/
def mul? (x y : Binary64) : Option Binary64 :=
  ofRatio? (x.negative != y.negative) (x.numerator * y.numerator) (x.denominator * y.denominator)

/-- The rounded quotient, unless it is too large or the divisor is zero. -/
def div? (x y : Binary64) : Option Binary64 :=
  if y.isZero then none
  else ofRatio? (x.negative != y.negative)
    (x.numerator * y.denominator) (x.denominator * y.numerator)

/-- The same magnitude with the given sign. -/
def withSign (negative : Bool) (x : Binary64) : Binary64 := { x with negative := negative }

end Binary64

end ScriptModules.Number
