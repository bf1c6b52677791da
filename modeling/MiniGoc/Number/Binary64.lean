/-!
# Binary floating point numbers

`Binary64` is the type of double precision numbers, written as a sign, a
mantissa and a power of two.  All arithmetic is exact on natural numbers.
Reading a decimal rounds to the nearest number, a tie to the even mantissa
(`Binary64.ofDecimal`).  Writing takes the fewest digits that read back
(`Binary64.shortest`).

A finite number is in *normal form* when its mantissa is below `2 ^ 53`, its
exponent is at least `-1074`, and its mantissa is at least `2 ^ 52` unless the
exponent is `-1074`.  `Binary64.round` gives normal forms only.
-/

namespace MiniGoc

/-- A double precision number. -/
inductive Binary64 where
  /-- Not a number. -/
  | nan
  | infinite (negative : Bool)
  | finite (negative : Bool) (mantissa : Nat) (exponent : Int)
deriving DecidableEq, Repr, Inhabited

namespace Binary64

def minExponent : Int := -1074

def maxExponent : Int := 971

/-- `b ^ e` for a non negative exponent, and one otherwise. -/
def powUp (b : Nat) (e : Int) : Nat := b.pow e.toNat

/-- `b ^ (-e)` for a negative exponent, and one otherwise. -/
def powDown (b : Nat) (e : Int) : Nat := b.pow (-e).toNat

/-- The mantissas from here on need more than 52 bits. -/
def leastFull : Nat := Nat.pow 2 52

def zero (negative : Bool) : Binary64 := .finite negative 0 minExponent

/-- The natural number nearest to `num / den`, a tie to the even one. -/
def nearest (num den : Nat) : Nat :=
  let q := num / den
  let r := num % den
  if 2 * r < den then q
  else if den < 2 * r then q + 1
  else if q % 2 = 0 then q else q + 1

/-- The exponent at which `num / den` has a mantissa of 53 bits, or the least
exponent if that is greater. -/
def exponentFor (num den : Nat) : Int :=
  let guess : Int := (Nat.log2 num : Int) - (Nat.log2 den : Int) - 52
  -- The guess is right or one too great.
  let small := num * powDown 2 guess < leastFull * (den * powUp 2 guess)
  let e := if small then guess - 1 else guess
  if e < minExponent then minExponent else e

/-- The double nearest to `± num / den`. -/
def round (negative : Bool) (num den : Nat) : Binary64 :=
  if num = 0 then zero negative
  else
    let e := exponentFor num den
    let m := nearest (num * powDown 2 e) (den * powUp 2 e)
    let (m, e) := if m = 2 * leastFull then (leastFull, e + 1) else (m, e)
    if maxExponent < e then .infinite negative else .finite negative m e

/-- How many decimal digits a natural number has. -/
def digitCount (n : Nat) : Nat := (Nat.toDigits 10 n).length

/-- The double nearest to `± digits * 10 ^ exponent`.  Numbers that are far
out of range are settled before any power is computed. -/
def ofDecimal (negative : Bool) (digits : Nat) (exponent : Int) : Binary64 :=
  let size : Int := digitCount digits + exponent
  if digits = 0 || size < -330 then zero negative
  else if 310 < size then .infinite negative
  else round negative (digits * powUp 10 exponent) (powDown 10 exponent)

/-- A decimal number `coefficient * 10 ^ exponent` without a sign. -/
structure Decimal where
  /-- The digits, as one number. -/
  coefficient : Nat
  /-- The power of ten. -/
  exponent : Int
deriving DecidableEq, Repr, Inhabited

/-- A decimal without zeros at the end of its coefficient. -/
def Decimal.trim : Nat → Decimal → Decimal
  | 0, d => d
  | fuel + 1, d =>
      if d.coefficient ≠ 0 && d.coefficient % 10 = 0 then
        Decimal.trim fuel ⟨d.coefficient / 10, d.exponent + 1⟩
      else d

/-- The reals that round to a number, as fractions over one denominator. -/
structure Interval where
  /-- Numerator of the lower end. -/
  low : Nat
  /-- Numerator of the number itself. -/
  mid : Nat
  /-- Numerator of the upper end. -/
  high : Nat
  den : Nat
  /-- Whether the ends round to the number too. -/
  closed : Bool

/-- The rounding interval of `mantissa * 2 ^ exponent`.  Below a power of two
the neighbour is half as far. -/
def interval (mantissa : Nat) (exponent : Int) : Interval :=
  let e := exponent - 2
  let up := powUp 2 e
  let below := if mantissa = leastFull && minExponent < exponent then 1 else 2
  ⟨(4 * mantissa - below) * up, 4 * mantissa * up, (4 * mantissa + 2) * up, powDown 2 e,
    mantissa % 2 = 0⟩

/-- Whether `c * 10 ^ k` lies in the interval. -/
def Interval.holds (i : Interval) (c : Nat) (k : Int) : Bool :=
  let x := c * powUp 10 k * i.den
  let low := i.low * powDown 10 k
  let high := i.high * powDown 10 k
  if i.closed then low ≤ x && x ≤ high else low < x && x < high

/-- The number of digits before the point; zero or less for a number below
one.  The scaling makes the whole part of every number non zero. -/
def Interval.magnitude (i : Interval) : Int :=
  (digitCount (i.mid * Nat.pow 10 400 / i.den) : Int) - 400

/-- The better of the two neighbours on the grid of multiples of `10 ^ k`, if
one of them lies in the interval.  The nearer wins, a tie goes to the even
coefficient. -/
def Interval.onGrid (i : Interval) (k : Int) : Option Decimal :=
  let num := i.mid * powDown 10 k
  let den := i.den * powUp 10 k
  let down := num / den
  let rest := num % den
  match i.holds down k, i.holds (down + 1) k with
  | false, false => none
  | true, false => some ⟨down, k⟩
  | false, true => some ⟨down + 1, k⟩
  | true, true =>
      if 2 * rest < den then some ⟨down, k⟩
      else if den < 2 * rest then some ⟨down + 1, k⟩
      else if down % 2 = 0 then some ⟨down, k⟩ else some ⟨down + 1, k⟩

/-- Tries grids of one digit more each time. -/
def Interval.search (i : Interval) (magnitude : Int) : Nat → Nat → Decimal
  | 0, n => ⟨i.mid * powDown 10 (magnitude - n) / (i.den * powUp 10 (magnitude - n)), magnitude - n⟩
  | fuel + 1, n =>
      match i.onGrid (magnitude - n) with
      | some d => d
      | none => i.search magnitude fuel (n + 1)

/-- The decimal with the fewest digits among those that read back as
`mantissa * 2 ^ exponent`, and the nearest of them. -/
def shortest (mantissa : Nat) (exponent : Int) : Decimal :=
  if mantissa = 0 then ⟨0, 0⟩
  else
    let i := interval mantissa exponent
    Decimal.trim 400 (i.search i.magnitude 17 1)

/-- Whether two numbers compare as equal: no number equals `nan`, and the two
zeros are equal. -/
def same : Binary64 → Binary64 → Bool
  | .nan, _ => false
  | _, .nan => false
  | .infinite a, .infinite b => a == b
  | .finite _ 0 _, .finite _ 0 _ => true
  | .finite a m e, .finite b n f =>
      a == b && m * powUp 2 e * powDown 2 f == n * powUp 2 f * powDown 2 e
  | _, _ => false

/-- Whether a number equals an integer. -/
def sameInt : Binary64 → Int → Bool
  | .finite neg m e, i =>
      let v : Int := m * powUp 2 e
      (if neg then -v else v) == i * powDown 2 e
  | _, _ => false

end Binary64

end MiniGoc
