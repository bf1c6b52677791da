import MiniGoc.Number.Binary64

/-!
# The text of a number

A floating point number is written with the fewest digits that read back.
`FloatLayout` holds the decisions that remain: which magnitudes are written
positionally and how wide an exponent is.  `FloatLayout.plain` is the layout
that the printed programs and the generated code use.
-/

namespace MiniGoc

/-- Where positional notation ends and how an exponent is written. -/
structure FloatLayout where
  /-- The least magnitude written positionally. -/
  minMagnitude : Int
  /-- The greatest magnitude written positionally. -/
  maxMagnitude : Int
  /-- The least number of exponent digits. -/
  exponentWidth : Nat

namespace FloatLayout

/-- Positional from `0.0001` up to sixteen digits before the point, exponents
with a sign and at least two digits. -/
def plain : FloatLayout := ⟨-3, 16, 2⟩

/-- A numeral, filled with zeros on the left. -/
def padLeft (width : Nat) (s : String) : String :=
  String.ofList (List.replicate (width - s.length) '0') ++ s

def zeros (n : Nat) : String := String.ofList (List.replicate n '0')

/-- Digits with the point after the first `magnitude` of them.  A fraction is
always present. -/
def positional (digits : List Char) (magnitude : Int) : String :=
  if magnitude ≤ 0 then "0." ++ zeros (-magnitude).toNat ++ String.ofList digits
  else
    let n := magnitude.toNat
    if digits.length ≤ n then String.ofList digits ++ zeros (n - digits.length) ++ ".0"
    else String.ofList (digits.take n) ++ "." ++ String.ofList (digits.drop n)

/-- Digits with the point after the first of them and an exponent. -/
def scientific (layout : FloatLayout) (digits : List Char) (magnitude : Int) : String :=
  let e := magnitude - 1
  let mark := if e < 0 then "e-" else "e+"
  let point := if digits.length ≤ 1 then "" else "."
  String.ofList (digits.take 1) ++ point ++ String.ofList (digits.drop 1)
    ++ mark ++ padLeft layout.exponentWidth (toString e.natAbs)

def decimal (layout : FloatLayout) (d : Binary64.Decimal) : String :=
  let digits := Nat.toDigits 10 d.coefficient
  let magnitude : Int := digits.length + d.exponent
  if layout.minMagnitude ≤ magnitude && magnitude ≤ layout.maxMagnitude then
    positional digits magnitude
  else scientific layout digits magnitude

/-- The text of a number. -/
def render (layout : FloatLayout) : Binary64 → String
  | .nan => "nan"
  | .infinite neg => if neg then "-inf" else "inf"
  | .finite neg m e =>
      (if neg then "-" else "") ++ layout.decimal (Binary64.shortest m e)

end FloatLayout

/-- The text of a number in the plain layout. -/
def Binary64.render (x : Binary64) : String := FloatLayout.plain.render x

end MiniGoc
