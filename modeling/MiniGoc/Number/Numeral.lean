import MiniGoc.Text.Class
import MiniGoc.Number.Binary64

/-!
# Reading numerals

An integer numeral is a sign and decimal digits, a float numeral a sign, digits
with a point and an exponent, or one of the names of infinity and of not a
number.  Blanks around a numeral are ignored.  An underscore may stand between
two digits.  The readers return `none` on every other text.
-/

namespace MiniGoc.Numeral

open MiniGoc.Text

/-- Splits off a sign.  The result says whether it was a minus. -/
def sign : List Char → Bool × List Char
  | '-' :: cs => (true, cs)
  | '+' :: cs => (false, cs)
  | cs => (false, cs)

/-- Digits read so far, how many there were, and the rest. -/
structure Run where
  value : Nat
  /-- Their number. -/
  count : Nat
  /-- The characters after them. -/
  rest : List Char

/-- The longest run of digits, in which single underscores may stand between
two digits. -/
def digits (value count : Nat) : List Char → Run
  | [] => ⟨value, count, []⟩
  | c :: cs =>
      match digitValue? c with
      | some d => digits (10 * value + d) (count + 1) cs
      | none =>
          match c, cs with
          | '_', d :: ds =>
              match digitValue? d with
              | some v =>
                  if count = 0 then ⟨value, count, c :: cs⟩
                  else digits (10 * value + v) (count + 1) ds
              | none => ⟨value, count, c :: cs⟩
          | _, _ => ⟨value, count, c :: cs⟩

def readInt? (s : String) : Option Int :=
  let (neg, cs) := sign (trimBlank s.toList)
  let run := digits 0 0 cs
  if run.count ≠ 0 && run.rest.isEmpty then
    some (if neg then -(run.value : Int) else (run.value : Int))
  else none

/-- Reads an exponent, if one stands here; zero if there is none. -/
def exponent : List Char → Option Int
  | [] => some 0
  | c :: cs =>
      if c = 'e' || c = 'E' then
        let (neg, cs) := sign cs
        let run := digits 0 0 cs
        if run.count ≠ 0 && run.rest.isEmpty then
          some (if neg then -(run.value : Int) else (run.value : Int))
        else none
      else none

/-- Reads a decimal without its sign. -/
def decimal? (neg : Bool) (cs : List Char) : Option Binary64 :=
  let whole := digits 0 0 cs
  match whole.rest with
  | '.' :: cs =>
      let fraction := digits whole.value 0 cs
      if whole.count + fraction.count = 0 then none
      else (exponent fraction.rest).map
        (fun e => Binary64.ofDecimal neg fraction.value (e - fraction.count))
  | rest =>
      if whole.count = 0 then none
      else (exponent rest).map (fun e => Binary64.ofDecimal neg whole.value e)

/-- Reads a floating point number. -/
def readFloat? (s : String) : Option Binary64 :=
  let (neg, cs) := sign (trimBlank s.toList)
  match String.ofList (cs.map lowerAscii) with
  | "inf" | "infinity" => some (.infinite neg)
  | "nan" => some .nan
  | _ => decimal? neg cs

end MiniGoc.Numeral
