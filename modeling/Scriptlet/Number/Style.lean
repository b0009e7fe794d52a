import Scriptlet.Number.Decimal

/-!
# Number text

Two ways of writing doubles, which share the shortest digits that read back and differ in where they
put the point: `NumberStyle.script` is how scripts show numbers, `NumberStyle.record` how the
listing of a program does.

A number is written positionally, with its point where it belongs, or with one digit before the
point and an exponent. Which of the two depends on the place of the leading digit: a style has a
range of places for which it writes positionally. Everything else that styles differ in is a field
of `NumberStyle`, and `NumberStyle.text` is one function for all of them.
-/

namespace Scriptlet

/-- The decisions a way of writing doubles makes. The digits themselves are no such decision. -/
structure NumberStyle where
  /-- the least place of a leading digit that is still written positionally -/
  least : Int
  /-- the first place of a leading digit that is not written positionally -/
  limit : Int
  /-- what a whole number ends in when it is written positionally -/
  wholeEnding : List Char
  /-- what stands before an exponent that is not negative -/
  exponentSign : List Char
  /-- the text of zero -/
  zero : List Char
  /-- whether the sign of a negative zero is written -/
  signedZero : Bool
  /-- the text of infinity -/
  infinity : List Char

namespace NumberStyle

/-- Scripts show no trailing point, no sign of zero, and use exponents outside
`[1e-6, 1e21)`. -/
def script : NumberStyle where
  least := -6
  limit := 21
  wholeEnding := []
  exponentSign := ['+']
  zero := ['0']
  signedZero := false
  infinity := "Infinity".toList

/-- Listings always show a fraction or an exponent, the latter outside
`[1e-4, 1e16)`. -/
def record : NumberStyle where
  least := -4
  limit := 16
  wholeEnding := ['.', '0']
  exponentSign := []
  zero := "0.0".toList
  signedZero := true
  infinity := "inf".toList

/-- Digits around a point: `digits · 10 ^ exponent` with `digits` read as a whole number. Zeros fill
the places between the digits and the point. -/
def positional (style : NumberStyle) (digits : List Char) (exponent : Int) : List Char :=
  if 0 ≤ exponent then
    digits ++ List.replicate exponent.toNat '0' ++ style.wholeEnding
  else
    let fraction := (-exponent).toNat
    if fraction < digits.length then
      let whole := digits.length - fraction
      digits.take whole ++ '.' :: digits.drop whole
    else
      ['0', '.'] ++ List.replicate (fraction - digits.length) '0' ++ digits

/-- An integer in decimal digits, a negative one with its sign, for exponents. -/
def signedDigits (n : Int) : List Char :=
  if 0 ≤ n then Nat.toDigits 10 n.toNat else '-' :: Nat.toDigits 10 (-n).toNat

/-- One digit before the point, the others behind it, and the exponent of the
leading digit. -/
def scientific (style : NumberStyle) (digits : List Char) (place : Int) : List Char :=
  let fraction := if digits.length ≤ 1 then [] else '.' :: digits.drop 1
  let sign := if 0 ≤ place then style.exponentSign else []
  digits.take 1 ++ fraction ++ 'e' :: sign ++ signedDigits place

/-- A numeral in the notation the place of its leading digit asks for. -/
def numeral (style : NumberStyle) (d : Decimal) : List Char :=
  let place := d.exponent + d.digits.length - 1
  if style.least ≤ place ∧ place < style.limit then style.positional d.digits d.exponent
  else style.scientific d.digits place

/-- The text of a double: words for what is not finite, a text of its own for zero, and
otherwise the shortest numeral with the sign in front of it. -/
def text (style : NumberStyle) (x : Float) : List Char :=
  match x.toModel.unpack with
  | .notANumber => "NaN".toList
  | .infinity .negative => '-' :: style.infinity
  | .infinity .positive => style.infinity
  | .zero .negative => if style.signedZero then '-' :: style.zero else style.zero
  | .zero .positive => style.zero
  | .finite .negative .. => '-' :: style.numeral (Decimal.shortest x)
  | .finite .positive .. => style.numeral (Decimal.shortest x)

end NumberStyle

/-- The text scripts see for a number. -/
def numberText (x : Float) : String :=
  String.ofList (NumberStyle.script.text x)

end Scriptlet
