import Scriptlet.Number.Decimal
import Scriptlet.Text.Escape

/-!
# Number literals

The double a number literal denotes. A decimal literal denotes the nearest one; a hexadecimal
literal is accumulated digit by digit, each step rounding to the nearest.

The text of a literal is taken apart here once more, without the help of the grammar: a literal node
has no children, and its text is all that is known. What the grammar accepts as a literal always
denotes a number.
-/

namespace Scriptlet

/-- The value of decimal digits, read from left to right. -/
def digitsValue (digits : List Char) : Nat :=
  digits.foldl (fun n c => 10 * n + (c.toNat - '0'.toNat)) 0

/-- The exponent of a decimal literal: nothing, or a mark, perhaps a sign, and
digits. -/
def exponentValue? : List Char → Option Int
  | [] => some 0
  | mark :: rest =>
    let negative := rest.head? = some '-'
    let digits := if negative ∨ rest.head? = some '+' then rest.drop 1 else rest
    if (mark = 'e' ∨ mark = 'E') ∧ digits ≠ [] ∧ digits.all Char.isDigit then
      some (if negative then -(digitsValue digits) else digitsValue digits)
    else none

/-- The numeral a decimal literal writes: digits around an optional point, and an
optional exponent. -/
def decimalLiteral? (text : List Char) : Option Decimal :=
  let whole := text.takeWhile Char.isDigit
  let behind := text.dropWhile Char.isDigit
  let pointed := behind.head? = some '.'
  let fraction := if pointed then (behind.drop 1).takeWhile Char.isDigit else []
  let rest := if pointed then (behind.drop 1).dropWhile Char.isDigit else behind
  if whole = [] ∧ fraction = [] then none
  else (exponentValue? rest).map fun e => ⟨digitsValue (whole ++ fraction), e - fraction.length⟩

/-- The double hexadecimal digits denote, accumulated from left to right: sixteen times what came
before, plus the digit, each rounded. As long as the number fits into the significand nothing is
lost; beyond that, rounding happens at every digit. -/
def hexLiteral? (digits : List Char) : Option Float :=
  digits.foldlM
    (fun acc c => (hexDigitValue? c).map fun d => acc * 16 + (UInt64.ofNat d).toFloat) 0

/-- The double a number literal denotes. A hexadecimal one is known by how it begins. -/
def numericLiteral? : List Char → Option Float
  | '0' :: 'x' :: digits => hexLiteral? digits
  | '0' :: 'X' :: digits => hexLiteral? digits
  | text => (decimalLiteral? text).map Decimal.toFloat

end Scriptlet
