/-!
# Decimal numerals and doubles

A numeral is a coefficient times a power of ten. `Decimal.toFloat` reads it as the nearest double,
and `Decimal.shortest` goes the other way: the numeral with the fewest digits that still reads back
as the given double.

Both are exact. A double is a whole number times a power of two and so has finitely many decimal
digits (`Decimal.magnitude`); numerals with fewer digits are got from it by dropping some and
rounding to either side. Of these, the first that reads back as the double is the shortest.
-/

namespace Scriptlet

/-- The number `coefficient · 10 ^ exponent`. A number has many such forms, with more or fewer zeros
at the end of the coefficient. -/
structure Decimal where
  /-- the digits, as one natural number -/
  coefficient : Nat
  /-- the power of ten they are scaled by -/
  exponent : Int
deriving DecidableEq, Repr

namespace Decimal

/-- The double nearest to a numeral; of two equally near ones, the one with the
even significand. -/
def toFloat (d : Decimal) : Float :=
  Float.ofModel (Float.Model.ofScientific d.coefficient d.exponent)

/-- The decimal digits of the coefficient. -/
def digits (d : Decimal) : List Char :=
  Nat.toDigits 10 d.coefficient

/-- The exact value of `m · 2 ^ q`. A negative power of two is a power of five
over a power of ten. -/
def ofBinary (m : Nat) (q : Int) : Decimal :=
  if 0 ≤ q then ⟨m * Nat.pow 2 q.toNat, 0⟩ else ⟨m * Nat.pow 5 (-q).toNat, q⟩

/-- The exact magnitude of a finite double, its sign left out, and zero for infinities and NaN. -/
def magnitude (x : Float) : Decimal :=
  match x.toModel.unpack with
  | .finite _ m q _ => ofBinary m q
  | _ => ⟨0, 0⟩

/-- The two numerals on either side of `d` that lack its last `dropped` digits,
the nearer one first. Half way between them the upper one comes first. -/
def neighbours (d : Decimal) (dropped : Nat) : List Decimal :=
  let unit := Nat.pow 10 dropped
  let below : Decimal := ⟨d.coefficient / unit, d.exponent + dropped⟩
  let above : Decimal := ⟨d.coefficient / unit + 1, d.exponent + dropped⟩
  if 2 * (d.coefficient % unit) < unit then [below, above] else [above, below]

/-- The same number without trailing zeros in its coefficient. Zero stays zero. -/
def trimmed (d : Decimal) : Decimal :=
  let zeros := (d.digits.reverse.takeWhile (· = '0')).length
  ⟨d.coefficient / Nat.pow 10 zeros, d.exponent + zeros⟩

/-- The numeral with the fewest digits that reads back as the magnitude of `x`,
and of those the nearest. The search ends at the exact value, which has finitely
many digits and reads back as itself. -/
def shortest (x : Float) : Decimal :=
  let exact := magnitude x
  let size := exact.digits.length
  let found := (List.range size).findSome? fun i =>
    (exact.neighbours (size - 1 - i)).find? fun d => d.toFloat = x.abs
  (found.getD exact).trimmed

end Decimal

end Scriptlet
