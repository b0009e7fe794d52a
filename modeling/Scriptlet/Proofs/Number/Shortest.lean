import Scriptlet.Number.Style
import Scriptlet.Proofs.Number.Rounding

/-!
# Numerals and the doubles they read as

A numeral reads as the double nearest to its value (`Decimal.isNearest_toFloat`), so which one it is
depends on the value only. The shortest numeral of a double that is finite reads as its magnitude
(`Decimal.toFloat_shortest`): the search for it keeps nothing that does not, and ends at the exact
value.

The search tries numerals with more and more digits and takes the first that reads back. So that
what it finds reads back needs no argument; what needs one is that it finds something. The last
numeral that it tries is the exact value of the double, which has finitely many decimal digits and
reads back since a double is nearest to itself.
-/

namespace Scriptlet

open Float.Model Float.Model.UnpackedFloat

namespace Decimal

/-- The number a numeral stands for. -/
def value (d : Decimal) : ℚ := d.coefficient * 10 ^ d.exponent

/-- **A numeral reads as the nearest double.** This is the specification of reading decimal
numerals. -/
theorem isNearest_toFloat (d : Decimal) : IsNearest d.value d.toFloat :=
  isNearest_ofScientific d.coefficient d.exponent

/-- Numerals of one value read as one double. -/
theorem toFloat_congr {d d' : Decimal} (h : d.value = d'.value) : d.toFloat = d'.toFloat :=
  d.isNearest_toFloat.unique (h ▸ d'.isNearest_toFloat)

/-- A binary number that is written as a decimal one keeps its value. -/
theorem value_ofBinary (m : Nat) (e : Int) : (ofBinary m e).value = m * 2 ^ e := by
  rw [ofBinary]
  split
  · next he =>
    obtain ⟨k, rfl⟩ := Int.eq_ofNat_of_zero_le he
    simp [value]
  · next he =>
    obtain ⟨k, hk⟩ := Int.eq_ofNat_of_zero_le (by omega : 0 ≤ -e)
    obtain rfl : e = -(k : Int) := by omega
    have hten : (10 : ℚ) ^ k = 5 ^ k * 2 ^ k := by rw [← mul_pow]; norm_num
    simp only [value, neg_neg, Int.toNat_natCast, zpow_neg, zpow_natCast, Nat.pow_eq, hten]
    push_cast
    field_simp

/-- The exact magnitude is where the double stands without its sign. -/
theorem value_magnitude {x : Float} (hx : x.isFinite) :
    ∃ p, place? x = some p ∧ (magnitude x).value = |p| := by
  change x.toModel.unpack.isFinite = true at hx
  rw [magnitude, place?]
  generalize x.toModel.unpack = u at hx
  cases u with
  | infinity _ => cases hx
  | notANumber => cases hx
  | zero _ => exact ⟨0, rfl, by simp [value]⟩
  | finite s m e _ =>
    refine ⟨_, rfl, ?_⟩
    rw [abs_signed, abs_of_nonneg (by positivity)]
    exact value_ofBinary m e

/-- The exact magnitude reads as the double without its sign. -/
theorem toFloat_magnitude {x : Float} (hx : x.isFinite) : (magnitude x).toFloat = x.abs := by
  obtain ⟨p, hp, hvalue⟩ := value_magnitude hx
  obtain ⟨m, e, hsignificand, habs, hplace⟩ := exists_significand hp
  have hnearest := (magnitude x).isNearest_toFloat
  rw [hvalue, hplace] at hnearest
  exact habs ▸ hnearest.unique hsignificand.isNearest

/-- Trailing zeros are a power of ten. -/
theorem value_trimmed (d : Decimal) : d.trimmed.value = d.value := by
  let zeros := d.digits.reverse.takeWhile (· = '0')
  have hzeros : zeros.reverse = List.replicate zeros.length '0' := by
    refine List.eq_replicate_iff.mpr ⟨List.length_reverse, fun c hc => ?_⟩
    have hzero := List.mem_takeWhile_imp (List.mem_reverse.mp hc)
    exact of_decide_eq_true hzero
  have hsplit : d.digits = (d.digits.reverse.dropWhile (· = '0')).reverse ++
      List.replicate zeros.length '0' := by
    rw [← hzeros, ← List.reverse_append, List.takeWhile_append_dropWhile, List.reverse_reverse]
  have hcoefficient : ∃ front, d.coefficient = 10 ^ zeros.length * front := by
    have hdigits : Nat.ofDigitChars 10 d.digits 0 = d.coefficient := Nat.ofDigitChars_ten_toDigits
    rw [hsplit, Nat.ofDigitChars_append, Nat.ofDigitChars_replicate_zero] at hdigits
    exact ⟨_, hdigits.symm⟩
  obtain ⟨front, hfront⟩ := hcoefficient
  change ((d.coefficient / 10 ^ zeros.length : Nat) : ℚ) * 10 ^ (d.exponent + zeros.length) = _
  rw [value, hfront, Nat.mul_div_cancel_left _ (by positivity), zpow_add₀ (by norm_num),
    zpow_natCast]
  push_cast
  ring

/-- **The shortest numeral reads back.** Reading a numeral rounds it to the nearest double, and the
search stops only at a numeral for which this is the magnitude it began with; it ends at the exact
value at the latest. -/
theorem toFloat_shortest {x : Float} (hx : x.isFinite) : (shortest x).toFloat = x.abs := by
  rw [shortest, toFloat_congr (value_trimmed _)]
  cases hfound : List.findSome? _ _ with
  | none => exact toFloat_magnitude hx
  | some d =>
    obtain ⟨i, -, hi⟩ := List.exists_of_findSome?_eq_some hfound
    have hd := List.find?_some hi
    exact of_decide_eq_true hd

end Decimal

end Scriptlet
