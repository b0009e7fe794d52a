import Scriptlet.Proofs.Grammar.Numeral
import Scriptlet.Proofs.Number.Shortest

/-!
# Written numerals

However a numeral is laid out, with digits around a point or with an exponent, it is a number
literal that reads as the numeral does (`NumberStyle.numeral_reads`).

A numeral is digits and a power of ten. The layout sets a point among the digits, puts zeros before
or behind them, or writes an exponent; each of these leaves the value as it was. There are four
layouts, with a lemma for each, and which of them is chosen does not matter.
-/

namespace Scriptlet

/-! ## Reading digits

Digits are read as a number by a fold; zeros in front of them do not change it.
-/

/-- The value of digits is the library's. -/
theorem digitsValue_eq (digits : List Char) : digitsValue digits = Nat.ofDigitChars 10 digits 0 :=
  rfl

/-- Zeros in front of digits do not count. -/
theorem digitsValue_zeros (zeros : Nat) (digits : List Char) :
    digitsValue (List.replicate zeros '0' ++ digits) = digitsValue digits := by
  rw [digitsValue_eq, Nat.ofDigitChars_append, Nat.ofDigitChars_replicate_zero, Nat.mul_zero]
  rfl

/-! ## Numerals as they are laid out

To read a text is to know that it is a numeral and which value it has. Both are given for the two
forms of numerals, without a point and with one.
-/

/-- The text is a number literal that begins with a digit and reads as the numeral does. -/
structure Decimal.Reads (d : Decimal) (text : List Char) : Prop where
  numeral : Numeral text
  head : ∃ c ∈ text.head?, c.isDigit
  literal : numericLiteral? text = some d.toFloat

namespace Decimal

namespace Reads

variable {d : Decimal} {digits front fraction exponent : List Char} {e : Int}

/-- A numeral that is all digits is read as its digits say. -/
theorem whole (hne : digits ≠ []) (hdigits : ∀ d ∈ digits, d.isDigit)
    (hexponent : Exponent exponent) (he : exponentValue? exponent = some e)
    (hvalue : value ⟨digitsValue digits, e⟩ = d.value) : d.Reads (digits ++ exponent) := by
  refine ⟨.whole hne hdigits hexponent, ?_, ?_⟩
  · obtain ⟨c, digits, rfl⟩ := List.exists_cons_of_ne_nil hne
    exact ⟨c, rfl, hdigits c List.mem_cons_self⟩
  · rw [numericLiteral_whole hne hdigits hexponent, he]
    exact congrArg some (toFloat_congr hvalue)

/-- A numeral with a point is read with the digits on both sides of it together, and those behind it
lower the exponent. -/
theorem pointed (hne : front ≠ []) (hfront : ∀ d ∈ front, d.isDigit)
    (hfraction : ∀ d ∈ fraction, d.isDigit) (hexponent : Exponent exponent)
    (he : exponentValue? exponent = some e)
    (hvalue : value ⟨digitsValue (front ++ fraction), e - fraction.length⟩ = d.value) :
    d.Reads (front ++ '.' :: (fraction ++ exponent)) := by
  refine ⟨.pointed (.inl hne) hfront hfraction hexponent, ?_, ?_⟩
  · obtain ⟨c, front, rfl⟩ := List.exists_cons_of_ne_nil hne
    exact ⟨c, rfl, hfront c List.mem_cons_self⟩
  · rw [numericLiteral_pointed (.inl hne) hfront hfraction hexponent, he]
    exact congrArg some (toFloat_congr hvalue)

end Reads

theorem isDigit_of_mem_digits (d : Decimal) : ∀ c ∈ d.digits, c.isDigit := fun _ hc =>
  Nat.isDigit_of_mem_toDigits (by decide) (by decide) hc

/-- The digits of a numeral have its coefficient as their value. -/
theorem digitsValue_digits (d : Decimal) : digitsValue d.digits = d.coefficient :=
  Nat.ofDigitChars_ten_toDigits

end Decimal

namespace NumberStyle

theorem isDigit_of_mem_zeros (k : Nat) : ∀ c ∈ List.replicate k '0', c.isDigit := by
  intro c hc
  rw [List.eq_of_mem_replicate hc]
  rfl

/-- An integer is written with zeros behind its digits. -/
theorem zeros_reads {d : Decimal} (he : 0 ≤ d.exponent) :
    d.Reads (d.digits ++ List.replicate d.exponent.toNat '0' ++ []) := by
  have hdigits := List.forall_mem_append.mpr ⟨d.isDigit_of_mem_digits,
    isDigit_of_mem_zeros d.exponent.toNat⟩
  have hne : d.digits ≠ [] := Nat.toDigits_ne_nil
  refine .whole (by simp [hne]) hdigits .absent rfl ?_
  obtain ⟨k, hk⟩ := Int.eq_ofNat_of_zero_le he
  rw [digitsValue_eq, Nat.ofDigitChars_append, Nat.ofDigitChars_replicate_zero, ← digitsValue_eq,
    d.digitsValue_digits, Decimal.value, Decimal.value, hk, zpow_zero, Int.toNat_natCast,
    zpow_natCast]
  push_cast
  ring

/-- A point is set before some of the digits. -/
theorem point_reads {d : Decimal} {f : Nat} (he : d.exponent = -f) (hf : f < d.digits.length) :
    d.Reads (d.digits.take (d.digits.length - f) ++
      '.' :: (d.digits.drop (d.digits.length - f) ++ [])) := by
  have hdigits := d.isDigit_of_mem_digits
  have hne : d.digits ≠ [] := Nat.toDigits_ne_nil
  refine .pointed ?_ (fun c hc => hdigits c (List.mem_of_mem_take hc))
    (fun c hc => hdigits c (List.mem_of_mem_drop hc)) .absent rfl ?_
  · rw [Ne, List.take_eq_nil_iff]
    exact not_or.mpr ⟨by omega, hne⟩
  · have hexponent : (0 : Int) - (d.digits.drop (d.digits.length - f)).length = d.exponent := by
      rw [List.length_drop]
      omega
    rw [List.take_append_drop, d.digitsValue_digits, hexponent]

/-- Zeros are set between the point and the digits. -/
theorem fraction_reads {d : Decimal} {f : Nat} (he : d.exponent = -f) (hf : d.digits.length ≤ f) :
    d.Reads (['0'] ++
      '.' :: (List.replicate (f - d.digits.length) '0' ++ d.digits ++ [])) := by
  have hdigits := List.forall_mem_append.mpr ⟨isDigit_of_mem_zeros (f - d.digits.length),
    d.isDigit_of_mem_digits⟩
  refine .pointed (by simp) (isDigit_of_mem_zeros 1) hdigits .absent rfl ?_
  have hexponent : (0 : Int) -
      (List.replicate (f - d.digits.length) '0' ++ d.digits).length = d.exponent := by
    rw [List.length_append, List.length_replicate]
    omega
  rw [hexponent, ← List.append_assoc, List.singleton_append, ← List.replicate_succ,
    digitsValue_zeros, d.digitsValue_digits]

/-- Digits around a point, in each of the three cases. -/
theorem positional_reads (d : Decimal) : d.Reads (script.positional d.digits d.exponent) := by
  rw [positional]
  by_cases he : 0 ≤ d.exponent
  · rw [if_pos he]
    exact zeros_reads he
  · rw [if_neg he]
    change d.Reads (if (-d.exponent).toNat < d.digits.length then
      d.digits.take (d.digits.length - (-d.exponent).toNat) ++
        '.' :: d.digits.drop (d.digits.length - (-d.exponent).toNat)
      else ['0', '.'] ++ List.replicate ((-d.exponent).toNat - d.digits.length) '0' ++ d.digits)
    have hplaces : d.exponent = -((-d.exponent).toNat : Int) := by omega
    split
    · next hlt =>
      have hreads := point_reads hplaces hlt
      rwa [List.append_nil] at hreads
    · next hle =>
      have hreads := fraction_reads hplaces (not_lt.mp hle)
      rwa [List.append_nil] at hreads

/-- What stands behind the digits is an exponent, the place of the leading one. -/
theorem exists_exponent (place : Int) :
    ∃ exponent, Exponent exponent ∧ exponentValue? exponent = some place ∧
      ∀ digits, script.scientific digits place =
        digits.take 1 ++
          ((if digits.length ≤ 1 then [] else '.' :: digits.drop 1) ++ exponent) := by
  have hdigits : ∀ n, (∀ c ∈ Nat.toDigits 10 n, c.isDigit) := fun n c hc =>
    Nat.isDigit_of_mem_toDigits (by decide) (by decide) hc
  have hall : ∀ n, (Nat.toDigits 10 n).all Char.isDigit := fun n => List.all_eq_true.mpr (hdigits n)
  have hvalue : ∀ n, digitsValue (Nat.toDigits 10 n) = n := fun _ => Nat.ofDigitChars_ten_toDigits
  by_cases hplace : 0 ≤ place
  · refine ⟨'e' :: (['+'] ++ Nat.toDigits 10 place.toNat),
      .present (.inl rfl) (.inr (.inl rfl)) Nat.toDigits_ne_nil (hdigits _), ?_, fun digits => ?_⟩
    · simp [exponentValue?, hall, hvalue, hplace]
    · simp [scientific, signedDigits, hplace, script]
  · refine ⟨'e' :: (['-'] ++ Nat.toDigits 10 (-place).toNat),
      .present (.inl rfl) (.inr (.inr rfl)) Nat.toDigits_ne_nil (hdigits _), ?_, fun digits => ?_⟩
    · simp [exponentValue?, hall, hvalue]
      omega
    · simp [scientific, signedDigits, hplace]

/-- One digit before the point, the others behind it, and an exponent. -/
theorem scientific_reads (d : Decimal) :
    d.Reads (script.scientific d.digits (d.exponent + d.digits.length - 1)) := by
  have hdigits := d.isDigit_of_mem_digits
  have hne : d.digits ≠ [] := Nat.toDigits_ne_nil
  have hpos := List.length_pos_iff.mpr hne
  have hcoefficient := d.digitsValue_digits
  obtain ⟨exponent, hexponent, hvalue, htext⟩ :=
    exists_exponent (d.exponent + d.digits.length - 1)
  rw [htext]
  split
  · next hlen =>
    rw [List.take_of_length_le hlen, List.nil_append]
    refine .whole hne hdigits hexponent hvalue ?_
    have hplace : d.exponent + d.digits.length - 1 = d.exponent := by omega
    rw [hcoefficient, hplace]
  · next hlen =>
    refine .pointed ?_ (fun c hc => hdigits c (List.mem_of_mem_take hc))
      (fun c hc => hdigits c (List.mem_of_mem_drop hc)) hexponent hvalue ?_
    · rw [Ne, List.take_eq_nil_iff]
      exact not_or.mpr ⟨by decide, hne⟩
    · have hplace : d.exponent + d.digits.length - 1 - (d.digits.drop 1).length = d.exponent := by
        rw [List.length_drop]
        omega
      rw [List.take_append_drop, hcoefficient, hplace]

/-- **A numeral reads back as it is written**, whichever layout was chosen: with zeros behind its
digits, with a point among them or before them, or with an exponent. -/
theorem numeral_reads (d : Decimal) : d.Reads (script.numeral d) := by
  rw [numeral]
  split
  · exact positional_reads d
  · exact scientific_reads d

end NumberStyle

end Scriptlet
