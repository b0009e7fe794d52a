import Scriptlet.Proofs.Number.Nearest

/-!
# Arithmetic that rounds

The operations on doubles compute a number exactly, as far as rounding has to know it
(`Represents`), and then round it. So their results are the doubles nearest to the exact ones: for
products, quotients, sums and the integers of doubles, and for decimal numerals
(`Decimal.isNearest_toFloat`).

An operation cannot keep all digits of its result. It keeps the integer part in units of the last
place, one more binary digit and the information whether anything else follows. The first part of
this module shows that this is enough (`Represents.rounds`) and that it is kept under shifts; the
second that the double that is made of it is the nearest one; the third goes through the operations
and shows what each of them hands to rounding.
-/

namespace Scriptlet

open Float.Model Float.Model.UnpackedFloat

variable {q r : ℚ} {m n : Nat} {e t : Int}

/-! ## Residual bits

The integer part, the round bit and the sticky bit. Shifting by one digit moves the lowest digit
into the round bit and the round bit into the sticky one.
-/

/-- The mantissa is the integer part of a number, the round bit its first binary digit behind the
point, and the sticky bit whether anything else is behind it. -/
def Represents (em : ExtendedMantissa) (r : ℚ) : Prop :=
  ∃ rest, 0 ≤ rest ∧ rest < 1 / 2 ∧ (em.stickyBit = true ↔ 0 < rest) ∧
    r = em.mantissa + (if em.roundBit then 1 / 2 else 0) + rest

namespace Represents

variable {em : ExtendedMantissa}

theorem le (h : Represents em r) : em.mantissa ≤ r := by
  obtain ⟨rest, hrest, -, -, rfl⟩ := h
  split <;> linarith

theorem lt (h : Represents em r) : r < em.mantissa + 1 := by
  obtain ⟨rest, -, hrest, -, rfl⟩ := h
  split <;> linarith

/-- Shifting by one digit halves the number that is represented, rest and all. -/
theorem shiftRightOne (h : Represents em r) : Represents em.shiftRightOne (r / 2) := by
  obtain ⟨m, round, sticky⟩ := em
  obtain ⟨rest, hrest, hlt, hsticky, rfl⟩ := h
  have hm : (m : ℚ) = 2 * (m / 2 : Nat) + (m % 2 : Nat) := by
    exact_mod_cast (Nat.div_add_mod m 2).symm
  refine ⟨((if round then 1 / 2 else 0) + rest) / 2, ?_, ?_, ?_, ?_⟩
  · split <;> linarith
  · split <;> linarith
  · cases round <;> simp_all [ExtendedMantissa.shiftRightOne]
    linarith
  · rcases Nat.mod_two_eq_zero_or_one m with h | h
    · rw [h] at hm
      simp [ExtendedMantissa.shiftRightOne, h]
      linarith
    · rw [h] at hm
      simp [ExtendedMantissa.shiftRightOne, h]
      linarith

/-- Shifting by several digits divides the number by a power of two, by induction on how many. -/
theorem shiftRight (h : Represents em r) (k : Nat) : Represents (em >>> k) (r / 2 ^ k) := by
  induction k with
  | zero => rwa [pow_zero, div_one]
  | succ k ih =>
    rw [pow_succ, ← div_div]
    exact ih.shiftRightOne

/-- **The rounded mantissa is the nearest integer**, and of two the even one: the sticky bit tells
whether the number is half way. -/
theorem rounds (h : Represents em r) : RoundsTo r em.roundedMantissa := by
  obtain ⟨m, round, sticky⟩ := em
  obtain ⟨rest, hrest, hlt, hsticky, rfl⟩ := h
  cases round <;> cases sticky
  · obtain rfl : rest = 0 := le_antisymm (not_lt.mp fun h => nomatch hsticky.mpr h) hrest
    refine .of_lt ?_
    change |(m : ℚ) + 0 + 0 - m| < 1 / 2
    norm_num
  · refine .of_lt ?_
    change |(m : ℚ) + 0 + rest - m| < 1 / 2
    rw [abs_lt]
    constructor <;> linarith
  · obtain rfl : rest = 0 := le_antisymm (not_lt.mp fun h => nomatch hsticky.mpr h) hrest
    have heven : Even (m + m % 2) := by
      rcases Nat.even_or_odd m with hm | hm
      · rwa [Nat.even_iff.mp hm, Nat.add_zero]
      · rw [Nat.odd_iff.mp hm]
        exact hm.add_one
    refine ⟨?_, fun _ => heven⟩
    change |(m : ℚ) + 1 / 2 + 0 - (m + m % 2 : Nat)| ≤ 1 / 2
    have hbit : ((m % 2 : Nat) : ℚ) = 0 ∨ ((m % 2 : Nat) : ℚ) = 1 := by
      rcases Nat.mod_two_eq_zero_or_one m with h | h <;> simp [h]
    rw [Nat.cast_add, abs_le]
    rcases hbit with h | h <;> rw [h] <;> constructor <;> linarith
  · have hpos : 0 < rest := hsticky.mp rfl
    refine .of_lt ?_
    change |(m : ℚ) + 1 / 2 + rest - (m + 1 : Nat)| < 1 / 2
    rw [Nat.cast_add, Nat.cast_one, abs_lt]
    constructor <;> linarith

/-- A number that is an integer has no residual bits. -/
theorem exact (m : Nat) : Represents (.ofMantissaAndAccuracy m .exact) m :=
  ⟨0, le_rfl, by norm_num, by simp [ExtendedMantissa.ofMantissaAndAccuracy],
    by simp [ExtendedMantissa.ofMantissaAndAccuracy]⟩

end Represents

/-! ## Rounding to a double

The target exponent is the one at which the number has 53 digits, unless it would be too small.
-/

/-- The exponent aimed at leaves 53 digits of the number, counted from where its first one is, and
is not below the least exponent. -/
theorem targetExponent_eq (t : Int) : Format.binary64.targetExponent t = max (t - 53) (-1074) := rfl

/-- The exponent that rounding goes to, if it is not smaller than the one a number is given in. -/
theorem Represents.scaled {em : ExtendedMantissa} (h : Represents em (q / 2 ^ e))
    (he : e ≤ Format.binary64.targetExponent (totalExponent em.mantissa e)) :
    Scaled q (Format.binary64.targetExponent (totalExponent em.mantissa e)) := by
  have hunit : (0 : ℚ) < 2 ^ e := by positivity
  have hlow : em.mantissa * 2 ^ e ≤ q := (le_div_iff₀ hunit).mp h.le
  have hhigh : q < (em.mantissa + 1) * 2 ^ e := (div_lt_iff₀ hunit).mp h.lt
  rw [targetExponent_eq, totalExponent] at *
  generalize em.mantissa = m at *
  rcases Nat.eq_zero_or_pos m with rfl | hm
  · rw [Nat.log2_zero] at *
    refine ⟨le_max_right _ _, ?_, .inl (by omega)⟩
    rw [Nat.cast_zero, zero_add, one_mul] at hhigh
    exact hhigh.trans_le (zpow_le_zpow_right₀ one_le_two (by omega))
  · have hfloor : (2 : ℚ) ^ (m.log2 : Int) ≤ m := by
      rw [zpow_natCast]
      exact_mod_cast Nat.log2_self_le hm.ne'
    have hceil : (m : ℚ) + 1 ≤ 2 ^ ((m.log2 : Int) + 1) := by
      have hlt : m + 1 ≤ 2 ^ (m.log2 + 1) := Nat.lt_log2_self
      exact_mod_cast hlt
    refine ⟨le_max_right _ _, ?_, or_iff_not_imp_left.mpr fun hne => ?_⟩
    · calc q < (m + 1) * 2 ^ e := hhigh
        _ ≤ 2 ^ ((m.log2 : Int) + 1) * 2 ^ e := by gcongr
        _ = 2 ^ ((m.log2 : Int) + 1 + e) := (zpow_add₀ two_ne_zero _ _).symm
        _ ≤ _ := zpow_le_zpow_right₀ one_le_two (by omega)
    · have hexponent : max ((m.log2 : Int) + 1 + e - 53) (-1074) + 52 = m.log2 + e := by omega
      calc (2 : ℚ) ^ (max ((m.log2 : Int) + 1 + e - 53) (-1074) + 52)
          = 2 ^ ((m.log2 : Int) + e) := congrArg _ hexponent
        _ = 2 ^ (m.log2 : Int) * 2 ^ e := zpow_add₀ two_ne_zero _ _
        _ ≤ m * 2 ^ e := by gcongr
        _ ≤ q := hlow

/-- Going there is a shift to the right, if the number has enough digits. -/
theorem shiftToTargetExponent_eq (accuracy : Accuracy)
    (he : e ≤ Format.binary64.targetExponent (totalExponent m e)) :
    shiftToTargetExponent Format.binary64 m e accuracy =
      (ExtendedMantissa.ofMantissaAndAccuracy m accuracy >>>
        (Format.binary64.targetExponent (totalExponent m e) - e).toNat,
        Format.binary64.targetExponent (totalExponent m e)) := by
  refine Prod.ext rfl ?_
  change e + ((Format.binary64.targetExponent (totalExponent m e) - e).toNat : Int) = _
  omega

/-- A rounded significand is fitted once more, which changes it only if it was carried to one bit
more. -/
theorem shiftToTargetExponent_rounded (hn : n ≤ 2 ^ 53) (hfull : t = -1074 ∨ 2 ^ 52 ≤ n)
    (hleast : -1074 ≤ t) :
    ∃ em e, shiftToTargetExponent Format.binary64 n t .exact = (em, e) ∧
      carried n t = double em.mantissa e := by
  have hshift : (Format.binary64.targetExponent (totalExponent n t) - t).toNat =
      if n = 2 ^ 53 then 1 else 0 := by
    rw [targetExponent_eq, totalExponent]
    split
    · next h53 =>
      have hlog : n.log2 = 53 := by rw [h53, Nat.log2_two_pow]
      omega
    · next h53 =>
      rcases Nat.eq_zero_or_pos n with rfl | hpos
      · rw [Nat.log2_zero]
        omega
      · have hlog : n.log2 < 53 := (Nat.log2_lt hpos.ne').mpr (by omega)
        omega
  refine ⟨_, _, rfl, ?_⟩
  change carried n t = double (ExtendedMantissa.mantissa
    ((⟨n, false, false⟩ : ExtendedMantissa) >>>
      (Format.binary64.targetExponent (totalExponent n t) - t).toNat))
    (t + ((Format.binary64.targetExponent (totalExponent n t) - t).toNat : Int))
  rw [hshift, carried]
  split
  · next h53 =>
    subst h53
    rfl
  · next h53 => exact congrArg (double n) (Int.add_zero t).symm

/-- **What is rounded to a double is the double nearest to the number.** The number is given by what
is known of it in the units in which it was computed. -/
theorem isNearest_roundWithAccuracy {accuracy : Accuracy} (hq : 0 ≤ q)
    (h : Represents (.ofMantissaAndAccuracy m accuracy) (q / 2 ^ e))
    (he : e ≤ Format.binary64.targetExponent (totalExponent m e)) :
    IsNearest q (.ofModel (.pack (roundWithAccuracy Format.binary64 .positive m e accuracy))) := by
  have hmantissa : (ExtendedMantissa.ofMantissaAndAccuracy m accuracy).mantissa = m := by
    rcases accuracy with _ | _ | _ | _ <;> rfl
  have hscaled := h.scaled (hmantissa.symm ▸ he)
  rw [hmantissa] at hscaled
  have hrounds :=
    (h.shiftRight (Format.binary64.targetExponent (totalExponent m e) - e).toNat).rounds
  rw [roundWithAccuracy, shiftToTargetExponent_eq accuracy he]
  generalize Format.binary64.targetExponent (totalExponent m e) = t at *
  have hdiv : q / 2 ^ e / 2 ^ (t - e).toNat = q / 2 ^ t := by
    rw [div_div, ← zpow_natCast, ← zpow_add₀ two_ne_zero, Int.toNat_of_nonneg (by omega)]
    congr 2
    omega
  rw [hdiv] at hrounds
  obtain ⟨hn, hfull⟩ := hscaled.rounds_bounds hrounds
  obtain ⟨em, e', hsecond, hcarried⟩ := shiftToTargetExponent_rounded hn hfull hscaled.least
  have hnearest := hscaled.isNearest hq hrounds
  simp only [hsecond]
  rw [hcarried] at hnearest
  exact hnearest

/-! ## Operations

For each operation: what is computed represents the exact result, in units that are small enough.
-/

theorem isNearest_zero : IsNearest 0 (double 0 (-1074)) := by
  have hzero := Significand.zero.isNearest
  rwa [Nat.cast_zero, zero_mul] at hzero

/-- A shifted number has as many digits more. -/
theorem log2_shiftLeft (hm : 0 < m) (k : Nat) : (m <<< k).log2 = m.log2 + k := by
  induction k with
  | zero => rfl
  | succ k ih =>
    have hne : m <<< k ≠ 0 := by
      rw [Nat.shiftLeft_eq]
      positivity
    rw [Nat.shiftLeft_succ, Nat.log2_two_mul hne, ih, Nat.add_assoc]

/-- A significand of any size with an exponent of any size. If it has too few digits for rounding to
shift it to the right, it is shifted to the left first, which changes nothing. -/
theorem isNearest_round (hm : 0 < m) :
    IsNearest (m * 2 ^ e)
      (.ofModel (.pack (UnpackedFloat.round Format.binary64 .positive m e))) := by
  have htotal : ∀ k : Nat, totalExponent (m <<< k) (e - k) = totalExponent m e := by
    intro k
    rw [totalExponent, totalExponent, log2_shiftLeft hm]
    push_cast
    ring
  rw [UnpackedFloat.round, decreaseExponent]
  generalize hk : (e - Format.binary64.targetExponent (totalExponent m e)).toNat = k
  refine isNearest_roundWithAccuracy (by positivity) ?_ ?_
  · have hplace : (m : ℚ) * 2 ^ e / 2 ^ (e - k) = (m <<< k : Nat) := by
      rw [Nat.shiftLeft_eq, mul_div_assoc, ← zpow_sub₀ two_ne_zero, sub_sub_cancel, zpow_natCast]
      push_cast
      rfl
    rw [hplace]
    exact .exact _
  · rw [htotal]
    omega

theorem isNearest_normalize (m : Nat) (e : Int) :
    IsNearest (m * 2 ^ e)
      (.ofModel (.pack (UnpackedFloat.normalize Format.binary64 m e .positive))) := by
  rw [UnpackedFloat.normalize]
  rcases Nat.eq_zero_or_pos m with rfl | hm
  · rw [Nat.cast_zero, zero_mul]
    exact isNearest_zero
  · have hcompare : compare (m : Int) 0 = .gt := Int.compare_eq_gt.mpr (by omega)
    rw [hcompare]
    exact isNearest_round hm

theorem isNearest_mul {m₁ m₂ : Nat} (e₁ e₂ : Int) (h₁ : 0 < m₁) (h₂ : 0 < m₂)
    (he : e₁ + e₂ ≤ Format.binary64.targetExponent (totalExponent (m₁ * m₂) (e₁ + e₂))) :
    IsNearest (m₁ * 2 ^ e₁ * (m₂ * 2 ^ e₂)) (.ofModel (.pack (UnpackedFloat.mul Format.binary64
      (.finite .positive m₁ e₁ h₁) (.finite .positive m₂ e₂ h₂)))) := by
  refine isNearest_roundWithAccuracy (by positivity) ?_ he
  have hplace : (m₁ : ℚ) * 2 ^ e₁ * (m₂ * 2 ^ e₂) / 2 ^ (e₁ + e₂) = (m₁ * m₂ : Nat) := by
    rw [zpow_add₀ two_ne_zero]
    push_cast
    field_simp
  rw [hplace]
  exact .exact _

/-- The remainder tells on which side of the half the fraction lies. -/
theorem represents_remainder {a b c : Nat} (hc : 0 < c) (hlt : c < b) :
    Represents (.ofMantissaAndAccuracy a (.inexact (compare (2 * c) b))) (a + (c : ℚ) / b) := by
  have hb : (0 : ℚ) < b := by exact_mod_cast hc.trans hlt
  have hpos : (0 : ℚ) < (c : ℚ) / b := by
    have hc' : (0 : ℚ) < c := by exact_mod_cast hc
    positivity
  have hless : (c : ℚ) / b < 1 := by
    rw [div_lt_one hb]
    exact_mod_cast hlt
  have hhalf : (c : ℚ) / b = 2 * c / b / 2 := by ring
  rcases hcompare : compare (2 * c) b
  · have hbelow : (2 : ℚ) * c / b < 1 := by
      rw [div_lt_one hb]
      exact_mod_cast Nat.compare_eq_lt.mp hcompare
    refine ⟨c / b, hpos.le, by linarith, ⟨fun _ => hpos, fun _ => rfl⟩, ?_⟩
    change _ = (a : ℚ) + 0 + _
    rw [add_zero]
  · have hequal : (2 : ℚ) * c / b = 1 := by
      rw [div_eq_one_iff_eq hb.ne']
      exact_mod_cast Nat.compare_eq_eq.mp hcompare
    refine ⟨0, le_rfl, by norm_num, ⟨nofun, fun h => absurd h (lt_irrefl _)⟩, ?_⟩
    rw [hhalf, hequal, add_zero]
    rfl
  · have habove : (1 : ℚ) < 2 * c / b := by
      rw [one_lt_div hb]
      exact_mod_cast Nat.compare_eq_gt.mp hcompare
    refine ⟨c / b - 1 / 2, by linarith, by linarith, ⟨fun _ => by linarith, fun _ => rfl⟩, ?_⟩
    change _ = (a : ℚ) + 1 / 2 + _
    ring

/-- A quotient with remainder tells where the fraction lies. -/
theorem represents_fraction (a : Nat) {b : Nat} (hb : 0 < b) :
    Represents (.ofMantissaAndAccuracy (a / b) (accuracyOfFraction (a % b) b)) ((a : ℚ) / b) := by
  have hb' : (b : ℚ) ≠ 0 := by exact_mod_cast hb.ne'
  have hsplit : (a : ℚ) / b = (a / b : Nat) + (a % b : Nat) / b := by
    rw [eq_comm, ← eq_sub_iff_add_eq', div_eq_iff hb', sub_mul, div_mul_cancel₀ _ hb',
      eq_sub_iff_add_eq', mul_comm]
    exact_mod_cast Nat.div_add_mod a b
  rw [hsplit, accuracyOfFraction]
  split
  · next hc =>
    rw [hc, Nat.cast_zero, zero_div, add_zero]
    exact .exact _
  · next hc => exact represents_remainder (Nat.pos_of_ne_zero hc) (Nat.mod_lt a hb)

/-- Quotients are computed with remainder, in units that leave enough digits. -/
theorem isNearest_div {m₁ m₂ : Nat} (e₁ e₂ : Int) (h₁ : 0 < m₁) (h₂ : 0 < m₂) :
    IsNearest (m₁ * 2 ^ e₁ / (m₂ * 2 ^ e₂)) (.ofModel (.pack (UnpackedFloat.div Format.binary64
      (.finite .positive m₁ e₁ h₁) (.finite .positive m₂ e₂ h₂)))) := by
  change IsNearest _ (.ofModel (.pack (roundWithAccuracy Format.binary64 .positive
    (divCore Format.binary64 m₁ e₁ m₂ e₂).1 (divCore Format.binary64 m₁ e₁ m₂ e₂).2.1
    (divCore Format.binary64 m₁ e₁ m₂ e₂).2.2)))
  rw [divCore]
  generalize ht : min (e₁ - e₂) _ = t
  generalize hk : (e₁ - e₂ - t).toNat = k
  have hkt : (k : Int) = e₁ - e₂ - t := by omega
  refine isNearest_roundWithAccuracy (by positivity) ?_ ?_
  · have hplace : (m₁ : ℚ) * 2 ^ e₁ / (m₂ * 2 ^ e₂) / 2 ^ t = (m₁ <<< k : Nat) / m₂ := by
      rw [Nat.shiftLeft_eq, Nat.cast_mul, Nat.cast_pow, Nat.cast_ofNat, ← zpow_natCast, hkt,
        zpow_sub₀ two_ne_zero, zpow_sub₀ two_ne_zero]
      field_simp
    rw [hplace]
    exact represents_fraction _ h₂
  · change t ≤ Format.binary64.targetExponent (totalExponent (m₁ <<< k / m₂) t)
    rw [targetExponent_eq, totalExponent, totalExponent] at ht
    rw [targetExponent_eq, totalExponent, le_max_iff, or_iff_not_imp_right]
    intro hnormal
    -- enough digits were shifted in that the quotient has 53 of them
    have hdigits : 52 + (m₂.log2 + 1) ≤ m₁.log2 + k := by omega
    have hfull : 2 ^ 52 ≤ m₁ <<< k / m₂ := by
      rw [Nat.le_div_iff_mul_le h₂, Nat.shiftLeft_eq]
      calc 2 ^ 52 * m₂ ≤ 2 ^ 52 * 2 ^ (m₂.log2 + 1) := Nat.mul_le_mul_left _ Nat.lt_log2_self.le
        _ = 2 ^ (52 + (m₂.log2 + 1)) := (Nat.pow_add ..).symm
        _ ≤ 2 ^ (m₁.log2 + k) := Nat.pow_le_pow_right (by decide) hdigits
        _ = 2 ^ m₁.log2 * 2 ^ k := Nat.pow_add ..
        _ ≤ m₁ * 2 ^ k := Nat.mul_le_mul_right _ (Nat.log2_self_le h₁.ne')
    have hlog : 52 ≤ (m₁ <<< k / m₂).log2 := (Nat.le_log2 (by omega)).mpr hfull
    omega

/-- Infinity is the double at the last place. -/
theorem ofModel_infinity : Float.ofModel (.pack (.infinity .positive)) = double (2 ^ 52) 972 := by
  refine eq_of_unpack ?_
  rw [unpack_double_infinity (by positivity) le_rfl]
  exact unpack_pack ⟨_, .infinity _⟩

/-- A number below half of the least place is nearest to zero. -/
theorem isNearest_zero_of_lt (hq : 0 ≤ q) (hlt : q < 2 ^ (-1075 : Int)) :
    IsNearest q (double 0 (-1074)) := by
  have hunit : (0 : ℚ) < 2 ^ (-1074 : Int) := by positivity
  have hhalf : (2 : ℚ) ^ (-1075 : Int) = 1 / 2 * 2 ^ (-1074 : Int) := by
    rw [show (-1075 : Int) = -1 + -1074 from rfl, zpow_add₀ two_ne_zero, zpow_neg_one, one_div]
  have hscaled : Scaled q (-1074) :=
    ⟨le_rfl, hlt.trans_le (zpow_le_zpow_right₀ one_le_two (by decide)), .inl rfl⟩
  refine hscaled.isNearest (n := 0) hq (.of_lt ?_)
  rw [Nat.cast_zero, sub_zero, abs_of_nonneg (by positivity), div_lt_iff₀ hunit]
  exact hlt.trans_eq hhalf

/-! ## Decimal numbers

A decimal numeral is an integer times a power of ten, computed as a product or a quotient. For
exponents that are far out the power is not computed.
-/

/-- A power of ten that large takes every number but zero beyond all doubles. -/
theorem le_mul_ten_pow (hm : 0 < m) (he : 1024 ≤ e) : (2 : ℚ) ^ 1024 ≤ m * 10 ^ e := by
  obtain ⟨k, rfl⟩ := Int.eq_ofNat_of_zero_le (by omega : 0 ≤ e)
  rw [zpow_natCast]
  calc (2 : ℚ) ^ 1024 ≤ 2 ^ k := pow_le_pow_right₀ one_le_two (by omega)
    _ ≤ 10 ^ k := by gcongr; norm_num
    _ ≤ m * 10 ^ k := le_mul_of_one_le_left (by positivity) (by exact_mod_cast hm)

/-- A power of ten that small takes a number below all doubles but zero. -/
theorem mul_ten_pow_lt (he : e ≤ 0) (hsmall : (m.log2 : Int) + 1 + e ≤ t) :
    (m : ℚ) * 10 ^ e < 2 ^ t := by
  have hten : (10 : ℚ) ^ e ≤ 2 ^ e := by
    obtain ⟨k, hk⟩ := Int.eq_ofNat_of_zero_le (by omega : 0 ≤ -e)
    rw [← neg_neg e, hk, zpow_neg, zpow_neg, zpow_natCast, zpow_natCast]
    gcongr
    norm_num
  have hm : (m : ℚ) < 2 ^ ((m.log2 : Int) + 1) := by
    have hlt : m < 2 ^ (m.log2 + 1) := Nat.lt_log2_self
    exact_mod_cast hlt
  calc (m : ℚ) * 10 ^ e ≤ m * 2 ^ e := by gcongr
    _ < 2 ^ ((m.log2 : Int) + 1) * 2 ^ e := by gcongr
    _ = 2 ^ ((m.log2 : Int) + 1 + e) := (zpow_add₀ two_ne_zero _ _).symm
    _ ≤ 2 ^ t := zpow_le_zpow_right₀ one_le_two hsmall

/-- Times a power of ten. The factor is shifted so that the product has enough digits. -/
theorem isNearest_mul_ten_pow (k : Nat) (hm : 0 < m <<< 53) (hten : 0 < 10 ^ k) :
    IsNearest (m * 10 ^ (k : Int)) (.ofModel (.pack (UnpackedFloat.mul Format.binary64
      (.finite .positive (m <<< 53) (-53) hm) (.finite .positive (10 ^ k) 0 hten)))) := by
  have hproduct := isNearest_mul (-53) 0 hm hten ?_
  · have hplace : ((m <<< 53 : Nat) : ℚ) * 2 ^ (-53 : Int) * ((10 ^ k : Nat) * 2 ^ (0 : Int)) =
        m * 10 ^ (k : Int) := by
      rw [Nat.shiftLeft_eq, zpow_natCast]
      push_cast
      norm_num
      ring
    rw [hplace] at hproduct
    exact hproduct
  · have hfull : 2 ^ 53 ≤ m <<< 53 * 10 ^ k := by
      rw [Nat.shiftLeft_eq] at hm ⊢
      calc 2 ^ 53 = 1 * 2 ^ 53 * 1 := rfl
        _ ≤ m * 2 ^ 53 * 10 ^ k := by gcongr <;> omega
    have hlog : 53 ≤ (m <<< 53 * 10 ^ k).log2 := (Nat.le_log2 (by omega)).mpr hfull
    rw [targetExponent_eq, totalExponent]
    omega

/-- By a power of ten. The quotient has enough digits by itself. -/
theorem isNearest_div_ten_pow (k : Nat) (hm : 0 < m) (hten : 0 < 10 ^ k) :
    IsNearest (m * 10 ^ (-(k : Int))) (.ofModel (.pack (UnpackedFloat.div Format.binary64
      (.finite .positive m 0 hm) (.finite .positive (10 ^ k) 0 hten)))) := by
  have hquotient := isNearest_div 0 0 hm hten
  have hplace : (m : ℚ) * 2 ^ (0 : Int) / ((10 ^ k : Nat) * 2 ^ (0 : Int)) =
      m * 10 ^ (-(k : Int)) := by
    simp [zpow_neg, div_eq_mul_inv]
  rw [hplace] at hquotient
  exact hquotient

/-- **Decimal numbers.** Those too large or too small to be computed are nearest to infinity and to
zero. -/
theorem isNearest_ofScientific (m : Nat) (e : Int) :
    IsNearest (m * 10 ^ e) (.ofModel (.ofScientific m e)) := by
  rw [Float.Model.ofScientific, UnpackedFloat.ofScientific]
  split
  · next hm =>
    rw [hm, Nat.cast_zero, zero_mul]
    exact isNearest_zero
  next hm =>
  have hpos : 0 < m := Nat.pos_of_ne_zero hm
  split
  · next hlarge =>
    have hlarge : (2048 : Int) < e := hlarge
    rw [ofModel_infinity]
    exact isNearest_infinity (le_mul_ten_pow hpos (by omega))
  split
  · next hsmall =>
    have hsmall : e < -(2048 + (m.log2 : Int)) := hsmall
    exact isNearest_zero_of_lt (by positivity) (mul_ten_pow_lt (by omega) (by omega))
  split
  · next he =>
    obtain ⟨k, rfl⟩ := Int.eq_ofNat_of_zero_le he
    exact isNearest_mul_ten_pow k _ _
  · next he =>
    have hten : 0 < 10 ^ (-e).toNat := by positivity
    have hquotient := isNearest_div_ten_pow (-e).toNat hpos hten
    rwa [show -((-e).toNat : Int) = e by omega] at hquotient

end Scriptlet
