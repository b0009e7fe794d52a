import Scriptlet.Proofs.Number.Double

/-!
# The nearest double

What it is to be the double nearest to a number that is not negative (`IsNearest`): no double is
nearer, and if another one is equally near, the significand is even. There is only one such double
(`IsNearest.unique`), and rounding finds it: the significand is the number, in units of the last
place, rounded to the nearest integer, of two equally near ones to the even one
(`Scaled.isNearest`).

This is rounding to nearest, ties to even, said without an algorithm. It is what the arithmetic of
doubles is specified by, and what literals are: two ways to compute a double from the same number
give the same double if both give a nearest one, however they go about it. Infinity takes part as
the double that stands at the first place that is too large, which is what the standard asks for.
-/

namespace Scriptlet

open Float.Model Float.Model.UnpackedFloat

/-- The double nearest to a number that is not negative; of two equally near ones, the one with the
even significand. What is too large is nearest to infinity. -/
structure IsNearest (q : ℚ) (x : Float) : Prop where
  unsigned : x.abs = x
  nearest : ∃ p, place? x = some p ∧ ∀ y r, place? y = some r →
    |q - p| ≤ |q - r| ∧ (|q - p| = |q - r| → r = p ∨ EvenSignificand x)

variable {q : ℚ} {x y : Float} {m m' n : Nat} {e e' t : Int}

/-- `IsNearest` of a significand and an exponent, instead of the double that they make. Distances
are computed here, where no unpacking is in the way. -/
structure NearestPlace (q : ℚ) (m : Nat) (e : Int) : Prop extends Significand m e where
  nearest : ∀ m' e', Significand m' e' →
    |q - m * 2 ^ e| ≤ |q - m' * 2 ^ e'| ∧
      (|q - m * 2 ^ e| = |q - m' * 2 ^ e'| → (m' : ℚ) * 2 ^ e' = m * 2 ^ e ∨ Even m)

/-- The double with the nearest significand is nearest among all doubles, those with a sign
included, which are farther away than zero is. -/
theorem NearestPlace.isNearest (h : NearestPlace q m e) (hq : 0 ≤ q) :
    IsNearest q (double m e) := by
  refine ⟨h.abs_double, _, h.place, fun y r hr => ?_⟩
  rw [h.even_iff]
  obtain ⟨m', e', h', -, habs⟩ := exists_significand hr
  rcases le_or_gt 0 r with hsign | hsign
  · rw [abs_of_nonneg hsign] at habs
    rw [habs]
    exact h.nearest m' e' h'
  · -- zero is nearer than what is negative
    have hzero := (h.nearest _ _ .zero).1
    rw [Nat.cast_zero, zero_mul, sub_zero, abs_of_nonneg hq] at hzero
    have hlt : |q - m * 2 ^ e| < |q - r| := by
      rw [abs_of_nonneg (by linarith : 0 ≤ q - r)]
      linarith
    exact ⟨hlt.le, fun heq => absurd heq hlt.ne⟩

/-- Conversely, the significand and the exponent of a nearest double are nearest. -/
theorem IsNearest.exists_place (h : IsNearest q x) :
    ∃ m e, NearestPlace q m e ∧ x = double m e := by
  obtain ⟨habs, p, hp, hnearest⟩ := h
  obtain ⟨m, e, hm, hx, -⟩ := exists_significand hp
  rw [habs] at hx
  subst hx
  rw [hm.place] at hp
  obtain rfl := Option.some.inj hp
  refine ⟨m, e, ⟨hm, fun m' e' h' => ?_⟩, rfl⟩
  rw [← hm.even_iff]
  exact hnearest _ _ h'.place

/-! ## Uniqueness

Two doubles that are both nearest are equally near, and would both be even; but then there is one
between them.
-/

/-- Behind a double with an even significand there is the next one. -/
theorem Significand.succ_of_even (h : Significand m e) (he : e ≠ 972) (heven : Even m) :
    Significand (m + 1) e := by
  obtain ⟨hm, hleast, hle, hfull, -⟩ := h
  refine ⟨?_, hleast, hle, by omega, fun hlast => absurd hlast he⟩
  obtain ⟨k, rfl⟩ := heven
  omega

/-- Of two nearest places neither is before the other. -/
theorem NearestPlace.not_before (h : NearestPlace q m e) (h' : NearestPlace q m' e') :
    (m' : ℚ) * 2 ^ e' ≤ m * 2 ^ e := by
  by_contra hlt
  rw [not_le] at hlt
  have hdist := le_antisymm (h.nearest _ _ h'.toSignificand).1 (h'.nearest _ _ h.toSignificand).1
  have heven : Even m := ((h.nearest _ _ h'.toSignificand).2 hdist).resolve_left hlt.ne'
  have heven' : Even m' := ((h'.nearest _ _ h.toSignificand).2 hdist.symm).resolve_left hlt.ne
  have hne : e ≠ 972 := by
    rintro rfl
    rw [h.last rfl, Significand.top] at hlt
    exact absurd h'.le_top (not_le.mpr hlt)
  -- the double behind the smaller one is odd, and so lies between the two
  have hnext := h.toSignificand.succ_of_even hne heven
  have hunit : (0 : ℚ) < 2 ^ e := by positivity
  have hplace : ((m + 1 : Nat) : ℚ) * 2 ^ e = m * 2 ^ e + 2 ^ e := by
    push_cast
    ring
  have hbetween : ((m + 1 : Nat) : ℚ) * 2 ^ e < m' * 2 ^ e' := by
    refine lt_of_le_of_ne (hplace.trans_le (h.add_le_of_lt h'.toSignificand hlt)) fun heq => ?_
    obtain ⟨rfl, -⟩ := hnext.eq_of_place h'.toSignificand heq
    exact Nat.not_even_iff_odd.mpr heven.add_one heven'
  have hnearer := (h.nearest _ _ hnext).1
  rw [hplace] at hbetween hnearer
  rcases abs_eq_abs.mp hdist with heq | heq
  · exact absurd (sub_right_injective heq) hlt.ne
  · refine absurd hnearer (not_le.mpr ?_)
    rw [abs_of_pos (by linarith : 0 < q - m * 2 ^ e), abs_lt]
    constructor <;> linarith

/-- **There is one nearest double**, as a tie goes to the even one. Wherever a double is shown to be
nearest it is therefore known, however it was computed. -/
theorem IsNearest.unique (h : IsNearest q x) (h' : IsNearest q y) : x = y := by
  obtain ⟨m, e, hm, rfl⟩ := h.exists_place
  obtain ⟨m', e', hm', rfl⟩ := h'.exists_place
  have hplace := le_antisymm (hm'.not_before hm) (hm.not_before hm')
  obtain ⟨rfl, rfl⟩ := hm.eq_of_place hm'.toSignificand hplace
  rfl

/-- A double that carries no sign is the one nearest to its own place. -/
theorem Significand.isNearest (h : Significand m e) : IsNearest (m * 2 ^ e) (double m e) := by
  refine NearestPlace.isNearest ⟨h, fun m' e' _ => ?_⟩ (by positivity)
  rw [sub_self, abs_zero]
  exact ⟨abs_nonneg _, fun heq => .inl (sub_eq_zero.mp (abs_eq_zero.mp heq.symm)).symm⟩

/-- Infinity is the nearest double from where it stands on. -/
theorem isNearest_infinity (hq : 2 ^ 1024 ≤ q) : IsNearest q (double (2 ^ 52) 972) := by
  have hpos : 0 ≤ q := le_trans (by positivity) hq
  refine NearestPlace.isNearest ⟨.infinity, fun m' e' h' => ?_⟩ hpos
  have hle := h'.le_top
  rw [Significand.top]
  generalize (2 : ℚ) ^ 1024 = top at hq hle ⊢
  rw [abs_of_nonneg (sub_nonneg.mpr hq), abs_of_nonneg (by linarith)]
  exact ⟨by linarith, fun heq => .inl (by linarith)⟩

/-! ## Rounding

Rounding is done on integers: the number is scaled so that its unit is that of the last place, and
rounded to an integer, which is the significand.
-/

/-- The integer nearest to a number; of two equally near ones, the even one. -/
structure RoundsTo (r : ℚ) (n : Nat) : Prop where
  near : |r - n| ≤ 1 / 2
  even : |r - n| = 1 / 2 → Even n

namespace RoundsTo

variable {r : ℚ} {k : Nat}

/-- A number less than half a unit away from an integer is rounded there. -/
theorem of_lt (h : |r - n| < 1 / 2) : RoundsTo r n := ⟨h.le, fun heq => absurd heq h.ne⟩

/-- No integer is nearer to a number than the one it is rounded to. -/
theorem nearest (h : RoundsTo r n) (k : Nat) :
    |r - n| ≤ |r - k| ∧ (|r - n| = |r - k| → k = n ∨ Even n) := by
  rcases eq_or_ne k n with rfl | hne
  · exact ⟨le_rfl, fun _ => .inl rfl⟩
  · have hapart : (1 : ℚ) ≤ |(n : ℚ) - k| := by
      have hint : (1 : ℤ) ≤ |(n : ℤ) - k| := Int.one_le_abs (by omega)
      exact_mod_cast hint
    have hsum : |(n : ℚ) - k| ≤ |r - n| + |r - k| := by
      rw [abs_sub_comm r n]
      exact abs_sub_le _ _ _
    have hnear := h.near
    exact ⟨by linarith, fun heq => .inr (h.even (by linarith))⟩

/-- Rounding does not pass an integer: what is not below it is not rounded to below it. -/
theorem le_of_le (h : RoundsTo r n) (hk : (k : ℚ) ≤ r) : k ≤ n := by
  have hlt : (k : ℚ) < n + 1 := by linarith [(abs_le.mp h.near).2]
  exact Nat.lt_succ_iff.mp (by exact_mod_cast hlt)

theorem le_of_ge (h : RoundsTo r n) (hk : r ≤ k) : n ≤ k := by
  have hlt : (n : ℚ) < k + 1 := by linarith [(abs_le.mp h.near).1]
  exact Nat.lt_succ_iff.mp (by exact_mod_cast hlt)

end RoundsTo

/-- The exponent at which a number has 53 binary digits before the point, or fewer if it is the
least one. -/
structure Scaled (q : ℚ) (t : Int) : Prop where
  least : -1074 ≤ t
  lt : q < 2 ^ (t + 53)
  full : t = -1074 ∨ 2 ^ (t + 52) ≤ q

/-- The double with the significand and the exponent. Rounding may carry the significand to a
digit more. -/
def carried (n : Nat) (t : Int) : Float :=
  if n = 2 ^ 53 then double (2 ^ 52) (t + 1) else double n t

namespace Scaled

/-- The rounded number has 53 binary digits, or one more where rounding has carried; with the least
exponent it may have fewer. -/
theorem rounds_bounds (h : Scaled q t) (hn : RoundsTo (q / 2 ^ t) n) :
    n ≤ 2 ^ 53 ∧ (t = -1074 ∨ 2 ^ 52 ≤ n) := by
  have hunit : (0 : ℚ) < 2 ^ t := by positivity
  refine ⟨hn.le_of_ge ?_, h.full.imp_right fun hq => hn.le_of_le ?_⟩
  · rw [div_le_iff₀ hunit]
    refine h.lt.le.trans_eq ?_
    rw [zpow_add₀ two_ne_zero, mul_comm]
    norm_num
  · rw [le_div_iff₀ hunit]
    exact (Significand.power_place t).trans_le hq

end Scaled

/-- A significand of 53 bits that may have been carried to one bit more, and its double. Carried or
not, the double stands at the same place. -/
theorem exists_carried (hn : n ≤ 2 ^ 53) (hfull : t = -1074 ∨ 2 ^ 52 ≤ n) (hleast : -1074 ≤ t)
    (ht : t < 972) : ∃ m e, Significand m e ∧ carried n t = double m e ∧
      (m : ℚ) * 2 ^ e = n * 2 ^ t ∧ (Even n → Even m) := by
  rw [carried]
  split
  · next h53 =>
    refine ⟨2 ^ 52, t + 1, .power (by omega) (by omega), rfl, ?_, fun _ => by decide⟩
    rw [h53, zpow_add₀ two_ne_zero]
    push_cast
    ring
  · next h53 =>
    exact ⟨n, t, ⟨by omega, hleast, by omega, hfull, by omega⟩, rfl, rfl, id⟩

/-- What is too large has been carried to infinity. -/
theorem carried_of_ge (hn : 2 ^ 52 ≤ n) (ht : 972 ≤ t) : carried n t = double (2 ^ 52) 972 := by
  rw [carried]
  split
  · exact double_overflow (by positivity) (by omega)
  · exact double_overflow (by omega) ht

/-- A distance in units of the last place. -/
theorem abs_sub_place (q : ℚ) (t : Int) (k : Nat) : |q - k * 2 ^ t| = |q / 2 ^ t - k| * 2 ^ t := by
  have hunit : (0 : ℚ) < 2 ^ t := by positivity
  rw [← abs_of_pos hunit, ← abs_mul, abs_of_pos hunit, sub_mul, div_mul_cancel₀ _ hunit.ne']

/-- What has fewer digits is not as near: the least number that has all of them is nearer. -/
theorem Scaled.abs_sub_lt (h : Scaled q t) (ht : -1074 < t) (hn : RoundsTo (q / 2 ^ t) n) {p : ℚ}
    (hp : p < 2 ^ (t + 52)) : |q - n * 2 ^ t| < |q - p| := by
  have hlow := h.full.resolve_left ht.ne'
  have hle : |q - n * 2 ^ t| ≤ |q - (2 ^ 52 : Nat) * 2 ^ t| := by
    rw [abs_sub_place, abs_sub_place]
    have hfirst := (hn.nearest (2 ^ 52)).1
    gcongr
  rw [Significand.power_place, abs_of_nonneg (sub_nonneg.mpr hlow)] at hle
  rw [abs_of_nonneg (by linarith : 0 ≤ q - p)]
  linarith

/-- **Rounding finds the nearest double.** Doubles with a larger exponent are multiples of the unit,
and those with a smaller one are not as near. -/
theorem Scaled.isNearest (h : Scaled q t) (hq : 0 ≤ q) (hn : RoundsTo (q / 2 ^ t) n) :
    IsNearest q (carried n t) := by
  obtain ⟨hle, hfull⟩ := h.rounds_bounds hn
  rcases le_or_gt 972 t with ht | ht
  · rw [carried_of_ge (hfull.resolve_left (by omega)) ht]
    have htop := Significand.top_le_zpow (by omega : 1024 ≤ t + 52)
    exact isNearest_infinity (htop.trans (h.full.resolve_left (by omega)))
  · obtain ⟨m, e, hm, hcarried, hplace, heven⟩ := exists_carried hle hfull h.least ht
    rw [hcarried]
    refine NearestPlace.isNearest ⟨hm, fun m' e' h' => ?_⟩ hq
    rw [hplace]
    rcases h'.multiple t with ⟨k, hk⟩ | ⟨hleast, hsmall⟩
    · have hunit : (0 : ℚ) < 2 ^ t := by positivity
      obtain ⟨hnear, htie⟩ := hn.nearest k
      rw [hk, abs_sub_place, abs_sub_place]
      refine ⟨by gcongr, fun heq => ?_⟩
      rcases htie (mul_right_cancel₀ hunit.ne' heq) with rfl | hn
      · exact .inl rfl
      · exact .inr (heven hn)
    · have hlt := h.abs_sub_lt hleast hn hsmall
      exact ⟨hlt.le, fun heq => absurd heq hlt.ne⟩

end Scriptlet
