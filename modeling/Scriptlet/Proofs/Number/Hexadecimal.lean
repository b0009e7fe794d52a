import Scriptlet.Proofs.Number.Text
import Scriptlet.Proofs.Program.Decoding

/-!
# Hexadecimal literals

A hexadecimal literal is read digit by digit, and every step rounds. Behind the digit with which the
number gets to 2 ^ 53, digits are too small to count, each for itself (`step_of_ge`), so the literal
denotes the double nearest to the number that has zeros in their place (`KeptDigits`). This is also
the double nearest to the number itself, unless the digits that do not count would have broken a tie
(`IsNearest.of_kept`).

Multiplying by sixteen is exact for doubles, unless the result is too large. So errors come from
adding digits only. Up to 2 ^ 53 a digit is added exactly, and the result is rounded once at most,
in the step in which the number passes that bound. From there on the unit of the last place is
thirty-two or more after the multiplication, and a digit is less than half of it, so that adding it
changes nothing.

What is lost is seen when the number that counts is half way between two doubles. Then the digits
that were dropped should have decided for the upper one, while the tie goes to the even one. A
decimal literal of the same number is rounded once and decides right.

* `step_of_lt`, `step_of_ge`: one digit, before and behind the bound.
* `KeptDigits`, `KeptDigits.isNearest`: all digits.
* `TiesAbove`, `IsNearest.of_kept`: when dropping the other digits makes a difference.
* `hexLiteral_nearest`: literals, and decimal literals of the same number.
-/

namespace Scriptlet

open Float.Model Float.Model.UnpackedFloat

variable {q : ℚ} {x y : Float} {m m' : Nat} {e e' : Int}

/-! ## Sums and multiples of doubles

The operations of one step, as roundings of exact sums and products.
-/

/-- Small integers are doubles. -/
theorem exists_significand_of_lt {n : Nat} (hn : n < 2 ^ 53) :
    ∃ m e, Significand m e ∧ (m : ℚ) * 2 ^ e = n ∧ e ≤ 0 ∧ (0 < n → 2 ^ 52 ≤ m) := by
  rcases Nat.eq_zero_or_pos n with rfl | hpos
  · exact ⟨0, -1074, .zero, by simp, by decide, nofun⟩
  · have hlog : n.log2 < 53 := (Nat.log2_lt hpos.ne').mpr hn
    obtain ⟨k, hk⟩ := Nat.exists_eq_add_of_le (Nat.lt_succ_iff.mp hlog : n.log2 ≤ 52)
    have hlow : 2 ^ 52 ≤ n * 2 ^ k := by
      rw [hk, Nat.pow_add]
      exact Nat.mul_le_mul_right _ (Nat.log2_self_le hpos.ne')
    have hhigh : n * 2 ^ k < 2 ^ 53 := by
      have hlt : n < 2 ^ (n.log2 + 1) := Nat.lt_log2_self
      calc n * 2 ^ k < 2 ^ (n.log2 + 1) * 2 ^ k := Nat.mul_lt_mul_of_pos_right hlt (by positivity)
        _ = 2 ^ 53 := by rw [← Nat.pow_add]; congr 1; omega
    refine ⟨n * 2 ^ k, -k, ⟨hhigh, by omega, by omega, .inr hlow, by omega⟩, ?_, by omega,
      fun _ => hlow⟩
    rw [zpow_neg, zpow_natCast]
    push_cast
    field_simp

/-- Two doubles are added with the smaller exponent, and stand where they stood. -/
theorem decreaseExponent_place (m : Nat) {t : Int} (ht : t ≤ e) :
    ((decreaseExponent m e t).1 : ℚ) * 2 ^ t = m * 2 ^ e := by
  rw [decreaseExponent, Nat.shiftLeft_eq, Nat.cast_mul, Nat.cast_pow, Nat.cast_ofNat, mul_assoc,
    ← zpow_natCast, ← zpow_add₀ two_ne_zero, Int.toNat_of_nonneg (by omega), sub_add_cancel]

theorem isNearest_add (h : Significand m e) (h' : Significand m' e') (he : e ≠ 972)
    (he' : e' ≠ 972) : IsNearest (m * 2 ^ e + m' * 2 ^ e') (double m e + double m' e') := by
  change IsNearest _ (.ofModel (.pack (UnpackedFloat.add Format.binary64
    (double m e).toModel.unpack (double m' e').toModel.unpack)))
  rcases Nat.eq_zero_or_pos m with rfl | hm
  · have hright : UnpackedFloat.add Format.binary64 (double 0 e).toModel.unpack
        (double m' e').toModel.unpack = (double m' e').toModel.unpack := by
      rw [unpack_double_zero]
      rcases Nat.eq_zero_or_pos m' with rfl | hm'
      · rw [unpack_double_zero]
        rfl
      · rw [unpack_double h' hm' he']
        rfl
    rw [hright, pack_unpack, Nat.cast_zero, zero_mul, zero_add]
    exact h'.isNearest
  rcases Nat.eq_zero_or_pos m' with rfl | hm'
  · have hleft : UnpackedFloat.add Format.binary64 (double m e).toModel.unpack
        (double 0 e').toModel.unpack = (double m e).toModel.unpack := by
      rw [unpack_double_zero, unpack_double h hm he]
      rfl
    rw [hleft, pack_unpack, Nat.cast_zero, zero_mul, add_zero]
    exact h.isNearest
  rw [unpack_double h hm he, unpack_double h' hm' he',
    ← decreaseExponent_place m (min_le_left e e'), ← decreaseExponent_place m' (min_le_right e e'),
    ← add_mul, ← Nat.cast_add]
  exact isNearest_normalize _ _

theorem isNearest_mul_sixteen (h : Significand m e) (he : e ≠ 972) :
    IsNearest (16 * (m * 2 ^ e)) (double m e * 16) := by
  have hsixteen : (16 : Float) = double (2 ^ 52) (-48) := by decide +kernel
  have hunit : Significand (2 ^ 52) (-48) := .power (by decide) (by decide)
  rw [hsixteen]
  change IsNearest _ (.ofModel (.pack (UnpackedFloat.mul Format.binary64
    (double m e).toModel.unpack (double (2 ^ 52) (-48)).toModel.unpack)))
  rw [unpack_double hunit (by decide) (by decide)]
  rcases Nat.eq_zero_or_pos m with rfl | hm
  · rw [unpack_double_zero, Nat.cast_zero, zero_mul, mul_zero]
    exact isNearest_zero
  · rw [unpack_double h hm he]
    have hproduct := isNearest_mul e (-48) hm (by decide : 0 < 2 ^ 52) ?_
    · have hplace : (m : ℚ) * 2 ^ e * ((2 ^ 52 : Nat) * 2 ^ (-48 : Int)) = 16 * (m * 2 ^ e) := by
        norm_num
        ring
      rw [hplace] at hproduct
      exact hproduct
    · have hfull : 2 ^ 52 ≤ m * 2 ^ 52 := Nat.le_mul_of_pos_left _ hm
      have hlog : 52 ≤ (m * 2 ^ 52).log2 := (Nat.le_log2 (by omega)).mpr hfull
      rw [targetExponent_eq, totalExponent]
      omega

theorem digit_toFloat {d : Nat} (hd : d < 16) :
    ∃ m e, Significand m e ∧ e ≠ 972 ∧ (m : ℚ) * 2 ^ e = d ∧
      (UInt64.ofNat d).toFloat = double m e := by
  obtain ⟨m, e, hm, hplace, he, -⟩ := exists_significand_of_lt (hd.trans (by decide))
  refine ⟨m, e, hm, by omega, hplace, ?_⟩
  have hdigit : IsNearest (d * 2 ^ (0 : Int)) (UInt64.ofNat d).toFloat := by
    have hnat : (UInt64.ofNat d).toNat = d := UInt64.toNat_ofNat_of_lt' (hd.trans (by decide))
    have hnormalize : IsNearest ((UInt64.ofNat d).toNat * 2 ^ (0 : Int))
        (UInt64.ofNat d).toFloat := isNearest_normalize _ 0
    rwa [hnat] at hnormalize
  rw [zpow_zero, mul_one, ← hplace] at hdigit
  exact hdigit.unique hm.isNearest

/-! ## One digit

What happens to the nearest double when the number is multiplied by sixteen and a digit is added.
-/

/-- The double nearest to a number is not below any double that the number is not below. -/
theorem NearestPlace.le_of_le (h : NearestPlace q m e) (h' : Significand m' e')
    (hle : (m' : ℚ) * 2 ^ e' ≤ q) : (m' : ℚ) * 2 ^ e' ≤ m * 2 ^ e := by
  by_contra hlt
  rw [not_le] at hlt
  have hnear := (h.nearest _ _ h').1
  rw [abs_of_nonneg (by linarith), abs_of_nonneg (by linarith)] at hnear
  linarith

/-- A number less than half of the unit above a double has that double as the nearest one. -/
theorem Significand.nearestPlace_add (h : Significand m e) {r : ℚ} (hr : 0 ≤ r)
    (hlt : 2 * r < 2 ^ e) : NearestPlace (m * 2 ^ e + r) m e := by
  refine ⟨h, fun m' e' h' => ?_⟩
  rw [add_sub_cancel_left, abs_of_nonneg hr]
  rcases lt_trichotomy ((m' : ℚ) * 2 ^ e') (m * 2 ^ e) with hbelow | hsame | habove
  · rw [abs_of_nonneg (by linarith)]
    exact ⟨by linarith, fun _ => by linarith⟩
  · exact ⟨by rw [hsame, add_sub_cancel_left, abs_of_nonneg hr], fun _ => .inl hsame⟩
  · have hnext := h.add_le_of_lt h' habove
    rw [abs_of_nonpos (by linarith)]
    exact ⟨by linarith, fun _ => by linarith⟩

/-- Four binary digits are a hexadecimal one. -/
theorem place_mul_sixteen (m : Nat) (e : Int) : (m : ℚ) * 2 ^ (e + 4) = 16 * (m * 2 ^ e) := by
  rw [zpow_add₀ two_ne_zero]
  norm_num
  ring

/-- What is sixteen times as large has a nearest double that is sixteen times as large, if there
is such a double. -/
theorem NearestPlace.mul_sixteen (h : NearestPlace q m e) (hq : 1 ≤ q)
    (hnext : Significand m (e + 4)) : NearestPlace (16 * q) m (e + 4) := by
  have hscale : ∀ p : ℚ, |16 * q - 16 * p| = 16 * |q - p| := by
    intro p
    rw [← mul_sub, abs_mul]
    norm_num
  refine ⟨hnext, fun m' e' h' => ?_⟩
  rw [place_mul_sixteen, hscale]
  by_cases he : -1070 ≤ e'
  · obtain ⟨hm, hleast, hle, hfull, hlast⟩ := h'
    obtain ⟨hnear, htie⟩ := h.nearest m' (e' - 4)
      ⟨hm, by omega, by omega, .inr (hfull.resolve_left (by omega)), by omega⟩
    rw [← sub_add_cancel e' 4, place_mul_sixteen, hscale]
    refine ⟨by linarith, fun heq => (htie (by linarith)).imp_left fun hsame => by rw [hsame]⟩
  · -- one is nearer than what is so small
    have hone : Significand (2 ^ 52) (-52) := .power (by decide) (by decide)
    have hplace : ((2 ^ 52 : Nat) : ℚ) * 2 ^ (-52 : Int) = 1 := Significand.power_place _
    have hnear := (h.nearest _ _ hone).1
    rw [hplace, abs_of_nonneg (sub_nonneg.mpr hq)] at hnear
    have hsmall : (m' : ℚ) * 2 ^ e' < 1 := by
      refine (h'.lt_of_lt (lt_of_not_ge he)).trans_le ?_
      exact zpow_le_one_of_nonpos₀ one_le_two (by decide)
    have hlt : 16 * |q - m * 2 ^ e| < |16 * q - m' * 2 ^ e'| := by
      rw [abs_of_nonneg (by linarith : 0 ≤ 16 * q - (m' : ℚ) * 2 ^ e')]
      linarith
    exact ⟨hlt.le, fun heq => absurd heq hlt.ne⟩

/-- From 2 ^ 53 on, doubles are even. -/
theorem NearestPlace.one_le_exponent (h : NearestPlace q m e) (hq : 2 ^ 53 ≤ q) : 1 ≤ e := by
  have hunit : Significand (2 ^ 52) 1 := .power (by decide) (by decide)
  have hplace : ((2 ^ 52 : Nat) : ℚ) * 2 ^ (1 : Int) = 2 ^ 53 := by norm_num
  have hlarge := hplace.symm.trans_le (h.le_of_le hunit (hplace.trans_le hq))
  by_contra hlt
  have hsmall := h.lt_of_lt (lt_of_not_ge hlt)
  norm_num at hsmall hlarge
  linarith

/-- Sixteen times a double is a double, unless it is too large. -/
theorem Significand.mul_sixteen (h : Significand m e) (he : 1 ≤ e)
    (hover : ¬2 ^ 1024 ≤ 16 * ((m : ℚ) * 2 ^ e)) : Significand m (e + 4) ∧ e + 4 ≠ 972 := by
  have hbelow : e < 968 := by
    by_contra hge
    refine hover ?_
    have hfull := h.le_place (by omega)
    calc (2 : ℚ) ^ 1024 ≤ 2 ^ (e + 52 + 4) := Significand.top_le_zpow (by omega)
      _ = 16 * 2 ^ (e + 52) := by
        rw [zpow_add₀ two_ne_zero (e + 52)]
        norm_num
        ring
      _ ≤ 16 * (m * 2 ^ e) := by gcongr
  exact ⟨⟨h.lt, by omega, by omega, .inr (h.full.resolve_left (by omega)), by omega⟩, by omega⟩

/-- If sixteen times the nearest double is too large, sixteen times the number is nearest to
infinity. -/
theorem NearestPlace.mul_sixteen_infinity (h : NearestPlace q m e) (hq : 1 ≤ q)
    (hover : 2 ^ 1024 ≤ 16 * ((m : ℚ) * 2 ^ e)) : IsNearest (16 * q) (double (2 ^ 52) 972) := by
  have hlast : Significand (2 ^ 52) 968 := .power (by decide) (by decide)
  have htop := place_mul_sixteen (2 ^ 52) 968
  rw [show (968 : Int) + 4 = 972 from rfl, Significand.top] at htop
  rw [htop] at hover
  rcases (le_of_mul_le_mul_left hover (by norm_num)).eq_or_lt with heq | hlt
  · obtain ⟨rfl, rfl⟩ := hlast.eq_of_place h.toSignificand heq
    exact (h.mul_sixteen hq .infinity).isNearest (by positivity)
  · refine isNearest_infinity ?_
    rw [htop]
    by_contra hless
    have hless := lt_of_mul_lt_mul_left (not_le.mp hless) (by norm_num)
    have hnear := (h.nearest _ _ hlast).1
    rw [abs_of_nonpos (by linarith), abs_of_nonpos (by linarith)] at hnear
    linarith

/-- What is too large times sixteen is infinite, and stays so. -/
theorem mul_sixteen_overflow (h : Significand m e) (hover : 2 ^ 1024 ≤ 16 * ((m : ℚ) * 2 ^ e)) :
    double m e * 16 = double (2 ^ 52) 972 := by
  by_cases he : e = 972
  · rw [he, h.last he]
    decide +kernel
  · exact (isNearest_mul_sixteen h he).unique (isNearest_infinity hover)

theorem infinity_add (h : Significand m e) (he : e ≠ 972) :
    double (2 ^ 52) 972 + double m e = double (2 ^ 52) 972 := by
  change Float.ofModel (.pack (UnpackedFloat.add Format.binary64
    (double (2 ^ 52) 972).toModel.unpack (double m e).toModel.unpack)) = _
  rw [unpack_double_infinity (by positivity) le_rfl, ← ofModel_infinity]
  rcases Nat.eq_zero_or_pos m with rfl | hm
  · rw [unpack_double_zero]
    rfl
  · rw [unpack_double h hm he]
    rfl

section

variable {n d : Nat}

/-- As long as numbers have no more than 53 binary digits, a digit is added exactly. -/
theorem step_of_lt (h : IsNearest n x) (hn : n < 2 ^ 53) (hd : d < 16) :
    IsNearest (16 * n + d : Nat) (x * 16 + (UInt64.ofNat d).toFloat) := by
  obtain ⟨m', e', hm', hne', hplace', hdigit⟩ := digit_toFloat hd
  obtain ⟨m, e, hm, hplace, he, hfull⟩ := exists_significand_of_lt hn
  rw [← hplace] at h
  obtain rfl := h.unique hm.isNearest
  have hmul := isNearest_mul_sixteen hm (by omega)
  have hnext : ∃ m₁ e₁, Significand m₁ e₁ ∧ e₁ ≠ 972 ∧ (m₁ : ℚ) * 2 ^ e₁ = 16 * (m * 2 ^ e) := by
    rcases Nat.eq_zero_or_pos n with rfl | hpos
    · refine ⟨0, -1074, .zero, by decide, ?_⟩
      rw [hplace]
      simp
    · have hleast := hm.least
      exact ⟨m, e + 4, ⟨hm.lt, by omega, by omega, .inr (hfull hpos), by omega⟩, by omega,
        place_mul_sixteen m e⟩
  obtain ⟨m₁, e₁, hm₁, hne₁, hplace₁⟩ := hnext
  rw [← hplace₁] at hmul
  have hsum := isNearest_add hm₁ hm' hne₁ hne'
  rw [hplace₁, hplace, hplace'] at hsum
  rw [hmul.unique hm₁.isNearest, hdigit]
  push_cast
  exact hsum

/-- From there on, digits do not count. -/
theorem step_of_ge (h : IsNearest n x) (hn : 2 ^ 53 ≤ n) (hd : d < 16) :
    IsNearest (16 * n : Nat) (x * 16 + (UInt64.ofNat d).toFloat) := by
  obtain ⟨m', e', hm', hne', hplace', hdigit⟩ := digit_toFloat hd
  obtain ⟨m, e, hm, rfl⟩ := h.exists_place
  have hn' : ((2 : ℚ) ^ 53) ≤ n := by exact_mod_cast hn
  have hone : (1 : ℚ) ≤ n := le_trans (by norm_num) hn'
  have he := hm.one_le_exponent hn'
  rw [hdigit]
  push_cast
  by_cases hover : 2 ^ 1024 ≤ 16 * ((m : ℚ) * 2 ^ e)
  · rw [mul_sixteen_overflow hm.toSignificand hover, infinity_add hm' hne']
    exact hm.mul_sixteen_infinity hone hover
  · obtain ⟨hnext, hne⟩ := hm.toSignificand.mul_sixteen he hover
    have hfinite : e ≠ 972 := by
      have hle := hnext.le
      omega
    have hmul := isNearest_mul_sixteen hm.toSignificand hfinite
    rw [← place_mul_sixteen] at hmul
    have hunit : 2 * (d : ℚ) < 2 ^ (e + 4) := by
      have hd' : (d : ℚ) < 16 := by exact_mod_cast hd
      calc 2 * (d : ℚ) < 2 ^ (5 : Int) := by norm_num; linarith
        _ ≤ 2 ^ (e + 4) := zpow_le_zpow_right₀ one_le_two (by omega)
    have hsum := isNearest_add hnext hm' hne hne'
    rw [hplace'] at hsum
    have hsame := (hnext.nearestPlace_add (by positivity) hunit).isNearest (by positivity)
    rw [hmul.unique hnext.isNearest, hsum.unique hsame]
    exact (hm.mul_sixteen hone hnext).isNearest (by positivity)

end

/-! ## Digits

The two steps are put together to a fold over the digits.
-/

/-- Hexadecimal digits and the number they denote if those count as zeros before which there is
2 ^ 53 or more. -/
inductive KeptDigits : List Char → Nat → Prop
  | nil : KeptDigits [] 0
  | snoc {text : List Char} {n d : Nat} {c : Char} (front : KeptDigits text n)
    (last : HexDigit c d) : KeptDigits (text ++ [c]) (16 * n + if n < 2 ^ 53 then d else 0)

/-- A literal is read digit by digit, from the left. -/
theorem hexLiteral_append (digits : List Char) (c : Char) :
    hexLiteral? (digits ++ [c]) = (hexLiteral? digits).bind fun acc =>
      (hexDigitValue? c).map fun d => acc * 16 + (UInt64.ofNat d).toFloat := by
  rw [hexLiteral?, List.foldlM_append]
  exact congrArg (Option.bind _) (funext fun acc => bind_pure _)

/-- The number the digits denote is the one that counts, or not a unit of the last digit that
counts above it. -/
theorem HexDigits.exists_kept {digits : List Char} {n : Nat} (h : HexDigits digits n) :
    ∃ k, KeptDigits digits k ∧ (k = n ∨
      ∃ j, 2 ^ (4 * j) ∣ k ∧ k ≤ n ∧ n < k + 2 ^ (4 * j) ∧ 2 ^ 53 * 2 ^ (4 * j) ≤ k) := by
  induction h with
  | nil => exact ⟨0, .nil, .inl rfl⟩
  | @snoc digits n d c _ last ih =>
    have hd := last.lt
    obtain ⟨k, hk, hkn⟩ := ih
    refine ⟨_, .snoc hk last, ?_⟩
    rcases hkn with rfl | ⟨j, ⟨a, rfl⟩, hle, hlt, hlarge⟩
    · split
      · exact .inl rfl
      · exact .inr ⟨1, ⟨k, rfl⟩, by omega, by omega, by omega⟩
    · have hpow : 2 ^ (4 * (j + 1)) = 16 * 2 ^ (4 * j) := by
        rw [Nat.mul_succ, Nat.pow_add, Nat.mul_comm]
      have hone : 1 ≤ 2 ^ (4 * j) := Nat.one_le_two_pow
      rw [if_neg (by omega), Nat.add_zero]
      refine .inr ⟨j + 1, ?_⟩
      rw [hpow]
      exact ⟨⟨a, (Nat.mul_assoc ..).symm⟩, by omega, by omega, by omega⟩

/-- A hexadecimal literal denotes the double nearest to the number of the digits that count. -/
theorem KeptDigits.isNearest {digits : List Char} {n : Nat} (h : KeptDigits digits n) :
    ∃ x, hexLiteral? digits = some x ∧ IsNearest n x := by
  induction h with
  | nil =>
    have hzero : (0 : Float) = double 0 (-1074) := by decide +kernel
    refine ⟨0, rfl, ?_⟩
    rw [hzero, Nat.cast_zero]
    exact isNearest_zero
  | @snoc digits n d c _ last ih =>
    obtain ⟨x, hx, hnearest⟩ := ih
    refine ⟨_, by rw [hexLiteral_append, hx, hexDigitValue_eq_some_iff.mpr last]; rfl, ?_⟩
    split
    · next hn => exact step_of_lt hnearest hn last.lt
    · next hn => exact step_of_ge hnearest (not_lt.mp hn) last.lt

/-! ## Ties

Dropping digits moves the number down by less than a unit of those that count. It changes the
nearest double only if the number passes the middle between two doubles. The middles are multiples
of that unit, too, so the number without the digits has to stand at one of them.
-/

/-- The number is half way between the double and a larger one. -/
def TiesAbove (q : ℚ) (x : Float) : Prop :=
  ∃ p y r, place? x = some p ∧ place? y = some r ∧ p < q ∧ r - q = q - p

/-- Of two doubles the nearer one stays the nearer one if the number moves towards it, or if the
number does not get half way to the other one. -/
theorem abs_sub_lt_of_below {k n p r : ℚ} (hkn : k < n) (hrp : r < p) (hnear : |k - p| ≤ |k - r|) :
    |n - p| < |n - r| := by
  have hmiddle : p + r ≤ 2 * k := by
    by_contra hlt
    rcases le_or_gt k r with hr | hr
    · rw [abs_of_nonpos (by linarith), abs_of_nonpos (by linarith)] at hnear
      linarith
    · rw [abs_of_nonneg (by linarith : 0 ≤ k - r)] at hnear
      linarith [neg_abs_le (k - p)]
  rw [abs_of_nonneg (by linarith : 0 ≤ n - r), abs_lt]
  constructor <;> linarith

/-- A number below the middle is nearer to the lower one. -/
theorem abs_sub_lt_of_middle {n p r : ℚ} (hpr : p < r) (hmiddle : 2 * n < p + r) :
    |n - p| < |n - r| := by
  rw [abs_of_nonpos (by linarith : n - r ≤ 0), abs_lt]
  constructor <;> linarith

/-- From where doubles are twice the unit apart, they are multiples of that. -/
theorem NearestPlace.multiples {k j : Nat} (h : NearestPlace k m e) (hlarge : 2 ^ 53 * 2 ^ j ≤ k)
    (h' : Significand m' e') (hlt : (m : ℚ) * 2 ^ e < m' * 2 ^ e') :
    ∃ a b : Nat, (m : ℚ) * 2 ^ e = a * (2 * 2 ^ j) ∧ (m' : ℚ) * 2 ^ e' = b * (2 * 2 ^ j) := by
  have hunit : (2 : ℚ) ^ ((j : Int) + 1) = 2 * 2 ^ j := by
    rw [zpow_add₀ two_ne_zero, zpow_natCast, zpow_one, mul_comm]
  have hlow : (2 : ℚ) ^ ((j : Int) + 1 + 52) ≤ k := by
    have hlarge : ((2 : ℚ) ^ 53 * 2 ^ j) ≤ k := by exact_mod_cast hlarge
    refine Eq.trans_le ?_ hlarge
    rw [zpow_add₀ two_ne_zero, hunit]
    norm_num
    ring
  have hplace : (2 : ℚ) ^ ((j : Int) + 1 + 52) ≤ m * 2 ^ e := by
    by_cases hj : (j : Int) + 1 ≤ 972
    · have hgrid : Significand (2 ^ 52) (j + 1) := .power (by omega) hj
      rw [← Significand.power_place] at hlow ⊢
      exact h.le_of_le hgrid hlow
    · have htop : ((2 ^ 52 : Nat) : ℚ) * 2 ^ (972 : Int) ≤ k := by
        refine le_trans ?_ hlow
        rw [Significand.top]
        exact Significand.top_le_zpow (by omega)
      have hle := h.le_of_le .infinity htop
      rw [Significand.top] at hle
      exact absurd h'.le_top (not_le.mpr (hle.trans_lt hlt))
  rw [← hunit]
  rcases h.multiple (j + 1) with ⟨a, ha⟩ | ⟨-, hsmall⟩
  · rcases h'.multiple (j + 1) with ⟨b, hb⟩ | ⟨-, hsmall⟩
    · exact ⟨a, b, ha, hb⟩
    · exact absurd (hplace.trans_lt hlt) (not_lt.mpr hsmall.le)
  · exact absurd hplace (not_le.mpr hsmall)

/-- The lower one of two numbers is the nearer one only up to the middle between them. -/
theorem le_middle_of_abs_sub_le {k p r : ℚ} (hpr : p < r) (hnear : |k - p| ≤ |k - r|) :
    2 * k ≤ p + r := by
  by_contra hlt
  rcases le_or_gt r k with hr | hr
  · rw [abs_of_nonneg (by linarith), abs_of_nonneg (by linarith)] at hnear
    linarith
  · rw [abs_of_nonpos (by linarith : k - r ≤ 0)] at hnear
    linarith [le_abs_self (k - p)]

/-- Where there is no tie, the larger integer does not get half way to the next double, either:
doubles and the half way between them are multiples of the unit. -/
theorem NearestPlace.lt_middle {k n j : Nat} (h : NearestPlace k m e) (hdvd : 2 ^ j ∣ k)
    (hlt : n < k + 2 ^ j) (hlarge : 2 ^ 53 * 2 ^ j ≤ k) (hties : ¬TiesAbove k (double m e))
    (h' : Significand m' e') (habove : (m : ℚ) * 2 ^ e < m' * 2 ^ e') :
    2 * (n : ℚ) < (m : ℚ) * 2 ^ e + (m' : ℚ) * 2 ^ e' := by
  have hmiddle : 2 * (k : ℚ) < (m : ℚ) * 2 ^ e + (m' : ℚ) * 2 ^ e' := by
    refine (le_middle_of_abs_sub_le habove (h.nearest _ _ h').1).lt_of_ne fun heq => hties ?_
    exact ⟨_, double m' e', _, h.place, h'.place, by linarith, by linarith⟩
  obtain ⟨a, b, ha, hb⟩ := h.multiples hlarge h' habove
  obtain ⟨c, rfl⟩ := hdvd
  rw [ha, hb] at hmiddle ⊢
  norm_cast at hmiddle ⊢
  have hc : c < a + b := by
    by_contra hge
    have hmul : 2 ^ j * (a + b) ≤ 2 ^ j * c := Nat.mul_le_mul_left _ (not_lt.mp hge)
    linarith
  have hmul : 2 ^ j * (c + 1) ≤ 2 ^ j * (a + b) := Nat.mul_le_mul_left _ hc
  linarith

/-- **What is dropped matters in a tie only.** Of two integers between which there is less than a
unit of the last place that counts, the double nearest to the smaller one is nearest to the larger
one, too, unless the smaller one is half way to the next double. -/
theorem IsNearest.of_kept {k n j : Nat} (h : IsNearest k x) (hle : k ≤ n) (hdvd : 2 ^ j ∣ k)
    (hlt : n < k + 2 ^ j) (hlarge : 2 ^ 53 * 2 ^ j ≤ k) :
    IsNearest n x ↔ ¬(k < n ∧ TiesAbove k x) := by
  refine ⟨?_, fun hties => ?_⟩
  · rintro ⟨-, p, hp, hnear⟩ ⟨hkn, p', y, r, hp', hr, hpk, htie⟩
    obtain rfl : p = p' := Option.some.inj (hp.symm.trans hp')
    have hkn : (k : ℚ) < n := by exact_mod_cast hkn
    have hmiddle := le_middle_of_abs_sub_le (by linarith) (hnear y r hr).1
    linarith
  · rcases hle.eq_or_lt with rfl | hkn
    · exact h
    obtain ⟨m, e, hm, rfl⟩ := h.exists_place
    refine NearestPlace.isNearest ⟨hm.toSignificand, fun m' e' h' => ?_⟩ (by positivity)
    rcases lt_trichotomy ((m' : ℚ) * 2 ^ e') (m * 2 ^ e) with hbelow | hsame | habove
    · have hnearer := abs_sub_lt_of_below (Nat.cast_lt.mpr hkn) hbelow (hm.nearest _ _ h').1
      exact ⟨hnearer.le, fun heq => absurd heq hnearer.ne⟩
    · exact ⟨by rw [hsame], fun _ => .inl hsame⟩
    · have hties : ¬TiesAbove k (double m e) := fun htie => hties ⟨hkn, htie⟩
      have hnearer := abs_sub_lt_of_middle habove (hm.lt_middle hdvd hlt hlarge hties h' habove)
      exact ⟨hnearer.le, fun heq => absurd heq hnearer.ne⟩

/-! ## Literals

What the lemmas on digits say about number literals in scripts.
-/

theorem exists_hexDigits {digits : List Char} (h : ∀ d ∈ digits, CharClass.hexDigit.contains d) :
    ∃ n, HexDigits digits n := by
  induction digits using List.reverseRecOn with
  | nil => exact ⟨0, .nil⟩
  | append_singleton digits c ih =>
    obtain ⟨hdigits, hc⟩ := List.forall_mem_append.mp h
    obtain ⟨n, hn⟩ := ih hdigits
    obtain ⟨d, hd⟩ := hexDigitValue_isSome (hc c List.mem_cons_self)
    exact ⟨_, .snoc hn (hexDigitValue_eq_some_iff.mp hd)⟩

/-- Decimal digits are a literal of the double nearest to the number they denote. -/
theorem numberText_digits {digits : List Char} (hne : digits ≠ [])
    (hdigits : ∀ d ∈ digits, d.isDigit) :
    NumberText digits (Decimal.toFloat ⟨digitsValue digits, 0⟩) := by
  have hreads := Decimal.Reads.whole hne hdigits .absent rfl (d := ⟨digitsValue digits, 0⟩) rfl
  rw [List.append_nil] at hreads
  exact ⟨hreads.numeral.matches, hreads.literal⟩

/-- **Hexadecimal literals.** A hexadecimal literal, however long, denotes the double nearest to
the number of the digits that count, infinity if that is too large. This is the double nearest to
the number of all digits, and the one that decimal literals of this number denote, unless digits
that do not count would have broken a tie. Below 2 ^ 57 all digits count. -/
theorem hexLiteral_nearest {mark : Char} {digits : List Char} (hmark : mark = 'x' ∨ mark = 'X')
    (hne : digits ≠ []) (hdigits : ∀ d ∈ digits, CharClass.hexDigit.contains d) :
    ∃ n k x y, HexDigits digits n ∧ KeptDigits digits k ∧ (n < 2 ^ 57 → k = n) ∧
      (∀ start children,
        numericValue ⟨.numericLiteral, start, '0' :: mark :: digits, children⟩ = .ok x) ∧
      Program.ofSource (String.ofList ('0' :: mark :: digits)) =
        .ok [.expr (.literal (.number x))] ∧
      (∀ decimals ≠ [], (∀ d ∈ decimals, d.isDigit) → digitsValue decimals = n →
        Program.ofSource (String.ofList decimals) = .ok [.expr (.literal (.number y))]) ∧
      IsNearest k x ∧ IsNearest n y ∧ (IsNearest n x ↔ ¬(k < n ∧ TiesAbove k x)) ∧
      (x = y ↔ ¬(k < n ∧ TiesAbove k x)) := by
  obtain ⟨n, hn⟩ := exists_hexDigits hdigits
  obtain ⟨k, hk, hkept⟩ := hn.exists_kept
  obtain ⟨x, hx, hnearest⟩ := hk.isNearest
  have hliteral : numericLiteral? ('0' :: mark :: digits) = some x := by
    rcases hmark with rfl | rfl <;> exact hx
  have htext : NumberText ('0' :: mark :: digits) x :=
    ⟨(Numeral.hex hmark hne hdigits).matches, hliteral⟩
  -- the decimal numeral is rounded once, and so is nearest to the number itself
  have hdecimal : IsNearest n (Decimal.toFloat ⟨n, 0⟩) := by
    have hnear := Decimal.isNearest_toFloat ⟨n, 0⟩
    rwa [Decimal.value, zpow_zero, mul_one] at hnear
  -- the digits that are not kept only matter in one case: a tie between the kept ones that was
  -- rounded down
  have hties : IsNearest n x ↔ ¬(k < n ∧ TiesAbove k x) := by
    rcases hkept with rfl | ⟨j, hdvd, hle, hlt, hlarge⟩
    · exact iff_of_true hnearest fun h => lt_irrefl _ h.1
    · exact hnearest.of_kept hle hdvd hlt hlarge
  refine ⟨n, k, x, _, hn, hk, fun hsmall => ?_, fun start children => ?_, htext.ofSource, ?_,
    hnearest, hdecimal, hties, ?_⟩
  · rcases hkept with rfl | ⟨j, -, hle, hlt, hlarge⟩
    · rfl
    · rcases Nat.eq_zero_or_pos j with rfl | hj
      · omega
      · have hpow : 2 ^ 4 ≤ 2 ^ (4 * j) := Nat.pow_le_pow_right (by decide) (by omega)
        omega
  · rw [numericValue, hliteral]
  · rintro decimals hsome hall rfl
    exact (numberText_digits hsome hall).ofSource
  · rw [← hties]
    exact ⟨fun heq => heq ▸ hdecimal, fun h => h.unique hdecimal⟩

/-- The largest number of which all digits count is rounded once. -/
theorem hexLiteral_nearest_largest :
    ∃ x, Program.ofSource "0x1ffffffffffffff" = .ok [.expr (.literal (.number x))] ∧
      IsNearest (2 ^ 57 - 1 : Nat) x := by
  have hvalue : hexDigitsValue? "1ffffffffffffff".toList = some (2 ^ 57 - 1) := by decide +kernel
  obtain ⟨n, k, x, y, hn, -, hall, -, hsource, -, hnearest, -⟩ :=
    hexLiteral_nearest (.inl rfl : 'x' = 'x' ∨ _) (by decide : "1ffffffffffffff".toList ≠ [])
      (List.all_iff_forall_prop.mp (by decide))
  obtain rfl : 2 ^ 57 - 1 = n :=
    Option.some.inj (hvalue.symm.trans (hexDigitsValue_eq_some_iff.mpr hn))
  obtain rfl := hall (by decide)
  exact ⟨x, hsource, hnearest⟩

/-- The last digit of this number is dropped where it would break a tie: the literal denotes the
double below, the decimal literal of the same number the one above. -/
theorem hexLiteral_tie :
    ∃ x y, HexDigits "200000000000011".toList 144115188075855889 ∧
      numericLiteral? "0x200000000000011".toList = some x ∧
      numericLiteral? "144115188075855889".toList = some y ∧
      ¬IsNearest (144115188075855889 : Nat) x ∧ IsNearest (144115188075855889 : Nat) y ∧
      x ≠ y := by
  have hlow : Significand (2 ^ 52) 5 := .power (by decide) (by decide)
  have hhigh : Significand (2 ^ 52 + 1) 5 :=
    ⟨by decide, by decide, by decide, .inr (by decide), by decide⟩
  have hvalue : hexDigitsValue? "200000000000011".toList = some 144115188075855889 := by
    decide +kernel
  have hdecimal : numericLiteral? "144115188075855889".toList =
      some (Decimal.toFloat ⟨144115188075855889, 0⟩) := by decide +kernel
  have hfar : ¬IsNearest (144115188075855889 : Nat) (double (2 ^ 52) 5) := by
    rintro ⟨-, p, hp, hnearest⟩
    obtain rfl := Option.some.inj (hlow.place.symm.trans hp)
    have hnear := (hnearest _ _ hhigh.place).1
    norm_num at hnear
  have hnear : IsNearest (144115188075855889 : Nat) (Decimal.toFloat ⟨144115188075855889, 0⟩) := by
    have hnear := Decimal.isNearest_toFloat ⟨144115188075855889, 0⟩
    rwa [Decimal.value, zpow_zero, mul_one] at hnear
  exact ⟨double (2 ^ 52) 5, _, hexDigitsValue_eq_some_iff.mp hvalue, by decide +kernel, hdecimal,
    hfar, hnear, fun heq => hfar (heq ▸ hnear)⟩

end Scriptlet
