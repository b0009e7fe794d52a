import Mathlib
import Scriptlet.Number.Decimal

/-!
# Doubles as numbers

A double is a sign, a significand of 53 bits and an exponent, unless it is zero, infinite or not a
number. Its bits determine these and are determined by them (`unpack_pack`, `pack_unpack`). Doubles
without a sign have distinct places on the number line (`Significand.eq_of_place`).

The library has a model of doubles that unpacks bits, computes on what was unpacked, and packs the
result again. What is needed on top of it is arithmetic: a double that carries no sign is a
significand times a power of two, and which pairs of the two occur is a condition on integers
(`Significand`). Distances between doubles are then distances between such products. Infinity is
treated as the first number that would be too large, so that rounding need not make a case of it.

The module imports the whole library, because no single module of it brings along the lemmas on
doubles and their bits: they belong to Batteries, and only the library as a whole imports them.

* `Packed`, `Packed.unpack_eq`, `Packed.pack_eq`: bits and what they stand for.
* `place?`, `double`: where a double stands, and the double that stands there.
* `Significand.add_le_of_lt`, `Significand.eq_of_place`: distances.
-/

namespace Scriptlet

open Float.Model Float.Model.UnpackedFloat

/-! ## Significands

The one condition of this module. Every double without a sign has exactly one significand and
exponent that satisfy it.
-/

/-- The significand and exponent of a double that carries no sign: the significand has 53 bits,
unless the exponent is the least one. Zero has a significand here, and so has infinity, which takes
the first place that is too large for a double. -/
structure Significand (m : Nat) (e : Int) : Prop where
  lt : m < 2 ^ 53
  least : -1074 ≤ e
  le : e ≤ 972
  full : e = -1074 ∨ 2 ^ 52 ≤ m
  last : e = 972 → m = 2 ^ 52

/-! ## Bits

The four kinds of bit patterns that a double may have, as a relation. Packing and unpacking are
shown to go along the relation in either direction, and are not looked into any further.
-/

/-- What bits stand for. There is one NaN only, since the model knows no others. -/
inductive Packed : BitVec Format.binary64.numBits → UnpackedFloat → Prop
  | infinity (s : Sign) : Packed (packedInfinity Format.binary64 s) (.infinity s)
  | notANumber : Packed (packedNaN Format.binary64) .notANumber
  | zero (s : Sign) : Packed (packedZero Format.binary64 s) (.zero s)
  | subnormal (s : Sign) {mantissa : BitVec 52} (hm : 0 < mantissa.toNat) :
    Packed (packComponents Format.binary64 s 0#11 mantissa) (.finite s mantissa.toNat (-1074) hm)
  | normal (s : Sign) {exponent : BitVec 11} (hpos : 0 < exponent.toNat)
    (hlt : exponent.toNat < 2047) (mantissa : BitVec 52) :
    Packed (packComponents Format.binary64 s exponent mantissa)
      (.finite s (2 ^ 52 + mantissa.toNat) (exponent.toNat - 1075)
        (Nat.add_pos_left (Nat.two_pow_pos 52) _))

namespace Packed

variable {b : BitVec Format.binary64.numBits} {u : UnpackedFloat}

/-- The implicit bit of a significand. -/
theorem toNat_implicit (mantissa : BitVec 52) :
    (1#1 ++ mantissa).toNat = 2 ^ 52 + mantissa.toNat := by
  rw [BitVec.toNat_append, ← Nat.shiftLeft_add_eq_or_of_lt mantissa.isLt]
  rfl

/-- The exponent of a number is not the one of infinities. -/
theorem ne_ones {exponent : BitVec 11} (hlt : exponent.toNat < 2047) : exponent ≠ -1#11 := by
  rintro rfl
  exact absurd hlt (by decide)

/-- **Unpacking** bits gives what they stand for, in each of the cases of `Packed`. -/
theorem unpack_eq (h : Packed b u) : unpack Format.binary64 b = u := by
  cases h with
  | infinity s => cases s <;> rfl
  | notANumber => rfl
  | zero s => cases s <;> rfl
  | @subnormal s mantissa hm =>
    have hne : mantissa ≠ 0#52 := by
      rintro rfl
      exact absurd hm (by decide)
    rw [UnpackedFloat.unpack]
    simp only [unpackMantissa_packComponents, unpackExponent_packComponents,
      unpackSign_packComponents, Sign.ofBitVec_toBitVec]
    rw [if_neg (by decide), if_pos trivial, dif_neg hne]
    rfl
  | @normal s exponent hpos hlt mantissa =>
    have hzero : exponent ≠ 0#11 := by
      rintro rfl
      exact absurd hpos (by decide)
    rw [UnpackedFloat.unpack]
    simp only [unpackMantissa_packComponents, unpackExponent_packComponents,
      unpackSign_packComponents, Sign.ofBitVec_toBitVec]
    rw [if_neg (ne_ones hlt), if_neg hzero]
    congr 1
    exact toNat_implicit mantissa

/-- **Packing** what bits stand for gives these bits, for zeros, subnormal and normal numbers,
infinities and the one NaN alike. -/
theorem pack_eq (h : Packed b u) : pack Format.binary64 u = b := by
  rw [← h.unpack_eq, UnpackedFloat.pack_unpack]
  cases h with
  | infinity s => cases s <;> rfl
  | notANumber => rfl
  | zero s => cases s <;> rfl
  | subnormal s hm => simp [isNaNBits]
  | normal s hpos hlt mantissa =>
    rw [isNaNBits, unpackExponent_packComponents, if_neg]
    exact fun hnan => ne_ones hlt (of_decide_eq_true hnan).1

/-- Bits in which no other NaN is encoded stand for something. -/
theorem exists_of_valid (hb : Format.binary64.Valid b) : ∃ u, Packed b u := by
  have hpos : ∀ {n : Nat} {v : BitVec n}, v ≠ 0#n → 0 < v.toNat := fun h =>
    (BitVec.toNat_pos _).mpr ((BitVec.pos_iff_ne_zero _).mpr h)
  have hsplit := packComponents_unpackSign_unpackExponent_unpackMantissa b
  by_cases hones : unpackExponent b = -1#11
  · by_cases hmantissa : unpackMantissa b = 0#52
    · rw [hones, hmantissa] at hsplit
      rw [← hsplit]
      exact ⟨_, .infinity _⟩
    · rw [hb.eq_packedNaN hones hmantissa]
      exact ⟨_, .notANumber⟩
  · by_cases hzero : unpackExponent b = 0#11
    · rw [hzero] at hsplit
      by_cases hmantissa : unpackMantissa b = 0#52
      · rw [hmantissa] at hsplit
        rw [← hsplit]
        exact ⟨_, .zero _⟩
      · rw [← hsplit]
        exact ⟨_, .subnormal _ (hpos hmantissa)⟩
    · have hne : (unpackExponent b).toNat ≠ 2047 := fun h => hones (BitVec.toNat_inj.mp h)
      have hlt : (unpackExponent b).toNat < 2 ^ 11 := (unpackExponent b).isLt
      rw [← hsplit]
      exact ⟨_, .normal _ (hpos hzero) (by omega) _⟩

/-- Significands are stored as they are. -/
theorem exists_of_significand {s : Sign} {m : Nat} {e : Int} (h : Significand m e) (hpos : 0 < m)
    (he : e ≠ 972) : ∃ b, Packed b (.finite s m e hpos) := by
  obtain ⟨hlt, hleast, hle, hfull, -⟩ := h
  by_cases hm : 2 ^ 52 ≤ m
  · have hnormal := @Packed.normal s (BitVec.ofNat 11 (e + 1075).toNat)
      (by rw [BitVec.toNat_ofNat]; omega) (by rw [BitVec.toNat_ofNat]; omega)
      (BitVec.ofNat 52 (m - 2 ^ 52))
    have hm : 2 ^ 52 + (BitVec.ofNat 52 (m - 2 ^ 52)).toNat = m := by
      rw [BitVec.toNat_ofNat]
      omega
    have he : ((BitVec.ofNat 11 (e + 1075).toNat).toNat : Int) - 1075 = e := by
      rw [BitVec.toNat_ofNat]
      omega
    simp only [hm, he] at hnormal
    exact ⟨_, hnormal⟩
  · obtain rfl := hfull.resolve_right hm
    have hm : (BitVec.ofNat 52 m).toNat = m := by
      rw [BitVec.toNat_ofNat]
      omega
    have hsubnormal := @Packed.subnormal s (BitVec.ofNat 52 m) (hm.symm ▸ hpos)
    simp only [hm] at hsubnormal
    exact ⟨_, hsubnormal⟩

/-- What bits stand for is given by a significand, if it is a number other than zero. -/
theorem significand {s : Sign} {m : Nat} {e : Int} {hm : 0 < m} (h : Packed b (.finite s m e hm)) :
    Significand m e ∧ e ≠ 972 := by
  cases h with
  | @subnormal _ mantissa hm =>
    have := mantissa.isLt
    exact ⟨⟨by omega, le_refl _, by decide, .inl rfl, nofun⟩, by decide⟩
  | @normal _ exponent hpos hlt mantissa =>
    have := mantissa.isLt
    exact ⟨⟨by omega, by omega, by omega, .inr (by omega), by omega⟩, by omega⟩

/-- What is too large is stored as an infinity. -/
theorem pack_overflow {s : Sign} {m : Nat} {e : Int} (hm : 0 < m) (he : 972 ≤ e) :
    UnpackedFloat.pack Format.binary64 (.finite s m e hm) = packedInfinity Format.binary64 s := by
  have hlarge : 2 ^ Format.binary64.exponentBits ≤ (e + Format.binary64.exponentBias +
      Format.binary64.mantissaBitsWithoutImplicit).toNat + 1 := by
    change 2 ^ 11 ≤ (e + 1023 + 52).toNat + 1
    omega
  exact if_pos hlarge

end Packed

/-! ## Doubles and what they unpack to -/

/-- The bits of a double stand for what it unpacks to. -/
theorem packed (x : Float) : Packed x.toModel.toBits.toBitVec x.toModel.unpack := by
  obtain ⟨u, hu⟩ := Packed.exists_of_valid x.toModel.valid
  rwa [Float.Model.unpack, hu.unpack_eq]

/-- What bits can stand for is the same after packing and unpacking it. -/
theorem unpack_pack {u : UnpackedFloat} (h : ∃ b, Packed b u) :
    (Float.Model.pack u).unpack = u := by
  obtain ⟨b, hb⟩ := h
  change UnpackedFloat.unpack _ (UnpackedFloat.pack _ u) = u
  rw [hb.pack_eq, hb.unpack_eq]

/-- A double is the same after unpacking and packing it. -/
theorem pack_unpack (x : Float) : Float.ofModel (.pack x.toModel.unpack) = x := by
  have hbits : UnpackedFloat.pack Format.binary64 x.toModel.unpack = x.toModel.toBits.toBitVec :=
    pack_unpack_of_valid x.toModel.valid
  rw [Float.Model.pack]
  simp only [hbits]

/-- A double is what it unpacks to, so doubles can be compared there. -/
theorem eq_of_unpack {x y : Float} (h : x.toModel.unpack = y.toModel.unpack) : x = y := by
  rw [← pack_unpack x, h, pack_unpack y]

/-- The magnitude of a double is unpacked without the sign. -/
theorem unpack_abs (x : Float) : x.abs.toModel.unpack = x.toModel.unpack.abs := by
  change (Float.Model.pack x.toModel.unpack.abs).unpack = _
  refine unpack_pack ?_
  have hx := packed x
  generalize x.toModel.unpack = u at hx
  cases u with
  | infinity s => exact ⟨_, .infinity _⟩
  | notANumber => exact ⟨_, .notANumber⟩
  | zero s => exact ⟨_, .zero _⟩
  | finite s m e hm =>
    obtain ⟨hsignificand, he⟩ := hx.significand
    exact Packed.exists_of_significand hsignificand hm he

/-- Doubles are equal as numbers if they are the same, but for NaN, or both zero. This is how `==`
on numbers comes into proofs, which else speak of equality. -/
theorem beq_iff {x y : Float} : (x == y) = true ↔
    (x = y ∧ x.toModel.unpack ≠ .notANumber) ∨
      ∃ s s', x.toModel.unpack = .zero s ∧ y.toModel.unpack = .zero s' := by
  change x.toModel.unpack.beq y.toModel.unpack = true ↔ _
  rw [beq_iff_ne_notANumber_and_eq]
  constructor
  · rintro ⟨hx, -, heq | ⟨hx', hy'⟩ | ⟨hx', hy'⟩⟩
    · exact .inl ⟨eq_of_unpack heq, hx⟩
    · exact .inr ⟨_, _, hx', hy'⟩
    · exact .inr ⟨_, _, hx', hy'⟩
  · rintro (⟨rfl, hx⟩ | ⟨s, s', hx, hy⟩)
    · exact ⟨hx, hx, .inl rfl⟩
    · rw [hx, hy]
      cases s <;> cases s' <;> simp

/-- The test for NaN is a test for what is unpacked. -/
theorem isNaN_iff {x : Float} : x.isNaN = true ↔ x.toModel.unpack = .notANumber := by
  change x.toModel.unpack.isNaN = true ↔ _
  exact UnpackedFloat.isNaN_iff

/-! ## Places

Rational numbers are used, as all places are rational, and so are the numbers that are rounded.
-/

/-- A number, or its negative. -/
def signed : Sign → ℚ → ℚ
  | .negative, q => -q
  | .positive, q => q

/-- Where a double stands among the numbers. Infinities stand where the next double would, and NaN
stands nowhere. -/
def place? (x : Float) : Option ℚ :=
  match x.toModel.unpack with
  | .notANumber => none
  | .infinity s => some (signed s (2 ^ 1024))
  | .zero _ => some 0
  | .finite s m e _ => some (signed s (m * 2 ^ e))

/-- The last binary digit of the significand is zero. Zero and infinity count as even. -/
def EvenSignificand (x : Float) : Prop :=
  match x.toModel.unpack with
  | .finite _ m _ _ => Even m
  | _ => True

/-- The double with a significand and an exponent, and no sign. It is defined for all of them, but
only used where they are those of a double. -/
def double (m : Nat) (e : Int) : Float :=
  .ofModel (.pack (if hm : m = 0 then .zero .positive
    else .finite .positive m e (Nat.pos_of_ne_zero hm)))

section

variable {m m' : Nat} {e e' : Int}

theorem unpack_double_zero (e : Int) : (double 0 e).toModel.unpack = .zero .positive :=
  unpack_pack ⟨_, .zero _⟩

/-- A double with an exponent that large is infinite, whatever its significand. -/
theorem unpack_double_infinity (hm : 0 < m) (he : 972 ≤ e) :
    (double m e).toModel.unpack = .infinity .positive := by
  rw [double, dif_neg hm.ne']
  change UnpackedFloat.unpack _ (UnpackedFloat.pack _ (.finite .positive m e hm)) = _
  rw [Packed.pack_overflow hm he]
  rfl

/-- A double unpacks to the significand and the exponent it was made from, if these are ones that a
double can have. -/
theorem unpack_double (h : Significand m e) (hm : 0 < m) (he : e ≠ 972) :
    (double m e).toModel.unpack = .finite .positive m e hm := by
  rw [double, dif_neg hm.ne']
  exact unpack_pack (Packed.exists_of_significand h hm he)

/-- All doubles past the last place are infinite. -/
theorem double_overflow (hm : 0 < m) (he : 972 ≤ e) : double m e = double (2 ^ 52) 972 := by
  refine eq_of_unpack ?_
  rw [unpack_double_infinity hm he, unpack_double_infinity (by positivity) le_rfl]

namespace Significand

theorem zero : Significand 0 (-1074) := ⟨by decide, le_rfl, by decide, .inl rfl, nofun⟩

/-- The least significand that has all its digits. -/
theorem power (hleast : -1074 ≤ e) (hle : e ≤ 972) : Significand (2 ^ 52) e :=
  ⟨by decide, hleast, hle, .inr le_rfl, fun _ => rfl⟩

theorem power_place (e : Int) : ((2 ^ 52 : Nat) : ℚ) * 2 ^ e = 2 ^ (e + 52) := by
  rw [zpow_add₀ two_ne_zero, mul_comm]
  norm_num

/-- Infinity has a significand and an exponent like other doubles, the least ones that are too
large. Distances to it are then computed as if it were a number, which is how rounding treats it. -/
theorem infinity : Significand (2 ^ 52) 972 := power (by decide) le_rfl

theorem top : ((2 ^ 52 : Nat) : ℚ) * (2 : ℚ) ^ (972 : Int) = 2 ^ 1024 :=
  (power_place 972).trans (by norm_num)

theorem top_le_zpow {t : Int} (ht : 1024 ≤ t) : (2 : ℚ) ^ 1024 ≤ 2 ^ t :=
  (zpow_natCast (2 : ℚ) 1024).symm.trans_le (zpow_le_zpow_right₀ one_le_two (by omega))

/-- The three kinds of doubles that carry no sign. -/
theorem cases (h : Significand m e) :
    (m = 0 ∧ e = -1074) ∨ (m = 2 ^ 52 ∧ e = 972) ∨ (0 < m ∧ e ≠ 972) := by
  obtain ⟨-, -, -, hfull, hlast⟩ := h
  omega

/-- A double stands where its significand and exponent say. -/
theorem place (h : Significand m e) : place? (double m e) = some ((m : ℚ) * 2 ^ e) := by
  rcases h.cases with ⟨rfl, rfl⟩ | ⟨rfl, rfl⟩ | ⟨hm, he⟩
  · rw [place?, unpack_double_zero, Nat.cast_zero, zero_mul]
  · rw [place?, unpack_double_infinity (by positivity) le_rfl, top]
    rfl
  · rw [place?, unpack_double h hm he]
    rfl

theorem even_iff (h : Significand m e) : EvenSignificand (double m e) ↔ Even m := by
  rcases h.cases with ⟨rfl, rfl⟩ | ⟨rfl, rfl⟩ | ⟨hm, he⟩
  · rw [EvenSignificand, unpack_double_zero]
    decide
  · rw [EvenSignificand, unpack_double_infinity (by positivity) le_rfl]
    decide
  · rw [EvenSignificand, unpack_double h hm he]

theorem abs_double (h : Significand m e) : (double m e).abs = double m e := by
  refine eq_of_unpack ?_
  rw [unpack_abs]
  rcases h.cases with ⟨rfl, rfl⟩ | ⟨rfl, rfl⟩ | ⟨hm, he⟩
  · rw [unpack_double_zero]
    rfl
  · rw [unpack_double_infinity (by positivity) le_rfl]
    rfl
  · rw [unpack_double h hm he]
    rfl

end Significand

/-- Without the sign the number is what it was. -/
theorem abs_signed (s : Sign) (q : ℚ) : |signed s q| = |q| := by
  cases s with
  | negative => exact abs_neg q
  | positive => rfl

/-- Every double that is a number has a significand, up to its sign. -/
theorem exists_significand {x : Float} {p : ℚ} (hp : place? x = some p) :
    ∃ m e, Significand m e ∧ x.abs = double m e ∧ |p| = m * 2 ^ e := by
  have hpacked := packed x
  have habs := unpack_abs x
  rw [place?] at hp
  generalize x.toModel.unpack = u at hpacked habs hp
  cases u with
  | notANumber => cases hp
  | infinity s =>
    obtain rfl := Option.some.inj hp
    refine ⟨2 ^ 52, 972, .infinity, eq_of_unpack ?_, ?_⟩
    · rw [habs, unpack_double_infinity (by positivity) le_rfl]
      rfl
    · rw [abs_signed, Significand.top, abs_of_nonneg (by positivity)]
  | zero s =>
    obtain rfl := Option.some.inj hp
    refine ⟨0, -1074, .zero, eq_of_unpack ?_, ?_⟩
    · rw [habs, unpack_double_zero]
      rfl
    · rw [abs_zero, Nat.cast_zero, zero_mul]
  | finite s m e hm =>
    obtain rfl := Option.some.inj hp
    obtain ⟨h, he⟩ := hpacked.significand
    refine ⟨m, e, h, eq_of_unpack ?_, ?_⟩
    · rw [habs, unpack_double h hm he]
      rfl
    · rw [abs_signed, abs_of_nonneg (by positivity)]

/-! ## Distances between places

Two doubles with the same exponent are a multiple of its unit apart. With different exponents they
are so, too, if the one with the larger exponent has all its digits, which it has by the condition
on significands.
-/

namespace Significand

/-- Every place is less than those of a larger exponent that have all their digits. -/
theorem lt_of_lt (h : Significand m e) {t : Int} (ht : e < t) : (m : ℚ) * 2 ^ e < 2 ^ (t + 52) := by
  have hm : (m : ℚ) < 2 ^ (53 : Int) := by exact_mod_cast h.lt
  calc (m : ℚ) * 2 ^ e < 2 ^ (53 : Int) * 2 ^ e := by gcongr
    _ = 2 ^ (53 + e) := (zpow_add₀ two_ne_zero _ _).symm
    _ ≤ 2 ^ (t + 52) := zpow_le_zpow_right₀ one_le_two (by omega)

/-- The significand has all its digits, unless the exponent is the least one. -/
theorem le_place (h : Significand m e) (he : e ≠ -1074) : (2 : ℚ) ^ (e + 52) ≤ m * 2 ^ e := by
  have hm : (2 : ℚ) ^ (52 : Int) ≤ m := by exact_mod_cast h.full.resolve_left he
  rw [zpow_add₀ two_ne_zero, mul_comm]
  gcongr

/-- A place is a multiple of every smaller unit. -/
theorem multiple_of_le (m : Nat) {t : Int} (ht : t ≤ e) :
    ∃ k : Nat, (m : ℚ) * 2 ^ e = k * 2 ^ t := by
  obtain ⟨d, rfl⟩ := Int.le.dest ht
  refine ⟨m * 2 ^ d, ?_⟩
  push_cast
  rw [zpow_add₀ two_ne_zero, zpow_natCast]
  ring

/-- A place is a multiple of the unit of another, or less than every place of that unit that has
all its digits. -/
theorem multiple (h : Significand m e) (t : Int) :
    (∃ k : Nat, (m : ℚ) * 2 ^ e = k * 2 ^ t) ∨ -1074 < t ∧ (m : ℚ) * 2 ^ e < 2 ^ (t + 52) := by
  rcases le_or_gt t e with ht | ht
  · exact .inl (multiple_of_le m ht)
  · exact .inr ⟨h.least.trans_lt ht, h.lt_of_lt ht⟩

theorem le_top (h : Significand m e) : (m : ℚ) * 2 ^ e ≤ 2 ^ 1024 := by
  by_cases he : e = 972
  · rw [he, h.last he, top]
  · exact (h.lt_of_lt (lt_of_le_of_ne h.le he)).le.trans_eq (by norm_num)

/-- From one place to the next there is at least the unit of the first. Everything on rounding below
rests on this bound. -/
theorem add_le_of_lt (h : Significand m e) (h' : Significand m' e')
    (hlt : (m : ℚ) * 2 ^ e < m' * 2 ^ e') : (m : ℚ) * 2 ^ e + 2 ^ e ≤ m' * 2 ^ e' := by
  have hunit : (0 : ℚ) < 2 ^ e := by positivity
  rcases h'.multiple e with ⟨k, hk⟩ | ⟨he, hsmall⟩
  · rw [hk] at hlt ⊢
    have hmk : m < k := by exact_mod_cast lt_of_mul_lt_mul_right hlt hunit.le
    have hle : (m : ℚ) + 1 ≤ k := by exact_mod_cast hmk
    calc (m : ℚ) * 2 ^ e + 2 ^ e = (m + 1) * 2 ^ e := by ring
      _ ≤ k * 2 ^ e := by gcongr
  · exact absurd (h.le_place he.ne') (not_le.mpr (hlt.trans hsmall))

/-- **No two doubles without a sign share their place.** If they did, neither could be before the
other. -/
theorem eq_of_place (h : Significand m e) (h' : Significand m' e')
    (heq : (m : ℚ) * 2 ^ e = m' * 2 ^ e') : m = m' ∧ e = e' := by
  rcases lt_trichotomy e e' with he | rfl | he
  · have hne : e' ≠ -1074 := (h.least.trans_lt he).ne'
    exact absurd heq ((h.lt_of_lt he).trans_le (h'.le_place hne)).ne
  · have hunit : (2 : ℚ) ^ e ≠ 0 := by positivity
    exact ⟨by exact_mod_cast mul_right_cancel₀ hunit heq, rfl⟩
  · have hne : e ≠ -1074 := (h'.least.trans_lt he).ne'
    exact absurd heq ((h'.lt_of_lt he).trans_le (h.le_place hne)).ne'

end Significand

end

end Scriptlet
