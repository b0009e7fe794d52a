import Scriptlet.Proofs.Number.Double
import Scriptlet.Value.Basic

/-!
# The equalities of values

Scripts compare values strictly or loosely, and hosts in a way of their own. All three come down to
one relation (`Value.StrictlyEqual`), which is symmetric and transitive but not reflexive: NaN and
errors stand outside. The loose equality answers for the pairs it can compare
(`Value.LooselyComparable`), and then as the strict one does, `undefined` and `null` apart; for all
other pairs it gives an error. `Value.equalities_agree` puts this together.

That the relation is symmetric and transitive is inherited from the equality of doubles. All that is
used of doubles is which of them are equal: two that are the same, unless they are NaN, and the
zeros of either sign.
-/

namespace Scriptlet

namespace Value

variable {a b c : Value}

/-! ## Strict equality

The relation, and that the function decides it.
-/

/-- Strictly equal values: numbers that are equal as numbers are, and any other value and itself,
unless it is an error. -/
inductive StrictlyEqual : Value → Value → Prop
  | number {x y : Float} (h : (x == y) = true) : StrictlyEqual (.number x) (.number y)
  | same {a : Value} (hnumber : ∀ x, a ≠ .number x) (herror : a.isError = false) :
    StrictlyEqual a a

/-- Strict equality is symmetric. -/
theorem StrictlyEqual.symm (h : StrictlyEqual a b) : StrictlyEqual b a := by
  cases h with
  | number h =>
    rw [Float.beq_iff_ne_nan_and_eq] at h
    exact .number (Float.beq_iff_ne_nan_and_eq.mpr (by tauto))
  | same hnumber herror => exact .same hnumber herror

/-- Strict equality is transitive, also through a zero of either sign: both zeros are equal to the
same numbers. -/
theorem StrictlyEqual.trans (h : StrictlyEqual a b) (h' : StrictlyEqual b c) :
    StrictlyEqual a c := by
  cases h with
  | number h =>
    cases h' with
    | number h' =>
      rw [Float.beq_iff_ne_nan_and_eq] at h h'
      exact .number (Float.beq_iff_ne_nan_and_eq.mpr (by grind))
    | same hnumber _ => exact absurd rfl (hnumber _)
  | same _ _ => exact h'

/-- Numbers are strictly equal if they are equal as numbers. -/
theorem strictlyEqual_number_iff {x y : Float} :
    StrictlyEqual (.number x) (.number y) ↔ (x == y) = true := by
  refine ⟨fun h => ?_, .number⟩
  cases h with
  | number h => exact h
  | same hnumber _ => exact absurd rfl (hnumber x)

/-- Strictly equal values are `undefined` or `null` together. -/
theorem StrictlyEqual.isNullish_eq (h : StrictlyEqual a b) : a.isNullish = b.isNullish := by
  cases h with
  | number _ | same _ _ => rfl

/-- **What strict equality holds of**: of numbers that are equal, and of any other value and itself
unless it is an error. -/
theorem strictEquals_iff : a.strictEquals b = true ↔ StrictlyEqual a b := by
  constructor
  · rw [strictEquals]
    fun_cases sameKindEquals a b
    case case1 | case2 => exact fun _ => .same nofun rfl
    case case5 x y => exact .number
    case case8 => exact nofun
    -- kinds that are compared as data or by where they live
    all_goals
      intro h
      obtain rfl := eq_of_beq h
      exact .same nofun rfl
  · intro h
    cases h with
    | number h => exact h
    | same hnumber herror =>
      cases a with
      | number x => exact absurd rfl (hnumber x)
      | error _ => cases herror
      | undefined | null => rfl
      | _ => exact beq_self_eq_true _

/-- The order of the operands does not matter. -/
theorem strictEquals_comm (a b : Value) : a.strictEquals b = b.strictEquals a := by
  rw [Bool.eq_iff_iff, strictEquals_iff, strictEquals_iff]
  exact ⟨.symm, .symm⟩

/-- Only NaN and errors differ from themselves. -/
theorem strictEquals_self_iff :
    a.strictEquals a = true ↔ (∀ x, a = .number x → x.isNaN = false) ∧ a.isError = false := by
  rw [strictEquals_iff]
  cases a with
  | number x =>
    have hself : (x == x) = true ↔ x.isNaN = false := by
      rw [Float.beq_self_iff, Float.isNaN_eq_decide_eq_nan, decide_eq_false_iff_not]
    rw [strictlyEqual_number_iff, hself]
    refine ⟨fun h => ⟨?_, rfl⟩, fun h => h.1 x rfl⟩
    rintro _ ⟨⟩
    exact h
  | error f => exact ⟨nofun, fun h => nomatch h.2⟩
  | _ => exact ⟨fun _ => ⟨nofun, rfl⟩, fun _ => .same nofun rfl⟩

/-! ## Loose equality

For which pairs it has an answer, and what the answer is.
-/

/-- The pairs that loose equality compares: one of the two is `undefined` or `null`, or they are
of one kind, though not errors. -/
def LooselyComparable (a b : Value) : Prop :=
  a.isNullish ∨ b.isNullish ∨ a.typeName = b.typeName ∧ a.isError = false

theorem isError_iff (a : Value) : a.isError = true ↔ a.typeName = "error" := by
  cases a <;> simp [isError, typeName]

/-- Values of one kind are both errors or neither of them is. -/
theorem isError_eq_of_typeName (h : a.typeName = b.typeName) : a.isError = b.isError := by
  rw [Bool.eq_iff_iff, isError_iff, isError_iff, h]

/-- Whether two values can be compared does not depend on their order. -/
theorem LooselyComparable.symm (h : LooselyComparable a b) : LooselyComparable b a := by
  rcases h with h | h | ⟨hkind, herror⟩
  · exact .inr (.inl h)
  · exact .inl h
  · exact .inr (.inr ⟨hkind.symm, isError_eq_of_typeName hkind ▸ herror⟩)

/-- Values of one kind are compared, unless they are errors. -/
theorem sameKindEquals_eq (a b : Value) :
    a.sameKindEquals b =
      if a.typeName = b.typeName ∧ a.isError = false then some (a.strictEquals b) else none := by
  cases a <;> cases b <;> simp [sameKindEquals, strictEquals, typeName, isError]

/-- What can be compared loosely is, as it would be strictly but for `undefined` and `null`. -/
theorem looseEquals_of_comparable (h : LooselyComparable a b) :
    a.looseEquals b = .boolean (a.strictEquals b || (a.isNullish && b.isNullish)) := by
  rw [looseEquals]
  split
  case isTrue hnullish =>
    have hstrict : a.strictEquals b = true → (a.isNullish && b.isNullish) = true := fun heq => by
      rw [(strictEquals_iff.mp heq).isNullish_eq] at hnullish ⊢
      simpa using hnullish
    rw [Bool.or_eq_right_iff_imp.mpr hstrict]
  case isFalse hnullish =>
    rw [Bool.or_eq_true, not_or] at hnullish
    obtain ⟨hkind, herror⟩ := (h.resolve_left hnullish.1).resolve_left hnullish.2
    have hsame : a.sameKindEquals b = some (a.strictEquals b) := by
      rw [sameKindEquals_eq]
      exact if_pos ⟨hkind, herror⟩
    have herror' : b.isError = false := isError_eq_of_typeName hkind ▸ herror
    simp [herror, herror', hsame, hnullish.1]

/-- What cannot be compared loosely is an error: the first one that is compared, or one of its
own that names the kinds. -/
theorem looseEquals_of_not_comparable (h : ¬LooselyComparable a b) :
    a.looseEquals b =
      if a.isError then a else if b.isError then b
      else .error ⟨.type, "cannot loosely compare " ++ a.typeName ++ " with " ++ b.typeName⟩ := by
  obtain ⟨ha, hb, hkind⟩ : ¬a.isNullish ∧ ¬b.isNullish ∧
      ¬(a.typeName = b.typeName ∧ a.isError = false) := by
    simpa only [LooselyComparable, not_or] using h
  rw [looseEquals, if_neg (by simp [ha, hb]), sameKindEquals_eq, if_neg hkind]
  rfl

/-- The loose equality answers exactly for the pairs that can be compared, and with their strict
equality, `undefined` and `null` apart. -/
theorem looseEquals_eq_boolean_iff {v : Bool} :
    a.looseEquals b = .boolean v ↔
      LooselyComparable a b ∧ v = (a.strictEquals b || (a.isNullish && b.isNullish)) := by
  by_cases h : LooselyComparable a b
  · rw [looseEquals_of_comparable h]
    simp [h, eq_comm]
  · rw [looseEquals_of_not_comparable h]
    refine ⟨fun heq => ?_, fun heq => absurd heq.1 h⟩
    split at heq
    · next he => rw [heq] at he; cases he
    · split at heq
      · next he => rw [heq] at he; cases he
      · cases heq

/-- The loose equality answers alike in either order, where it does answer. -/
theorem looseEquals_comm_boolean {v : Bool} :
    a.looseEquals b = .boolean v ↔ b.looseEquals a = .boolean v := by
  rw [looseEquals_eq_boolean_iff, looseEquals_eq_boolean_iff, strictEquals_comm a b, Bool.and_comm]
  exact and_congr_left' ⟨.symm, .symm⟩

theorem isNullish_iff : a.isNullish = true ↔ a = .undefined ∨ a = .null := by
  cases a <;> simp [isNullish]

/-- Among `undefined` and `null` the strict equality misses the two mixed pairs. -/
theorem strictEquals_or_nullish :
    (a.strictEquals b || (a.isNullish && b.isNullish)) = true ↔
      a.strictEquals b = true ∨ a = .undefined ∧ b = .null ∨ a = .null ∧ b = .undefined := by
  rw [Bool.or_eq_true, Bool.and_eq_true, isNullish_iff, isNullish_iff]
  constructor
  · rintro (h | ⟨rfl | rfl, rfl | rfl⟩)
    · exact .inl h
    · exact .inl rfl
    · exact .inr (.inl ⟨rfl, rfl⟩)
    · exact .inr (.inr ⟨rfl, rfl⟩)
    · exact .inl rfl
  · rintro (h | ⟨rfl, rfl⟩ | ⟨rfl, rfl⟩)
    · exact .inl h
    · exact .inr ⟨.inl rfl, .inr rfl⟩
    · exact .inr ⟨.inr rfl, .inl rfl⟩

/-! ## Host equality

Hosts look at what a script evaluated to, and may want to know which error it was.
-/

/-- A host compares errors by what they say, and all else strictly. -/
theorem hostEquals_of_not_errors (h : ¬(a.isError ∧ b.isError)) :
    a.hostEquals b = a.strictEquals b := by
  cases a <;> cases b
  case error.error => exact absurd ⟨rfl, rfl⟩ h
  all_goals rfl

/-- **The equalities agree.** Strict equality is symmetric and transitive, and reflexive but for
NaN and errors. Host equality is strict equality, unless both values are errors. Loose equality
has an answer for the pairs that can be compared, the strict one but for `undefined` and `null`,
which equal each other. For other pairs it is the first operand that is an error, or an error that
names the two kinds in order. The order of the operands changes no answer. -/
theorem equalities_agree (a b c : Value) :
    a.strictEquals b = b.strictEquals a ∧
    (a.strictEquals b = true → b.strictEquals c = true → a.strictEquals c = true) ∧
    (a.strictEquals a = true ↔ (∀ x, a = .number x → x.isNaN = false) ∧ a.isError = false) ∧
    (¬(a.isError ∧ b.isError) → a.hostEquals b = a.strictEquals b) ∧
    (∀ f g, a = .error f → b = .error g → (a.hostEquals b = true ↔ f = g)) ∧
    ((∃ v, a.looseEquals b = .boolean v) ↔ LooselyComparable a b) ∧
    (∀ v, a.looseEquals b = .boolean v →
      (v = true ↔
        a.strictEquals b = true ∨ a = .undefined ∧ b = .null ∨ a = .null ∧ b = .undefined)) ∧
    (¬LooselyComparable a b → a.looseEquals b =
      if a.isError then a else if b.isError then b
      else .error ⟨.type, "cannot loosely compare " ++ a.typeName ++ " with " ++ b.typeName⟩) ∧
    ∀ v, a.looseEquals b = .boolean v ↔ b.looseEquals a = .boolean v := by
  refine ⟨strictEquals_comm a b, ?_, strictEquals_self_iff, hostEquals_of_not_errors, ?_, ?_, ?_,
    looseEquals_of_not_comparable, fun _ => looseEquals_comm_boolean⟩
  · simp only [strictEquals_iff]
    exact .trans
  · rintro f g rfl rfl
    exact beq_iff_eq
  · simp [looseEquals_eq_boolean_iff]
  · intro v h
    obtain ⟨-, rfl⟩ := looseEquals_eq_boolean_iff.mp h
    exact strictEquals_or_nullish

/-- The zeros are equal to each other and so to themselves; the number one and its text cannot be
compared loosely. -/
theorem equalities_agree_zeros :
    (number 0).strictEquals (number (-0)) = true ∧ (number (-0)).strictEquals (number 0) = true ∧
    (number 0).strictEquals (number 0) = true ∧
    ¬LooselyComparable (number 1) (string "1") ∧
    (number 1).looseEquals (string "1") =
      .error ⟨.type, "cannot loosely compare number with string"⟩ := by
  have hzero : (number 0).strictEquals (number (-0)) = true := by decide
  obtain ⟨hcomm, htrans, -⟩ := equalities_agree (number 0) (number (-0)) (number 0)
  have hzero' := hcomm ▸ hzero
  have hmixed : ¬LooselyComparable (number 1) (string "1") := by
    simp [LooselyComparable, isNullish, typeName]
  obtain ⟨-, -, -, -, -, -, -, herror, -⟩ := equalities_agree (number 1) (string "1") null
  exact ⟨hzero, hzero', htrans hzero hzero', hmixed, herror hmixed⟩

end Value

end Scriptlet
