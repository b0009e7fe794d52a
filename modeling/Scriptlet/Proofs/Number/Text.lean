import Scriptlet.Proofs.Number.Written
import Scriptlet.Proofs.Program.Words
import Scriptlet.Value.Basic

/-!
# The text of a number

Two numbers have one text if they are equal, and only then, NaN counting as equal to itself
(`numberText_eq_iff`). The text of a number that is finite and not negative is a number literal,
which denotes an equal number, and is kept as the key of a property (`numberText_lossless`).

The text is a sign and a magnitude, and they are told apart by the first character. The magnitude is
a word for what is not a number and for infinity, and a numeral otherwise, which reads back as the
magnitude of the number. Two texts that are the same thus have the same magnitude and the same sign,
and all that can differ is the sign of zero, which is not written.
-/

namespace Scriptlet

open Float.Model Float.Model.UnpackedFloat Peg

/-! ## The parts of the text

What is written in front and what behind, and how the second determines the magnitude.
-/

/-- The sign that is written in front of a number. -/
def signText : UnpackedFloat → List Char
  | .infinity .negative => ['-']
  | .finite .negative .. => ['-']
  | _ => []

/-- There is a sign or none. -/
theorem signText_cases (u : UnpackedFloat) : signText u = [] ∨ signText u = ['-'] := by
  rw [signText.eq_def]
  split
  · exact .inr rfl
  · exact .inr rfl
  · exact .inl rfl

theorem sign_append_inj {sign sign' body body' : List Char} (hsign : sign = [] ∨ sign = ['-'])
    (hsign' : sign' = [] ∨ sign' = ['-']) (hbody : '-' ∉ body.head?) (hbody' : '-' ∉ body'.head?)
    (h : sign ++ body = sign' ++ body') : sign = sign' ∧ body = body' := by
  rcases hsign with rfl | rfl <;> rcases hsign' with rfl | rfl
  · exact ⟨rfl, h⟩
  · obtain rfl : body = '-' :: body' := h
    exact absurd rfl hbody
  · obtain rfl : '-' :: body = body' := h
    exact absurd rfl hbody'
  · exact ⟨rfl, List.append_cancel_left h⟩

/-- What is written behind the sign. -/
inductive MagnitudeText (x : Float) : List Char → Prop
  | notANumber (hx : x.toModel.unpack = .notANumber) : MagnitudeText x "NaN".toList
  | infinity (s : Sign) (hx : x.toModel.unpack = .infinity s) : MagnitudeText x "Infinity".toList
  | numeral {d : Decimal} {body : List Char} (hx : x.isFinite) (hd : d.toFloat = x.abs)
    (hbody : d.Reads body) : MagnitudeText x body

namespace MagnitudeText

variable {x y : Float} {body : List Char}

/-- The sign ends before what is behind it. -/
theorem head (h : MagnitudeText x body) : '-' ∉ body.head? := by
  cases h with
  | notANumber _ => decide
  | infinity _ _ => decide
  | numeral _ _ hbody =>
    intro hmem
    obtain ⟨c, hc, hdigit⟩ := hbody.head
    obtain rfl := Option.mem_unique hc hmem
    exact absurd hdigit (by decide)

theorem abs_notANumber (hx : x.toModel.unpack = .notANumber) :
    x.abs = .ofModel (.pack .notANumber) := by
  rw [← pack_unpack x.abs, unpack_abs, hx]
  rfl

theorem abs_infinity {s : Sign} (hx : x.toModel.unpack = .infinity s) :
    x.abs = .ofModel (.pack (.infinity .positive)) := by
  rw [← pack_unpack x.abs, unpack_abs, hx]
  rfl

/-- What is behind the sign tells which number it is, but for the sign. -/
theorem abs_eq (hx : MagnitudeText x body) (hy : MagnitudeText y body) : x.abs = y.abs := by
  have hnan : numericLiteral? "NaN".toList = none := by decide
  have hinfinity : numericLiteral? "Infinity".toList = none := by decide
  cases hx with
  | notANumber hx =>
    cases hy with
    | notANumber hy => rw [abs_notANumber hx, abs_notANumber hy]
    | numeral _ _ hbody => exact nomatch hnan.symm.trans hbody.literal
  | infinity s hx =>
    cases hy with
    | infinity s' hy => rw [abs_infinity hx, abs_infinity hy]
    | numeral _ _ hbody => exact nomatch hinfinity.symm.trans hbody.literal
  | numeral _ hd hbody =>
    cases hy with
    | notANumber _ => exact nomatch hnan.symm.trans hbody.literal
    | infinity _ _ => exact nomatch hinfinity.symm.trans hbody.literal
    | numeral _ hd' hbody' =>
      rw [← hd, ← hd']
      exact Option.some.inj (hbody.literal.symm.trans hbody'.literal)

end MagnitudeText

/-- The text of a number is its sign, unless it is zero, and its magnitude. -/
theorem exists_magnitudeText (x : Float) :
    ∃ body, NumberStyle.script.text x = signText x.toModel.unpack ++ body ∧
      MagnitudeText x body := by
  have hfinite : x.isFinite = x.toModel.unpack.isFinite := rfl
  rw [NumberStyle.text]
  cases hx : x.toModel.unpack with
  | notANumber => exact ⟨_, rfl, .notANumber hx⟩
  | infinity s => cases s <;> exact ⟨_, rfl, .infinity _ hx⟩
  | zero s =>
    rw [hx] at hfinite
    have hzero := Decimal.toFloat_magnitude hfinite
    rw [Decimal.magnitude, hx] at hzero
    have hnumeral : NumberStyle.script.numeral ⟨0, 0⟩ = ['0'] := by decide
    refine ⟨['0'], by cases s <;> rfl, .numeral hfinite hzero ?_⟩
    rw [← hnumeral]
    exact NumberStyle.numeral_reads _
  | finite s m e hm =>
    rw [hx] at hfinite
    have hshortest := Decimal.toFloat_shortest hfinite
    cases s <;> exact ⟨_, rfl, .numeral hfinite hshortest (NumberStyle.numeral_reads _)⟩

/-! ## Equal texts

Equality of texts is brought back to equality of what the numbers unpack to.
-/

/-- The magnitude and the written sign make up the number, but for the sign of zero. -/
theorem eq_of_abs {u v : UnpackedFloat} (habs : u.abs = v.abs) (hsign : signText u = signText v) :
    u = v ∨ ∃ s s', u = .zero s ∧ v = .zero s' := by
  cases u with
  | notANumber => cases v <;> first | exact .inl rfl | cases habs
  | infinity s =>
    cases v with
    | infinity s' => cases s <;> cases s' <;> first | exact .inl rfl | cases hsign
    | _ => cases habs
  | zero s =>
    cases v with
    | zero s' => exact .inr ⟨s, s', rfl, rfl⟩
    | _ => cases habs
  | finite s m e hm =>
    cases v with
    | finite s' m' e' hm' =>
      cases habs
      cases s <;> cases s' <;> first | exact .inl rfl | cases hsign
    | _ => cases habs

/-- **Number text loses nothing but the sign of zero.** Two numbers have the same text if they are
equal or both NaN, and only then. -/
theorem numberText_eq_iff {x y : Float} : numberText x = numberText y ↔
    (x == y) = true ∨ x.isNaN = true ∧ y.isNaN = true := by
  rw [isNaN_iff, isNaN_iff]
  refine ⟨fun h => ?_, ?_⟩
  · obtain ⟨body, hx, hbody⟩ := exists_magnitudeText x
    obtain ⟨body', hy, hbody'⟩ := exists_magnitudeText y
    have htext : signText x.toModel.unpack ++ body = signText y.toModel.unpack ++ body' := by
      rw [← hx, ← hy]
      exact String.ofList_injective h
    obtain ⟨hsign, rfl⟩ := sign_append_inj (signText_cases _) (signText_cases _) hbody.head
      hbody'.head htext
    have habs : x.toModel.unpack.abs = y.toModel.unpack.abs := by
      rw [← unpack_abs, ← unpack_abs, hbody.abs_eq hbody']
    rw [beq_iff]
    rcases eq_of_abs habs hsign with hsame | hzero
    · by_cases hnan : x.toModel.unpack = .notANumber
      · exact .inr ⟨hnan, hsame ▸ hnan⟩
      · exact .inl (.inl ⟨eq_of_unpack hsame, hnan⟩)
    · exact .inl (.inr hzero)
  · rintro (h | ⟨hx, hy⟩)
    · rcases beq_iff.mp h with ⟨rfl, -⟩ | ⟨s, s', hx, hy⟩
      · rfl
      · rw [numberText, numberText, NumberStyle.text, NumberStyle.text, hx, hy]
        cases s <;> cases s' <;> rfl
    · rw [numberText, numberText, NumberStyle.text, NumberStyle.text, hx, hy]

/-! ## Numbers that are not negative

Only these can be literals, as no literal has a sign.
-/

/-- A number that is not negative is written without a sign, and equal to its magnitude. -/
theorem unsigned_of_nonneg {x : Float} (hx : 0 ≤ x) :
    signText x.toModel.unpack = [] ∧ (x.abs == x) = true := by
  have hzero : (0 : Float).toModel.unpack = .zero .positive := rfl
  have hle : UnpackedFloat.le (.zero .positive) x.toModel.unpack = true := by
    rw [← hzero]
    exact of_decide_eq_true hx
  have hnumber : x.toModel.unpack ≠ .notANumber := by
    intro hu
    rw [hu] at hle
    cases hle
  have hsign : signText x.toModel.unpack = [] ∧
      (x.toModel.unpack.abs = x.toModel.unpack ∨ ∃ s, x.toModel.unpack = .zero s) := by
    generalize x.toModel.unpack = u at hle hnumber
    match u with
    | .notANumber => exact absurd rfl hnumber
    | .zero s => exact ⟨rfl, .inr ⟨s, rfl⟩⟩
    | .infinity .positive => exact ⟨rfl, .inl rfl⟩
    | .finite .positive _ _ _ => exact ⟨rfl, .inl rfl⟩
  refine ⟨hsign.1, beq_iff.mpr ?_⟩
  rcases hsign.2 with habs | ⟨s, hs⟩
  · rw [unpack_abs, habs]
    exact .inl ⟨eq_of_unpack ((unpack_abs x).trans habs), hnumber⟩
  · rw [unpack_abs, hs]
    exact .inr ⟨_, s, rfl, rfl⟩

/-- The text of a number that is finite and not negative is a literal of an equal number. -/
theorem numberText_literal {x : Float} (hx : x.isFinite) (hpos : 0 ≤ x) :
    NumberText (numberText x).toList x.abs := by
  obtain ⟨body, htext, hbody⟩ := exists_magnitudeText x
  rw [(unsigned_of_nonneg hpos).1, List.nil_append] at htext
  rw [numberText, String.toList_ofList, htext]
  have hfinite : x.toModel.unpack.isFinite = true := hx
  cases hbody with
  | notANumber hu =>
    rw [hu] at hfinite
    cases hfinite
  | infinity s hu =>
    rw [hu] at hfinite
    cases hfinite
  | numeral _ hd hreads => exact ⟨hreads.numeral.matches, hd ▸ hreads.literal⟩

/-! ## Numbers in scripts

A literal as a script of its own, and as the key of a property.
-/

namespace NumberText

variable {text : List Char} {x : Float} (h : NumberText text x)
include h

/-- The text of a number is parsed to one node. -/
theorem parse : Rule.numericLiteral.parse text = .ok [⟨.numericLiteral, 0, text, []⟩] := by
  obtain ⟨trees, hliteral⟩ := h.literal
  rw [← List.append_nil text] at hliteral
  have hparse := Rule.parse_token rfl hliteral
  rwa [List.append_nil] at hparse

theorem ofSource :
    Program.ofSource (String.ofList text) = .ok [.expr (.literal (.number x))] := by
  have hpasses : Rule.passesWithin .number .finish .numericLiteral 16 .assignmentExpression := by
    decide +kernel
  obtain ⟨hat, hdenotes⟩ := h.denotes (z := []) nofun
  rw [List.append_nil] at hat hdenotes
  exact Program.ofSource_of_at List.mem_cons_self hat
    (hdenotes.of_passesWithin hat ⟨dropTrivia_nil, rfl⟩ hpasses)

/-- As a key it is the text of the number. -/
theorem propertyKey_eq (start : Nat) (children : List Tree) :
    propertyKey ⟨.numericLiteral, start, text, children⟩ = .ok (numberText x) := by
  rw [propertyKey, numericValue, h.value]
  rfl

/-- An object with one property, the key of which is a number. -/
theorem object (value : Parenthesized) (more : List Char) :
    (Expr.object [(numberText x, value.expr)]).Written
      ('\x7b' :: (text ++ ':' :: (value.text ++ '\x7d' :: ')' :: more))) (')' :: more) := by
  have hbrace := At.lone (c := '\x7d') (by decide) (')' :: more)
  have hvalue := value.at ('\x7d' :: ')' :: more)
  obtain ⟨hat, inner, hname⟩ := h.stands (z := ':' :: (value.text ++ '\x7d' :: ')' :: more))
    fun _ hc => .inr (Option.some.inj hc).symm
  obtain ⟨t, hmatch, ht⟩ := (value.denotes ('\x7d' :: ')' :: more)).lift hvalue hbrace
    (r := .assignmentExpression) (by decide)
  let key : Tree := ⟨.numericLiteral, 0, text, inner⟩
  have hname : (rule .propertyName).Matches .skipped
      (text ++ ':' :: (value.text ++ '\x7d' :: ')' :: more))
      (':' :: (value.text ++ '\x7d' :: ')' :: more)) [key] :=
    (matches_silent_iff rfl).mpr (.picked hat (by decide) hname)
  have hassignment : (rule .propertyAssignment).Matches .skipped
      (text ++ ':' :: (value.text ++ '\x7d' :: ')' :: more)) ('\x7d' :: ')' :: more)
      [⟨.propertyAssignment, 0, [], [key, t]⟩] :=
    matches_node rfl (.andThen (.andThen hname (At.lone (by decide) _).skip (.word rfl))
      hvalue.skip hmatch)
  have hdefinition : (rule .propertyDefinition).Matches .skipped
      (text ++ ':' :: (value.text ++ '\x7d' :: ')' :: more)) ('\x7d' :: ')' :: more)
      [⟨.propertyAssignment, 0, [], [key, t]⟩] := (matches_silent_iff rfl).mpr (.left hassignment)
  -- there is one property only
  have hstop : (lit "," ++ rule .propertyDefinition).Iterates .skipped ('\x7d' :: ')' :: more)
      ('\x7d' :: ')' :: more) [] := by
    refine .stop ?_
    rw [Spacing.skip_of_dropTrivia rfl hbrace.skip]
    exact .first (.word nofun)
  have hcomma : (optional (lit ",")).Matches .skipped ('\x7d' :: ')' :: more)
      ('\x7d' :: ')' :: more) [] := .absent (.word nofun)
  have hlist := (matches_commaSeparated hdefinition hbrace.skip hstop).andThen hbrace.skip hcomma
  have hobject : (rule .objectLiteral).Matches .skipped
      ('\x7b' :: (text ++ ':' :: (value.text ++ '\x7d' :: ')' :: more))) (')' :: more)
      [⟨.objectLiteral, 0, [], [⟨.propertyAssignment, 0, [], [key, t]⟩]⟩] :=
    matches_node rfl (matches_enclosed hat.skip (.present hlist) hbrace.skip)
  refine .of_denotes ⟨_, hobject, ?_⟩ (.lone (by decide) _) (by decide)
  have hproperties : Expr.ofProperties [⟨.propertyAssignment, 0, [], [key, t]⟩] =
      .ok [(numberText x, value.expr)] := by
    rw [Expr.ofProperties.eq_def]
    simp only [key, h.propertyKey_eq, ht]
    rfl
  change (Expr.ofProperties _ >>= fun properties => .ok (Expr.object properties)) = _
  rw [hproperties]
  rfl

/-- An object with one property, the key of which is a number, as a script of its own. -/
theorem ofSource_object (value : Parenthesized) :
    Program.ofSource (String.ofList
      ('(' :: '\x7b' :: (text ++ ':' :: (value.text ++ ['\x7d', ')'])))) =
        .ok [.expr (.object [(numberText x, value.expr)])] := by
  obtain ⟨p, hp, hexpr⟩ := exists_parenthesized_iff.mpr (h.object value []).parenthesized
  have hsource := (Operand.parenthesized p).ofSource
  rw [Operand.text, Operand.expr, hp, hexpr] at hsource
  exact hsource

end NumberText

/-- **Number text loses nothing.** Two numbers have one text, and so one key, if and only if they
are equal or both NaN. The text of a number that is finite and not negative is matched as a number
literal as a whole; as a script it is an equal number, and as the key of a property it is kept. -/
theorem numberText_lossless :
    (∀ x y : Float,
      (numberText x = numberText y ↔ (x == y) = true ∨ x.isNaN = true ∧ y.isNaN = true) ∧
      ((Value.number x).key = (Value.number y).key ↔
        (x == y) = true ∨ x.isNaN = true ∧ y.isNaN = true)) ∧
    ∀ x : Float, x.isFinite → 0 ≤ x →
      Rule.numericLiteral.parse (numberText x).toList =
        .ok [⟨.numericLiteral, 0, (numberText x).toList, []⟩] ∧
      (∃ y, (y == x) = true ∧ numericLiteral? (numberText x).toList = some y ∧
        Program.ofSource (numberText x) = .ok [.expr (.literal (.number y))]) ∧
      (∀ start children,
        propertyKey ⟨.numericLiteral, start, (numberText x).toList, children⟩ =
          .ok (numberText x)) ∧
      ∀ value : Parenthesized, Program.ofSource (String.ofList
        ('(' :: '\x7b' :: ((numberText x).toList ++ ':' :: (value.text ++ ['\x7d', ')'])))) =
          .ok [.expr (.object [(numberText x, value.expr)])] := by
  refine ⟨fun x y => ⟨numberText_eq_iff, numberText_eq_iff⟩, fun x hx hpos => ?_⟩
  have hliteral := numberText_literal hx hpos
  have hequal : (x.abs == x) = true := (unsigned_of_nonneg hpos).2
  have htext : numberText x.abs = numberText x := numberText_eq_iff.mpr (.inl hequal)
  refine ⟨hliteral.parse, ⟨x.abs, hequal, hliteral.value, ?_⟩, fun start children => ?_,
    fun value => ?_⟩
  · have hsource := hliteral.ofSource
    rwa [String.ofList_toList] at hsource
  · rw [hliteral.propertyKey_eq, htext]
  · rw [hliteral.ofSource_object, htext]

/-- The least positive double has a text of one digit and an exponent. -/
theorem numberText_lossless_least :
    numberText (Float.ofBits 1) = "5e-324" ∧
      Rule.numericLiteral.parse "5e-324".toList =
        .ok [⟨.numericLiteral, 0, "5e-324".toList, []⟩] ∧
      ∃ y, (y == Float.ofBits 1) = true ∧
        Program.ofSource "5e-324" = .ok [.expr (.literal (.number y))] := by
  have htext : numberText (Float.ofBits 1) = "5e-324" := by decide +kernel
  have hfinite : (Float.ofBits 1).isFinite = true := by decide +kernel
  have hpos : (0 : Float) ≤ Float.ofBits 1 := by decide +kernel
  obtain ⟨hparse, ⟨y, hy, -, hsource⟩, -⟩ := numberText_lossless.2 _ hfinite hpos
  rw [htext] at hparse hsource
  exact ⟨htext, hparse, y, hy, hsource⟩

end Scriptlet
