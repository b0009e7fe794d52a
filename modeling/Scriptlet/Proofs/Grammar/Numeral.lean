import Scriptlet.Program.OfTree
import Scriptlet.Proofs.Grammar.Shape

/-!
# Numerals

The texts that the rule of number literals reads are the numerals: hexadecimal digits behind `0x`,
or decimal digits around an optional point, with an optional exponent. Each of them denotes a
number, so that a number literal is never refused (`Numeral.denotes`).

`Numeral` is the language of number literals, written down as an inductive definition. The grammar
says the same by a production, and lowering has a function of its own that takes a literal apart and
computes its value. Here both are compared with the definition: what the production reads is a
numeral (`Numeral.of_spells`), and the function has a value at every numeral. That a numeral is
matched as a whole is shown elsewhere, since it takes more than a reading.
-/

namespace Scriptlet

/-- The exponent of a decimal numeral, which may be missing. If there is one it has at least one
digit. -/
inductive Exponent : List Char → Prop
  | absent : Exponent []
  | present {mark : Char} {sign digits : List Char} (hmark : mark = 'e' ∨ mark = 'E')
    (hsign : sign = [] ∨ sign = ['+'] ∨ sign = ['-']) (hne : digits ≠ [])
    (hdigits : ∀ d ∈ digits, d.isDigit) : Exponent (mark :: (sign ++ digits))

/-- The texts of numbers. A point needs a digit on one side at least. -/
inductive Numeral : List Char → Prop
  | hex {mark : Char} {digits : List Char} (hmark : mark = 'x' ∨ mark = 'X') (hne : digits ≠ [])
    (hdigits : ∀ d ∈ digits, CharClass.hexDigit.contains d) : Numeral ('0' :: mark :: digits)
  | whole {digits exponent : List Char} (hne : digits ≠ []) (hdigits : ∀ d ∈ digits, d.isDigit)
    (hexponent : Exponent exponent) : Numeral (digits ++ exponent)
  | pointed {whole fraction exponent : List Char} (hne : whole ≠ [] ∨ fraction ≠ [])
    (hwhole : ∀ d ∈ whole, d.isDigit) (hfraction : ∀ d ∈ fraction, d.isDigit)
    (hexponent : Exponent exponent) : Numeral (whole ++ '.' :: (fraction ++ exponent))

/-! ## The texts that a token reads

Inside a token the nodes and the offset do not matter, and a reading comes down to its text. The
lemmas go through the operators, so that a production can be taken apart with them.
-/

/-- The expression reads the text somewhere, as a token or a part of one. -/
def Peg.Spells (p : Peg) (text : List Char) : Prop :=
  ∃ pos trees, p.Reads .token pos text trees

namespace Peg

variable {p q : Peg} {text : List Char}

/-- What a word spells in a token is the word itself. The lemmas that follow go through the other
kinds of expressions. -/
theorem Spells.word {chars : List Char} (h : (word chars).Spells text) : text = chars := by
  obtain ⟨pos, trees, h⟩ := h
  exact (reads_word_iff.mp h).1

theorem Spells.notAhead (h : (notAhead p).Spells text) : text = [] := by
  obtain ⟨pos, trees, h⟩ := h
  cases h
  rfl

/-- A sequence spells texts one behind the other with no gap between them, since nothing is skipped
inside a token. -/
theorem Spells.seq (h : (p ++ q).Spells text) :
    ∃ first second, text = first ++ second ∧ p.Spells first ∧ q.Spells second := by
  obtain ⟨pos, trees, h⟩ := h
  cases h with
  | seq first between second =>
    obtain ⟨rfl, -⟩ := reads_word_iff.mp between
    exact ⟨_, _, by rw [List.append_nil], ⟨_, _, first⟩, ⟨_, _, second⟩⟩

theorem Spells.choice (h : (p <|> q).Spells text) : p.Spells text ∨ q.Spells text := by
  obtain ⟨pos, trees, h⟩ := h
  cases h with
  | left first => exact .inl ⟨_, _, first⟩
  | right second => exact .inr ⟨_, _, second⟩

theorem Spells.optional (h : (optional p).Spells text) : text = [] ∨ p.Spells text := by
  obtain ⟨pos, trees, h⟩ := h
  cases h with
  | absent => exact .inl rfl
  | present body => exact .inr ⟨_, _, body⟩

theorem Spells.one {chars : CharClass} (h : (one chars).Spells text) :
    ∃ x, text = [x] ∧ chars.contains x := by
  obtain ⟨pos, trees, h⟩ := h
  cases h with
  | one hx => exact ⟨_, rfl, hx⟩

/-- A rule spells what its production does, as far as tokens go. -/
theorem Spells.rule {r : Rule} (h : (rule r).Spells text) (hr : r ∈ Rule.lexical) :
    r.body.Spells text := by
  obtain ⟨pos, trees, h⟩ := h
  obtain ⟨inner, body, -⟩ := reads_rule_iff.mp h
  rw [(Rule.hidden_of_lexical hr rfl).1] at body
  exact ⟨_, _, body⟩

/-- Repeating a class spells texts of characters of that class. -/
theorem Repeats.all {chars : CharClass} {spacing : Spacing} {pos : Nat} {text : List Char}
    {trees : List Tree} : p.Repeats spacing pos text trees → spacing = .token → p = .one chars →
      ∀ x ∈ text, chars.contains x
  | .once body, hs, hp => by
    subst hs hp
    obtain ⟨x, rfl, hx⟩ := Spells.one ⟨_, _, body⟩
    intro y hy
    obtain rfl := List.mem_singleton.mp hy
    exact hx
  | .again run between body, hs, hp => by
    have hrun := run.all hs hp
    subst hs hp
    obtain ⟨rfl, -⟩ := reads_word_iff.mp between
    obtain ⟨x, rfl, hx⟩ := Spells.one ⟨_, _, body⟩
    intro y hy
    simp only [List.append_nil, List.mem_append, List.mem_singleton] at hy
    rcases hy with hy | rfl
    · exact hrun y hy
    · exact hx

theorem Spells.many {chars : CharClass} (h : (Peg.many (.one chars)).Spells text) :
    ∀ x ∈ text, chars.contains x := by
  obtain ⟨pos, trees, h⟩ := h
  cases h with
  | never => exact List.forall_mem_nil _
  | times run => exact run.all rfl rfl

theorem Spells.many1 {chars : CharClass} (h : (Peg.many1 (.one chars)).Spells text) :
    text ≠ [] ∧ ∀ x ∈ text, chars.contains x := by
  obtain ⟨first, rest, rfl, hfirst, hrest⟩ := Spells.seq h
  obtain ⟨x, rfl, hx⟩ := hfirst.one
  refine ⟨by simp, fun y hy => ?_⟩
  rcases List.mem_cons.mp hy with rfl | hy
  · exact hx
  · exact hrest.many y hy

end Peg

open Peg

theorem Exponent.of_spells {text : List Char} (h : (rule .exponentPart).Spells text) :
    Exponent text := by
  obtain ⟨_, digits, rfl, h, hdigits⟩ := (h.rule (by decide)).seq
  obtain ⟨_, sign, rfl, hmark, hsign⟩ := h.seq
  obtain ⟨hne, hdigits⟩ := hdigits.many1
  have hsign : sign = [] ∨ sign = ['+'] ∨ sign = ['-'] := by
    refine hsign.optional.imp id fun h => h.choice.imp ?_ ?_
    · exact Spells.word
    · exact Spells.word
  rcases hmark.choice with hmark | hmark
  · obtain rfl := hmark.word
    exact .present (.inl rfl) hsign hne hdigits
  · obtain rfl := hmark.word
    exact .present (.inr rfl) hsign hne hdigits

theorem Exponent.of_spells_optional {text : List Char}
    (h : (optional (rule .exponentPart)).Spells text) : Exponent text := by
  rcases h.optional with rfl | h
  · exact .absent
  · exact .of_spells h

/-- **The texts of number literals are numerals.** The alternatives of the production are the
constructors. -/
theorem Numeral.of_spells {text : List Char} (h : (rule .numericLiteral).Spells text) :
    Numeral text := by
  obtain ⟨text, _, rfl, h', hnot⟩ := (h.rule (by decide)).seq
  obtain rfl := hnot.notAhead
  rw [List.append_nil]
  rcases h'.choice with h | h
  · obtain ⟨_, digits, rfl, h, hdigits⟩ := (h.rule (by decide)).seq
    obtain ⟨_, _, rfl, hzero, hmark⟩ := h.seq
    obtain rfl := hzero.word
    obtain ⟨hne, hdigits⟩ := hdigits.many1
    rcases hmark.choice with hmark | hmark
    · obtain rfl := hmark.word
      exact .hex (.inl rfl) hne hdigits
    · obtain rfl := hmark.word
      exact .hex (.inr rfl) hne hdigits
  · obtain ⟨_, exponent, rfl, h, hexponent⟩ := (h.rule (by decide)).seq
    have hexponent := Exponent.of_spells_optional hexponent
    rcases h.choice with h | h
    · obtain ⟨whole, _, rfl, hwhole, h⟩ := h.seq
      obtain ⟨hne, hwhole⟩ := hwhole.many1
      rcases h.optional with rfl | h
      · rw [List.append_nil]
        exact .whole hne hwhole hexponent
      · obtain ⟨_, fraction, rfl, hpoint, hfraction⟩ := h.seq
        obtain rfl := hpoint.word
        rw [List.append_assoc]
        exact .pointed (.inl hne) hwhole hfraction.many hexponent
    · obtain ⟨_, fraction, rfl, hpoint, hfraction⟩ := h.seq
      obtain rfl := hpoint.word
      obtain ⟨hne, hfraction⟩ := hfraction.many1
      exact @Numeral.pointed [] _ _ (.inr hne) (List.forall_mem_nil _) hfraction hexponent

/-! ## What numerals denote

The value of a literal is computed by looking for the mark of hexadecimal numerals, for a point and
for the exponent. For a numeral it is known where these are.
-/

theorem hexDigitValue_isSome {d : Char} (hd : CharClass.hexDigit.contains d) :
    ∃ n, hexDigitValue? d = some n := by
  simp only [CharClass.contains, Char.isDigit, Bool.or_eq_true, Bool.and_eq_true,
    decide_eq_true_eq] at hd
  rw [hexDigitValue?]
  split
  · exact ⟨_, rfl⟩
  · next h09 =>
    split
    · exact ⟨_, rfl⟩
    · next haf =>
      rw [if_pos]
      · exact ⟨_, rfl⟩
      · obtain (h | h) | h := hd
        · exact absurd h h09
        · exact absurd h haf
        · exact h

/-- Hexadecimal digits denote a number, since each of them has a value. -/
theorem hexLiteral_isSome {digits : List Char} (h : ∀ d ∈ digits, CharClass.hexDigit.contains d) :
    ∃ x, hexLiteral? digits = some x := by
  rw [hexLiteral?]
  generalize (0 : Float) = acc
  induction digits generalizing acc with
  | nil => exact ⟨acc, rfl⟩
  | cons d digits ih =>
    obtain ⟨hd, hdigits⟩ := List.forall_mem_cons.mp h
    obtain ⟨n, hn⟩ := hexDigitValue_isSome hd
    rw [List.foldlM_cons, hn]
    exact ih hdigits _

/-- An exponent begins with its mark. So the digits in front of it end there, and a zero there is no
sign of a hexadecimal numeral. -/
theorem Exponent.head {text : List Char} (h : Exponent text) :
    ∀ c ∈ text.head?, ¬c.isDigit ∧ c ≠ 'x' ∧ c ≠ 'X' := by
  cases h with
  | absent => exact nofun
  | present hmark _ _ _ =>
    rintro _ ⟨⟩
    rcases hmark with rfl | rfl <;> decide

theorem Exponent.head_not_digit {text : List Char} (h : Exponent text) :
    ∀ c ∈ text.head?, c.isDigit = false :=
  fun c hc => Bool.eq_false_iff.mpr (h.head c hc).1

/-- An exponent does not begin with a digit or a point, so it cannot be taken for more of the digits
in front of it. -/
theorem Exponent.head_ne_point {text : List Char} (h : Exponent text) :
    text.head? ≠ some '.' := by
  cases h with
  | absent => exact nofun
  | present hmark _ _ _ => rcases hmark with rfl | rfl <;> simp

/-- An exponent denotes a number, zero if it is missing. -/
theorem Exponent.value {text : List Char} (h : Exponent text) :
    ∃ e, exponentValue? text = some e := by
  cases h with
  | absent => exact ⟨0, rfl⟩
  | @present mark sign digits hmark hsign hne hdigits =>
    have hall : digits.all Char.isDigit = true := List.all_eq_true.mpr hdigits
    have hhead : digits.head? ≠ some '-' ∧ digits.head? ≠ some '+' := by
      obtain ⟨d, digits, rfl⟩ := List.exists_cons_of_ne_nil hne
      have hd : d.isDigit := hdigits d List.mem_cons_self
      refine ⟨?_, ?_⟩ <;>
      · rintro ⟨⟩
        exact absurd hd (by decide)
    rcases hsign with rfl | rfl | rfl <;>
      simp [exponentValue?, hmark, hne, hall, hhead.1, hhead.2]

/-- Decimal digits in front of something else do not begin as a hexadecimal numeral does. -/
theorem mark_of_decimal {digits rest : List Char} (hdigits : ∀ d ∈ digits, d.isDigit)
    (hrest : ∀ c ∈ rest.head?, ¬c.isDigit ∧ c ≠ 'x' ∧ c ≠ 'X') (mark : Char) (tail : List Char)
    (h : digits ++ rest = '0' :: mark :: tail) : mark ≠ 'x' ∧ mark ≠ 'X' := by
  cases digits with
  | nil =>
    rw [List.nil_append] at h
    exact absurd (by decide) (hrest '0' (by rw [h]; rfl)).1
  | cons d digits =>
    obtain ⟨-, htail⟩ := List.cons.inj h
    cases digits with
    | nil =>
      obtain rfl : rest = mark :: tail := htail
      exact (hrest mark rfl).2
    | cons d digits =>
      obtain ⟨rfl, -⟩ := List.cons.inj htail
      have hd : d.isDigit := hdigits d (by simp)
      refine ⟨?_, ?_⟩ <;>
      · rintro rfl
        exact absurd hd (by decide)

/-- A numeral of decimal digits that is not marked as hexadecimal is read as a decimal number. -/
theorem numericLiteral_decimal {digits rest : List Char} (hdigits : ∀ d ∈ digits, d.isDigit)
    (hrest : ∀ c ∈ rest.head?, ¬c.isDigit ∧ c ≠ 'x' ∧ c ≠ 'X') :
    numericLiteral? (digits ++ rest) =
      (decimalLiteral? (digits ++ rest)).map Decimal.toFloat := by
  have hmark := mark_of_decimal hdigits hrest
  rw [numericLiteral?.eq_def]
  split
  · next h => exact absurd rfl (hmark _ _ h).1
  · next h => exact absurd rfl (hmark _ _ h).2
  · rfl

/-- A numeral without a point has the value of its digits, times the power of ten that its exponent
says. -/
theorem numericLiteral_whole {digits exponent : List Char} (hne : digits ≠ [])
    (hdigits : ∀ d ∈ digits, d.isDigit) (hexponent : Exponent exponent) :
    numericLiteral? (digits ++ exponent) =
      (exponentValue? exponent).map fun e => Decimal.toFloat ⟨digitsValue digits, e⟩ := by
  obtain ⟨htake, hdrop⟩ := takeWhile_dropWhile_append hdigits hexponent.head_not_digit
  rw [numericLiteral_decimal hdigits hexponent.head]
  simp [decimalLiteral?, htake, hdrop, hexponent.head_ne_point, hne, Function.comp_def]

/-- A numeral with a point has the value of all its digits, times that power less one for each digit
behind the point. -/
theorem numericLiteral_pointed {whole fraction exponent : List Char}
    (hne : whole ≠ [] ∨ fraction ≠ []) (hwhole : ∀ d ∈ whole, d.isDigit)
    (hfraction : ∀ d ∈ fraction, d.isDigit) (hexponent : Exponent exponent) :
    numericLiteral? (whole ++ '.' :: (fraction ++ exponent)) =
      (exponentValue? exponent).map fun e =>
        Decimal.toFloat ⟨digitsValue (whole ++ fraction), e - fraction.length⟩ := by
  obtain ⟨htake, hdrop⟩ := takeWhile_dropWhile_append hfraction hexponent.head_not_digit
  obtain ⟨htake', hdrop'⟩ := takeWhile_dropWhile_append hwhole
    (r := '.' :: (fraction ++ exponent)) (by rintro _ ⟨⟩; rfl)
  have hmark : ∀ c ∈ ('.' :: (fraction ++ exponent)).head?, ¬c.isDigit ∧ c ≠ 'x' ∧ c ≠ 'X' := by
    rintro _ ⟨⟩
    decide
  have hsome : ¬(whole = [] ∧ fraction = []) := fun h => hne.elim (absurd h.1) (absurd h.2)
  rw [numericLiteral_decimal hwhole hmark]
  simp [decimalLiteral?, htake', hdrop', htake, hdrop, hsome, Function.comp_def]

/-- **Every numeral denotes a number.** It may be infinite, if it is too large for a double. -/
theorem Numeral.denotes {text : List Char} (h : Numeral text) :
    ∃ x, numericLiteral? text = some x := by
  cases h with
  | hex hmark _ hdigits =>
    rcases hmark with rfl | rfl <;> exact hexLiteral_isSome hdigits
  | whole hne hdigits hexponent =>
    obtain ⟨e, he⟩ := hexponent.value
    rw [numericLiteral_whole hne hdigits hexponent, he]
    exact ⟨_, rfl⟩
  | pointed hne hwhole hfraction hexponent =>
    obtain ⟨e, he⟩ := hexponent.value
    rw [numericLiteral_pointed hne hwhole hfraction hexponent, he]
    exact ⟨_, rfl⟩

/-- **A number literal denotes a number**, so lowering never refuses one. Its text is a numeral in
one of the shapes of `Numeral`, and each of these has a value. -/
theorem Tree.Fits.numericValue {t : Tree} (ht : t.Fits) (hrule : t.rule = .numericLiteral) :
    ∃ x, numericValue t = .ok x := by
  obtain ⟨rule, start, text, children⟩ := t
  obtain rfl : rule = .numericLiteral := hrule
  obtain ⟨spacing, -, hbody⟩ := ht
  have hspells : (Peg.rule .numericLiteral).Spells text := ⟨start, _, .rule hbody⟩
  obtain ⟨x, hx⟩ := (Numeral.of_spells hspells).denotes
  exact ⟨x, by rw [Scriptlet.numericValue, hx]⟩

end Scriptlet
