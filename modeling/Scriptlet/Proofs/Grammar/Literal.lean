import Scriptlet.Proofs.Grammar.Gap
import Scriptlet.Proofs.Grammar.Numeral

/-!
# Literals as they are written

Numerals are matched by the rule of number literals as a whole (`Numeral.matches`), and every string
can be written between quotes (`escape`), so that it is matched and read back (`matches_escape`,
`unescape_escape`).

This is the direction from values to texts, which the writing of programs needs: given a literal of
a program, there is a text for it, the grammar takes it for that literal, and nothing of it is left
over. The other direction, which numerals there are and what a quoted string stands for, is in the
modules on numerals and on strings.
-/

namespace Scriptlet

open Peg

/-! ## Numbers

The production of number literals tries hexadecimal numerals first, then those with a point and at
last those without. A text is followed through it by giving the match; that the alternatives in
front fail is seen from the character behind the leading digits.
-/

namespace Peg

variable {chars : CharClass} {text rest : List Char}

/-- A text of characters of one class, with a character of none behind it, is what the repetition of
the class matches. -/
theorem many_matches (htext : ∀ c ∈ text, chars.contains c)
    (hrest : ∀ c ∈ rest.head?, chars.contains c = false) :
    (many (one chars)).Matches .token (text ++ rest) rest [] := by
  have hmany := (takesOne_one chars).many (text ++ rest)
  have hdrop : rest.dropWhile chars.contains = rest := by
    cases rest with
    | nil => rfl
    | cons c rest => exact List.dropWhile_cons_of_neg (Bool.eq_false_iff.mp (hrest c rfl))
  rwa [List.dropWhile_append_of_pos htext, hdrop] at hmany

theorem many1_matches (hne : text ≠ []) (htext : ∀ c ∈ text, chars.contains c)
    (hrest : ∀ c ∈ rest.head?, chars.contains c = false) :
    (many1 (one chars)).Matches .token (text ++ rest) rest [] := by
  obtain ⟨c, text, rfl⟩ := List.exists_cons_of_ne_nil hne
  obtain ⟨hc, htext⟩ := List.forall_mem_cons.mp htext
  exact .seq (.one rfl hc) (many_matches htext hrest)

theorem many1_fails (h : ∀ c ∈ text.head?, chars.contains c = false) :
    (many1 (one chars)).Fails .token text :=
  .first ((takesOne_one chars).fails h)

/-- A word does not stand where another character does. -/
theorem fails_word_head {x : Char} {w : List Char} (h : x ∉ text.head?) :
    (word (x :: w)).Fails .token text :=
  .word fun s' hs => h (by rw [hs]; rfl)

end Peg

/-- An exponent is optional, and matched if it is there. -/
theorem Exponent.matches {text : List Char} (h : Exponent text) :
    (optional (rule .exponentPart)).Matches .token text [] [] := by
  cases h with
  | absent =>
    exact .absent (.rule (.first (.first (.both (fails_word_head nofun) (fails_word_head nofun)))))
  | @present mark sign digits hmark hsign hne hdigits =>
    have hmany : (many1 (one .digit)).Matches .token (digits ++ []) [] [] :=
      many1_matches hne hdigits nofun
    rw [List.append_nil] at hmany
    have hhead : ∀ x : Char, x.isDigit = false → x ∉ digits.head? := by
      intro x hx hmem
      have hdigit := hdigits x (List.mem_of_mem_head? hmem)
      rw [hx] at hdigit
      cases hdigit
    have hmark : ∀ u, (lit "e" <|> lit "E").Matches .token (mark :: u) u [] := by
      intro u
      rcases hmark with rfl | rfl
      · exact .left (.word rfl)
      · exact .right (.word nofun) (.word rfl)
    have hsign : (optional (lit "+" <|> lit "-")).Matches .token (sign ++ digits) digits [] := by
      rcases hsign with rfl | rfl | rfl
      · exact .absent (.both (fails_word_head (hhead _ rfl)) (fails_word_head (hhead _ rfl)))
      · exact .present (.left (.word rfl))
      · exact .present (.right (.word nofun) (.word rfl))
    exact .present (.rule (r := .exponentPart) (.seq (.seq (hmark _) hsign) hmany))

section

variable {mark : Char} {text digits rest whole fraction exponent : List Char}

theorem matches_hexIntegerLiteral (hmark : mark = 'x' ∨ mark = 'X') (hne : digits ≠ [])
    (hdigits : ∀ d ∈ digits, CharClass.hexDigit.contains d) :
    (rule .hexIntegerLiteral).Matches .token ('0' :: mark :: digits) [] [] := by
  have hmany : (many1 (one .hexDigit)).Matches .token (digits ++ []) [] [] :=
    many1_matches hne hdigits nofun
  rw [List.append_nil] at hmany
  have hmark : (lit "x" <|> lit "X").Matches .token (mark :: digits) digits [] := by
    rcases hmark with rfl | rfl
    · exact .left (.word rfl)
    · exact .right (.word nofun) (.word rfl)
  exact .rule (r := .hexIntegerLiteral) (.seq (.seq (.word rfl) hmark) hmany)

/-- A decimal numeral is not read as a hexadecimal one: no mark stands behind a leading zero. -/
theorem fails_hexIntegerLiteral (htext : text = digits ++ rest) (hdigits : ∀ d ∈ digits, d.isDigit)
    (hrest : ∀ c ∈ rest.head?, ¬c.isDigit ∧ c ≠ 'x' ∧ c ≠ 'X') :
    (rule .hexIntegerLiteral).Fails .token text := by
  refine .rule (.first ?_)
  by_cases hzero : ∃ u, text = '0' :: u
  · obtain ⟨u, hu⟩ := hzero
    have hmark : ∀ x ∈ u.head?, x ≠ 'x' ∧ x ≠ 'X' := by
      intro x hx
      obtain ⟨tail, rfl⟩ := List.head?_eq_some_iff.mp hx
      exact mark_of_decimal hdigits hrest x tail (htext.symm.trans hu)
    exact .second (.word hu) (.both (fails_word_head fun h => (hmark _ h).1 rfl)
      (fails_word_head fun h => (hmark _ h).2 rfl))
  · exact .first (.word fun u hu => hzero ⟨u, hu⟩)

/-- A decimal numeral without a point, with an exponent or without, is matched by the rule of
decimal literals. -/
theorem matches_decimalLiteral_whole (hne : digits ≠ []) (hdigits : ∀ d ∈ digits, d.isDigit)
    (hexponent : Exponent exponent) :
    (rule .decimalLiteral).Matches .token (digits ++ exponent) [] [] := by
  have hpoint : '.' ∉ exponent.head? := hexponent.head_ne_point
  have hbehind : ∀ c ∈ exponent.head?, CharClass.digit.contains c = false :=
    hexponent.head_not_digit
  have hdigits : (many1 (one .digit)).Matches .token (digits ++ exponent) exponent [] :=
    many1_matches hne hdigits hbehind
  exact .rule (r := .decimalLiteral) (.seq (.left (.seq hdigits
    (.absent (.first (fails_word_head hpoint))))) hexponent.matches)

/-- A decimal numeral with a point and digits on at least one side of it is matched by the rule of
decimal literals. -/
theorem matches_decimalLiteral_pointed (hne : whole ≠ [] ∨ fraction ≠ [])
    (hwhole : ∀ d ∈ whole, d.isDigit) (hfraction : ∀ d ∈ fraction, d.isDigit)
    (hexponent : Exponent exponent) :
    (rule .decimalLiteral).Matches .token (whole ++ '.' :: (fraction ++ exponent)) [] [] := by
  have hbehind : ∀ c ∈ exponent.head?, CharClass.digit.contains c = false :=
    hexponent.head_not_digit
  have hpoint : ∀ c ∈ ('.' :: (fraction ++ exponent)).head?,
      CharClass.digit.contains c = false := by
    rintro _ ⟨⟩
    rfl
  have hnumber : ((many1 (one .digit) ++ optional (lit "." ++ many (one .digit)))
      <|> (lit "." ++ many1 (one .digit))).Matches .token
        (whole ++ '.' :: (fraction ++ exponent)) exponent [] := by
    by_cases hnone : whole = []
    · subst hnone
      have hfraction : (many1 (one .digit)).Matches .token (fraction ++ exponent) exponent [] :=
        many1_matches (hne.resolve_left (absurd rfl)) hfraction hbehind
      exact .right (.first (many1_fails hpoint)) (.seq (.word rfl) hfraction)
    · have hwhole : (many1 (one .digit)).Matches .token (whole ++ '.' :: (fraction ++ exponent))
          ('.' :: (fraction ++ exponent)) [] := many1_matches hnone hwhole hpoint
      have hfraction : (many (one .digit)).Matches .token (fraction ++ exponent) exponent [] :=
        many_matches hfraction hbehind
      exact .left (.seq hwhole (.present (.seq (.word rfl) hfraction)))
  exact .rule (r := .decimalLiteral) (.seq hnumber hexponent.matches)

end

/-- **Numerals are matched as a whole.** The three kinds of numerals are the three alternatives of
the production. -/
theorem Numeral.matches {text : List Char} (h : Numeral text) :
    ∃ trees, (rule .numericLiteral).Matches .skipped text [] trees := by
  have hend : (notAhead (rule .identChar)).Matches .token [] [] [] :=
    .notAhead (takesOne_identChar.fails nofun)
  cases h with
  | hex hmark hne hdigits =>
    have hhex := matches_hexIntegerLiteral hmark hne hdigits
    exact ⟨_, .rule (.seq (.left hhex) hend)⟩
  | whole hne hdigits hexponent =>
    have hhex := fails_hexIntegerLiteral rfl hdigits hexponent.head
    have hdecimal := matches_decimalLiteral_whole hne hdigits hexponent
    exact ⟨_, .rule (.seq (.right hhex hdecimal) hend)⟩
  | @pointed whole fraction exponent hne hwhole hfraction hexponent =>
    have hpoint : ∀ c ∈ ('.' :: (fraction ++ exponent)).head?, ¬c.isDigit ∧ c ≠ 'x' ∧ c ≠ 'X' := by
      rintro _ ⟨⟩
      decide
    have hhex := fails_hexIntegerLiteral rfl hwhole hpoint
    have hdecimal := matches_decimalLiteral_pointed hne hwhole hfraction hexponent
    exact ⟨_, .rule (.seq (.right hhex hdecimal) hend)⟩

/-! ## Strings

Only a quote, a backslash and a line break have to be written with a backslash between quotes. All
other characters stand for themselves.
-/

/-- How a character is written between quotes: with a backslash if it is special there. -/
def escapeChar (c : Char) : List Char :=
  if c = '"' ∨ c = '\\' then ['\\', c] else if c = '\n' then ['\\', 'n'] else [c]

/-- How a string is written between quotes. -/
def escape (s : List Char) : List Char := s.flatMap escapeChar

theorem escape_cons (c : Char) (s : List Char) : escape (c :: s) = escapeChar c ++ escape s :=
  List.flatMap_cons

/-- What `escape` writes may stand between quotes, since every quote and backslash in it has a
backslash in front. -/
theorem quoted_escape (s : List Char) : Quoted '"' (escape s) := by
  induction s with
  | nil => exact .nil
  | cons c s ih =>
    rw [escape_cons, escapeChar]
    split
    · exact .escaped ih
    · next hc =>
      rw [not_or] at hc
      split
      · exact .escaped ih
      · next hfeed => exact .plain ⟨hc.1, hc.2, hfeed⟩ ih

/-- **A string is read back as it was written.** By induction on the string, as the escape of a
character is read back before what follows. -/
theorem unescape_escape (s : List Char) : unescape (escape s) = some s := by
  induction s with
  | nil => rfl
  | cons c s ih =>
    rw [escape_cons, escapeChar]
    split
    · next hc =>
      rcases hc with rfl | rfl <;> simp [unescape, ih, escapedChar]
    · next hc =>
      rw [not_or] at hc
      split
      · next hfeed =>
        subst hfeed
        simp [unescape, ih, escapedChar]
      · simp [unescape, ih, hc.2]

/-- The node of a string that is written between quotes, in its bare form. -/
def stringNode (s : List Char) : Tree :=
  ⟨.stringLiteral, 0, [], [⟨.doubleStringCharacters, 0, escape s, []⟩]⟩

/-- The node of a written string has as its value the string that was written. -/
theorem stringValue_stringNode (s : String) : stringValue (stringNode s.toList) = .ok s := by
  have hinside : unescape (((stringNode s.toList).children.head?.map Tree.text).getD []) =
      some s.toList := unescape_escape _
  rw [stringValue, hinside]
  exact congrArg Except.ok String.ofList_toList

/-- The rule of string literals makes this node of the written text, whatever stands behind it. -/
theorem matches_escape (s more : List Char) :
    (rule .stringLiteral).Matches .skipped ('"' :: (escape s ++ '"' :: more)) more
      [stringNode s] := by
  refine matches_stringLiteral_iff.mpr ⟨'"', .doubleStringCharacters, by decide, _, rfl, ?_, ?_⟩
  · exact (quoted_escape s).behindChars (by decide) more
  · rw [textBetween_self_append, stringNode]

end Scriptlet
