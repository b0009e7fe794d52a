import Scriptlet.Proofs.Program.Decoding
import Scriptlet.Text.Quoted

/-!
# Quoted text can be read back

Each character stands between quotes in one of three ways (`QuotedAs`): behind a backslash as a
letter, as itself, or as its code point in braces. None of them begins like the closing quote, and
none begins like another, so that quoted text is read back character by character
(`unquote_quoted`). On the way the line never ends (`newline_not_mem_quoted`).

Which of the three is chosen for a character depends on tables of printable and combining
characters. Reading back does not need to know the tables: it is enough that a character that stands
for itself is no quote, no backslash and no line break.
-/

namespace Scriptlet

/-! ## How characters stand between quotes

The ways, as a relation, and that quoting takes one of them.
-/

/-- The letters that stand for a character behind a backslash. -/
def quoteLetters : List (Char × Char) :=
  [('0', '\x00'), ('t', '\t'), ('n', '\n'), ('r', '\r'), ('"', '"'), ('\\', '\\')]

/-- The ways in which a character stands between quotes. -/
inductive QuotedAs (c : Char) : List Char → Prop
  | letter {l : Char} (h : (l, c) ∈ quoteLetters) : QuotedAs c ['\\', l]
  | itself (hquote : c ≠ '"') (hbackslash : c ≠ '\\') (hline : c ≠ '\n') : QuotedAs c [c]
  | codePoint : QuotedAs c (codePointEscape c)

/-- Quoting writes a character in one of these ways. The tables are not looked into: a character
that they do not let through is written as its code point. -/
theorem quotedChar_as (c : Char) : QuotedAs c (quotedChar c) := by
  fun_cases quotedChar c
  case case7 hzero htab hline hreturn hquote hbackslash _ => exact .itself hquote hbackslash hline
  case case8 => exact .codePoint
  all_goals exact .letter (by simp [quoteLetters, *])

/-! ## Reading back

A reader, defined for the proof, which looks at one character at a time.
-/

mutual

/-- Reads the inside of quoted text and the closing quote, which must end the text. Behind a
backslash and inside braces it goes on with readers of their own. -/
def unquoteInside : List Char → Option (List Char)
  | [] => none
  | c :: s =>
    if c = '"' then if s.isEmpty then some [] else none
    else if c = '\\' then unquoteEscape s
    else (unquoteInside s).map (c :: ·)

/-- Reads on behind a backslash. -/
def unquoteEscape : List Char → Option (List Char)
  | 'u' :: '\x7b' :: s => unquoteCode 0 s
  | l :: s => (quoteLetters.lookup l).bind fun c => (unquoteInside s).map (c :: ·)
  | [] => none

/-- Reads on inside braces, where digits have denoted `n` so far. -/
def unquoteCode (n : Nat) : List Char → Option (List Char)
  | [] => none
  | d :: s =>
    if d = '\x7d' then (charOfCodePoint? n).bind fun c => (unquoteInside s).map (c :: ·)
    else (hexDigitValue? d).bind fun m => unquoteCode (16 * n + m) s

end

/-- Reads quoted text. -/
def unquote : List Char → Option (List Char)
  | '"' :: s => unquoteInside s
  | _ => none

/-- Hexadecimal digits of a number read as that number, however many there are. -/
theorem hexDigitsValue_toDigits (n : Nat) : hexDigitsValue? (Nat.toDigits 16 n) = some n := by
  have hdigit : ∀ d < 16, hexDigitValue? d.digitChar = some d := by decide
  induction n using Nat.strongRecOn with
  | ind n ih =>
    rw [Nat.toDigits_eq_if (by decide)]
    split
    case isTrue hlt =>
      simp [hexDigitsValue?, hdigit n hlt]
    case isFalse hle =>
      rw [hexDigitsValue_append, ih (n / 16) (by omega), hdigit (n % 16) (by omega)]
      exact congrArg some (Nat.div_add_mod n 16)

/-- Inside braces digits are read as their value. -/
theorem unquoteCode_append {digits : List Char} {n m : Nat}
    (h : digits.foldlM (fun n c => (hexDigitValue? c).map (16 * n + ·)) n = some m)
    (s : List Char) : unquoteCode n (digits ++ s) = unquoteCode m s := by
  induction digits generalizing n with
  | nil =>
    obtain rfl := Option.some.inj h
    rfl
  | cons d digits ih =>
    obtain ⟨k, hk, hrest⟩ := Option.bind_eq_some_iff.mp h
    obtain ⟨v, hv, rfl⟩ := Option.map_eq_some_iff.mp hk
    have hd : d ≠ '\x7d' := by
      rintro rfl
      cases hv
    rw [List.cons_append, unquoteCode, if_neg hd, hv]
    exact ih hrest

/-- **Quoted characters are read one by one.** What one character is written as is read back as that
character, whatever stands behind it. -/
theorem QuotedAs.unquoteInside_append {c : Char} {piece : List Char} (h : QuotedAs c piece)
    (s : List Char) : unquoteInside (piece ++ s) = (unquoteInside s).map (c :: ·) := by
  cases h with
  | letter h =>
    simp only [quoteLetters, List.mem_cons, List.not_mem_nil, or_false, Prod.mk.injEq] at h
    rcases h with ⟨rfl, rfl⟩ | ⟨rfl, rfl⟩ | ⟨rfl, rfl⟩ | ⟨rfl, rfl⟩ | ⟨rfl, rfl⟩ | ⟨rfl, rfl⟩ <;>
      rfl
  | itself hquote hbackslash _ =>
    rw [List.singleton_append, unquoteInside, if_neg hquote, if_neg hbackslash]
  | codePoint =>
    have hread := unquoteCode_append (hexDigitsValue_toDigits c.toNat) ('\x7d' :: s)
    have hcode : charOfCodePoint? c.toNat = some c := charOfCodePoint_eq_some_iff.mpr rfl
    rw [unquoteCode, if_pos rfl, hcode, Option.bind_some] at hread
    rw [← hread, codePointEscape, List.append_assoc, List.append_assoc]
    rfl

/-- The inside of quoted text is read up to the closing quote, character by character. -/
theorem unquoteInside_flatMap (text : List Char) :
    unquoteInside (text.flatMap quotedChar ++ ['"']) = some text := by
  induction text with
  | nil => rfl
  | cons c text ih =>
    rw [List.flatMap_cons, List.append_assoc, (quotedChar_as c).unquoteInside_append, ih]
    rfl

/-- **Quoted text reads as the text**, whatever the text: no two texts are quoted alike. -/
theorem unquote_quoted (text : List Char) : unquote (quoted text) = some text :=
  unquoteInside_flatMap text

/-! ## Lines

Quoted text may be put into lines that are split later.
-/

/-- No character is written with a line break. -/
theorem QuotedAs.newline_not_mem {c : Char} {piece : List Char} (h : QuotedAs c piece) :
    '\n' ∉ piece := by
  cases h with
  | letter h =>
    have hletters : ∀ entry ∈ quoteLetters, '\n' ∉ ['\\', entry.1] := by decide
    exact hletters _ h
  | itself _ _ hline => exact fun hmem => hline (List.mem_singleton.mp hmem).symm
  | codePoint =>
    have hdigits := (hexDigitsValue_eq_some_iff.mp (hexDigitsValue_toDigits c.toNat)).isHex
    intro hmem
    rw [codePointEscape, List.append_assoc, List.mem_append, List.mem_append] at hmem
    rcases hmem with hmem | hmem | hmem
    · revert hmem; decide
    · obtain ⟨d, hd⟩ := hdigits _ hmem
      exact not_hexDigit (by decide) d hd
    · revert hmem; decide

/-- **Quoted text stays on one line.** A line break is written as an escape, and nothing else that
is written contains one. -/
theorem newline_not_mem_quoted (text : List Char) : '\n' ∉ quoted text := by
  intro hmem
  rw [quoted, List.cons_append, List.mem_cons, List.mem_append, List.mem_flatMap] at hmem
  rcases hmem with h | ⟨c, -, hc⟩ | h
  · cases h
  · exact (quotedChar_as c).newline_not_mem hc
  · revert h; decide

end Scriptlet
