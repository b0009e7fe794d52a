import Scriptlet.Proofs.Program.Writable

/-!
# What string literals denote

The inside of a string literal falls into pieces from left to right: characters that stand for
themselves, and backslashes with what they take along. `Decodes` says what each piece stands for,
with no machine that reads them. Lowering computes just this, and refuses a literal for one reason
only: an escape by code point with no digits of a character behind it (`stringValue_decodes`). The
digits of a code point are read as a signed numeral is, so a plus sign may stand in place of the
first of them (`HexWritten.plus`, `stringValue_plus`).

The specification comes first: digits and the numbers they write, pieces, and what a text of pieces
stands for. It is independent of the function that decodes. Then the function is shown to compute
it, piece by piece. For the other direction it does not suffice that the function is right where it
has a value. It is also shown that every text between quotes is settled: it either falls into
pieces, or has an escape without its code, and then it is refused.

* `Piece`, `Decodes`: what a text between quotes stands for.
* `escapes`, `LacksCode`: the escapes of a text, and when one lacks its code.
* `Decodes.unescape`, `Quoted.settled`: the function computes it, for every text between quotes.
* `stringValue_decodes`: string literals in parses.
-/

namespace Scriptlet

open Peg

/-! ## Code points

Hexadecimal digits are given by their place in a list, and numbers by putting one digit behind the
others.
-/

/-- The character is the hexadecimal digit of that value. -/
def HexDigit (c : Char) (n : Nat) : Prop :=
  "0123456789abcdef".toList[n]? = some c ∨ "0123456789ABCDEF".toList[n]? = some c

/-- Hexadecimal digits and the number they denote. -/
inductive HexDigits : List Char → Nat → Prop
  | nil : HexDigits [] 0
  | snoc {text : List Char} {n d : Nat} {c : Char} (front : HexDigits text n)
    (last : HexDigit c d) : HexDigits (text ++ [c]) (16 * n + d)

/-- The number is written with that many characters: hexadecimal digits, the first of which may give
way to a plus sign. No minus sign can be read, as there are no negative codes. -/
inductive HexWritten (width : Nat) : List Char → Nat → Prop
  | digits {text : List Char} {n : Nat} (h : HexDigits text n) (hwidth : text.length = width) :
    HexWritten width text n
  | plus {text : List Char} {n : Nat} (h : HexDigits text n) (hwidth : text.length + 1 = width) :
    HexWritten width ('+' :: text) n

/-- The number is the code of half a surrogate pair, and so of no character. -/
def IsSurrogate (n : Nat) : Prop := 0xD800 ≤ n ∧ n ≤ 0xDFFF

/-- A digit is less than sixteen. -/
theorem HexDigit.lt {c : Char} {n : Nat} (h : HexDigit c n) : n < 16 := by
  rcases h with h | h
  all_goals exact (List.getElem?_eq_some_iff.mp h).1

/-- Characters in a row have codes in a row, so the place of a digit in the list is computed from
its code. -/
theorem getElem?_of_run {digits : List Char} {first skipped count : Nat}
    (hdigits : ∀ i < count, digits[skipped + i]? = some (Char.ofNat (first + i))) {c : Char}
    (hlow : first ≤ c.toNat) (hhigh : c.toNat < first + count) :
    digits[c.toNat - first + skipped]? = some c := by
  have hdigit := hdigits (c.toNat - first) (by omega)
  rwa [Nat.add_sub_cancel' hlow, Char.ofNat_toNat, Nat.add_comm] at hdigit

/-- A digit has as its value its place in the list of digits, in either case. -/
theorem hexDigitValue_eq_some_iff {c : Char} {n : Nat} :
    hexDigitValue? c = some n ↔ HexDigit c n := by
  refine ⟨fun h => ?_, fun h => ?_⟩
  · rw [hexDigitValue?] at h
    split at h
    · next hc =>
      obtain rfl := Option.some.inj h
      have hrun : ∀ i < 10, "0123456789abcdef".toList[0 + i]? = some (Char.ofNat (48 + i)) := by
        decide
      exact .inl (getElem?_of_run hrun hc.1 (Nat.lt_succ_of_le hc.2))
    · split at h
      · next hc =>
        obtain rfl := Option.some.inj h
        have hrun : ∀ i < 6, "0123456789abcdef".toList[10 + i]? = some (Char.ofNat (97 + i)) := by
          decide
        exact .inl (getElem?_of_run hrun hc.1 (Nat.lt_succ_of_le hc.2))
      · split at h
        · next hc =>
          obtain rfl := Option.some.inj h
          have hrun : ∀ i < 6, "0123456789ABCDEF".toList[10 + i]? = some (Char.ofNat (65 + i)) := by
            decide
          exact .inr (getElem?_of_run hrun hc.1 (Nat.lt_succ_of_le hc.2))
        · cases h
  · have hall : ∀ n < 16, "0123456789abcdef".toList[n]?.bind hexDigitValue? = some n ∧
        "0123456789ABCDEF".toList[n]?.bind hexDigitValue? = some n := by decide
    rcases h with h | h
    · have hvalue := (hall n (List.getElem?_eq_some_iff.mp h).1).1
      rwa [h] at hvalue
    · have hvalue := (hall n (List.getElem?_eq_some_iff.mp h).1).2
      rwa [h] at hvalue

/-- What has no value as a digit is no hexadecimal digit of the grammar. -/
theorem not_hexDigit {c : Char} (hc : hexDigitValue? c = none) (n : Nat) : ¬HexDigit c n := by
  intro h
  rw [hexDigitValue_eq_some_iff.mpr h] at hc
  cases hc

/-- One more digit counts as one, and the others sixteen times what they were. -/
theorem hexDigitsValue_append {text : List Char} {c : Char} :
    hexDigitsValue? (text ++ [c]) =
      (hexDigitsValue? text).bind fun n => (hexDigitValue? c).map (16 * n + ·) := by
  rw [hexDigitsValue?, List.foldlM_append]
  exact congrArg (hexDigitsValue? text).bind (funext fun n => bind_pure _)

/-- The value of a text of digits is the number they write. -/
theorem hexDigitsValue_eq_some_iff {text : List Char} {n : Nat} :
    hexDigitsValue? text = some n ↔ HexDigits text n := by
  refine ⟨fun h => ?_, fun h => ?_⟩
  · induction text using List.reverseRecOn generalizing n with
    | nil =>
      obtain rfl := Option.some.inj h
      exact .nil
    | append_singleton text c ih =>
      rw [hexDigitsValue_append] at h
      obtain ⟨m, hm, h⟩ := Option.bind_eq_some_iff.mp h
      obtain ⟨d, hd, rfl⟩ := Option.map_eq_some_iff.mp h
      exact .snoc (ih hm) (hexDigitValue_eq_some_iff.mp hd)
  · induction h with
    | nil => rfl
    | snoc _ last ih =>
      rw [hexDigitsValue_append, ih, hexDigitValue_eq_some_iff.mpr last]
      rfl

namespace HexDigits

variable {text : List Char} {n : Nat}

theorem isHex (h : HexDigits text n) : ∀ c ∈ text, ∃ d, HexDigit c d := by
  induction h with
  | nil => exact List.forall_mem_nil _
  | snoc _ last ih =>
    intro c hc
    rcases List.mem_append.mp hc with hc | hc
    · exact ih c hc
    · obtain rfl := List.mem_singleton.mp hc
      exact ⟨_, last⟩

/-- There are only so many numbers with so many digits. -/
theorem lt (h : HexDigits text n) : n < Nat.pow 16 text.length := by
  induction h with
  | nil => decide
  | @snoc text n d c _ last ih =>
    have hd := last.lt
    rw [List.length_append, List.length_singleton]
    change 16 * n + d < Nat.pow 16 text.length * 16
    omega

end HexDigits

namespace HexWritten

variable {width n : Nat} {text : List Char}

theorem length_eq (h : HexWritten width text n) : text.length = width := by
  cases h with
  | digits _ hwidth | plus _ hwidth => exact hwidth

/-- A number is bounded by the width it is written in. -/
theorem lt (h : HexWritten width text n) : n < Nat.pow 16 width := by
  cases h with
  | digits h hwidth => exact hwidth ▸ h.lt
  | plus h hwidth =>
    rw [← hwidth]
    exact h.lt.trans_le (Nat.pow_le_pow_right (by decide) (Nat.le_succ _))

theorem not_mem_backslash (h : HexWritten width text n) : '\\' ∉ text := by
  have hnone : ∀ d, ¬HexDigit '\\' d := not_hexDigit (by decide)
  intro hmem
  cases h with
  | digits h _ =>
    obtain ⟨d, hd⟩ := h.isHex _ hmem
    exact hnone d hd
  | plus h _ =>
    obtain ⟨d, hd⟩ := h.isHex _ ((List.mem_cons.mp hmem).resolve_left (by decide))
    exact hnone d hd

end HexWritten

/-- What is read of two characters or more is a number written with them. -/
theorem hexNumeral_eq_some_iff {text : List Char} {n : Nat} (hlen : 2 ≤ text.length) :
    hexNumeral? text = some n ↔ HexWritten text.length text n := by
  obtain ⟨c, text, rfl⟩ := List.exists_cons_of_length_pos (by omega : 0 < text.length)
  by_cases hc : c = '+'
  · subst hc
    have hne : text ≠ [] := fun h => by simp [h] at hlen
    have hvalue : hexNumeral? ('+' :: text) = hexDigitsValue? text := by
      simp [hexNumeral?, hne]
    rw [hvalue, hexDigitsValue_eq_some_iff]
    refine ⟨fun h => .plus h rfl, ?_⟩
    rintro (⟨h, -⟩ | ⟨h, -⟩)
    · obtain ⟨d, hd⟩ := h.isHex _ List.mem_cons_self
      exact absurd hd (not_hexDigit (by decide) d)
    · exact h
  · have hvalue : hexNumeral? (c :: text) = hexDigitsValue? (c :: text) := by
      simp [hexNumeral?, hc]
    rw [hvalue, hexDigitsValue_eq_some_iff]
    refine ⟨fun h => .digits h rfl, ?_⟩
    rintro (⟨h, -⟩ | -)
    · exact h
    · exact absurd rfl hc

/-- A code point is that of a character if there is a character with it. -/
theorem charOfCodePoint_eq_some_iff {n : Nat} {c : Char} :
    charOfCodePoint? n = some c ↔ c.toNat = n := by
  rw [charOfCodePoint?]
  by_cases h : n.isValidChar
  · rw [dif_pos h]
    refine ⟨?_, ?_⟩
    · rintro ⟨⟩
      rfl
    · rintro rfl
      rfl
  · rw [dif_neg h]
    refine ⟨?_, ?_⟩
    · rintro ⟨⟩
    · rintro rfl
      exact absurd c.valid h

/-- Up to four digits write the code of a character or of a surrogate. Larger codes would exceed the
range of characters, but need more digits. -/
theorem exists_toNat_iff {n : Nat} (hn : n < 0x10000) :
    (∃ c : Char, c.toNat = n) ↔ ¬IsSurrogate n := by
  refine ⟨?_, fun h => ?_⟩
  · rintro ⟨c, rfl⟩ h
    have hvalid : c.toNat.isValidChar := c.valid
    rw [Nat.isValidChar] at hvalid
    rw [IsSurrogate] at h
    omega
  · have hvalid : n.isValidChar := by
      rw [Nat.isValidChar]
      rw [IsSurrogate] at h
      omega
    exact ⟨Char.ofNatAux n hvalid, rfl⟩

/-! ## Pieces

What stands between the quotes, cut up from left to right. Each piece has what it stands for beside
it, which is empty for a line break behind a backslash.
-/

/-- The characters that a backslash turns into control characters. -/
def controlEscapes : List (Char × Char) :=
  [('n', '\n'), ('t', '\t'), ('r', '\r'), ('b', '\x08'), ('f', '\x0c'), ('v', '\x0b'),
    ('0', '\x00')]

/-- The characters that announce a code point behind a backslash, each with the number of characters
the code takes. -/
def codeEscapes : List (Char × Nat) := [('x', 2), ('u', 4)]

/-- A piece of the inside of a string literal and what it stands for. A character behind a backslash
that means nothing special stands for itself. -/
inductive Piece : List Char → List Char → Prop
  | plain {c : Char} (hc : c ≠ '\\') : Piece [c] [c]
  | control {c d : Char} (h : (c, d) ∈ controlEscapes) : Piece ['\\', c] [d]
  | code {mark c : Char} {width : Nat} {digits : List Char} (h : (mark, width) ∈ codeEscapes)
    (hcode : HexWritten width digits c.toNat) : Piece ('\\' :: mark :: digits) [c]
  | lineEnd : Piece ['\\', '\n'] []
  | itself {c : Char} (hcontrol : ∀ d, (c, d) ∉ controlEscapes)
    (hcode : ∀ width, (c, width) ∉ codeEscapes) (hline : c ≠ '\n') : Piece ['\\', c] [c]

/-- The inside of a string literal, read from left to right, and what it stands for. -/
inductive Decodes : List Char → List Char → Prop
  | nil : Decodes [] []
  | cons {piece chars rest value : List Char} (first : Piece piece chars)
    (more : Decodes rest value) : Decodes (piece ++ rest) (chars ++ value)

/-- The escapes of a text from left to right: the character behind each backslash, which may be
another backslash, and the text behind that. -/
def escapes : List Char → List (Char × List Char)
  | [] => []
  | [_] => []
  | c :: d :: s => if c = '\\' then (d, s) :: escapes s else escapes (d :: s)

/-- The escape announces a code point, and what follows begins with the code of no character: there
are too few characters, or not the right ones, or they write half a surrogate pair. -/
def LacksCode (escape : Char × List Char) : Prop :=
  ∃ width, (escape.1, width) ∈ codeEscapes ∧
    ∀ digits rest n, escape.2 = digits ++ rest → HexWritten width digits n → IsSurrogate n

section

variable {c mark : Char} {width : Nat} {digits rest s : List Char}

/-- There are two escapes by code point, of different widths. -/
theorem mem_codeEscapes :
    (mark, width) ∈ codeEscapes ↔ mark = 'x' ∧ width = 2 ∨ mark = 'u' ∧ width = 4 := by
  simp [codeEscapes]

/-- An escape by code point has at most four hexadecimal digits, so its code is below `0x10000`. -/
theorem HexWritten.lt_of_mem {n : Nat} (h : (mark, width) ∈ codeEscapes)
    (hcode : HexWritten width digits n) : n < 0x10000 := by
  have hlt := hcode.lt
  rcases mem_codeEscapes.mp h with ⟨-, rfl⟩ | ⟨-, rfl⟩
  · exact hlt.trans (by decide)
  · exact hlt

/-- Reading a text of that width gives the character whose code is written there, and nothing if
none is. -/
theorem hexChar_eq_some_iff (h : (mark, width) ∈ codeEscapes) (hwidth : digits.length = width) :
    hexChar? digits = some c ↔ HexWritten width digits c.toNat := by
  have hlen : 2 ≤ digits.length := by
    rcases mem_codeEscapes.mp h with ⟨-, rfl⟩ | ⟨-, rfl⟩ <;> omega
  rw [hexChar?, Option.bind_eq_some_iff, ← hwidth]
  refine ⟨?_,
    fun h => ⟨_, (hexNumeral_eq_some_iff hlen).mpr h, charOfCodePoint_eq_some_iff.mpr rfl⟩⟩
  rintro ⟨n, hn, hc⟩
  rw [charOfCodePoint_eq_some_iff.mp hc]
  exact (hexNumeral_eq_some_iff hlen).mp hn

/-- An escape with a code lacks it exactly if no code is written behind it other than one of a
surrogate, which is no character. -/
theorem lacksCode_iff (h : (mark, width) ∈ codeEscapes) :
    LacksCode (mark, s) ↔ ∀ digits rest n, s = digits ++ rest → HexWritten width digits n →
      IsSurrogate n := by
  refine ⟨?_, fun hlacks => ⟨width, h, hlacks⟩⟩
  rintro ⟨width', h', hlacks⟩
  obtain rfl : width' = width := by
    rcases mem_codeEscapes.mp h with ⟨rfl, rfl⟩ | ⟨rfl, rfl⟩ <;>
    rcases mem_codeEscapes.mp h' with ⟨h, rfl⟩ | ⟨h, rfl⟩ <;> first | rfl | cases h
  exact hlacks

/-! ## Decoding, piece by piece

One equation of the function for each kind of piece.
-/

/-- A character that is not a backslash stands for itself. -/
theorem unescape_plain (hc : c ≠ '\\') : unescape (c :: s) = (unescape s).map (c :: ·) := by
  rw [unescape]
  · rw [if_neg hc]
  all_goals simp [hc]

/-- A character behind a backslash that needs no code stands for what its escape says. -/
theorem unescape_single (hcode : ∀ width, (c, width) ∉ codeEscapes) (hline : c ≠ '\n') :
    unescape ('\\' :: c :: s) = (unescape s).map (escapedChar c :: ·) := by
  have hx : c ≠ 'x' := fun h => hcode 2 (mem_codeEscapes.mpr (.inl ⟨h, rfl⟩))
  have hu : c ≠ 'u' := fun h => hcode 4 (mem_codeEscapes.mpr (.inr ⟨h, rfl⟩))
  rw [unescape]
  · rw [if_neg (not_or.mpr ⟨hx, hu⟩)]
  all_goals simp [hx, hu, hline]

/-- An escape with a code stands for the character of that code. -/
theorem unescape_code (h : (mark, width) ∈ codeEscapes) (hwidth : digits.length = width) :
    unescape ('\\' :: mark :: (digits ++ rest)) =
      (hexChar? digits).bind fun c => (unescape rest).map (c :: ·) := by
  rcases mem_codeEscapes.mp h with ⟨rfl, rfl⟩ | ⟨rfl, rfl⟩
  · obtain ⟨a, b, rfl⟩ := List.length_eq_two.mp hwidth
    rw [List.cons_append, List.cons_append, List.nil_append, unescape]
    cases hexChar? [a, b] <;> rfl
  · obtain ⟨a, others, rfl⟩ := List.exists_cons_of_length_eq_add_one hwidth
    obtain ⟨b, c, d, rfl⟩ := List.length_eq_three.mp (Nat.succ.inj hwidth)
    rw [List.cons_append, List.cons_append, List.cons_append, List.cons_append,
      List.nil_append, unescape]
    cases hexChar? [a, b, c, d] <;> rfl

/-- An escape with a code that the text is too short for has no value. -/
theorem unescape_short (h : (mark, width) ∈ codeEscapes) (hwidth : s.length < width) :
    unescape ('\\' :: mark :: s) = none := by
  rcases mem_codeEscapes.mp h with ⟨rfl, rfl⟩ | ⟨rfl, rfl⟩
  · match s, hwidth with
    | [], _ | [_], _ => rfl
  · match s, hwidth with
    | [], _ | [_], _ | [_, _], _ | [_, _, _], _ => rfl

/-- Without the digits of a character, an escape by code point is refused. -/
theorem unescape_uncoded (h : (mark, width) ∈ codeEscapes)
    (hs : ∀ digits rest, s = digits ++ rest → ∀ c : Char, ¬HexWritten width digits c.toNat) :
    unescape ('\\' :: mark :: s) = none ∧ LacksCode (mark, s) := by
  refine ⟨?_, (lacksCode_iff h).mpr fun digits rest n hsplit hcode => ?_⟩
  · rcases Nat.lt_or_ge s.length width with hshort | hwidth
    · exact unescape_short h hshort
    · have hsplit := (List.take_append_drop width s).symm
      have hlen := List.length_take_of_le hwidth
      rw [hsplit, unescape_code h hlen]
      cases hchar : hexChar? (s.take width) with
      | none => rfl
      | some c => exact absurd ((hexChar_eq_some_iff h hlen).mp hchar) (hs _ _ hsplit c)
  · by_contra hsurrogate
    obtain ⟨c, rfl⟩ := (exists_toNat_iff (hcode.lt_of_mem h)).mpr hsurrogate
    exact hs digits rest hsplit c hcode

theorem escapedChar_of_control {d : Char} (h : (c, d) ∈ controlEscapes) :
    escapedChar c = d ∧ (∀ width, (c, width) ∉ codeEscapes) ∧ c ≠ '\n' := by
  simp only [controlEscapes, List.mem_cons, Prod.mk.injEq, List.not_mem_nil, or_false] at h
  rcases h with ⟨rfl, rfl⟩ | ⟨rfl, rfl⟩ | ⟨rfl, rfl⟩ | ⟨rfl, rfl⟩ | ⟨rfl, rfl⟩ | ⟨rfl, rfl⟩ |
    ⟨rfl, rfl⟩
  all_goals exact ⟨rfl, by simp [codeEscapes], by decide⟩

/-- A character that is not in the table of escapes stands for itself behind a backslash. -/
theorem escapedChar_of_no_control (h : ∀ d, (c, d) ∉ controlEscapes) : escapedChar c = c := by
  have hne : ∀ p ∈ controlEscapes, c ≠ p.1 := by
    rintro ⟨a, d⟩ hp rfl
    exact h d hp
  simp only [controlEscapes, List.forall_mem_cons, List.not_mem_nil] at hne
  simp [escapedChar, hne]

/-- **What a text stands for is computed.** By induction on its pieces: a character stands for
itself, an escape for what it names, and a line continuation for nothing. -/
theorem Decodes.unescape {value : List Char} (h : Decodes s value) : unescape s = some value := by
  induction h with
  | nil => rfl
  | cons first _ ih =>
    cases first with
    | plain hc => exact (unescape_plain hc).trans (congrArg (Option.map _) ih)
    | control h =>
      obtain ⟨rfl, hcode, hline⟩ := escapedChar_of_control h
      exact (unescape_single hcode hline).trans (congrArg (Option.map _) ih)
    | code h hcode =>
      refine (unescape_code h hcode.length_eq).trans ?_
      rw [(hexChar_eq_some_iff h hcode.length_eq).mpr hcode]
      exact congrArg (Option.map _) ih
    | lineEnd => exact ih
    | itself hcontrol hcode hline =>
      refine (unescape_single hcode hline).trans ?_
      rw [escapedChar_of_no_control hcontrol]
      exact congrArg (Option.map _) ih

/-! ## Every text is settled

The escapes of a text do not depend on how many characters a code takes, since digits are no
backslashes. So that some escape lacks its code can be said of the text as a whole.
-/

theorem escapes_plain (hc : c ≠ '\\') (s : List Char) : escapes (c :: s) = escapes s := by
  cases s with
  | nil => rfl
  | cons d s => rw [escapes, if_neg hc]

/-- A backslash begins an escape and takes the next character along, which is then no escape
itself. -/
theorem escapes_escape (c : Char) (s : List Char) :
    escapes ('\\' :: c :: s) = (c, s) :: escapes s := by
  rw [escapes, if_pos rfl]

theorem escapes_append (h : '\\' ∉ digits) (s : List Char) :
    escapes (digits ++ s) = escapes s := by
  induction digits with
  | nil => rfl
  | cons d digits ih =>
    rw [List.mem_cons, not_or] at h
    exact (escapes_plain (Ne.symm h.1) _).trans (ih h.2)

/-- The text stands for something and no escape lacks its code, or it is refused and one does. -/
def Settled (s : List Char) : Prop :=
  (∃ value, Decodes s value ∧ ∀ escape ∈ escapes s, ¬LacksCode escape) ∨
    (unescape s = none ∧ ∃ escape ∈ escapes s, LacksCode escape)

namespace Settled

/-- A piece in front of a settled text leaves it settled, if it adds no escape that lacks its
code. -/
theorem cons {piece chars : List Char} (hpiece : Piece piece chars)
    (hnone : unescape s = none → unescape (piece ++ s) = none)
    (hescapes : ∃ es, escapes (piece ++ s) = es ++ escapes s ∧ ∀ e ∈ es, ¬LacksCode e)
    (h : Settled s) : Settled (piece ++ s) := by
  obtain ⟨es, hes, hsound⟩ := hescapes
  rw [Settled, hes]
  rcases h with ⟨value, hvalue, hrest⟩ | ⟨hvalue, e, he, hlacks⟩
  · refine .inl ⟨_, .cons hpiece hvalue, fun e he => ?_⟩
    exact (List.mem_append.mp he).elim (hsound e) (hrest e)
  · exact .inr ⟨hnone hvalue, e, List.mem_append_right _ he, hlacks⟩

theorem plain (hc : c ≠ '\\') (h : Settled s) : Settled (c :: s) := by
  refine h.cons (.plain hc) (fun h => ?_) ⟨[], escapes_plain hc s, nofun⟩
  exact (unescape_plain hc).trans (congrArg (Option.map _) h)

theorem single (hcode : ∀ width, (c, width) ∉ codeEscapes) (h : Settled s) :
    Settled ('\\' :: c :: s) := by
  have hescapes : ∃ es, escapes ('\\' :: c :: s) = es ++ escapes s ∧ ∀ e ∈ es, ¬LacksCode e := by
    refine ⟨[(c, s)], escapes_escape c s, fun e he => ?_⟩
    obtain rfl := List.mem_singleton.mp he
    rintro ⟨width, hmem, -⟩
    exact hcode width hmem
  by_cases hline : c = '\n'
  · subst hline
    exact h.cons .lineEnd (fun h => h) hescapes
  · have hnone : unescape s = none → unescape ('\\' :: c :: s) = none := fun h =>
      (unescape_single hcode hline).trans (congrArg (Option.map _) h)
    by_cases hcontrol : ∃ d, (c, d) ∈ controlEscapes
    · obtain ⟨d, hd⟩ := hcontrol
      exact h.cons (.control hd) hnone hescapes
    · exact h.cons (.itself (not_exists.mp hcontrol) hcode hline) hnone hescapes

theorem code {d : Char} (h : (mark, width) ∈ codeEscapes)
    (hd : HexWritten width digits d.toNat) (hs : Settled s) :
    Settled ('\\' :: mark :: (digits ++ s)) := by
  refine hs.cons (.code h hd) (fun hnone => ?_) ⟨[(mark, digits ++ s)], ?_, fun e he => ?_⟩
  · refine (unescape_code h hd.length_eq).trans ?_
    rw [hnone]
    exact Option.bind_fun_none _
  · refine (escapes_escape mark (digits ++ s)).trans ?_
    rw [escapes_append hd.not_mem_backslash]
    rfl
  · obtain rfl := List.mem_singleton.mp he
    intro hlacks
    have hsurrogate := (lacksCode_iff h).mp hlacks _ _ _ rfl hd
    exact (exists_toNat_iff (hd.lt_of_mem h)).mp ⟨d, rfl⟩ hsurrogate

end Settled

namespace Quoted

variable {quote : Char}

/-- What stands between quotes goes on to do so behind a plain character. -/
theorem tail (h : Quoted quote (c :: s)) (hc : c ≠ '\\') : Quoted quote s := by
  cases h with
  | plain _ more => exact more
  | escaped _ => exact absurd rfl hc

/-- What stands between quotes goes on to do so behind several characters without a backslash. -/
theorem of_append (h : Quoted quote (digits ++ s)) (hdigits : '\\' ∉ digits) :
    Quoted quote s := by
  induction digits with
  | nil => exact h
  | cons d digits ih =>
    rw [List.mem_cons, not_or] at hdigits
    exact ih (h.tail (Ne.symm hdigits.1)) hdigits.2

/-- **What stands between quotes has a value unless an escape lacks its code.** The induction is
on the length, since an escape may take several characters along. -/
theorem settled (h : Quoted quote s) : Settled s := by
  induction hn : s.length using Nat.strong_induction_on generalizing s with
  | h n ih =>
    subst hn
    cases h with
    | nil => exact .inl ⟨[], .nil, nofun⟩
    | @plain c s hc more => exact .plain hc.2.1 (ih s.length (by simp) more rfl)
    | @escaped c s more =>
      by_cases hcode : ∃ width, (c, width) ∈ codeEscapes
      · obtain ⟨width, hcode⟩ := hcode
        by_cases hs : ∃ digits rest, s = digits ++ rest ∧
            ∃ d : Char, HexWritten width digits d.toNat
        · obtain ⟨digits, rest, rfl, d, hd⟩ := hs
          refine .code hcode hd (ih rest.length ?_ (more.of_append hd.not_mem_backslash) rfl)
          simp only [List.length_cons, List.length_append]
          omega
        · obtain ⟨hnone, hlacks⟩ := unescape_uncoded hcode fun digits rest hsplit d hd =>
            hs ⟨digits, rest, hsplit, d, hd⟩
          refine .inr ⟨hnone, (c, s), ?_, hlacks⟩
          rw [escapes_escape]
          exact List.mem_cons_self
      · refine .single (not_exists.mp hcode) (ih s.length ?_ more rfl)
        simp only [List.length_cons]
        omega

end Quoted

end

/-! ## Literals

In a parse, the node of a string literal has the quotes in its text and the inside in its child.
-/

theorem reads_quoted {quote : Char} {r : Rule} (hr : (quote, r) ∈ quotes) {pos : Nat}
    {text : List Char} {trees : List Tree}
    (h : (word [quote] ++ rule r ++ word [quote]).Reads .compound pos text trees) :
    ∃ t inside, t.rule = r ∧ t.text = inside ∧ trees = [t] ∧
      text = quote :: (inside ++ [quote]) := by
  have hvisible : ∀ p ∈ quotes, p.2.visible .compound := by decide
  cases h with
  | seq first between last =>
    cases first with
    | seq front between' middle =>
      obtain ⟨rfl, rfl⟩ := reads_word_iff.mp front
      obtain ⟨rfl, -⟩ := reads_word_iff.mp between
      obtain ⟨rfl, -⟩ := reads_word_iff.mp between'
      obtain ⟨rfl, rfl⟩ := reads_word_iff.mp last
      obtain ⟨inner, -, rfl⟩ := reads_rule_iff.mp middle
      rw [Rule.nodes, if_pos (hvisible _ hr)]
      exact ⟨_, _, rfl, rfl, rfl, by simp⟩

/-- A string literal is what stands between two quotes. The quotes come from the reading of the
node, and that the inside ends at the second of them from the match. -/
theorem Tree.Sound.quoted {t : Tree} (ht : t.Sound) (hrule : t.rule = .stringLiteral) :
    ∃ quote inside, quote ∈ ['"', '\''] ∧ t.text = quote :: (inside ++ [quote]) ∧
      (t.children.head?.map Tree.text).getD [] = inside ∧ Quoted quote inside := by
  obtain ⟨rule, start, text, children⟩ := t
  obtain rfl : rule = .stringLiteral := hrule
  obtain ⟨⟨spacing, -, hreads⟩, spacing', s, s', -, hmatch, -⟩ := ht
  -- the quotes and the child come from the reading, the form of the inside from the match
  obtain ⟨quote, r, hr, t, inside, rfl, hinside, rfl, htext⟩ : ∃ quote r, (quote, r) ∈ quotes ∧
      ∃ t inside, t.rule = r ∧ t.text = inside ∧ children = [t] ∧
        text = quote :: (inside ++ [quote]) := by
    cases hreads with
    | left h => exact ⟨'"', .doubleStringCharacters, by decide, reads_quoted (by decide) h⟩
    | right h => exact ⟨'\'', .singleStringCharacters, by decide, reads_quoted (by decide) h⟩
  obtain ⟨quote', r', hr', u, -, hclose, hmade⟩ := matches_stringLiteral_iff.mp (.rule hmatch)
  obtain ⟨inside', hquoted, rfl⟩ := quoted_of_behindChars hclose
  rw [textBetween_self_append] at hmade
  obtain ⟨r, pos, chars, inner⟩ := t
  have htoken : ∀ p ∈ quotes, p.2.kind = .token := by decide
  have hone : ∀ p ∈ quotes, ∀ p' ∈ quotes, p.2 = p'.2 → p.1 = p'.1 := by decide
  have hquote : ∀ p ∈ quotes, p.1 ∈ ['"', '\''] := by decide
  have hchildren : Tree.coreAll [⟨r, pos, chars, inner⟩] = [⟨r', 0, inside', []⟩] :=
    (Tree.mk.inj (List.cons.inj hmade).1).2.2.2
  obtain ⟨rfl, -, hinside', -⟩ := Tree.mk.inj (List.cons.inj hchildren).1
  rw [if_pos (htoken _ hr)] at hinside'
  obtain rfl : quote = quote' := hone _ hr _ hr' rfl
  refine ⟨quote, inside, hquote _ hr, htext, hinside, ?_⟩
  rw [← hinside]
  exact hinside' ▸ hquoted

/-- **String literals decode exactly.** In every parse, what a string literal denotes is what the
pieces between its quotes stand for, one after the other, and it is refused, as an invalid
literal, if and only if an escape by code point lacks its code. -/
theorem stringValue_decodes {r : Rule} {source : List Char} {trees : List Tree}
    (h : r.parse source = .ok trees) : ∀ t ∈ trees, t.Everywhere fun t =>
      t.rule = .stringLiteral → ∃ quote inside, quote ∈ ['"', '\''] ∧
        t.text = quote :: (inside ++ [quote]) ∧
        (∀ s, stringValue t = .ok s ↔ Decodes inside s.toList) ∧
        ∀ e, stringValue t = .error e ↔ e = .invalidLiteral .stringLiteral t.string ∧
          ∃ escape ∈ escapes inside, LacksCode escape := by
  intro t ht
  obtain ⟨s', hmatch⟩ := Rule.matches_of_parse h
  have hcore : t.core ∈ Tree.coreAll trees := by
    rw [Tree.coreAll_eq]
    exact List.mem_map_of_mem ht
  have hsound := Tree.Everywhere.sound (Rule.parse_derived h t ht) (hmatch.found _ hcore)
  refine hsound.induct fun t here _ hrule => ?_
  obtain ⟨quote, inside, hquote, htext, hinside, hquoted⟩ := here.quoted hrule
  refine ⟨quote, inside, hquote, htext, ?_⟩
  rw [stringValue, hinside]
  -- either the text stands for something and no escape lacks its code, or the other way round
  rcases hquoted.settled with ⟨value, hvalue, hescapes⟩ | ⟨hnone, hlacks⟩
  · rw [hvalue.unescape]
    refine ⟨fun s => ⟨?_, fun hs => ?_⟩, fun e => ⟨?_, ?_⟩⟩
    · rintro ⟨⟩
      rwa [String.toList_ofList]
    · have huniq := hs.unescape.symm.trans hvalue.unescape
      rw [← Option.some.inj huniq]
      exact congrArg Except.ok String.ofList_toList
    · rintro ⟨⟩
    · rintro ⟨-, escape, hmem, hlacks⟩
      exact absurd hlacks (hescapes escape hmem)
  · rw [hnone]
    refine ⟨fun s => ⟨?_, fun hs => ?_⟩, fun e => ⟨?_, ?_⟩⟩
    · rintro ⟨⟩
    · have hsome := hs.unescape
      rw [hnone] at hsome
      cases hsome
    · rintro ⟨⟩
      exact ⟨by rw [Tree.invalidLiteral, hrule], hlacks⟩
    · rintro ⟨rfl, -⟩
      rw [Tree.invalidLiteral, hrule]

/-- A literal with characters of several bytes, escapes of both widths and a truncated one. -/
theorem stringValue_decodes_truncated :
    ∃ trees, Rule.script.parse "['\\xe9é\\u00E9', '\\u00é']".toList = .ok trees ∧
      ∀ t ∈ trees, t.Everywhere fun t =>
        t.rule = .stringLiteral → ∃ quote inside, quote ∈ ['"', '\''] ∧
          t.text = quote :: (inside ++ [quote]) ∧
          (∀ s, stringValue t = .ok s ↔ Decodes inside s.toList) ∧
          ∀ e, stringValue t = .error e ↔ e = .invalidLiteral .stringLiteral t.string ∧
            ∃ escape ∈ escapes inside, LacksCode escape := by
  obtain ⟨trees, htrees⟩ : ∃ trees,
      Rule.script.parse "['\\xe9é\\u00E9', '\\u00é']".toList = .ok trees :=
    exists_ok (by decide +kernel)
  exact ⟨trees, htrees, stringValue_decodes htrees⟩

/-- A plus sign is taken in place of a digit, though it is none. -/
theorem stringValue_plus :
    (Rule.stringLiteral.parse "'\\x+1'".toList).toOption.map
        (List.map fun t => (t.text, (stringValue t).toOption)) =
      some [("'\\x+1'".toList, some "\x01")] ∧ ∀ n, ¬HexDigit '+' n :=
  ⟨by decide +kernel, not_hexDigit (by decide)⟩

end Scriptlet
