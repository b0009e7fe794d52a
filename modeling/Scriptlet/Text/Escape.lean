/-!
# Escapes in string literals

A string literal stands for the characters between its quotes, with a backslash taking the next
character out of its usual meaning. Most escapes are of a single character; `\x` and `\u` are
followed by a numeral of two or four characters, and a backslash at the end of a line continues the
literal on the next one.

The numeral of an escape is read by `hexNumeral?`, which is a little wider than a list of
hexadecimal digits, and so there are escapes that denote a character without being written with
digits only. Everything else about escapes is decided by `unescape`.
-/

namespace Scriptlet

/-- The value of a hexadecimal digit, in either case. -/
def hexDigitValue? (c : Char) : Option Nat :=
  if '0' ≤ c ∧ c ≤ '9' then some (c.toNat - '0'.toNat)
  else if 'a' ≤ c ∧ c ≤ 'f' then some (c.toNat - 'a'.toNat + 10)
  else if 'A' ≤ c ∧ c ≤ 'F' then some (c.toNat - 'A'.toNat + 10)
  else none

/-- The value of hexadecimal digits read from left to right. -/
def hexDigitsValue? (digits : List Char) : Option Nat :=
  digits.foldlM (fun n c => (hexDigitValue? c).map (16 * n + ·)) 0

/-- The value of a hexadecimal numeral of at least one digit. A plus sign may
stand in front. -/
def hexNumeral? (text : List Char) : Option Nat :=
  let digits := if text.head? = some '+' then text.drop 1 else text
  if digits.isEmpty then none else hexDigitsValue? digits

/-- The character of a code point, if it is one. Surrogates are not, and nor is anything beyond the
last plane. -/
def charOfCodePoint? (n : Nat) : Option Char :=
  if h : n.isValidChar then some (Char.ofNatAux n h) else none

/-- The character a hexadecimal numeral denotes. -/
def hexChar? (text : List Char) : Option Char :=
  (hexNumeral? text).bind charOfCodePoint?

/-- What a backslash makes of the single character behind it. A character without a meaning of its
own stands for itself, quotes and the backslash among them. -/
def escapedChar (c : Char) : Char :=
  if c = 'n' then '\n'
  else if c = 't' then '\t'
  else if c = 'r' then '\r'
  else if c = 'b' then '\x08'
  else if c = 'f' then '\x0c'
  else if c = 'v' then '\x0b'
  else if c = '0' then '\x00'
  else c

/-- The characters that the inside of a string literal denotes. `\x` takes two
characters and `\u` four, which must denote a character; a backslash before a
line feed continues the line. -/
def unescape : List Char → Option (List Char)
  | [] => some []
  | '\\' :: 'x' :: a :: b :: rest =>
    match hexChar? [a, b] with
    | some c => (unescape rest).map (c :: ·)
    | none => none
  | '\\' :: 'u' :: a :: b :: c :: d :: rest =>
    match hexChar? [a, b, c, d] with
    | some c => (unescape rest).map (c :: ·)
    | none => none
  | '\\' :: '\n' :: rest => unescape rest
  | '\\' :: c :: rest =>
    if c = 'x' ∨ c = 'u' then none else (unescape rest).map (escapedChar c :: ·)
  | c :: rest => if c = '\\' then none else (unescape rest).map (c :: ·)

end Scriptlet
