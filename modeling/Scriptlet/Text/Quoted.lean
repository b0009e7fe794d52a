import Scriptlet.Text.DefaultIgnorable
import Scriptlet.Text.GraphemeExtend
import Scriptlet.Text.Printable

/-!
# Quoted text

Text between double quotes, on one line and readable whatever it holds: a
quote, a backslash and the common control characters have escapes of two
characters, and every other character that would not show as itself is spelt
by its code point in braces.
-/

namespace Scriptlet

/-- A character spelt by its code point: `\u`, then the lower-case hexadecimal
digits in braces, without padding. -/
def codePointEscape (c : Char) : List Char :=
  ['\\', 'u', '\x7b'] ++ Nat.toDigits 16 c.toNat ++ ['\x7d']

/-- Whether a character is a halfwidth sound mark of Japanese. These extend the
character before them and yet stand beside it, with a width of their own. -/
def isHalfwidthSoundMark (c : Char) : Bool := c = '\uff9e' || c = '\uff9f'

/-- Whether a character shows as itself between quotes: it is printable, leaves a
mark, and does not merge with what stands before it. -/
def showsAsItself (c : Char) : Bool :=
  isPrintable c && !isDefaultIgnorable c && (!isGraphemeExtend c || isHalfwidthSoundMark c)

/-- How one character stands between double quotes. Single quotes need no escape there. -/
def quotedChar (c : Char) : List Char :=
  if c = '\x00' then ['\\', '0']
  else if c = '\t' then ['\\', 't']
  else if c = '\n' then ['\\', 'n']
  else if c = '\r' then ['\\', 'r']
  else if c = '"' then ['\\', '"']
  else if c = '\\' then ['\\', '\\']
  else if showsAsItself c then [c]
  else codePointEscape c

/-- Text between double quotes, its characters escaped where needed. -/
def quoted (text : List Char) : List Char :=
  '"' :: text.flatMap quotedChar ++ ['"']

/-- `quoted` on strings. -/
def quotedString (text : String) : String :=
  String.ofList (quoted text.toList)

end Scriptlet
