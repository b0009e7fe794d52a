import Scriptlet.Grammar.Rule

/-!
# Parsing expressions

The language in which the rules of the grammar are written: ordered choice, greedy repetition and
lookahead over single characters and fixed words. What an expression matches is defined in
`Scriptlet.Grammar.Match`; here it is plain data.

As data, expressions can also be looked into: which characters one can begin with, whether it can
match nothing at all, which rules it leads to. The theory of the grammar is made of such functions
on expressions and of what they say about matching.
-/

namespace Scriptlet

/-- Classes of characters. All but `any` are classes of ASCII characters. -/
inductive CharClass where
  | any | letter | digit | hexDigit | letterOrDigit
deriving DecidableEq, Repr

namespace CharClass

/-- Whether a character belongs to a class. Letters beyond ASCII belong to `any` only. -/
def contains : CharClass → Char → Bool
  | any, _ => true
  | letter, c => c.isAlpha
  | digit, c => c.isDigit
  | hexDigit, c => c.isDigit || ('a' ≤ c && c ≤ 'f') || ('A' ≤ c && c ≤ 'F')
  | letterOrDigit, c => c.isAlphanum

end CharClass

/-- Parsing expressions. Words and single characters are all that consumes input; everything else
says how matches are put together. -/
inductive Peg where
  /-- exactly these characters -/
  | word (chars : List Char)
  /-- one character of a class -/
  | one (chars : CharClass)
  /-- the start of the input, consuming nothing -/
  | start
  /-- the end of the input, consuming nothing -/
  | finish
  /-- whatever a rule matches -/
  | rule (r : Rule)
  /-- the first expression, then the second, with trivia between them -/
  | seq (first second : Peg)
  /-- the first expression, and only if it fails the second -/
  | choice (first second : Peg)
  /-- as many matches as there are, with trivia between them -/
  | many (body : Peg)
  /-- one match, or none if there is none -/
  | optional (body : Peg)
  /-- succeeds where the body would, consuming nothing -/
  | ahead (body : Peg)
  /-- succeeds where the body would not, consuming nothing -/
  | notAhead (body : Peg)
deriving DecidableEq, Repr

namespace Peg

/-- Expressions one after the other are written `a ++ b`. -/
instance : Append Peg := ⟨seq⟩

/-- Expressions in order of preference are written `a <|> b`. -/
instance : OrElse Peg := ⟨fun a b => choice a (b ())⟩

/-- A word given as a string. -/
def lit (s : String) : Peg := word s.toList

/-- One match at least. -/
def many1 (body : Peg) : Peg := body ++ many body

/-- Matches of `body` with commas between them. -/
def commaSeparated (body : Peg) : Peg := body ++ many (lit "," ++ body)

/-- A word that is not the beginning of a longer one, such as a literal name. -/
def wholeWord (s : String) : Peg := lit s ++ notAhead (rule .identChar)

/-- A keyword: the check of its word boundary, then its characters. The
check is a rule of its own, which a message can name. -/
def keyword (boundary : Rule) (s : String) : Peg := ahead (rule boundary) ++ lit s

end Peg

end Scriptlet
