import Scriptlet.Grammar.Match

/-!
# Syntax errors

Where a source stops being a script, what would have let it go on, and the message that shows both.

The message has the line of the error with a mark under the character at fault, and below it the
rules that were expected or unwanted there. Positions are byte offsets in the matcher, since that is
what nodes are measured in; here they become a line and a column, which count characters.
`Rule.parse` and `parseScript` are at the end of the module, since a parse gives either trees or
such an error.
-/

namespace Scriptlet

/-- A source that is not matched, with the rules tried at the furthest place reached. Everything
that the message says is computed from these two. -/
structure SyntaxError where
  source : List Char
  attempts : Attempts

namespace SyntaxError

/-- The byte offset of the furthest place reached. -/
def pos (e : SyntaxError) : Nat := e.attempts.pos

/-- The rules that were expected there, in order and without repetition, however often each was
tried. -/
def expected (e : SyntaxError) : List Rule :=
  Rule.all.filter (e.attempts.expected.contains ·)

/-- The rules that were unwanted there, in order and without repetition. -/
def unexpected (e : SyntaxError) : List Rule :=
  Rule.all.filter (e.attempts.unexpected.contains ·)

/-- The source before the error. -/
def before (e : SyntaxError) : List Char := Cursor.takeBytes e.pos e.source

/-- The source from the error on. -/
def after (e : SyntaxError) : List Char := e.source.drop e.before.length

/-- The part of the line of the error that stands before it. -/
def lineBefore (e : SyntaxError) : List Char :=
  (e.before.reverse.takeWhile (· ≠ '\n')).reverse

/-- The part of the line of the error from there on, with the line feed that
ends it. -/
def lineAfter (e : SyntaxError) : List Char :=
  e.after.takeWhile (· ≠ '\n') ++ (e.after.dropWhile (· ≠ '\n')).take 1

/-- The number of the line, counted from one. -/
def line (e : SyntaxError) : Nat := e.before.count '\n' + 1

/-- The number of the character in its line, counted from one. -/
def column (e : SyntaxError) : Nat := e.lineBefore.length + 1

/-- A line break made visible. -/
def visibleBreak (c : Char) : Char :=
  if c = '\r' then '␍' else if c = '\n' then '␊' else c

/-- The line of the error as the message shows it. An error at a line break shows the breaks, any
other drops them, so that the mark stands under what it means. -/
def shownLine (e : SyntaxError) : List Char :=
  let line := e.lineBefore ++ e.lineAfter
  if e.after.head? = some '\n' || e.after.head? = some '\r' then line.map visibleBreak
  else line.filter fun c => c ≠ '\r' && c ≠ '\n'

/-- The mark below the line, under the character at fault. Tabs stay tabs, so
that it lines up. -/
def underline (e : SyntaxError) : List Char :=
  ((e.shownLine.take (e.column - 1)).map fun c => if c = '\t' then '\t' else ' ')
    ++ "^---".toList

/-- Names of rules as an English list of alternatives. -/
def alternatives : List Rule → String
  | [] => ""
  | [a] => a.name
  | [a, b] => a.name ++ " or " ++ b.name
  | rules => String.join ((rules.dropLast.map fun r => r.name ++ ", "))
      ++ "or " ++ ((rules.getLast?.map Rule.name).getD "")

/-- What was wrong, in words: what was unwanted, then what was expected, as far as there is
either. -/
def detail (e : SyntaxError) : String :=
  match e.unexpected, e.expected with
  | [], [] => "unknown parsing error"
  | [], expected => "expected " ++ alternatives expected
  | unexpected, [] => "unexpected " ++ alternatives unexpected
  | unexpected, expected =>
    "unexpected " ++ alternatives unexpected ++ "; expected " ++ alternatives expected

/-- The message: the place, the line with the mark under it, and the detail,
behind a margin as wide as the line number. -/
def message (e : SyntaxError) : String :=
  let number := Nat.repr e.line
  let margin := String.ofList (List.replicate number.length ' ')
  "Parse error: " ++ "\n".intercalate
    [margin ++ "--> " ++ number ++ ":" ++ Nat.repr e.column,
     margin ++ " |",
     number ++ " | " ++ String.ofList e.shownLine,
     margin ++ " | " ++ String.ofList e.underline,
     margin ++ " |",
     margin ++ " = " ++ e.detail]

end SyntaxError

/-! ## Parsing

The matcher with enough fuel for its input.
-/

/-- Fuel that suffices for every rule on an input of the given length: without
consuming a character the matcher descends fewer than 256 levels. -/
def parseFuel (length : Nat) : Nat := 256 * (length + 1)

/-- Matches one rule at the start of a source, which it need not exhaust. The nodes of the match, or
the error if there is none. -/
def Rule.parse (r : Rule) (source : List Char) : Except SyntaxError (List Tree) :=
  match (Peg.rule r).run (parseFuel source.length) .outermost ⟨0, source⟩ .none with
  | (.matched _ trees, _) => .ok trees
  | (_, attempts) => .error ⟨source, attempts⟩

/-- Parses a whole script. -/
def parseScript (source : String) : Except SyntaxError (List Tree) :=
  Rule.script.parse source.toList

end Scriptlet
