import Scriptlet.Grammar.Productions
import Scriptlet.Grammar.Tree

/-!
# Matching

What a parsing expression matches at a place in the input, which nodes the match makes, and which
rules were tried at the furthest place reached. Matching is bounded by a fuel argument, and running
out of it is an outcome of its own; `Rule.parse` supplies enough for its input.

`Peg.run` is the matcher, by recursion on the fuel and one case for each kind of expression. It has
a `Context`, which says whether trivia is skipped between the parts of a match and whether rules
make nodes, and it passes along the `Attempts`, a record of what was tried furthest into the text.
The record has no influence on what matches. It is kept through backtracking, and when the whole
match fails it is what the message is made of.
-/

namespace Scriptlet

/-- A place in the input: how many bytes lie before it and what comes next. -/
structure Cursor where
  /-- the byte offset -/
  pos : Nat
  /-- the rest of the input -/
  rest : List Char

namespace Cursor

/-- The place one character on. -/
def next (c : Cursor) (x : Char) (rest : List Char) : Cursor :=
  ⟨c.pos + x.utf8Size, rest⟩

/-- The characters that take up the given number of bytes. If the number ends inside a character,
that one is still taken. -/
def takeBytes : Nat → List Char → List Char
  | 0, _ => []
  | _, [] => []
  | n, x :: xs => x :: takeBytes (n - x.utf8Size) xs

/-- The text between a place and a later one. -/
def textTo (c c' : Cursor) : List Char :=
  takeBytes (c'.pos - c.pos) c.rest

end Cursor

/-! ## What was tried

A failure is best explained by what would have let the match go on at the furthest place it got to.
There are rules that were expected there, and rules inside a negative lookahead whose match was
unwanted.
-/

/-- Whether a match is part of a lookahead, and of which polarity. -/
inductive Lookahead where
  | none | positive | negative
deriving DecidableEq, Repr

namespace Lookahead

/-- The polarity inside a positive lookahead. -/
def inAhead : Lookahead → Lookahead
  | .negative => .negative
  | _ => .positive

/-- The polarity inside a negative lookahead: two of them cancel out. -/
def inNotAhead : Lookahead → Lookahead
  | .negative => .positive
  | _ => .negative

end Lookahead

/-- The rules tried at the furthest place reached so far. They are kept through backtracking, so
that a failure can report them. A rule may be listed several times. -/
structure Attempts where
  /-- the furthest place at which a rule was reported -/
  pos : Nat
  /-- the rules that would have let the match go on there -/
  expected : List Rule
  /-- the rules whose match there was unwanted -/
  unexpected : List Rule

namespace Attempts

/-- Nothing tried yet. -/
def none : Attempts := ⟨0, [], []⟩

/-- How many rules are recorded at a place, which is none unless it is the furthest one. -/
def countAt (seen : Attempts) (pos : Nat) : Nat :=
  if seen.pos = pos then seen.expected.length + seen.unexpected.length else 0

/-- Forgets what was recorded at `pos` after the earlier record `before`. Rules are only ever added
behind those that are there, so it is enough to know how many there were. -/
def backTo (seen before : Attempts) (pos : Nat) : Attempts :=
  if seen.pos = pos then
    if before.pos = pos then
      { seen with
        expected := seen.expected.take before.expected.length
        unexpected := seen.unexpected.take before.unexpected.length }
    else { seen with expected := [], unexpected := [] }
  else seen

/-- Moves the record on to a later place, where nothing has been tried yet. An earlier place leaves
the record as it is. -/
def moveTo (seen : Attempts) (pos : Nat) : Attempts :=
  if seen.pos < pos then ⟨pos, [], []⟩ else seen

/-- Adds a rule to the record if it is about the furthest place, to the unwanted ones inside a
negative lookahead and to the expected ones otherwise. -/
def add (seen : Attempts) (rule : Rule) (pos : Nat) (lookahead : Lookahead) : Attempts :=
  if seen.pos = pos then
    if lookahead = .negative then { seen with unexpected := seen.unexpected ++ [rule] }
    else { seen with expected := seen.expected ++ [rule] }
  else seen

/-- Records that a rule was tried at `pos`, where `before` is the record from
when it was entered. A rule stands for the rules tried inside it at the same
place, unless there was exactly one of them, which then says more. -/
def track (seen before : Attempts) (rule : Rule) (pos : Nat) (lookahead : Lookahead) : Attempts :=
  if seen.countAt pos = before.countAt pos + 1 then seen
  else ((seen.backTo before pos).moveTo pos).add rule pos lookahead

end Attempts

/-! ## The matcher

What to do with an outcome, what matches a single word or character, and then the matcher.
-/

/-- The outcome of a match. A match that ran out of fuel has neither succeeded nor failed, and no
combination of it with others does. -/
inductive Outcome where
  /-- the place reached and the nodes made on the way -/
  | matched (reached : Cursor) (trees : List Tree)
  /-- no match here -/
  | failed
  /-- the fuel was too little to tell -/
  | exhausted

/-- Continues a match that succeeded; any other outcome stands. -/
def Outcome.andThen (first : Outcome × Attempts)
    (second : Cursor → List Tree → Attempts → Outcome × Attempts) : Outcome × Attempts :=
  match first with
  | (.matched c trees, seen) => second c trees seen
  | other => other

/-- Replaces a match that failed; any other outcome stands. -/
def Outcome.orElse (first : Outcome × Attempts)
    (second : Attempts → Outcome × Attempts) : Outcome × Attempts :=
  match first with
  | (.failed, seen) => second seen
  | other => other

/-- Repeats a match until it fails and collects the nodes. Each round takes fuel, so that a body
which matches nothing cannot be repeated for ever. -/
def Outcome.iterate (step : Cursor → Attempts → Outcome × Attempts) :
    Nat → Cursor → List Tree → Attempts → Outcome × Attempts
  | 0, _, _, seen => (.exhausted, seen)
  | fuel + 1, c, trees, seen =>
    match step c seen with
    | (.matched c' more, seen) => iterate step fuel c' (trees ++ more) seen
    | (.failed, seen) => (.matched c trees, seen)
    | (.exhausted, seen) => (.exhausted, seen)

/-- How much of the text between the parts of a match belongs to it. Inside a token every character
does, and the rules that it is made of leave no trace in the tree. -/
inductive Spacing where
  /-- trivia is skipped between parts -/
  | skipped
  /-- nothing is skipped, and rules inside make nodes -/
  | compound
  /-- nothing is skipped, and rules inside make no nodes -/
  | token
deriving DecidableEq, Repr

/-- The circumstances of a match: whether it only looks ahead, and what happens between its
parts. -/
structure Context where
  lookahead : Lookahead
  spacing : Spacing

namespace Context

/-- The circumstances in which parsing starts. -/
def outermost : Context := ⟨.none, .skipped⟩

/-- Whether a rule matched here makes a node. -/
def makesNode (ctx : Context) : Bool :=
  ctx.lookahead = .none && ctx.spacing ≠ .token

/-- Whether a rule tried here is recorded. -/
def records (ctx : Context) : Bool :=
  ctx.spacing ≠ .token

end Context

/-- Matches fixed characters. -/
def matchWord : List Char → Cursor → Outcome
  | [], c => .matched c []
  | x :: xs, c =>
    match c.rest with
    | y :: rest => if x = y then matchWord xs (c.next y rest) else .failed
    | [] => .failed

/-- Matches one character of a class. -/
def matchOne (chars : CharClass) (c : Cursor) : Outcome :=
  match c.rest with
  | x :: rest => if chars.contains x then .matched (c.next x rest) [] else .failed
  | [] => .failed

/-- What may stand between the parts of a match: white space, and comments with white space behind
them, as much as there is. -/
def trivia : Peg :=
  .many (.rule .whitespace) ++ .many (.rule .comment ++ .many (.rule .whitespace))

/-- Skips the trivia between two parts, if the circumstances allow any. The trivia are matched as
tokens are, and make no nodes. -/
def skipTrivia (run : Context → Cursor → Attempts → Outcome × Attempts) (ctx : Context)
    (c : Cursor) (seen : Attempts) : Outcome × Attempts :=
  if ctx.spacing = .skipped then run { ctx with spacing := .token } c seen
  else (.matched c [], seen)

/-- Wraps the match of a rule's body: makes its node and records its attempt. A rule inside a
negative lookahead is recorded when it matches, any other when it does not. -/
def matchRule (rule : Rule) (ctx : Context) (c : Cursor) (before : Attempts)
    (body : Outcome × Attempts) : Outcome × Attempts :=
  match body with
  | (.matched c' trees, seen) =>
    let seen :=
      if ctx.records && ctx.lookahead = .negative then seen.track before rule c.pos ctx.lookahead
      else seen
    let trees := if ctx.makesNode then [⟨rule, c.pos, c.textTo c', trees⟩] else trees
    (.matched c' trees, seen)
  | (.failed, seen) =>
    let seen :=
      if ctx.records && ctx.lookahead ≠ .negative then seen.track before rule c.pos ctx.lookahead
      else seen
    (.failed, seen)
  | (.exhausted, seen) => (.exhausted, seen)

/-- Matches a parsing expression at a place in the input. The fuel goes down by one with each
expression entered. A choice takes the first alternative that matches and never comes back to the
other ones; a repetition goes on for as long as its body matches. -/
def Peg.run : Nat → Context → Peg → Cursor → Attempts → Outcome × Attempts
  | 0, _, _, _, seen => (.exhausted, seen)
  | fuel + 1, ctx, p, c, seen =>
    match p with
    | .word chars => (matchWord chars c, seen)
    | .one chars => (matchOne chars c, seen)
    | .start => (if c.pos = 0 then .matched c [] else .failed, seen)
    | .finish => (if c.rest.isEmpty then .matched c [] else .failed, seen)
    | .rule r =>
      match r.kind with
      | .silent => run fuel ctx r.body c seen
      | .trivia => run fuel { ctx with spacing := .token } r.body c seen
      | .plain => matchRule r ctx c seen (run fuel ctx r.body c seen)
      | .token =>
        matchRule r ctx c seen (run fuel { ctx with spacing := .token } r.body c seen)
      | .compound =>
        let inner := { ctx with spacing := .compound }
        matchRule r inner c seen (run fuel inner r.body c seen)
    | .seq first second =>
      Outcome.andThen (run fuel ctx first c seen) fun c trees seen =>
        Outcome.andThen (skipTrivia (run fuel · trivia) ctx c seen) fun c _ seen =>
          Outcome.andThen (run fuel ctx second c seen) fun c more seen =>
            (.matched c (trees ++ more), seen)
    | .choice first second =>
      Outcome.orElse (run fuel ctx first c seen) fun seen => run fuel ctx second c seen
    | .many body =>
      Outcome.orElse
        (Outcome.andThen (run fuel ctx body c seen) fun c trees seen =>
          Outcome.iterate
            (fun c seen =>
              Outcome.andThen (skipTrivia (run fuel · trivia) ctx c seen) fun c _ seen =>
                run fuel ctx body c seen)
            fuel c trees seen)
        fun seen => (.matched c [], seen)
    | .optional body =>
      Outcome.orElse (run fuel ctx body c seen) fun seen => (.matched c [], seen)
    | .ahead body =>
      Outcome.andThen (run fuel { ctx with lookahead := ctx.lookahead.inAhead } body c seen)
        fun _ _ seen => (.matched c [], seen)
    | .notAhead body =>
      match run fuel { ctx with lookahead := ctx.lookahead.inNotAhead } body c seen with
      | (.matched _ _, seen) => (.failed, seen)
      | (.failed, seen) => (.matched c [], seen)
      | (.exhausted, seen) => (.exhausted, seen)

end Scriptlet
