import Mathlib.Data.List.DropRight
import Scriptlet.Proofs.Grammar.Reading

/-!
# Matches

What a match is, without fuel, places and records. `Peg.Matches` relates an expression and a text to
what is left of the text and to the nodes made; `Peg.Iterates` does the same for the matches behind
the first one of a repetition; `Peg.Fails` says that there is no match. The three are defined
together: a second alternative is taken only where the first one fails, a repetition goes on until
its body fails, and a lookahead fails where its body matches. Failure is thus a relation of its own
and not the absence of matches, which would not be a definition by induction. That it comes to the
same is shown later, where the matcher is known to always tell (`Peg.fails_iff`).

Unlike a reading (`Peg.Reads`), a match is greedy, prefers the first alternative and looks ahead; it
is therefore unique (`Peg.Matches.unique`). Readings are what is needed to know that every parse has
some property; matches are what is needed to know that there is a parse.

Nodes are made in a bare form, `Tree.core`: without their offset, and with their text only if they
are tokens. Lowering needs no more, and a bare node does not change when the text around it is
respaced or extended.

* `Peg.Matches`, `Peg.Iterates`, `Peg.Fails`: the relations, one constructor for each way to match.
* `Peg.matches_seq_iff` and its like: what it takes to match, operator by operator. Proofs about
  particular rules of the grammar open them with these.
* `Peg.Matches.unique`, `Peg.Matches.not_fails`: a match excludes all else.
* `Peg.Matches.suffix`, `Peg.TakesOne`: what a match takes.
* `Peg.trivia_matches`: white space and comments, as the grammar has them, are skipped by
  `dropTrivia`.
-/

namespace Scriptlet

/-! ## Trivia

White space and comments, which are skipped between the parts of a rule, as a function on texts. The
grammar has rules for them as well; that the two agree is `Peg.trivia_matches` below.
-/

/-- The characters of white space. -/
def isBlank (c : Char) : Bool :=
  c = ' ' || (c = '\t' || (c = '\r' || (c = '\n' || c = '\ufeff')))

/-- What is behind the first end of a block comment, if there is one: comments do not nest. -/
def behindBlock : List Char → Option (List Char)
  | [] => none
  | c :: s => if ['*', '/'].isPrefixOf (c :: s) then some (s.drop 1) else behindBlock s

/-- What is behind the comment that a text begins with, if it does begin with one and the comment
ends. A line comment goes up to the line break, which is left, or to the end of the text. -/
def behindComment : List Char → Option (List Char)
  | '/' :: '/' :: s => some (s.dropWhile (· ≠ '\n'))
  | '/' :: '*' :: s => behindBlock s
  | _ => none

/-- A comment takes at least its end. -/
theorem behindBlock_length {s s' : List Char} (h : behindBlock s = some s') :
    s'.length < s.length := by
  induction s with
  | nil => cases h
  | cons c s ih =>
    rw [behindBlock] at h
    split at h
    · obtain rfl := Option.some.inj h
      simp only [List.length_drop, List.length_cons]
      omega
    · have := ih h
      simp only [List.length_cons]
      omega

/-- A comment is not empty, so what is behind it is shorter; `dropTrivia` ends because of this. -/
theorem behindComment_length {s s' : List Char} (h : behindComment s = some s') :
    s'.length < s.length := by
  rw [behindComment.eq_def] at h
  split at h
  · next s =>
    obtain rfl := Option.some.inj h
    have := (List.dropWhile_suffix (l := s) (· ≠ '\n')).length_le
    simp only [List.length_cons]
    omega
  · have := behindBlock_length h
    simp only [List.length_cons]
    omega
  · cases h

/-- What is left of a text behind white space and comments. A comment is skipped together with the
white space before it, and then the same is done again; each round shortens the text, as a comment
is not empty. A block comment without end is not skipped. -/
def dropTrivia (s : List Char) : List Char :=
  match _h : behindComment (s.dropWhile isBlank) with
  | none => s.dropWhile isBlank
  | some s' => dropTrivia s'
termination_by s.length
decreasing_by
  have := behindComment_length _h
  have := (List.dropWhile_suffix (l := s) isBlank).length_le
  omega

/-- What is left behind what is skipped between two parts of a match. -/
def Spacing.skip : Spacing → List Char → List Char
  | .skipped, s => dropTrivia s
  | .compound, s | .token, s => s

/-! ## Bare trees

Offsets, and the texts of nodes that are no tokens, depend on how a text is spaced. A match makes
nodes without them. `Tree.core` is what such a node is of one that was parsed.
-/

mutual

/-- A node without its offset, and with its text only if it is a token. -/
def Tree.core : Tree → Tree
  | ⟨rule, _, text, children⟩ =>
    ⟨rule, 0, if rule.kind = .token then text else [], Tree.coreAll children⟩

/-- `Tree.core` for several trees. -/
def Tree.coreAll : List Tree → List Tree
  | [] => []
  | t :: ts => t.core :: Tree.coreAll ts

end

/-- Several trees are stripped one by one. -/
theorem Tree.coreAll_eq (ts : List Tree) : Tree.coreAll ts = ts.map Tree.core := by
  induction ts with
  | nil => rfl
  | cons t ts ih => rw [Tree.coreAll, ih, List.map_cons]

/-- The text between two places, given what is left at each of them. Places are texts here, so the
length of what is left takes the part of an offset. -/
def textBetween (s s' : List Char) : List Char := s.take (s.length - s'.length)

/-- The bare nodes that a rule makes of those found inside it: one node around them, or, if nothing
is to be seen of the rule, themselves. Only the node of a token has a text. -/
def Rule.made (r : Rule) (spacing : Spacing) (s s' : List Char) (trees : List Tree) : List Tree :=
  if r.visible spacing then
    [⟨r, 0, if r.kind = .token then textBetween s s' else [], trees⟩]
  else trees

/-! ## The relation

Texts are places: `s` is what is left at the beginning of a match and `s'` what is left at its end.
What stands between two parts is skipped before the second one, and before each repetition; what was
skipped before a part that then fails is not lost, since the match goes on from `s`.
-/

mutual

/-- `p.Matches spacing s s' trees`: with this spacing, `p` matches at the beginning of `s`,
leaves `s'` and makes `trees`. -/
inductive Peg.Matches : Spacing → Peg → List Char → List Char → List Tree → Prop
  | word {spacing chars s s'} (h : s = chars ++ s') : Matches spacing (.word chars) s s' []
  | one {spacing s x s'} {chars : CharClass} (h : s = x :: s') (hx : chars.contains x) :
    Matches spacing (.one chars) s s' []
  | start {spacing s} : Matches spacing .start s s []
  | finish {spacing} : Matches spacing .finish [] [] []
  | rule {spacing s s' trees} {r : Rule} (body : Matches (r.inside spacing) r.body s s' trees) :
    Matches spacing (.rule r) s s' (r.made spacing s s' trees)
  | seq {spacing p q s s₁ s' trees trees'} (first : Matches spacing p s s₁ trees)
    (second : Matches spacing q (spacing.skip s₁) s' trees') :
    Matches spacing (.seq p q) s s' (trees ++ trees')
  | left {spacing p q s s' trees} (first : Matches spacing p s s' trees) :
    Matches spacing (.choice p q) s s' trees
  | right {spacing p q s s' trees} (first : Fails spacing p s)
    (second : Matches spacing q s s' trees) : Matches spacing (.choice p q) s s' trees
  | never {spacing p s} (body : Fails spacing p s) : Matches spacing (.many p) s s []
  | times {spacing p s s₁ s' trees trees'} (first : Matches spacing p s s₁ trees)
    (more : Iterates spacing p s₁ s' trees') : Matches spacing (.many p) s s' (trees ++ trees')
  | absent {spacing p s} (body : Fails spacing p s) : Matches spacing (.optional p) s s []
  | present {spacing p s s' trees} (body : Matches spacing p s s' trees) :
    Matches spacing (.optional p) s s' trees
  | ahead {spacing p s s' trees} (body : Matches spacing p s s' trees) :
    Matches spacing (.ahead p) s s []
  | notAhead {spacing p s} (body : Fails spacing p s) : Matches spacing (.notAhead p) s s []

/-- The matches behind the first one of a repetition, of which each may have trivia before it. Where
the body fails behind trivia, the repetition ends in front of them. -/
inductive Peg.Iterates : Spacing → Peg → List Char → List Char → List Tree → Prop
  | stop {spacing p s} (body : Fails spacing p (spacing.skip s)) : Iterates spacing p s s []
  | step {spacing p s s₁ s' trees trees'} (body : Matches spacing p (spacing.skip s) s₁ trees)
    (more : Iterates spacing p s₁ s' trees') : Iterates spacing p s s' (trees ++ trees')

/-- `p.Fails spacing s`: with this spacing, `p` does not match at the beginning of `s`. A sequence
fails with its first part, or with its second part behind a match of the first; nothing is tried
again. -/
inductive Peg.Fails : Spacing → Peg → List Char → Prop
  | word {spacing chars s} (h : ∀ s', s ≠ chars ++ s') : Fails spacing (.word chars) s
  | one {spacing s} {chars : CharClass} (h : ∀ x s', s = x :: s' → ¬chars.contains x) :
    Fails spacing (.one chars) s
  | finish {spacing s} (h : s ≠ []) : Fails spacing .finish s
  | rule {spacing s} {r : Rule} (body : Fails (r.inside spacing) r.body s) :
    Fails spacing (.rule r) s
  | first {spacing p q s} (first : Fails spacing p s) : Fails spacing (.seq p q) s
  | second {spacing p q s s₁ trees} (first : Matches spacing p s s₁ trees)
    (second : Fails spacing q (spacing.skip s₁)) : Fails spacing (.seq p q) s
  | both {spacing p q s} (first : Fails spacing p s) (second : Fails spacing q s) :
    Fails spacing (.choice p q) s
  | ahead {spacing p s} (body : Fails spacing p s) : Fails spacing (.ahead p) s
  | notAhead {spacing p s s' trees} (body : Matches spacing p s s' trees) :
    Fails spacing (.notAhead p) s

end

namespace Peg

/-! ## Inversion

What it takes for each kind of expression to match or fail. The relation has one constructor for
each way to match, so these are read off it; they are stated as equivalences because most uses
rewrite with them, several levels of a rule at a time.
-/

section

variable {spacing : Spacing} {p q : Peg} {s s' : List Char} {trees : List Tree}

theorem matches_word_iff {chars : List Char} :
    (word chars).Matches spacing s s' trees ↔ s = chars ++ s' ∧ trees = [] := by
  refine ⟨fun h => ?_, fun ⟨h, ht⟩ => ht ▸ .word h⟩
  cases h with
  | word h => exact ⟨h, rfl⟩

theorem matches_one_iff {chars : CharClass} :
    (one chars).Matches spacing s s' trees ↔
      (∃ x, s = x :: s' ∧ chars.contains x) ∧ trees = [] := by
  refine ⟨fun h => ?_, fun ⟨⟨x, h, hx⟩, ht⟩ => ht ▸ .one h hx⟩
  cases h with
  | one h hx => exact ⟨⟨_, h, hx⟩, rfl⟩

theorem matches_finish_iff :
    finish.Matches spacing s s' trees ↔ s = [] ∧ s' = [] ∧ trees = [] := by
  refine ⟨fun h => ?_, ?_⟩
  · cases h
    exact ⟨rfl, rfl, rfl⟩
  · rintro ⟨rfl, rfl, rfl⟩
    exact .finish

/-- A rule matches where its body does, with the spacing that the rule asks for. -/
theorem matches_rule_iff {r : Rule} :
    (rule r).Matches spacing s s' trees ↔
      ∃ inner, r.body.Matches (r.inside spacing) s s' inner ∧
        trees = r.made spacing s s' inner := by
  refine ⟨fun h => ?_, fun ⟨inner, body, ht⟩ => ht ▸ .rule body⟩
  cases h with
  | rule body => exact ⟨_, body, rfl⟩

/-- Two expressions in sequence match if the second one does behind what is skipped after the
first. -/
theorem matches_seq_iff :
    (seq p q).Matches spacing s s' trees ↔
      ∃ s₁ trees₁ trees₂, p.Matches spacing s s₁ trees₁ ∧
        q.Matches spacing (spacing.skip s₁) s' trees₂ ∧ trees = trees₁ ++ trees₂ := by
  refine ⟨fun h => ?_, fun ⟨_, _, _, first, second, ht⟩ => ht ▸ .seq first second⟩
  cases h with
  | seq first second => exact ⟨_, _, _, first, second, rfl⟩

/-- The second alternative matches only where the first one fails. -/
theorem matches_choice_iff :
    (choice p q).Matches spacing s s' trees ↔
      p.Matches spacing s s' trees ∨ p.Fails spacing s ∧ q.Matches spacing s s' trees := by
  refine ⟨fun h => ?_, fun h => h.elim .left fun h => .right h.1 h.2⟩
  cases h with
  | left first => exact .inl first
  | right first second => exact .inr ⟨first, second⟩

/-- A repetition matches nothing where its body fails, and goes on behind its first match
otherwise. -/
theorem matches_many_iff :
    (many p).Matches spacing s s' trees ↔
      (p.Fails spacing s ∧ s' = s ∧ trees = []) ∨
        ∃ s₁ trees₁ trees₂, p.Matches spacing s s₁ trees₁ ∧ p.Iterates spacing s₁ s' trees₂ ∧
          trees = trees₁ ++ trees₂ := by
  refine ⟨fun h => ?_, ?_⟩
  · cases h with
    | never body => exact .inl ⟨body, rfl, rfl⟩
    | times first more => exact .inr ⟨_, _, _, first, more, rfl⟩
  · rintro (⟨body, rfl, rfl⟩ | ⟨_, _, _, first, more, rfl⟩)
    · exact .never body
    · exact .times first more

/-- Each further match may have trivia before it; where there is none, nothing is taken. -/
theorem iterates_iff :
    p.Iterates spacing s s' trees ↔
      (p.Fails spacing (spacing.skip s) ∧ s' = s ∧ trees = []) ∨
        ∃ s₁ trees₁ trees₂, p.Matches spacing (spacing.skip s) s₁ trees₁ ∧
          p.Iterates spacing s₁ s' trees₂ ∧ trees = trees₁ ++ trees₂ := by
  refine ⟨fun h => ?_, ?_⟩
  · cases h with
    | stop body => exact .inl ⟨body, rfl, rfl⟩
    | step body more => exact .inr ⟨_, _, _, body, more, rfl⟩
  · rintro (⟨body, rfl, rfl⟩ | ⟨_, _, _, body, more, rfl⟩)
    · exact .stop body
    · exact .step body more

theorem matches_optional_iff :
    (optional p).Matches spacing s s' trees ↔
      (p.Fails spacing s ∧ s' = s ∧ trees = []) ∨ p.Matches spacing s s' trees := by
  refine ⟨fun h => ?_, ?_⟩
  · cases h with
    | absent body => exact .inl ⟨body, rfl, rfl⟩
    | present body => exact .inr body
  · rintro (⟨body, rfl, rfl⟩ | body)
    · exact .absent body
    · exact .present body

/-- Looking ahead takes nothing and makes nothing. -/
theorem matches_ahead_iff :
    (ahead p).Matches spacing s s' trees ↔
      (∃ s₁ trees₁, p.Matches spacing s s₁ trees₁) ∧ s' = s ∧ trees = [] := by
  refine ⟨fun h => ?_, ?_⟩
  · cases h with
    | ahead body => exact ⟨⟨_, _, body⟩, rfl, rfl⟩
  · rintro ⟨⟨_, _, body⟩, rfl, rfl⟩
    exact .ahead body

theorem matches_notAhead_iff :
    (notAhead p).Matches spacing s s' trees ↔ p.Fails spacing s ∧ s' = s ∧ trees = [] := by
  refine ⟨fun h => ?_, ?_⟩
  · cases h with
    | notAhead body => exact ⟨body, rfl, rfl⟩
  · rintro ⟨body, rfl, rfl⟩
    exact .notAhead body

theorem fails_word_iff {chars : List Char} :
    (word chars).Fails spacing s ↔ ∀ s', s ≠ chars ++ s' := by
  refine ⟨fun h => ?_, .word⟩
  cases h with
  | word h => exact h

theorem fails_one_iff {chars : CharClass} :
    (one chars).Fails spacing s ↔ ∀ x s', s = x :: s' → ¬chars.contains x := by
  refine ⟨fun h => ?_, .one⟩
  cases h with
  | one h => exact h

theorem fails_rule_iff {r : Rule} :
    (rule r).Fails spacing s ↔ r.body.Fails (r.inside spacing) s := by
  refine ⟨fun h => ?_, .rule⟩
  cases h with
  | rule body => exact body

/-- A sequence fails with one of its parts. -/
theorem fails_seq_iff :
    (seq p q).Fails spacing s ↔ p.Fails spacing s ∨
      ∃ s₁ trees, p.Matches spacing s s₁ trees ∧ q.Fails spacing (spacing.skip s₁) := by
  refine ⟨fun h => ?_, ?_⟩
  · cases h with
    | first first => exact .inl first
    | second first second => exact .inr ⟨_, _, first, second⟩
  · rintro (first | ⟨_, _, first, second⟩)
    · exact .first first
    · exact .second first second

theorem fails_choice_iff :
    (choice p q).Fails spacing s ↔ p.Fails spacing s ∧ q.Fails spacing s := by
  refine ⟨fun h => ?_, fun h => .both h.1 h.2⟩
  cases h with
  | both first second => exact ⟨first, second⟩

theorem fails_ahead_iff : (ahead p).Fails spacing s ↔ p.Fails spacing s := by
  refine ⟨fun h => ?_, .ahead⟩
  cases h with
  | ahead body => exact body

theorem fails_notAhead_iff :
    (notAhead p).Fails spacing s ↔ ∃ s' trees, p.Matches spacing s s' trees := by
  refine ⟨fun h => ?_, fun ⟨_, _, body⟩ => .notAhead body⟩
  cases h with
  | notAhead body => exact ⟨_, _, body⟩

end

/-! ## Uniqueness

A match excludes every other one, and it excludes a failure. The two have to be shown together:
an alternative that comes second excludes matches because the first one fails, and a prediction
that something is not ahead fails because something matches. There is one lemma for each way to
match, about `Peg.OnlyMatches`, and the induction applies them.
-/

/-- The expression matches in no other way at the beginning of `s` than leaving `s'` and making
`trees`, and does not fail there. -/
structure OnlyMatches (spacing : Spacing) (p : Peg) (s s' : List Char) (trees : List Tree) :
    Prop where
  unique : ∀ {s'' trees'}, p.Matches spacing s s'' trees' → s' = s'' ∧ trees = trees'
  not_fails : ¬p.Fails spacing s

/-- The expression does not match at the beginning of the text. -/
def Never (spacing : Spacing) (p : Peg) (s : List Char) : Prop :=
  ∀ {s' trees}, ¬p.Matches spacing s s' trees

/-- Behind a first match at whose end `s` is left, the expression is repeated in no other way. -/
def OnlyIterates (spacing : Spacing) (p : Peg) (s s' : List Char) (trees : List Tree) : Prop :=
  ∀ s'' trees', p.Iterates spacing s s'' trees' → s' = s'' ∧ trees = trees'

namespace OnlyMatches

variable {spacing : Spacing} {p q : Peg} {s s₁ s' : List Char} {trees trees' : List Tree}

theorem word {chars : List Char} (h : s = chars ++ s') :
    (word chars).OnlyMatches spacing s s' [] where
  unique h' := by
    obtain ⟨h', ht⟩ := matches_word_iff.mp h'
    exact ⟨List.append_cancel_left (h.symm.trans h'), ht.symm⟩
  not_fails h' := fails_word_iff.mp h' _ h

theorem one {x : Char} {chars : CharClass} (h : s = x :: s') (hx : chars.contains x) :
    (one chars).OnlyMatches spacing s s' [] where
  unique h' := by
    obtain ⟨⟨x, h', -⟩, ht⟩ := matches_one_iff.mp h'
    exact ⟨(List.cons.inj (h.symm.trans h')).2, ht.symm⟩
  not_fails h' := fails_one_iff.mp h' _ _ h hx

theorem start : start.OnlyMatches spacing s s [] where
  unique h' := by
    cases h'
    exact ⟨rfl, rfl⟩
  not_fails := nofun

/-- At the end of the text nothing else is left to be matched. -/
theorem finish : finish.OnlyMatches spacing [] [] [] where
  unique h' := by
    obtain ⟨-, hs, ht⟩ := matches_finish_iff.mp h'
    exact ⟨hs.symm, ht.symm⟩
  not_fails h' := by
    cases h' with
    | finish h' => exact h' rfl

theorem rule {r : Rule} (body : r.body.OnlyMatches (r.inside spacing) s s' trees) :
    (rule r).OnlyMatches spacing s s' (r.made spacing s s' trees) where
  unique h' := by
    obtain ⟨inner, body', ht⟩ := matches_rule_iff.mp h'
    obtain ⟨hs, hinner⟩ := body.unique body'
    rw [ht, hs, hinner]
    exact ⟨rfl, rfl⟩
  not_fails h' := body.not_fails (fails_rule_iff.mp h')

/-- The second part begins where the first one ends, and there is only one such place. -/
theorem seq (first : p.OnlyMatches spacing s s₁ trees)
    (second : q.OnlyMatches spacing (spacing.skip s₁) s' trees') :
    (seq p q).OnlyMatches spacing s s' (trees ++ trees') where
  unique h' := by
    obtain ⟨s₂, trees₁, trees₂, first', second', ht⟩ := matches_seq_iff.mp h'
    obtain ⟨hs₁, ht₁⟩ := first.unique first'
    rw [← hs₁] at second'
    obtain ⟨hs₂, ht₂⟩ := second.unique second'
    rw [ht, hs₂, ht₁, ht₂]
    exact ⟨rfl, rfl⟩
  not_fails h' := by
    rcases fails_seq_iff.mp h' with first' | ⟨s₂, trees₁, first', second'⟩
    · exact first.not_fails first'
    · rw [← (first.unique first').1] at second'
      exact second.not_fails second'

theorem left (first : p.OnlyMatches spacing s s' trees) :
    (choice p q).OnlyMatches spacing s s' trees where
  unique h' := by
    rcases matches_choice_iff.mp h' with first' | ⟨first', -⟩
    · exact first.unique first'
    · exact absurd first' first.not_fails
  not_fails h' := first.not_fails (fails_choice_iff.mp h').1

/-- A second alternative is the only match as the first one does not match. -/
theorem right (first : p.Never spacing s) (second : q.OnlyMatches spacing s s' trees) :
    (choice p q).OnlyMatches spacing s s' trees where
  unique h' := by
    rcases matches_choice_iff.mp h' with first' | ⟨-, second'⟩
    · exact absurd first' first
    · exact second.unique second'
  not_fails h' := second.not_fails (fails_choice_iff.mp h').2

theorem never (body : p.Never spacing s) : (many p).OnlyMatches spacing s s [] where
  unique h' := by
    rcases matches_many_iff.mp h' with ⟨-, hs, ht⟩ | ⟨_, _, _, first', -, -⟩
    · exact ⟨hs.symm, ht.symm⟩
    · exact absurd first' body
  not_fails := nofun

/-- A repetition goes on as long as its body matches, so it cannot stop earlier. -/
theorem times (first : p.OnlyMatches spacing s s₁ trees)
    (more : p.OnlyIterates spacing s₁ s' trees') :
    (many p).OnlyMatches spacing s s' (trees ++ trees') where
  unique h' := by
    rcases matches_many_iff.mp h' with ⟨body', -, -⟩ | ⟨s₂, trees₁, trees₂, first', more', ht⟩
    · exact absurd body' first.not_fails
    · obtain ⟨hs₁, ht₁⟩ := first.unique first'
      rw [← hs₁] at more'
      obtain ⟨hs₂, ht₂⟩ := more _ _ more'
      rw [ht, hs₂, ht₁, ht₂]
      exact ⟨rfl, rfl⟩
  not_fails := nofun

theorem absent (body : p.Never spacing s) : (optional p).OnlyMatches spacing s s [] where
  unique h' := by
    rcases matches_optional_iff.mp h' with ⟨-, hs, ht⟩ | body'
    · exact ⟨hs.symm, ht.symm⟩
    · exact absurd body' body
  not_fails := nofun

theorem present (body : p.OnlyMatches spacing s s' trees) :
    (optional p).OnlyMatches spacing s s' trees where
  unique h' := by
    rcases matches_optional_iff.mp h' with ⟨body', -, -⟩ | body'
    · exact absurd body' body.not_fails
    · exact body.unique body'
  not_fails := nofun

theorem ahead (body : p.OnlyMatches spacing s s' trees) :
    (ahead p).OnlyMatches spacing s s [] where
  unique h' := by
    obtain ⟨-, hs, ht⟩ := matches_ahead_iff.mp h'
    exact ⟨hs.symm, ht.symm⟩
  not_fails h' := body.not_fails (fails_ahead_iff.mp h')

theorem notAhead (body : p.Never spacing s) : (notAhead p).OnlyMatches spacing s s [] where
  unique h' := by
    obtain ⟨-, hs, ht⟩ := matches_notAhead_iff.mp h'
    exact ⟨hs.symm, ht.symm⟩
  not_fails h' := by
    obtain ⟨_, _, body'⟩ := fails_notAhead_iff.mp h'
    exact body body'

end OnlyMatches

namespace OnlyIterates

variable {spacing : Spacing} {p : Peg} {s s₁ s' : List Char} {trees trees' : List Tree}

/-- Where the body does not match, a repetition cannot go on. -/
theorem stop (body : p.Never spacing (spacing.skip s)) : p.OnlyIterates spacing s s [] := by
  intro s'' trees' h'
  rcases iterates_iff.mp h' with ⟨-, hs, ht⟩ | ⟨_, _, _, body', -, -⟩
  · exact ⟨hs.symm, ht.symm⟩
  · exact absurd body' body

/-- Where the body matches, a repetition cannot stop. -/
theorem step (body : p.OnlyMatches spacing (spacing.skip s) s₁ trees)
    (more : p.OnlyIterates spacing s₁ s' trees') :
    p.OnlyIterates spacing s s' (trees ++ trees') := by
  intro s'' trees'' h'
  rcases iterates_iff.mp h' with ⟨body', -, -⟩ | ⟨s₂, trees₁, trees₂, body', more', ht⟩
  · exact absurd body' body.not_fails
  · obtain ⟨hs₁, ht₁⟩ := body.unique body'
    rw [← hs₁] at more'
    obtain ⟨hs₂, ht₂⟩ := more _ _ more'
    rw [ht, hs₂, ht₁, ht₂]
    exact ⟨rfl, rfl⟩

end OnlyIterates

mutual

/-- What matches does not match otherwise, and does not fail. -/
theorem Matches.decided {spacing : Spacing} {p : Peg} {s s' : List Char} {trees : List Tree} :
    p.Matches spacing s s' trees → p.OnlyMatches spacing s s' trees
  | .word h => .word h
  | .one h hx => .one h hx
  | .start => .start
  | .finish => .finish
  | .rule body => .rule body.decided
  | .seq first second => .seq first.decided second.decided
  | .left first => .left first.decided
  | .right first second => .right first.not_matches second.decided
  | .never body => .never body.not_matches
  | .times first more => .times first.decided more.decided
  | .absent body => .absent body.not_matches
  | .present body => .present body.decided
  | .ahead body => .ahead body.decided
  | .notAhead body => .notAhead body.not_matches

theorem Iterates.decided {spacing : Spacing} {p : Peg} {s s' : List Char} {trees : List Tree} :
    p.Iterates spacing s s' trees → p.OnlyIterates spacing s s' trees
  | .stop body => .stop body.not_matches
  | .step body more => .step body.decided more.decided

/-- What fails does not match. -/
theorem Fails.not_matches {spacing : Spacing} {p : Peg} {s : List Char} :
    p.Fails spacing s → p.Never spacing s
  | .word h => fun h' => h _ (matches_word_iff.mp h').1
  | .one h => fun h' => by
    obtain ⟨⟨x, h', hx⟩, -⟩ := matches_one_iff.mp h'
    exact h _ _ h' hx
  | .finish h => fun h' => h (matches_finish_iff.mp h').1
  | .rule body => fun h' => by
    obtain ⟨inner, body', -⟩ := matches_rule_iff.mp h'
    exact body.not_matches body'
  | .first first => fun h' => by
    obtain ⟨_, _, _, first', -, -⟩ := matches_seq_iff.mp h'
    exact first.not_matches first'
  | .second first second => fun h' => by
    obtain ⟨s₁, trees₁, trees₂, first', second', -⟩ := matches_seq_iff.mp h'
    rw [← (first.decided.unique first').1] at second'
    exact second.not_matches second'
  | .both first second => fun h' => by
    rcases matches_choice_iff.mp h' with first' | ⟨-, second'⟩
    · exact first.not_matches first'
    · exact second.not_matches second'
  | .ahead body => fun h' => by
    obtain ⟨⟨_, _, body'⟩, -⟩ := matches_ahead_iff.mp h'
    exact body.not_matches body'
  | .notAhead body => fun h' => body.decided.not_fails (matches_notAhead_iff.mp h').1

end

/-- **A match is unique**: what is left and which nodes are made is determined by the expression,
the spacing and the text. Most of what is said about two matches below is said by giving one and
concluding that it is the other. -/
theorem Matches.unique {spacing : Spacing} {p : Peg} {s s' s'' : List Char}
    {trees trees' : List Tree} (h : p.Matches spacing s s' trees)
    (h' : p.Matches spacing s s'' trees') : s' = s'' ∧ trees = trees' :=
  h.decided.unique h'

/-- What matches does not fail; the other direction needs the matcher (`Peg.fails_iff`). -/
theorem Matches.not_fails {spacing : Spacing} {p : Peg} {s s' : List Char} {trees : List Tree}
    (h : p.Matches spacing s s' trees) : ¬p.Fails spacing s :=
  h.decided.not_fails

/-! ## What is left

What is left of a text is a suffix of it, and what is skipped is skipped once.
-/

end Peg

/-- What is behind a comment is the rest of the text. -/
theorem behindComment_suffix {s s' : List Char} (h : behindComment s = some s') : s' <:+ s := by
  have hblock : ∀ {s s' : List Char}, behindBlock s = some s' → s' <:+ s := by
    intro s s' h
    induction s with
    | nil => cases h
    | cons c s ih =>
      rw [behindBlock] at h
      split at h
      · obtain rfl := Option.some.inj h
        exact (List.drop_suffix 1 s).trans (List.suffix_cons c s)
      · exact (ih h).trans (List.suffix_cons c s)
  rw [behindComment.eq_def] at h
  split at h
  · obtain rfl := Option.some.inj h
    exact (List.dropWhile_suffix _).trans ((List.suffix_cons _ _).trans (List.suffix_cons _ _))
  · exact (hblock h).trans ((List.suffix_cons _ _).trans (List.suffix_cons _ _))
  · cases h

/-- A comment is skipped together with the white space before it. The definition of `dropTrivia` by
recursion on the length does not unfold by itself; this and the next lemma are its two equations. -/
theorem dropTrivia_of_comment {s s' : List Char}
    (h : behindComment (s.dropWhile isBlank) = some s') : dropTrivia s = dropTrivia s' := by
  rw [dropTrivia]
  split
  · next h' => cases h.symm.trans h'
  · next h' =>
    obtain rfl := Option.some.inj (h.symm.trans h')
    rfl

/-- Without a comment, white space is all that is skipped. -/
theorem dropTrivia_of_no_comment {s : List Char}
    (h : behindComment (s.dropWhile isBlank) = none) : dropTrivia s = s.dropWhile isBlank := by
  rw [dropTrivia]
  split
  · rfl
  · next h' => cases h.symm.trans h'

/-- What is left behind trivia is the rest of the text. -/
theorem dropTrivia_suffix (s : List Char) : dropTrivia s <:+ s := by
  fun_induction dropTrivia s with
  | case1 s _ => exact List.dropWhile_suffix _
  | case2 s s' h ih => exact (ih.trans (behindComment_suffix h)).trans (List.dropWhile_suffix _)

theorem dropTrivia_nil : dropTrivia [] = [] := List.suffix_nil.mp (dropTrivia_suffix [])

/-- Nothing is left to be skipped behind what was skipped. -/
theorem dropTrivia_dropTrivia (s : List Char) : dropTrivia (dropTrivia s) = dropTrivia s := by
  fun_induction dropTrivia s with
  | case1 s h =>
    have hdrop : (s.dropWhile isBlank).dropWhile isBlank = s.dropWhile isBlank :=
      List.dropWhile_idempotent isBlank s
    rw [dropTrivia_of_no_comment (by rw [hdrop]; exact h), hdrop]
  | case2 s s' h ih => exact ih

theorem Spacing.skip_suffix (spacing : Spacing) (s : List Char) : spacing.skip s <:+ s := by
  cases spacing with
  | skipped => exact dropTrivia_suffix s
  | compound | token => exact List.suffix_rfl

namespace Peg

mutual

/-- What a match leaves is an end of the text. -/
theorem Matches.suffix {spacing : Spacing} {p : Peg} {s s' : List Char} {trees : List Tree} :
    p.Matches spacing s s' trees → s' <:+ s
  | .word h => ⟨_, h.symm⟩
  | .one h _ => ⟨[_], h.symm⟩
  | .start | .finish | .never _ | .absent _ | .ahead _ | .notAhead _ => List.suffix_rfl
  | .rule body => body.suffix
  | .seq first second =>
    (second.suffix.trans (Spacing.skip_suffix _ _)).trans first.suffix
  | .left first => first.suffix
  | .right _ second => second.suffix
  | .times first more => more.suffix.trans first.suffix
  | .present body => body.suffix

/-- What a repetition leaves is an end of the text. -/
theorem Iterates.suffix {spacing : Spacing} {p : Peg} {s s' : List Char} {trees : List Tree} :
    p.Iterates spacing s s' trees → s' <:+ s
  | .stop _ => List.suffix_rfl
  | .step body more => (more.suffix.trans body.suffix).trans (Spacing.skip_suffix _ _)

end

end Peg

/-! ## Matching trivia -/

namespace Peg

/-- Inside a token, the expression matches one character of those that `f` tells. -/
structure TakesOne (p : Peg) (f : Char → Bool) : Prop where
  takes : ∀ {c s}, f c → p.Matches .token (c :: s) s []
  fails : ∀ {s : List Char}, (∀ c ∈ s.head?, f c = false) → p.Fails .token s

theorem TakesOne.iterates {p : Peg} {f : Char → Bool} (h : p.TakesOne f) (s : List Char) :
    p.Iterates .token s (s.dropWhile f) [] := by
  induction s with
  | nil => exact .stop (h.fails nofun)
  | cons c s ih =>
    by_cases hc : f c
    · rw [List.dropWhile_cons_of_pos hc]
      exact .step (h.takes hc) ih
    · rw [List.dropWhile_cons_of_neg hc]
      refine .stop (h.fails ?_)
      rintro _ ⟨⟩
      exact Bool.eq_false_iff.mpr hc

/-- Repeated, it matches all of them. -/
theorem TakesOne.many {p : Peg} {f : Char → Bool} (h : p.TakesOne f) (s : List Char) :
    (many p).Matches .token s (s.dropWhile f) [] := by
  cases s with
  | nil => exact .never (h.fails nofun)
  | cons c s =>
    by_cases hc : f c
    · rw [List.dropWhile_cons_of_pos hc]
      exact .times (h.takes hc) (h.iterates s)
    · rw [List.dropWhile_cons_of_neg hc]
      refine .never (h.fails ?_)
      rintro _ ⟨⟩
      exact Bool.eq_false_iff.mpr hc

theorem takesOne_one (chars : CharClass) : (one chars).TakesOne chars.contains where
  takes := fun hc => .one rfl hc
  fails := fun h => .one fun x s' hs => by
    subst hs
    simpa using h x rfl

theorem takesOne_word (x : Char) : (word [x]).TakesOne (· = x) where
  takes := fun hc => .word (by rw [of_decide_eq_true hc]; rfl)
  fails := fun h => .word fun s' hs => by
    subst hs
    simpa using h x rfl

theorem TakesOne.choice {p q : Peg} {f g : Char → Bool} (hp : p.TakesOne f) (hq : q.TakesOne g) :
    (choice p q).TakesOne fun c => f c || g c where
  takes := fun {c s} hc => by
    by_cases hf : f c
    · exact .left (hp.takes hf)
    · rw [Bool.eq_false_iff.mpr hf, Bool.false_or] at hc
      refine .right (hp.fails ?_) (hq.takes hc)
      rintro _ ⟨⟩
      exact Bool.eq_false_iff.mpr hf
  fails := fun h => .both (hp.fails fun c hc => (Bool.or_eq_false_iff.mp (h c hc)).1)
    (hq.fails fun c hc => (Bool.or_eq_false_iff.mp (h c hc)).2)

/-- A rule that makes no node of a character it matches. -/
theorem TakesOne.rule {r : Rule} {f : Char → Bool} (h : r.body.TakesOne f)
    (hinside : r.inside .token = .token) (hvisible : r.visible .token = false) :
    (rule r).TakesOne f where
  takes := fun {c s} hc => by
    have hbody : r.body.Matches (r.inside .token) (c :: s) s [] := by
      rw [hinside]
      exact h.takes hc
    have hmade : r.made .token (c :: s) s [] = [] := by simp [Rule.made, hvisible]
    exact hmade ▸ .rule hbody
  fails := fun hc => .rule (by rw [hinside]; exact h.fails hc)

theorem takesOne_whitespace : (rule .whitespace).TakesOne isBlank := by
  have h : Rule.whitespace.body.TakesOne isBlank :=
    (takesOne_word ' ').choice ((takesOne_word '\t').choice ((takesOne_word '\r').choice
      ((takesOne_word '\n').choice (takesOne_word '\ufeff'))))
  exact h.rule rfl rfl

/-- A line comment goes on while there is no line feed. -/
theorem takesOne_commentChar : (notAhead (lit "\n") ++ one .any).TakesOne (· ≠ '\n') where
  takes := fun {c s} hc => by
    have hfails : (lit "\n").Fails .token (c :: s) := by
      refine (takesOne_word '\n').fails ?_
      rintro _ ⟨⟩
      exact decide_eq_false (of_decide_eq_true hc)
    exact .seq (.notAhead hfails) (.one rfl rfl)
  fails := fun {s} hs => by
    cases s with
    | nil => exact .second (.notAhead ((takesOne_word '\n').fails nofun)) (.one nofun)
    | cons c s =>
      obtain rfl : c = '\n' := by simpa using hs c rfl
      exact .first (.notAhead ((takesOne_word '\n').takes (decide_eq_true rfl)))

end Peg

/-- The end of a block comment and what is behind it; nothing if it does not end. -/
def atBlockEnd : List Char → List Char
  | [] => []
  | c :: s => if ['*', '/'].isPrefixOf (c :: s) then c :: s else atBlockEnd s

theorem behindBlock_eq (s : List Char) :
    behindBlock s = none ∧ atBlockEnd s = [] ∨
      ∃ s', behindBlock s = some s' ∧ atBlockEnd s = '*' :: '/' :: s' := by
  induction s with
  | nil => exact .inl ⟨rfl, rfl⟩
  | cons c s ih =>
    rw [behindBlock, atBlockEnd]
    split
    · next h =>
      obtain ⟨s', hs⟩ := List.isPrefixOf_iff_prefix.mp h
      obtain ⟨rfl, rfl⟩ := List.cons.inj hs
      exact .inr ⟨s', rfl, rfl⟩
    · exact ih

namespace Peg

/-- A block comment goes on up to its end. -/
theorem blockChars_matches (s : List Char) :
    (many (notAhead (lit "*/") ++ one .any)).Matches .token s (atBlockEnd s) [] ∧
      (notAhead (lit "*/") ++ one .any).Iterates .token s (atBlockEnd s) [] := by
  induction s with
  | nil =>
    have hfails : (notAhead (lit "*/") ++ one .any).Fails .token [] :=
      .second (.notAhead (.word nofun)) (.one nofun)
    exact ⟨.never hfails, .stop hfails⟩
  | cons c s ih =>
    rw [atBlockEnd]
    split
    · next h =>
      obtain ⟨s', hs⟩ := List.isPrefixOf_iff_prefix.mp h
      have hfails : (notAhead (lit "*/") ++ one .any).Fails .token (c :: s) :=
        .first (.notAhead (.word hs.symm))
      exact ⟨.never hfails, .stop hfails⟩
    · next h =>
      have hnot : (lit "*/").Fails .token (c :: s) := by
        refine .word fun s' hs => h ?_
        exact List.isPrefixOf_iff_prefix.mpr ⟨s', hs.symm⟩
      have htakes : (notAhead (lit "*/") ++ one .any).Matches .token (c :: s) s [] :=
        .seq (.notAhead hnot) (.one rfl rfl)
      exact ⟨.times htakes ih.2, .step htakes ih.2⟩

/-- A comment is matched if there is one. -/
theorem comment_matches {s s' : List Char} (h : behindComment s = some s') :
    (rule .comment).Matches .token s s' [] := by
  refine .rule (r := .comment) ?_
  rw [behindComment.eq_def] at h
  split at h
  · next s =>
    obtain rfl := Option.some.inj h
    exact .left (.seq (.word rfl) (takesOne_commentChar.many s))
  · next s =>
    refine .right (.first (.word fun s' hs => by cases hs)) ?_
    rcases behindBlock_eq s with ⟨hnone, -⟩ | ⟨s'', hsome, hend⟩
    · cases hnone.symm.trans h
    · obtain rfl := Option.some.inj (hsome.symm.trans h)
      exact .seq (.seq (.word rfl) (blockChars_matches s).1) (.word hend)
  · cases h

theorem comment_fails {s : List Char} (h : behindComment s = none) :
    (rule .comment).Fails .token s := by
  refine .rule ?_
  by_cases hline : ∃ s', s = '/' :: '/' :: s'
  · obtain ⟨s', rfl⟩ := hline
    cases h
  · refine .both (.first (.word fun s' hs => hline ⟨s', hs⟩)) ?_
    by_cases hblock : ∃ s', s = '/' :: '*' :: s'
    · obtain ⟨s', rfl⟩ := hblock
      rcases behindBlock_eq s' with ⟨-, hend⟩ | ⟨s'', hsome, -⟩
      · refine .second (.seq (.word rfl) (blockChars_matches s').1) (.word ?_)
        change ∀ s'', atBlockEnd s' ≠ _
        rw [hend]
        exact nofun
      · cases hsome.symm.trans h
    · exact .first (.first (.word fun s' hs => hblock ⟨s', hs⟩))

theorem comments_iterate (s : List Char) :
    (rule .comment ++ many (rule .whitespace)).Iterates .token (s.dropWhile isBlank)
      (dropTrivia s) [] := by
  fun_induction dropTrivia s with
  | case1 s h => exact .stop (.first (comment_fails h))
  | case2 s s' h ih =>
    exact .step (.seq (comment_matches h) (takesOne_whitespace.many s')) ih

/-- **What trivia matches is what is skipped.** The expression `trivia` of the grammar takes white
space and comments for as long as there are any, and `dropTrivia` leaves the text behind them. -/
theorem trivia_matches (s : List Char) : trivia.Matches .token s (dropTrivia s) [] := by
  refine .seq (takesOne_whitespace.many s) ?_
  cases h : behindComment (s.dropWhile isBlank) with
  | none =>
    rw [dropTrivia_of_no_comment h]
    exact .never (.first (comment_fails h))
  | some s' =>
    rw [dropTrivia_of_comment h]
    exact .times (.seq (comment_matches h) (takesOne_whitespace.many s')) (comments_iterate s')

end Peg

/-! ## Nodes -/

/-- The node was made by a match of its rule. -/
def Tree.Found (t : Tree) : Prop :=
  ∃ spacing s s', t.rule.visible spacing ∧
    t.rule.body.Matches (t.rule.inside spacing) s s' t.children ∧
    (t.rule.kind = .token → t.text = textBetween s s')

mutual

/-- **The nodes of a match were made by matches of their rules**, all the way down. -/
theorem Peg.Matches.found {spacing : Spacing} {p : Peg} {s s' : List Char} {trees : List Tree} :
    p.Matches spacing s s' trees → ∀ t ∈ trees, t.Everywhere Tree.Found
  | .word _ | .one _ _ | .start | .finish | .never _ | .absent _ | .ahead _ | .notAhead _ => nofun
  | .rule body => by
    rw [Rule.made]
    split
    · next hvisible =>
      intro t ht
      obtain rfl := List.mem_singleton.mp ht
      exact .mk ⟨_, _, _, hvisible, body, fun h => if_pos h⟩ body.found
    · exact body.found
  | .seq first second => fun t ht =>
    (List.mem_append.mp ht).elim (first.found t) (second.found t)
  | .left first => first.found
  | .right _ second => second.found
  | .times first more => fun t ht =>
    (List.mem_append.mp ht).elim (first.found t) (more.found t)
  | .present body => body.found

/-- The nodes of a repetition were made by matches of their rules. -/
theorem Peg.Iterates.found {spacing : Spacing} {p : Peg} {s s' : List Char}
    {trees : List Tree} : p.Iterates spacing s s' trees → ∀ t ∈ trees, t.Everywhere Tree.Found
  | .stop _ => nofun
  | .step body more => fun t ht =>
    (List.mem_append.mp ht).elim (body.found t) (more.found t)

end

end Scriptlet
