import Scriptlet.Grammar.SyntaxError

/-!
# Readings

What a match says about the text it consumed. `Peg.Reads` relates an expression to the texts and
nodes it may stand for, with the choices, repetitions and gaps of the match but without its
lookaheads and its greed: whatever the matcher finds is a reading (`Peg.run_finds`), though not
every reading is found. Every node found in this way is `Tree.Derived`: it is a reading of its own
rule, all the way down.

A reading is about the text that was consumed and about nothing behind it. This is what makes
readings compose: a part of a reading is a reading, and can be taken out of its context. So every
property of all parses that does not depend on what was looked ahead for is proved of readings, by
induction on them: which children a node has, that they stand in order inside its text, which
characters a token is written with. Where the choice between two readings matters, the matches of
`Peg.Matches` are used instead.

* `Peg.Reads`, `Peg.Repeats`: the relation, which counts the offsets along.
* `Peg.run_finds`, `Rule.parse_reads`: the matcher finds readings only.
* `Tree.Everywhere`, `Tree.Derived`: what holds at every node of a tree; every node of a parse is
  derived (`Rule.parse_derived`).
* `Tree.StandsIn`: nodes have the text that stands at their offset.
-/

namespace Scriptlet

/-! ## Letters and runs

Two facts about texts that are needed all over: where a run of characters of one kind ends, and
which codes the letters have.
-/

/-- Letters stand behind the digits of ASCII and before its last visible characters. -/
theorem toNat_of_isAlpha {c : Char} (h : c.isAlpha) : 65 ≤ c.toNat ∧ c.toNat ≤ 122 := by
  delta Char.isAlpha Char.isUpper Char.isLower at h
  simp only [Bool.or_eq_true, Bool.and_eq_true, decide_eq_true_eq] at h
  change 65 ≤ c.toNat ∧ c.toNat ≤ 90 ∨ 97 ≤ c.toNat ∧ c.toNat ≤ 122 at h
  omega

/-- A run ends where something else begins, so a text put together from a run and something else is
taken apart into the same two. -/
theorem takeWhile_dropWhile_append {α : Type} {p : α → Bool} {l r : List α} (hl : ∀ a ∈ l, p a)
    (hr : ∀ a ∈ r.head?, p a = false) :
    (l ++ r).takeWhile p = l ∧ (l ++ r).dropWhile p = r := by
  rw [List.takeWhile_append_of_pos hl, List.dropWhile_append_of_pos hl]
  cases r with
  | nil => simp
  | cons a r => simp [hr a rfl]

/-! ## Texts between places

The matcher counts bytes. A place is known by what is left of the text and by how many bytes stand
in front of it; what is between two places is taken by counting bytes again, and is shown here to be
the text by which they differ.
-/

@[simp] theorem utf8Length_nil : utf8Length [] = 0 := rfl

@[simp] theorem utf8Length_cons (x : Char) (text : List Char) :
    utf8Length (x :: text) = x.utf8Size + utf8Length text := rfl

/-- Bytes add up: the offset of a place does not depend on how the text in front of it was cut
up. -/
@[simp] theorem utf8Length_append (text text' : List Char) :
    utf8Length (text ++ text') = utf8Length text + utf8Length text' := by
  induction text with
  | nil => simp
  | cons x text ih =>
    rw [List.cons_append, utf8Length_cons, utf8Length_cons, ih, Nat.add_assoc]

namespace Cursor

/-- Taking as many bytes as a text has takes that text. -/
theorem takeBytes_append (text rest : List Char) :
    takeBytes (utf8Length text) (text ++ rest) = text := by
  induction text with
  | nil => cases rest <;> rfl
  | cons x text ih =>
    have hx : 0 < x.utf8Size := x.utf8Size_pos
    rw [utf8Length_cons, List.cons_append, takeBytes, Nat.add_sub_cancel_left, ih]
    omega

/-- A text leads from a place to a later one: it is what is left at the first place, up to the
second, and has as many bytes as the offsets differ by. -/
structure Spans (c : Cursor) (text : List Char) (c' : Cursor) : Prop where
  rest : c.rest = text ++ c'.rest
  pos : c'.pos = c.pos + utf8Length text

/-- The empty text leads nowhere. -/
theorem Spans.refl (c : Cursor) : c.Spans [] c := ⟨rfl, rfl⟩

/-- Texts that follow each other lead from the first place to the last. -/
theorem Spans.trans {c c' c'' : Cursor} {text text' : List Char} (h : c.Spans text c')
    (h' : c'.Spans text' c'') : c.Spans (text ++ text') c'' := by
  refine ⟨?_, ?_⟩
  · rw [h.rest, h'.rest, List.append_assoc]
  · rw [h'.pos, h.pos, utf8Length_append, Nat.add_assoc]

theorem Spans.next {c : Cursor} {x : Char} {rest : List Char} (h : c.rest = x :: rest) :
    c.Spans [x] (c.next x rest) :=
  ⟨h, rfl⟩

/-- The text that leads from a place to another is the one that the matcher takes for the text of a
node between them. -/
theorem Spans.textTo {c c' : Cursor} {text : List Char} (h : c.Spans text c') :
    c.textTo c' = text := by
  have hlen : c'.pos - c.pos = utf8Length text := by rw [h.pos, Nat.add_sub_cancel_left]
  rw [Cursor.textTo, hlen, h.rest, takeBytes_append]

end Cursor

/-! ## The relation

The nodes of a part are listed in front of those of the next one, and offsets are counted from the
offset of the whole. Where the matcher looks ahead, a reading takes nothing and asks nothing.
-/

/-- What stands between the parts of a match: trivia in a rule that skips them, nothing in a token
or a rule that has its parts side by side. -/
def Spacing.between : Spacing → Peg
  | .skipped => trivia
  | .compound | .token => .word []

namespace Rule

/-- The spacing inside a rule, which is its own if it has one and that of its surroundings
otherwise. -/
def inside (r : Rule) (spacing : Spacing) : Spacing :=
  match r.kind with
  | .plain | .silent => spacing
  | .token | .trivia => .token
  | .compound => .compound

/-- Whether a rule makes a node. Inside a token no rule does, except for those rules whose parts
stand side by side. -/
def visible (r : Rule) (spacing : Spacing) : Bool :=
  match r.kind with
  | .plain | .token => spacing ≠ .token
  | .compound => true
  | .silent | .trivia => false

/-- What a rule makes of the nodes found inside it: one node around them, or, if no node is made of
the rule, those nodes as they are. -/
def nodes (r : Rule) (spacing : Spacing) (pos : Nat) (text : List Char) (trees : List Tree) :
    List Tree :=
  if r.visible spacing then [⟨r, pos, text, trees⟩] else trees

end Rule

mutual

/-- `p.Reads spacing pos text trees`: with this spacing and at this offset, `p` may stand for `text`
and make `trees`. The offset matters for the nodes, and for a script, which asks to be at the
start. -/
inductive Peg.Reads : Spacing → Peg → Nat → List Char → List Tree → Prop
  | word {spacing pos} (chars : List Char) : Reads spacing (.word chars) pos chars []
  | one {spacing pos x} {chars : CharClass} (hx : chars.contains x) :
    Reads spacing (.one chars) pos [x] []
  | start {spacing} : Reads spacing .start 0 [] []
  | finish {spacing pos} : Reads spacing .finish pos [] []
  | rule {spacing pos text trees} {r : Rule}
    (body : Reads (r.inside spacing) r.body pos text trees) :
    Reads spacing (.rule r) pos text (r.nodes spacing pos text trees)
  | seq {spacing p q pos text gap text' trees none trees'} (first : Reads spacing p pos text trees)
    (between : Reads .token spacing.between (pos + utf8Length text) gap none)
    (second : Reads spacing q (pos + utf8Length text + utf8Length gap) text' trees') :
    Reads spacing (.seq p q) pos (text ++ gap ++ text') (trees ++ trees')
  | left {spacing p q pos text trees} (first : Reads spacing p pos text trees) :
    Reads spacing (.choice p q) pos text trees
  | right {spacing p q pos text trees} (second : Reads spacing q pos text trees) :
    Reads spacing (.choice p q) pos text trees
  | never {spacing p pos} : Reads spacing (.many p) pos [] []
  | times {spacing p pos text trees} (run : Repeats spacing p pos text trees) :
    Reads spacing (.many p) pos text trees
  | absent {spacing p pos} : Reads spacing (.optional p) pos [] []
  | present {spacing p pos text trees} (body : Reads spacing p pos text trees) :
    Reads spacing (.optional p) pos text trees
  | ahead {spacing p pos} : Reads spacing (.ahead p) pos [] []
  | notAhead {spacing p pos} : Reads spacing (.notAhead p) pos [] []

/-- One or more readings of `p`, one after the other, with the gap between them. The list grows at
its end, as it does for the matcher. -/
inductive Peg.Repeats : Spacing → Peg → Nat → List Char → List Tree → Prop
  | once {spacing p pos text trees} (body : Reads spacing p pos text trees) :
    Repeats spacing p pos text trees
  | again {spacing p pos text gap text' trees none trees'}
    (run : Repeats spacing p pos text trees)
    (between : Reads .token spacing.between (pos + utf8Length text) gap none)
    (body : Reads spacing p (pos + utf8Length text + utf8Length gap) text' trees') :
    Repeats spacing p pos (text ++ gap ++ text') (trees ++ trees')

end

namespace Peg

variable {spacing : Spacing} {p q : Peg} {pos : Nat} {text : List Char} {trees : List Tree}

/-- Fixed characters stand for themselves. -/
theorem reads_word_iff {chars : List Char} :
    (word chars).Reads spacing pos text trees ↔ text = chars ∧ trees = [] := by
  refine ⟨?_, ?_⟩
  · intro h
    cases h
    exact ⟨rfl, rfl⟩
  · rintro ⟨rfl, rfl⟩
    exact .word text

/-- A rule reads what its body reads, and makes its node of it. -/
theorem reads_rule_iff {r : Rule} :
    (rule r).Reads spacing pos text trees ↔
      ∃ inner, r.body.Reads (r.inside spacing) pos text inner ∧
        trees = r.nodes spacing pos text inner := by
  refine ⟨?_, ?_⟩
  · intro h
    cases h with
    | rule body => exact ⟨_, body, rfl⟩
  · rintro ⟨inner, body, rfl⟩
    exact .rule body

/-- The texts of a token, if it is written with words alone: operators and keywords are, names and
numbers are not. -/
def words? : Peg → Option (List (List Char))
  | .word chars => some [chars]
  | .notAhead _ => some [[]]
  | .choice p q => do
    let left ← p.words?
    let right ← q.words?
    return left ++ right
  | .seq p q => do
    let left ← p.words?
    let right ← q.words?
    return left.flatMap fun text => right.map (text ++ ·)
  | _ => none

/-- A token written with words alone reads one of its texts. The list is computed from the
production, so that an operator's text need not be followed through it by hand. -/
theorem Reads.mem_words {words : List (List Char)} (h : p.Reads .token pos text trees)
    (hp : p.words? = some words) : text ∈ words := by
  induction p generalizing pos text trees words with
  | word chars =>
    obtain rfl := Option.some.inj hp
    exact List.mem_singleton.mpr (reads_word_iff.mp h).1
  | notAhead p =>
    obtain rfl := Option.some.inj hp
    cases h
    exact List.mem_singleton_self _
  | choice p q ihp ihq =>
    obtain ⟨left, hleft, hp⟩ := Option.bind_eq_some_iff.mp hp
    obtain ⟨right, hright, hp⟩ := Option.bind_eq_some_iff.mp hp
    obtain rfl := Option.some.inj hp
    cases h with
    | left first => exact List.mem_append_left _ (ihp first hleft)
    | right second => exact List.mem_append_right _ (ihq second hright)
  | seq p q ihp ihq =>
    obtain ⟨left, hleft, hp⟩ := Option.bind_eq_some_iff.mp hp
    obtain ⟨right, hright, hp⟩ := Option.bind_eq_some_iff.mp hp
    obtain rfl := Option.some.inj hp
    cases h with
    | seq first between second =>
      obtain ⟨rfl, -⟩ := reads_word_iff.mp between
      rw [List.append_nil]
      exact List.mem_flatMap.mpr ⟨_, ihp first hleft, List.mem_map.mpr ⟨_, ihq second hright, rfl⟩⟩
  | one _ | start | finish | rule _ | many _ _ | optional _ _ | ahead _ _ => cases hp

end Peg

/-! ## Matches are readings

The matcher is followed combinator by combinator: `Outcome.Finds` says of an outcome that it is a
reading if it is a match, and has a lemma for each way to put outcomes together. It says nothing of
failures, for which a lookahead may be the reason.
-/

namespace Outcome

/-- If the outcome is a match from `c`, the text consumed and the nodes made have the property. The
text is given as the one that leads from `c` to the end of the match. -/
def Finds (c : Cursor) (Q : List Char → List Tree → Prop) (o : Outcome × Attempts) : Prop :=
  ∀ c' trees seen, o = (.matched c' trees, seen) → ∃ text, c.Spans text c' ∧ Q text trees

variable {c c' : Cursor} {Q R : List Char → List Tree → Prop} {text : List Char}
  {trees : List Tree} {seen : Attempts} {o : Outcome × Attempts}

/-- A match has found what leads to its end. -/
theorem finds_matched (h : c.Spans text c') (hQ : Q text trees) :
    Finds c Q (.matched c' trees, seen) := by
  rintro _ _ _ ⟨⟩
  exact ⟨text, h, hQ⟩

theorem finds_failed : Finds c Q (.failed, seen) := nofun

theorem finds_exhausted : Finds c Q (.exhausted, seen) := nofun

/-- A property of what was found can be weakened. -/
theorem Finds.mono (ho : Finds c Q o) (h : ∀ {text trees}, Q text trees → R text trees) :
    Finds c R o := by
  intro c' trees seen hc'
  obtain ⟨text, hspan, hQ⟩ := ho c' trees seen hc'
  exact ⟨text, hspan, h hQ⟩

/-- What is found behind something found is found with it: the texts are put together. -/
theorem finds_andThen {second : Cursor → List Tree → Attempts → Outcome × Attempts}
    (ho : Finds c Q o)
    (hsecond : ∀ {c' text trees} seen, c.Spans text c' → Q text trees →
      Finds c' (fun text' trees' => R (text ++ text') trees') (second c' trees seen)) :
    Finds c R (andThen o second) := by
  obtain ⟨_ | _ | _, seen⟩ := o
  · obtain ⟨text, hspan, hQ⟩ := ho _ _ _ rfl
    intro c'' trees'' seen'' h
    obtain ⟨text', hspan', hR⟩ := hsecond seen hspan hQ _ _ _ h
    exact ⟨text ++ text', hspan.trans hspan', hR⟩
  · exact finds_failed
  · exact finds_exhausted

/-- Going on is associative. The matcher skips and then matches; that is one step of going on or
two. -/
theorem andThen_assoc (second third : Cursor → List Tree → Attempts → Outcome × Attempts) :
    andThen (andThen o second) third =
      andThen o fun c trees seen => andThen (second c trees seen) third := by
  obtain ⟨_ | _ | _, seen⟩ := o <;> rfl

/-- What is found instead of something not found is found as well. -/
theorem finds_orElse {second : Attempts → Outcome × Attempts} (ho : Finds c Q o)
    (hsecond : ∀ seen, Finds c Q (second seen)) : Finds c Q (orElse o second) := by
  obtain ⟨_ | _ | _, seen⟩ := o
  · exact ho
  · exact hsecond seen
  · exact finds_exhausted

/-- A property that each further match keeps holds of all matches together. The induction is on the
count of rounds, and what was found before is part of the statement. -/
theorem finds_iterate {step : Cursor → Attempts → Outcome × Attempts}
    (hstep : ∀ {c' text trees} seen, c.Spans text c' → Q text trees →
      Finds c' (fun text' trees' => Q (text ++ text') (trees ++ trees')) (step c' seen))
    (fuel : Nat) (hspan : c.Spans text c') (hQ : Q text trees) :
    Finds c' (fun text' trees' => Q (text ++ text') trees') (iterate step fuel c' trees seen) := by
  induction fuel generalizing c' text trees seen with
  | zero => exact finds_exhausted
  | succ fuel ih =>
    rw [iterate]
    split
    · next c₁ more seen₁ h =>
      obtain ⟨text₁, hspan₁, hQ₁⟩ := hstep seen hspan hQ _ _ _ h
      intro c₂ trees₂ seen₂ h₂
      obtain ⟨text₂, hspan₂, hQ₂⟩ := ih (hspan.trans hspan₁) hQ₁ _ _ _ h₂
      rw [List.append_assoc] at hQ₂
      exact ⟨text₁ ++ text₂, hspan₁.trans hspan₂, hQ₂⟩
    · refine finds_matched (.refl c') ?_
      rwa [List.append_nil]
    · exact finds_exhausted

/-- Wrapping a match in a rule that makes a node puts the node around it, with the text between its
beginning and its end. -/
theorem finds_matchRule {r : Rule} {ctx : Context} {before : Attempts}
    (hctx : ctx.lookahead = .none) (ho : Finds c Q o)
    (hR : ∀ {text trees}, Q text trees →
      R text (if ctx.spacing = .token then trees else [⟨r, c.pos, text, trees⟩])) :
    Finds c R (matchRule r ctx c before o) := by
  obtain ⟨_ | _ | _, seen⟩ := o
  · obtain ⟨text, hspan, hQ⟩ := ho _ _ _ rfl
    have h := hR hQ
    rw [matchRule, hspan.textTo]
    refine finds_matched hspan ?_
    by_cases hs : ctx.spacing = .token
    · simpa [Context.makesNode, hs] using h
    · simpa [Context.makesNode, hs, hctx] using h
  · exact finds_failed
  · exact finds_exhausted

end Outcome

open Outcome

/-- Fixed characters that are found are those asked for. -/
theorem matchWord_finds (chars : List Char) (c : Cursor) (seen : Attempts) :
    Finds c (fun text trees => text = chars ∧ trees = []) (matchWord chars c, seen) := by
  induction chars generalizing c with
  | nil => exact finds_matched (.refl c) ⟨rfl, rfl⟩
  | cons x chars ih =>
    rw [matchWord]
    split
    · next y rest hrest =>
      split
      · next hxy =>
        subst hxy
        intro c' trees seen' h
        obtain ⟨text, hspan, rfl, rfl⟩ := ih (c.next x rest) c' trees seen' h
        exact ⟨x :: text, (Cursor.Spans.next hrest).trans hspan, rfl, rfl⟩
      · exact finds_failed
    · exact finds_failed

/-- A character that is found is one of its class. -/
theorem matchOne_finds (chars : CharClass) (c : Cursor) (seen : Attempts) :
    Finds c (fun text trees => (∃ x, chars.contains x ∧ text = [x]) ∧ trees = [])
      (matchOne chars c, seen) := by
  rw [matchOne]
  split
  · next x rest hrest =>
    split
    · next hx => exact finds_matched (.next hrest) ⟨⟨x, hx, rfl⟩, rfl⟩
    · exact finds_failed
  · exact finds_failed

namespace Peg

/-- What the matcher skips between two parts is what may stand there. -/
theorem skipTrivia_finds {run : Context → Cursor → Attempts → Outcome × Attempts} {ctx : Context}
    {c : Cursor} {seen : Attempts}
    (hrun : Finds c (trivia.Reads .token c.pos) (run { ctx with spacing := .token } c seen)) :
    Finds c (ctx.spacing.between.Reads .token c.pos) (skipTrivia run ctx c seen) := by
  rw [skipTrivia]
  split
  · next h =>
    rw [h]
    exact hrun
  · next h =>
    have hbetween : ctx.spacing.between = .word [] := by
      cases hs : ctx.spacing with
      | skipped => exact absurd hs h
      | compound | token => rfl
    rw [hbetween]
    exact finds_matched (.refl c) (.word [])

/-- With this fuel, what the matcher finds outside of lookaheads is a reading, whatever it recorded
before. This is what the induction on the fuel carries. -/
def SoundWithin (fuel : Nat) : Prop :=
  ∀ (ctx : Context) (p : Peg) (c : Cursor) (seen : Attempts), ctx.lookahead = .none →
    Finds c (p.Reads ctx.spacing c.pos) (p.run fuel ctx c seen)

section

variable {fuel : Nat} {ctx : Context} {c : Cursor} (ih : SoundWithin fuel)
  (hctx : ctx.lookahead = .none)
include ih hctx

/-- A part that follows a gap. The places are counted from the start of the whole. -/
theorem run_finds_gap (q : Peg) {c₁ : Cursor} {text : List Char} (seen : Attempts)
    (hspan : c.Spans text c₁) :
    Finds c₁ (fun text' trees => ∃ gap none text'', text' = gap ++ text'' ∧
        Reads .token ctx.spacing.between (c.pos + utf8Length text) gap none ∧
        q.Reads ctx.spacing (c.pos + utf8Length text + utf8Length gap) text'' trees)
      (andThen (skipTrivia (run fuel · trivia) ctx c₁ seen) fun c _ seen =>
        q.run fuel ctx c seen) := by
  refine finds_andThen (skipTrivia_finds (ih _ _ _ _ hctx)) ?_
  intro c₂ gap none seen hspan' hnone c₃ trees seen' h
  obtain ⟨text', hspan'', hq⟩ := ih ctx q c₂ seen hctx _ _ _ h
  rw [hspan'.pos, hspan.pos] at hq
  rw [hspan.pos] at hnone
  exact ⟨text', hspan'', gap, none, text', rfl, hnone, hq⟩

/-- A rule finds what its body finds, with the node of the rule around it. -/
theorem run_finds_rule (r : Rule) (seen : Attempts) :
    Finds c ((rule r).Reads ctx.spacing c.pos) (run (fuel + 1) ctx (.rule r) c seen) := by
  have hrule : ∀ {text trees}, r.body.Reads (r.inside ctx.spacing) c.pos text trees →
      (rule r).Reads ctx.spacing c.pos text (r.nodes ctx.spacing c.pos text trees) := .rule
  rw [run]
  cases hk : r.kind <;> simp only [Rule.nodes, Rule.visible, Rule.inside, hk] at hrule ⊢
  case silent => exact (ih ctx r.body c seen hctx).mono hrule
  case trivia => exact (ih { ctx with spacing := .token } r.body c seen hctx).mono hrule
  case plain =>
    refine finds_matchRule hctx (ih ctx r.body c seen hctx) fun hr => ?_
    simpa using hrule hr
  case token =>
    refine finds_matchRule hctx (ih { ctx with spacing := .token } r.body c seen hctx)
      fun hr => ?_
    simpa using hrule hr
  case compound =>
    refine finds_matchRule hctx (ih { ctx with spacing := .compound } r.body c seen hctx)
      fun hr => ?_
    simpa using hrule hr

/-- A sequence finds its first part, a gap and its second part. -/
theorem run_finds_seq (first second : Peg) (seen : Attempts) :
    Finds c ((seq first second).Reads ctx.spacing c.pos)
      (run (fuel + 1) ctx (.seq first second) c seen) := by
  refine finds_andThen (ih ctx first c seen hctx) ?_
  intro c₁ text trees seen hspan hfirst
  rw [← andThen_assoc]
  refine finds_andThen (run_finds_gap ih hctx second seen hspan) ?_
  rintro c₂ _ trees' seen - ⟨gap, none, text', rfl, hgap, hsecond⟩
  refine finds_matched (.refl c₂) ?_
  rw [List.append_nil, ← List.append_assoc]
  exact .seq hfirst hgap hsecond

/-- A repetition finds any number of bodies with gaps between them. -/
theorem run_finds_many (body : Peg) (seen : Attempts) :
    Finds c ((many body).Reads ctx.spacing c.pos) (run (fuel + 1) ctx (.many body) c seen) := by
  refine finds_orElse ?_ fun seen => finds_matched (.refl c) .never
  refine Finds.mono (Q := body.Repeats ctx.spacing c.pos) ?_ .times
  refine finds_andThen (ih ctx body c seen hctx) fun seen hspan hbody => ?_
  refine finds_iterate ?_ fuel hspan (.once hbody)
  intro c₁ text trees seen hspan hrun
  refine (run_finds_gap ih hctx body seen hspan).mono ?_
  rintro _ trees' ⟨gap, none, text', rfl, hgap, hbody'⟩
  rw [← List.append_assoc]
  exact .again hrun hgap hbody'

end

/-- **What the matcher finds outside of lookaheads is a reading.** Inside of a lookahead no nodes
are made and nothing is consumed in the end, so nothing needs to be said there. -/
theorem run_finds (fuel : Nat) (ctx : Context) (p : Peg) (c : Cursor) (seen : Attempts)
    (hctx : ctx.lookahead = .none) :
    Finds c (p.Reads ctx.spacing c.pos) (p.run fuel ctx c seen) := by
  induction fuel generalizing ctx p c seen with
  | zero => exact finds_exhausted
  | succ fuel ih =>
    cases p with
    | word chars =>
      intro c' trees seen' h
      obtain ⟨text, hspan, rfl, rfl⟩ := matchWord_finds chars c seen _ _ _ h
      exact ⟨text, hspan, .word text⟩
    | one chars =>
      intro c' trees seen' h
      obtain ⟨text, hspan, ⟨x, hx, rfl⟩, rfl⟩ := matchOne_finds chars c seen _ _ _ h
      exact ⟨[x], hspan, .one hx⟩
    | start =>
      rw [run]
      split
      · next h =>
        rw [h]
        exact finds_matched (.refl c) .start
      · exact finds_failed
    | finish =>
      rw [run]
      split
      · exact finds_matched (.refl c) .finish
      · exact finds_failed
    | rule r => exact run_finds_rule ih hctx r seen
    | seq first second => exact run_finds_seq ih hctx first second seen
    | choice first second =>
      exact finds_orElse ((ih ctx first c seen hctx).mono .left) fun seen =>
        (ih ctx second c seen hctx).mono .right
    | many body => exact run_finds_many ih hctx body seen
    | optional body =>
      exact finds_orElse ((ih ctx body c seen hctx).mono .present) fun seen =>
        finds_matched (.refl c) .absent
    | ahead body =>
      rw [run]
      -- what is only looked at is not read, so nothing has to be known about it
      rcases run fuel { ctx with lookahead := ctx.lookahead.inAhead } body c seen with
        ⟨_ | _ | _, seen'⟩
      · exact finds_matched (.refl c) .ahead
      · exact finds_failed
      · exact finds_exhausted
    | notAhead body =>
      rw [run]
      split
      · exact finds_failed
      · exact finds_matched (.refl c) .notAhead
      · exact finds_exhausted

end Peg

/-! ## Derived nodes

A tree is built by many matches inside one another, and each of its nodes is a reading of its own
rule. What is known of readings is therefore known at every node, and most properties of trees are
given the form `Tree.Everywhere P`.
-/

/-- The property holds of the node and of all nodes below it. -/
inductive Tree.Everywhere (P : Tree → Prop) : Tree → Prop
  | mk {t : Tree} (here : P t) (below : ∀ t' ∈ t.children, Everywhere P t') : Everywhere P t

namespace Tree.Everywhere

variable {P Q : Tree → Prop} {t : Tree}

/-- The node itself has the property. -/
theorem here (h : t.Everywhere P) : P t := by
  obtain ⟨here, -⟩ := h
  exact here

theorem children (h : t.Everywhere P) : ∀ t' ∈ t.children, t'.Everywhere P := by
  obtain ⟨-, below⟩ := h
  exact below

/-- A property that passes from the nodes below to the node holds everywhere. This is the induction
on trees, with what is known of every node at hand. -/
theorem induct (h : t.Everywhere P)
    (step : ∀ t, P t → (∀ t' ∈ t.children, t'.Everywhere Q) → Q t) : t.Everywhere Q := by
  induction h with
  | mk here _ ih => exact .mk (step _ here ih) ih

end Tree.Everywhere

/-- The node is a reading of its own rule, with a spacing in which the rule makes nodes. -/
def Tree.Fits (t : Tree) : Prop :=
  ∃ spacing, t.rule.visible spacing ∧
    t.rule.body.Reads (t.rule.inside spacing) t.start t.text t.children

/-- The node is a reading of its own rule, as are all the nodes below it. -/
abbrev Tree.Derived : Tree → Prop := Tree.Everywhere Tree.Fits

mutual

/-- **The nodes of a reading are derived.** Only a rule makes a node, and it makes it of a reading
of its body. -/
theorem Peg.Reads.derived {spacing : Spacing} {p : Peg} {pos : Nat} {text : List Char}
    {trees : List Tree} : p.Reads spacing pos text trees → ∀ t ∈ trees, t.Derived
  | .word _ | .one _ | .start | .finish | .never | .absent | .ahead | .notAhead => nofun
  | .rule body => by
    rw [Rule.nodes]
    split
    · next hvisible =>
      intro t ht
      rw [List.mem_singleton] at ht
      subst ht
      exact .mk ⟨_, hvisible, body⟩ body.derived
    · exact body.derived
  | .seq first _ second => fun t ht =>
    (List.mem_append.mp ht).elim (first.derived t) (second.derived t)
  | .left first => first.derived
  | .right second => second.derived
  | .times run => run.derived
  | .present body => body.derived

theorem Peg.Repeats.derived {spacing : Spacing} {p : Peg} {pos : Nat} {text : List Char}
    {trees : List Tree} : p.Repeats spacing pos text trees → ∀ t ∈ trees, t.Derived
  | .once body => body.derived
  | .again run _ body => fun t ht =>
    (List.mem_append.mp ht).elim (run.derived t) (body.derived t)

end

/-- What a parse finds is a reading of a beginning of the source. That it is all of the source is
not a matter of the reading, but of the lookahead or the rule that ends it. -/
theorem Rule.parse_reads {r : Rule} {source : List Char} {trees : List Tree}
    (h : r.parse source = .ok trees) :
    ∃ text rest, source = text ++ rest ∧ (Peg.rule r).Reads .skipped 0 text trees := by
  rw [Rule.parse] at h
  split at h
  · next c trees' seen hrun =>
    obtain rfl := Except.ok.inj h
    obtain ⟨text, hspan, hreads⟩ := Peg.run_finds _ _ _ _ _ rfl _ _ _ hrun
    exact ⟨text, c.rest, hspan.rest, hreads⟩
  · cases h

/-- **The nodes of a parse are derived.** Everything said about derived trees holds of what was
parsed. -/
theorem Rule.parse_derived {r : Rule} {source : List Char} {trees : List Tree}
    (h : r.parse source = .ok trees) : ∀ t ∈ trees, t.Derived := by
  obtain ⟨text, rest, -, hreads⟩ := Rule.parse_reads h
  exact hreads.derived

/-! ## Where nodes stand

The text of a node is a part of the source, at the offset of the node. In the reading, offsets and
texts are counted along, so that this comes out of an induction on it.
-/

/-- If the text starts at the offset, it has the text of the node at the offset of the node. -/
def Tree.StandsIn (t : Tree) (pos : Nat) (text : List Char) : Prop :=
  ∃ before after, text = before ++ t.text ++ after ∧ t.start = pos + utf8Length before

namespace Tree.StandsIn

variable {t : Tree} {pos : Nat} {text : List Char}

/-- More text behind the one in which a node stands does not matter. -/
theorem append_right (h : t.StandsIn pos text) (rest : List Char) :
    t.StandsIn pos (text ++ rest) := by
  obtain ⟨before, after, rfl, hstart⟩ := h
  exact ⟨before, after ++ rest, by simp only [List.append_assoc], hstart⟩

/-- More text in front of the one in which a node stands moves its offset by the length of what is
put in front. -/
theorem append_left (front : List Char) (h : t.StandsIn (pos + utf8Length front) text) :
    t.StandsIn pos (front ++ text) := by
  obtain ⟨before, after, rfl, hstart⟩ := h
  refine ⟨front ++ before, after, by simp only [List.append_assoc], ?_⟩
  rw [hstart, utf8Length_append, Nat.add_assoc]

/-- What stands in the text of a node stands where the node does. -/
theorem trans {u : Tree} (hu : u.StandsIn t.start t.text) (ht : t.StandsIn pos text) :
    u.StandsIn pos text := by
  obtain ⟨before, after, htext, hstart⟩ := ht
  rw [htext]
  refine append_right (append_left before ?_) after
  rw [← hstart]
  exact hu

end Tree.StandsIn

mutual

/-- **The nodes of a reading stand in its text.** No text is made up, none is moved. -/
theorem Peg.Reads.standsIn {spacing : Spacing} {p : Peg} {pos : Nat} {text : List Char}
    {trees : List Tree} : p.Reads spacing pos text trees → ∀ t ∈ trees, t.StandsIn pos text
  | .word _ | .one _ | .start | .finish | .never | .absent | .ahead | .notAhead => nofun
  | .rule body => by
    rw [Rule.nodes]
    split
    · intro t ht
      obtain rfl := List.mem_singleton.mp ht
      exact ⟨[], [], by simp, rfl⟩
    · exact body.standsIn
  | .seq first _ second => by
    intro t ht
    rcases List.mem_append.mp ht with ht | ht
    · rw [List.append_assoc]
      exact (first.standsIn t ht).append_right _
    · refine .append_left _ ?_
      rw [utf8Length_append, ← Nat.add_assoc]
      exact second.standsIn t ht
  | .left first => first.standsIn
  | .right second => second.standsIn
  | .times run => run.standsIn
  | .present body => body.standsIn

/-- The nodes of repeated readings stand in their text. -/
theorem Peg.Repeats.standsIn {spacing : Spacing} {p : Peg} {pos : Nat} {text : List Char}
    {trees : List Tree} : p.Repeats spacing pos text trees → ∀ t ∈ trees, t.StandsIn pos text
  | .once body => body.standsIn
  | .again run _ body => by
    intro t ht
    rcases List.mem_append.mp ht with ht | ht
    · rw [List.append_assoc]
      exact (run.standsIn t ht).append_right _
    · refine .append_left _ ?_
      rw [utf8Length_append, ← Nat.add_assoc]
      exact body.standsIn t ht

end

/-- The children of a node stand in its text. -/
theorem Tree.Fits.standsIn {t : Tree} (ht : t.Fits) :
    ∀ t' ∈ t.children, t'.StandsIn t.start t.text := by
  obtain ⟨spacing, -, body⟩ := ht
  exact body.standsIn

end Scriptlet
