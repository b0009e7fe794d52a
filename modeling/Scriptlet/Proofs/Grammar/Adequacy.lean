import Scriptlet.Proofs.Grammar.Matching

/-!
# The matcher and its matches

The matcher `Peg.run` is a function with fuel that also keeps a record of what it tried;
`Peg.Matches` and `Peg.Fails` are relations without either. Here the two are shown to agree. The
matcher tells the truth: what it finds is a match, and where it fails there is none. And it always
tells: with the fuel that `Rule.parse` supplies it is never exhausted.

Fuel is used up by descending into an expression, not by going on in the text. So what has to be
bounded is how many levels the matcher descends at one place, that is, without a character consumed
in between: `Peg.need` computes a bound from the grammar, and no rule needs more than 256. As soon
as a character is consumed, there are 256 levels more to go. `256 * length + need` is therefore
enough at every place, and this is what an exhausted matcher is shown to have had less of.

Truth and bound come out of one induction on the fuel. The statement is `Peg.TellsWithin`, there is
one lemma for each kind of expression (`Peg.tells_seq` and so on), each of which assumes it of the
parts with one unit of fuel less, and `Peg.run_tells` puts them together. The record of the attempts
takes part in no decision and is carried along without a statement about it.

* `Peg.run_tells`: the matcher tells the truth, and is exhausted with too little fuel only.
* `Peg.matches_or_fails`, `Peg.fails_iff`: every expression of the grammar matches or fails.
* `Rule.matches_of_parse`, `Rule.parse_of_matches`: a source is parsed exactly if there is a match
  of it, and then to the nodes of the match.
-/

namespace Scriptlet

/-! ## Consumption

Which expressions take at least one character whenever they match. What is repeated in the grammar
has to be among them, or else a repetition would go on for ever.
-/

/-- Whether every match of the rule consumes something. Only a script, the end of the input and the
inside of a string can be empty. -/
def Rule.consumes (r : Rule) : Bool :=
  r ∉ [.endOfInput, .script, .doubleStringCharacters, .singleStringCharacters]

/-- Whether every match of the expression consumes something. -/
def Peg.consumes : Peg → Bool
  | .word chars => !chars.isEmpty
  | .one _ => true
  | .rule r => r.consumes
  | .seq p q => p.consumes || q.consumes
  | .choice p q => p.consumes && q.consumes
  | _ => false

/-- The list of the rules that can be empty is complete: the body of any other rule consumes
something. -/
theorem Rule.body_consumes {r : Rule} (h : r.consumes) : r.body.consumes := by
  revert h
  cases r <;> decide

theorem Spacing.length_skip_le (spacing : Spacing) (s : List Char) :
    (spacing.skip s).length ≤ s.length :=
  (spacing.skip_suffix s).length_le

/-- A match of an expression that consumes something leaves less than there was. -/
theorem Peg.Matches.length_lt {spacing : Spacing} {p : Peg} {s s' : List Char}
    {trees : List Tree} : p.Matches spacing s s' trees → p.consumes → s'.length < s.length
  | .word h => fun hp => by
    rw [Peg.consumes, Bool.not_eq_true', List.isEmpty_eq_false_iff] at hp
    have := List.length_pos_iff.mpr hp
    rw [h, List.length_append]
    omega
  | .one h _ => fun _ => by
    rw [h]
    exact Nat.lt_succ_self _
  | .rule body => fun hp => body.length_lt (Rule.body_consumes hp)
  | .seq first second => fun hp => by
    rcases Bool.or_eq_true_iff.mp hp with hp | hq
    · have hskip := second.suffix.length_le.trans (spacing.length_skip_le _)
      exact Nat.lt_of_le_of_lt hskip (first.length_lt hp)
    · have hskip := (spacing.length_skip_le _).trans first.suffix.length_le
      exact Nat.lt_of_lt_of_le (second.length_lt hq) hskip
  | .left first => fun hp => first.length_lt (Bool.and_eq_true_iff.mp hp).1
  | .right _ second => fun hp => second.length_lt (Bool.and_eq_true_iff.mp hp).2
  | .start | .finish | .never _ | .times _ _ | .absent _ | .present _ | .ahead _ | .notAhead _ =>
    nofun

/-- Two different places lie on either side of such a match. -/
theorem Peg.Matches.ne_of_consumes {spacing : Spacing} {p : Peg} {s s' : List Char}
    {trees : List Tree} (h : p.Matches spacing s s' trees) (hp : p.consumes) : s' ≠ s := by
  rintro rfl
  exact Nat.lt_irrefl _ (h.length_lt hp)

/-! ## Fuel

How many levels the matcher descends before it consumes a character. A rule may begin with a rule
that begins with a rule; the grammar has chains of such rules, the expressions of rising precedence
above all, but no rule begins with itself.
-/

/-- How many levels the matcher descends to skip what stands between two parts. The trivia of the
grammar are an expression as well (`trivia`), and 16 levels are enough for it. -/
def Spacing.need : Spacing → Nat
  | .skipped => 16
  | .compound | .token => 0

/-- How many levels the matcher descends in an expression without consuming a character, if `rank`
says so of the rules. Of a sequence whose first part consumes something, only the first part counts:
whatever the second one needs is paid for by that character. -/
def Peg.need (rank : Spacing → Rule → Nat) (spacing : Spacing) : Peg → Nat
  | .word _ | .one _ | .start | .finish => 1
  | .rule r => rank spacing r + 1
  | .seq p q =>
    if p.consumes then p.need rank spacing + 1
    else max (p.need rank spacing) (max spacing.need (q.need rank spacing)) + 1
  | .choice p q => max (p.need rank spacing) (q.need rank spacing) + 1
  | .many p | .optional p | .ahead p | .notAhead p => p.need rank spacing + 1

/-- Whether the expression and all its parts descend no more than 256 levels and whatever is
repeated consumes something. -/
def Peg.bounded (rank : Spacing → Rule → Nat) (spacing : Spacing) : Peg → Bool
  | .word _ | .one _ | .start | .finish | .rule _ => true
  | .seq p q => p.bounded rank spacing && q.bounded rank spacing && q.need rank spacing ≤ 256
  | .choice p q => p.bounded rank spacing && q.bounded rank spacing
  | .many p => p.consumes && p.bounded rank spacing && p.need rank spacing ≤ 256
  | .optional p | .ahead p | .notAhead p => p.bounded rank spacing

/-- How many levels the matcher descends in a rule without consuming a character, computed through
so many rules inside one another. The number is there to make the definition a recursion. -/
def Rule.rankWithin : Nat → Spacing → Rule → Nat
  | 0, _, _ => 0
  | k + 1, spacing, r => r.body.need (rankWithin k) (r.inside spacing)

/-- How many levels the matcher descends in a rule without consuming a character. No more
than 24 rules stand inside one another at one place. -/
def Rule.rank : Spacing → Rule → Nat := rankWithin 24

/-- The grammar is bounded: at no place do the rules descend further than their rank says. As
`Rule.rank` follows at most 24 rules, this also says that no more than 24 begin with one another. It
is a fact about the finitely many rules, and computed. -/
theorem Rule.body_bounded (r : Rule) (spacing : Spacing) :
    r.body.bounded Rule.rank (r.inside spacing) = true ∧
      r.body.need Rule.rank (r.inside spacing) ≤ Rule.rank spacing r := by
  -- A check of every rule with every spacing, for which the kernel computes the ranks.
  have h : ∀ spacing ∈ [Spacing.skipped, .compound, .token], ∀ r ∈ Rule.all,
      r.body.bounded Rule.rank (r.inside spacing) = true ∧
        r.body.need Rule.rank (r.inside spacing) ≤ Rule.rank spacing r := by
    decide +kernel
  exact h spacing (by cases spacing <;> decide) r r.mem_all

/-! ## Outcomes

What is said of an outcome, apart from how it came about. `Outcome.Tells` has one field for each
kind of outcome; the lemmas follow the combinators the matcher is written with, `andThen`, `orElse`
and `matchRule`, so that the proofs about expressions below need not look inside them.
-/

/-- The text of a node is what is between the places where its match begins and ends. -/
theorem Cursor.Spans.textTo_eq {c c' : Cursor} {text : List Char} (h : c.Spans text c') :
    c.textTo c' = textBetween c.rest c'.rest := by
  rw [h.textTo, textBetween, h.rest, List.length_append, Nat.add_sub_cancel, List.take_left]

/-- Behind a match, no more is left than before it. -/
theorem Cursor.Spans.length_le {c c' : Cursor} {text : List Char} (h : c.Spans text c') :
    c'.rest.length ≤ c.rest.length := by
  rw [h.rest, List.length_append]
  exact Nat.le_add_left _ _

/-- What an outcome at `c` tells: `Q` if it is a match, `F` if it is a failure and `X` if the fuel
was too little. Of a match it is also told that its end lies behind its beginning in the text, which
everything said about offsets depends on. -/
structure Outcome.Tells (c : Cursor) (Q : Cursor → List Tree → Prop) (F X : Prop)
    (o : Outcome × Attempts) : Prop where
  matched : ∀ {c' trees seen}, o = (.matched c' trees, seen) →
    (∃ text, c.Spans text c') ∧ Q c' trees
  failed : ∀ {seen}, o = (.failed, seen) → F
  exhausted : ∀ {seen}, o = (.exhausted, seen) → X

namespace Outcome

variable {c : Cursor} {Q R : Cursor → List Tree → Prop} {F G X Y : Prop} {seen : Attempts}
  {trees : List Tree} {o : Outcome × Attempts}

theorem tells_matched {c' : Cursor} (hspan : ∃ text, c.Spans text c') (h : Q c' trees) :
    Tells c Q F X (.matched c' trees, seen) := by
  refine ⟨?_, nofun, nofun⟩
  rintro _ _ _ ⟨⟩
  exact ⟨hspan, h⟩

theorem tells_failed (h : F) : Tells c Q F X (.failed, seen) := ⟨nofun, fun _ => h, nofun⟩

theorem tells_exhausted (h : X) : Tells c Q F X (.exhausted, seen) := ⟨nofun, nofun, fun _ => h⟩

/-- What is told can be weakened. -/
theorem Tells.mono (h : Tells c Q F X o) (hQ : ∀ {c' trees}, Q c' trees → R c' trees)
    (hF : F → G) (hX : X → Y) : Tells c R G Y o :=
  ⟨fun ho => ⟨(h.matched ho).1, hQ (h.matched ho).2⟩, fun ho => hF (h.failed ho),
    fun ho => hX (h.exhausted ho)⟩

/-- What a second match tells behind a first one, told from where the first one ended. The first one
may fail or be exhausted, and then the whole does. -/
theorem tells_andThen {second : Cursor → List Tree → Attempts → Outcome × Attempts}
    (ho : Tells c Q F X o) (hF : F → G) (hX : X → Y)
    (hsecond : ∀ {c' text trees} seen, c.Spans text c' → Q c' trees →
      Tells c' R G Y (second c' trees seen)) : Tells c R G Y (andThen o second) := by
  obtain ⟨_ | _ | _, seen⟩ := o
  · obtain ⟨⟨text, hspan⟩, hQ⟩ := ho.matched rfl
    have htells := hsecond seen hspan hQ
    refine ⟨fun h => ?_, htells.failed, htells.exhausted⟩
    obtain ⟨⟨text', hspan'⟩, hR⟩ := htells.matched h
    exact ⟨⟨text ++ text', hspan.trans hspan'⟩, hR⟩
  · exact tells_failed (hF (ho.failed rfl))
  · exact tells_exhausted (hX (ho.exhausted rfl))

/-- What a second match tells where a first one failed. The second one may use that it did. -/
theorem tells_orElse {second : Attempts → Outcome × Attempts} (ho : Tells c Q F X o)
    (hsecond : ∀ seen, F → Tells c Q G X (second seen)) : Tells c Q G X (orElse o second) := by
  obtain ⟨_ | _ | _, seen⟩ := o
  · exact ⟨ho.matched, nofun, nofun⟩
  · exact hsecond seen (ho.failed rfl)
  · exact tells_exhausted (ho.exhausted rfl)

/-- A rule makes a node of what was found, or hands it on if no nodes are made here. -/
theorem tells_matchRule {r : Rule} {ctx : Context} {before : Attempts} (ho : Tells c Q F X o) :
    Tells c
      (fun c' made => ∃ trees, Q c' trees ∧
        made = if ctx.makesNode then [⟨r, c.pos, textBetween c.rest c'.rest, trees⟩] else trees)
      F X (matchRule r ctx c before o) := by
  obtain ⟨_ | _ | _, seen⟩ := o
  · obtain ⟨⟨text, hspan⟩, hQ⟩ := ho.matched rfl
    rw [matchRule, hspan.textTo_eq]
    exact tells_matched ⟨text, hspan⟩ ⟨_, hQ, rfl⟩
  · exact tells_failed (ho.failed rfl)
  · exact tells_exhausted (ho.exhausted rfl)

end Outcome

open Outcome

theorem matchWord_ne_exhausted (chars : List Char) (c : Cursor) :
    matchWord chars c ≠ .exhausted := by
  induction chars generalizing c with
  | nil => rintro ⟨⟩
  | cons x chars ih =>
    rw [matchWord]
    split
    · split
      · exact ih _
      · rintro ⟨⟩
    · rintro ⟨⟩

/-- Where fixed characters are not found, the text does not begin with them. -/
theorem matchWord_fails {chars : List Char} {c : Cursor} (h : matchWord chars c = .failed) :
    ∀ s', c.rest ≠ chars ++ s' := by
  induction chars generalizing c with
  | nil => cases h
  | cons x chars ih =>
    intro s' hs
    rw [matchWord, hs] at h
    simp only [List.cons_append, if_true] at h
    exact ih h s' rfl

theorem matchOne_ne_exhausted (chars : CharClass) (c : Cursor) :
    matchOne chars c ≠ .exhausted := by
  rw [matchOne]
  split
  · split <;> rintro ⟨⟩
  · rintro ⟨⟩

/-- Where no character of a class is found, the text does not begin with one. -/
theorem matchOne_fails {chars : CharClass} {c : Cursor} (h : matchOne chars c = .failed) :
    ∀ x s', c.rest = x :: s' → ¬chars.contains x := by
  intro x s' hs hx
  rw [matchOne, hs] at h
  simp only [hx, if_true] at h
  cases h

/-! ## The matcher

One lemma for each kind of expression: if the matcher tells about its parts with some fuel, it tells
about the expression with one unit more.
-/

/-- Nodes side by side are stripped side by side. -/
theorem Tree.coreAll_append (ts ts' : List Tree) :
    Tree.coreAll (ts ++ ts') = Tree.coreAll ts ++ Tree.coreAll ts' := by
  rw [coreAll_eq, coreAll_eq, coreAll_eq, List.map_append]

namespace Peg

/-- Nodes are as a match says, up to their bare form. Within lookaheads no node is made. -/
def Made (ctx : Context) (trees core : List Tree) : Prop :=
  ctx.lookahead = .none → Tree.coreAll trees = core

/-- The outcome tells the truth about an expression at a place: a match if there is one, a failure
if there is none, and neither only if the fuel is too little. How much is too little is said for
bounded expressions only, which all of the grammar is. -/
abbrev Told (fuel : Nat) (p : Peg) (c : Cursor) (ctx : Context) : Outcome × Attempts → Prop :=
  Tells c
    (fun c' trees => ∃ core, p.Matches ctx.spacing c.rest c'.rest core ∧ Made ctx trees core)
    (p.Fails ctx.spacing c.rest)
    (p.bounded Rule.rank ctx.spacing →
      fuel < 256 * c.rest.length + p.need Rule.rank ctx.spacing)

/-- With this fuel, the matcher tells the truth about an expression at a place, whatever the
circumstances and whatever was recorded before. -/
def TellsWithin (fuel : Nat) (p : Peg) (c : Cursor) : Prop :=
  ∀ ctx seen, Told fuel p c ctx (p.run fuel ctx c seen)

section

variable {fuel : Nat} {c : Cursor} {p q : Peg}

/-- Whatever the expression, the matcher descends into it. -/
theorem need_pos (rank : Spacing → Rule → Nat) (spacing : Spacing) (p : Peg) :
    0 < p.need rank spacing := by
  cases p <;> simp only [need] <;> first | omega | (split <;> omega)

/-- Without fuel nothing is told, but too little fuel it is. -/
theorem tells_zero : TellsWithin 0 p c := by
  refine fun ctx seen => tells_exhausted fun _ => ?_
  have := need_pos Rule.rank ctx.spacing p
  omega

theorem tells_word (chars : List Char) : TellsWithin (fuel + 1) (.word chars) c := by
  refine fun ctx seen => ⟨fun h => ?_, fun h => ?_, fun h => ?_⟩
  · obtain ⟨text, hspan, rfl, rfl⟩ := matchWord_finds chars c seen _ _ _ h
    exact ⟨⟨text, hspan⟩, [], .word hspan.rest, fun _ => rfl⟩
  · exact .word (matchWord_fails (Prod.mk.inj h).1)
  · exact absurd (Prod.mk.inj h).1 (matchWord_ne_exhausted chars c)

theorem tells_one (chars : CharClass) : TellsWithin (fuel + 1) (.one chars) c := by
  refine fun ctx seen => ⟨fun h => ?_, fun h => ?_, fun h => ?_⟩
  · obtain ⟨text, hspan, ⟨⟨x, hx, rfl⟩, rfl⟩⟩ := matchOne_finds chars c seen _ _ _ h
    exact ⟨⟨[x], hspan⟩, [], .one hspan.rest hx, fun _ => rfl⟩
  · exact .one (matchOne_fails (Prod.mk.inj h).1)
  · exact absurd (Prod.mk.inj h).1 (matchOne_ne_exhausted chars c)

theorem tells_start (hc : c.pos = 0) : TellsWithin fuel .start c := by
  intro ctx seen
  cases fuel with
  | zero => exact tells_zero ctx seen
  | succ fuel =>
    rw [run, if_pos hc]
    exact tells_matched ⟨[], .refl c⟩ ⟨[], .start, fun _ => rfl⟩

theorem tells_finish : TellsWithin (fuel + 1) .finish c := by
  intro ctx seen
  rw [run]
  split
  · next h =>
    rw [List.isEmpty_iff] at h
    refine tells_matched ⟨[], .refl c⟩ ⟨[], ?_, fun _ => rfl⟩
    rw [h]
    exact .finish
  · next h =>
    rw [List.isEmpty_iff] at h
    exact tells_failed (.finish h)

/-- What the matcher skips between two parts is what `dropTrivia` does. Skipping cannot fail, and it
takes its own share of fuel. -/
theorem tells_skipTrivia (htrivia : TellsWithin fuel trivia c) (ctx : Context)
    (seen : Attempts) :
    Tells c (fun c' _ => c'.rest = ctx.spacing.skip c.rest) False
      (fuel < 256 * c.rest.length + ctx.spacing.need)
      (skipTrivia (run fuel · trivia) ctx c seen) := by
  rw [skipTrivia]
  split
  · next h =>
    refine (htrivia { ctx with spacing := .token } seen).mono ?_ ?_ ?_
    · rintro c' trees ⟨core, hmatch, -⟩
      rw [h]
      exact (hmatch.unique (trivia_matches c.rest)).1
    · exact fun hfails => (trivia_matches c.rest).not_fails hfails
    · intro hfuel
      have hneed : trivia.need Rule.rank .token ≤ 16 := by decide
      have hbounded : trivia.bounded Rule.rank .token = true := by decide
      have := hfuel hbounded
      rw [h, Spacing.need]
      simp only at this
      omega
  · next h =>
    refine tells_matched ⟨[], .refl c⟩ ?_
    cases hs : ctx.spacing with
    | skipped => exact absurd hs h
    | compound | token => rfl

/-- A rule is one level above its body. -/
theorem tells_rule {r : Rule} (hbody : TellsWithin fuel r.body c) :
    TellsWithin (fuel + 1) (.rule r) c := by
  intro ctx seen
  have hinner := hbody { ctx with spacing := r.inside ctx.spacing } seen
  have hfuel : ((r.body.bounded Rule.rank (r.inside ctx.spacing) = true →
        fuel < 256 * c.rest.length + r.body.need Rule.rank (r.inside ctx.spacing)) →
      (rule r).bounded Rule.rank ctx.spacing = true →
        fuel + 1 < 256 * c.rest.length + (rule r).need Rule.rank ctx.spacing) := by
    intro hfuel _
    obtain ⟨hbounded, hneed⟩ := r.body_bounded ctx.spacing
    have := hfuel hbounded
    rw [need]
    omega
  -- rules without a node hand on what their production made
  have hkept : r.visible ctx.spacing = false → Told (fuel + 1) (rule r) c ctx
      (run fuel { ctx with spacing := r.inside ctx.spacing } r.body c seen) := by
    intro hvisible
    refine hinner.mono ?_ .rule hfuel
    rintro c' trees ⟨core, hcore, hmade⟩
    have hrule := Matches.rule hcore
    rw [Rule.made, hvisible] at hrule
    exact ⟨core, hrule, hmade⟩
  -- and those with one wrap it, whatever the spacing inside
  have hwrapped : ∀ outer : Context, outer.lookahead = ctx.lookahead →
      r.visible ctx.spacing = decide (outer.spacing ≠ .token) → Told (fuel + 1) (rule r) c ctx
        (matchRule r outer c seen
          (run fuel { ctx with spacing := r.inside ctx.spacing } r.body c seen)) := by
    intro outer hlookahead hvisible
    refine (tells_matchRule hinner).mono ?_ .rule hfuel
    rintro c' _ ⟨trees, ⟨core, hcore, hmade⟩, rfl⟩
    refine ⟨_, .rule hcore, fun hctx => ?_⟩
    rw [Rule.made, hvisible, Context.makesNode, hlookahead, hctx, decide_eq_true rfl,
      Bool.true_and]
    split
    · rw [Tree.coreAll, Tree.core, Tree.coreAll, hmade hctx]
    · exact hmade hctx
  rw [run]
  cases hk : r.kind <;> simp only [Rule.inside, Rule.visible, hk] at hkept hwrapped ⊢
  case silent => exact hkept trivial
  case trivia => exact hkept trivial
  case plain => exact hwrapped ctx rfl rfl
  case token => exact hwrapped ctx rfl rfl
  case compound => exact hwrapped _ rfl rfl

/-- In a sequence, the second part is run with the same fuel as the first, but further on in the
text, unless the first one consumed nothing; `Peg.need` counts the second one in that case only. -/
theorem tells_seq (hp : TellsWithin fuel p c) (hq : ∀ c', TellsWithin fuel q c')
    (htrivia : ∀ c', TellsWithin fuel trivia c') : TellsWithin (fuel + 1) (.seq p q) c := by
  intro ctx seen
  refine tells_andThen (hp ctx seen) .first ?_ ?_
  · intro hfuel hbounded
    simp only [bounded, Bool.and_eq_true] at hbounded
    have := hfuel hbounded.1.1
    rw [need]
    split <;> omega
  rintro c₁ text trees seen hspan ⟨core, hfirst, hmade⟩
  -- Behind a match that consumed something, there is fuel for another 256 levels.
  have hlater : ∀ {n m : Nat}, n ≤ c₁.rest.length → m ≤ 256 →
      (p.consumes = false → m < (seq p q).need Rule.rank ctx.spacing) → fuel < 256 * n + m →
      fuel + 1 < 256 * c.rest.length + (seq p q).need Rule.rank ctx.spacing := by
    intro n m hn hm hneed hfuel
    have hpos := need_pos Rule.rank ctx.spacing (seq p q)
    cases hconsumes : p.consumes with
    | false =>
      have := hspan.length_le
      have := hneed hconsumes
      omega
    | true =>
      have := hfirst.length_lt hconsumes
      omega
  refine tells_andThen (tells_skipTrivia (htrivia c₁) ctx seen) False.elim ?_ ?_
  · intro hfuel _
    refine hlater le_rfl (by cases ctx.spacing <;> decide) (fun hp => ?_) hfuel
    simp only [need, hp, Bool.false_eq_true, if_false]
    omega
  intro c₂ gap none seen hspan₂ hskip
  have hsecond := hq c₂ ctx seen
  rw [Told, hskip] at hsecond
  refine tells_andThen hsecond (.second hfirst) ?_ ?_
  · intro hfuel hbounded
    simp only [bounded, Bool.and_eq_true, decide_eq_true_eq] at hbounded
    refine hlater (ctx.spacing.length_skip_le _) hbounded.2 (fun hp => ?_) (hfuel hbounded.1.2)
    simp only [need, hp, Bool.false_eq_true, if_false]
    omega
  · rintro c₃ text₃ more seen hspan₃ ⟨core', hsecond, hmade'⟩
    refine tells_matched ⟨[], .refl c₃⟩ ⟨core ++ core', .seq hfirst hsecond, fun hctx => ?_⟩
    rw [Tree.coreAll_append, hmade hctx, hmade' hctx]

theorem tells_choice (hp : TellsWithin fuel p c) (hq : TellsWithin fuel q c) :
    TellsWithin (fuel + 1) (.choice p q) c := by
  intro ctx seen
  refine tells_orElse ((hp ctx seen).mono ?_ (fun h => h) ?_) fun seen hfails =>
    (hq ctx seen).mono ?_ (.both hfails) ?_
  · rintro c' trees ⟨core, hcore, hmade⟩
    exact ⟨core, .left hcore, hmade⟩
  · intro hfuel hbounded
    have := hfuel (Bool.and_eq_true_iff.mp hbounded).1
    rw [need]
    omega
  · rintro c' trees ⟨core, hcore, hmade⟩
    exact ⟨core, .right hfails hcore, hmade⟩
  · intro hfuel hbounded
    have := hfuel (Bool.and_eq_true_iff.mp hbounded).2
    rw [need]
    omega

/-- The matches behind the first one of a repetition. Besides the fuel, a repetition counts its
rounds; since each of them consumes something, there are no more rounds than characters, and the
count `k` does not run out before them. -/
theorem tells_iterate (hp : ∀ c', TellsWithin fuel p c')
    (htrivia : ∀ c', TellsWithin fuel trivia c') (ctx : Context) (k : Nat)
    (c : Cursor) (trees : List Tree) (seen : Attempts) :
    Tells c
      (fun c' trees' => ∃ core more, p.Iterates ctx.spacing c.rest c'.rest core ∧
        Made ctx more core ∧ trees' = trees ++ more)
      False
      (p.consumes → p.bounded Rule.rank ctx.spacing → k ≤ c.rest.length ∨
        fuel < 256 * c.rest.length + max ctx.spacing.need (p.need Rule.rank ctx.spacing))
      (iterate
        (fun c seen =>
          andThen (skipTrivia (run fuel · trivia) ctx c seen) fun c _ seen => p.run fuel ctx c seen)
        k c trees seen) := by
  -- The induction is on the count of rounds; the trees are collected on the way.
  induction k generalizing c trees seen with
  | zero => exact tells_exhausted fun _ _ => .inl (Nat.zero_le _)
  | succ k ih =>
    have hstep : Tells c
        (fun c' trees => ∃ core,
          p.Matches ctx.spacing (ctx.spacing.skip c.rest) c'.rest core ∧ Made ctx trees core)
        (p.Fails ctx.spacing (ctx.spacing.skip c.rest))
        (p.bounded Rule.rank ctx.spacing →
          fuel < 256 * c.rest.length + max ctx.spacing.need (p.need Rule.rank ctx.spacing))
        (andThen (skipTrivia (run fuel · trivia) ctx c seen) fun c _ seen =>
          p.run fuel ctx c seen) := by
      refine tells_andThen (tells_skipTrivia (htrivia c) ctx seen) False.elim ?_ ?_
      · intro hfuel _
        omega
      · intro c₁ gap none seen hspan hskip
        have hbody := hp c₁ ctx seen
        rw [Told, hskip] at hbody
        refine hbody.mono (fun h => h) (fun h => h) fun hfuel hbounded => ?_
        have := hfuel hbounded
        have := ctx.spacing.length_skip_le c.rest
        omega
    rw [iterate]
    split
    · next c₁ more seen₁ h =>
      obtain ⟨⟨text, hspan⟩, core, hcore, hmade⟩ := hstep.matched h
      have hmore := ih c₁ (trees ++ more) seen₁
      refine ⟨fun h => ?_, hmore.failed, fun h hconsumes hbounded => ?_⟩
      · obtain ⟨⟨text', hspan'⟩, core', more', hcore', hmade', rfl⟩ := hmore.matched h
        refine ⟨⟨text ++ text', hspan.trans hspan'⟩, core ++ core', more ++ more',
          .step hcore hcore', fun hctx => ?_, List.append_assoc trees more more'⟩
        rw [Tree.coreAll_append, hmade hctx, hmade' hctx]
      · have hlt := hcore.length_lt hconsumes
        have hle := ctx.spacing.length_skip_le c.rest
        rcases hmore.exhausted h hconsumes hbounded with hk | hfuel <;> omega
    · next seen₁ h =>
      refine tells_matched ⟨[], .refl c⟩ ⟨[], [], .stop (hstep.failed h), fun _ => rfl, ?_⟩
      rw [List.append_nil]
    · next seen₁ h => exact tells_exhausted fun _ hbounded => .inr (hstep.exhausted h hbounded)

theorem tells_many (hp : ∀ c', TellsWithin fuel p c')
    (htrivia : ∀ c', TellsWithin fuel trivia c') : TellsWithin (fuel + 1) (.many p) c := by
  intro ctx seen
  refine tells_orElse (F := p.Fails ctx.spacing c.rest) ?_ fun seen hfails =>
    tells_matched ⟨[], .refl c⟩ ⟨[], .never hfails, fun _ => rfl⟩
  refine tells_andThen (hp c ctx seen) (fun h => h) ?_ ?_
  · intro hfuel hbounded
    simp only [bounded, Bool.and_eq_true] at hbounded
    have := hfuel hbounded.1.2
    rw [need]
    omega
  rintro c₁ text trees seen hspan ⟨core, hfirst, hmade⟩
  refine (tells_iterate hp htrivia ctx fuel c₁ trees seen).mono ?_ False.elim ?_
  · rintro c' _ ⟨core', more, hmore, hmade', rfl⟩
    refine ⟨core ++ core', .times hfirst hmore, fun hctx => ?_⟩
    rw [Tree.coreAll_append, hmade hctx, hmade' hctx]
  · intro hfuel hbounded
    simp only [bounded, Bool.and_eq_true, decide_eq_true_eq] at hbounded
    have hlt := hfirst.length_lt hbounded.1.1
    have hskip : ctx.spacing.need ≤ 256 := by cases ctx.spacing <;> decide
    have hpos := need_pos Rule.rank ctx.spacing (many p)
    rcases hfuel hbounded.1.1 hbounded.1.2 with hfuel | hfuel <;> omega

theorem tells_optional (hp : TellsWithin fuel p c) : TellsWithin (fuel + 1) (.optional p) c := by
  intro ctx seen
  refine tells_orElse ((hp ctx seen).mono ?_ (fun h => h) ?_) fun seen hfails =>
    tells_matched ⟨[], .refl c⟩ ⟨[], .absent hfails, fun _ => rfl⟩
  · rintro c' trees ⟨core, hcore, hmade⟩
    exact ⟨core, .present hcore, hmade⟩
  · intro hfuel hbounded
    have := hfuel hbounded
    rw [need]
    omega

theorem tells_ahead (hp : TellsWithin fuel p c) : TellsWithin (fuel + 1) (.ahead p) c := by
  intro ctx seen
  have hbody := hp { ctx with lookahead := ctx.lookahead.inAhead } seen
  rw [run]
  rcases hrun : run fuel { ctx with lookahead := ctx.lookahead.inAhead } p c seen with
    ⟨_ | _ | _, seen₁⟩
  · obtain ⟨-, core, hcore, -⟩ := hbody.matched hrun
    exact tells_matched ⟨[], .refl c⟩ ⟨[], .ahead hcore, fun _ => rfl⟩
  · exact tells_failed (.ahead (hbody.failed hrun))
  · refine tells_exhausted fun hbounded => ?_
    have := hbody.exhausted hrun hbounded
    rw [need]
    simp only at this
    omega

/-- A negative lookahead turns a match into a failure and a failure into a match, and stays
exhausted. -/
theorem tells_notAhead (hp : TellsWithin fuel p c) : TellsWithin (fuel + 1) (.notAhead p) c := by
  intro ctx seen
  have hbody := hp { ctx with lookahead := ctx.lookahead.inNotAhead } seen
  rw [run]
  split
  · next c₁ trees seen₁ h =>
    obtain ⟨-, core, hcore, -⟩ := hbody.matched h
    exact tells_failed (.notAhead hcore)
  · next seen₁ h =>
    exact tells_matched ⟨[], .refl c⟩ ⟨[], .notAhead (hbody.failed h), fun _ => rfl⟩
  · next seen₁ h =>
    refine tells_exhausted fun hbounded => ?_
    have := hbody.exhausted h hbounded
    rw [need]
    simp only at this
    omega

end

/-- Whether the expression is about what follows alone, and not about where it stands. Only a script
asks to be at the very start, and no other rule has a script in it. -/
def startless : Peg → Bool
  | .start => false
  | .rule r => r ≠ .script
  | .word _ | .one _ | .finish => true
  | .seq p q | .choice p q => p.startless && q.startless
  | .many p | .optional p | .ahead p | .notAhead p => p.startless

/-- The bodies of all other rules are about what follows alone. -/
theorem body_startless {r : Rule} (h : r ≠ .script) : r.body.startless := by
  revert h
  cases r <;> decide

/-- **The matcher tells the truth**, with any fuel: what it says about an expression that is about
what follows alone is so, and if it says nothing, the fuel was too little. -/
theorem run_tells (fuel : Nat) {p : Peg} (hp : p.startless) (c : Cursor) :
    TellsWithin fuel p c := by
  induction fuel generalizing p c with
  | zero => exact tells_zero
  | succ fuel ih =>
    have htrivia : ∀ c', TellsWithin fuel trivia c' := ih (by decide)
    cases p with
    | word chars => exact tells_word chars
    | one chars => exact tells_one chars
    | start => cases hp
    | finish => exact tells_finish
    | rule r => exact tells_rule (ih (body_startless (of_decide_eq_true hp)) c)
    | seq p q =>
      obtain ⟨hp, hq⟩ := Bool.and_eq_true_iff.mp hp
      exact tells_seq (ih hp c) (ih hq) htrivia
    | choice p q =>
      obtain ⟨hp, hq⟩ := Bool.and_eq_true_iff.mp hp
      exact tells_choice (ih hp c) (ih hq c)
    | many p => exact tells_many (ih hp) htrivia
    | optional p => exact tells_optional (ih (p := p) hp c)
    | ahead p => exact tells_ahead (ih (p := p) hp c)
    | notAhead p => exact tells_notAhead (ih (p := p) hp c)

/-- `run_tells` for a script, at the place where it starts. The script is treated apart because its
rule asks where it is; it does so once, in front of everything else. -/
theorem run_script_tells (fuel : Nat) {c : Cursor} (hc : c.pos = 0) :
    TellsWithin fuel (.rule .script) c := by
  have hstart : ∀ fuel, TellsWithin fuel (start ++ many (rule .statement)) c
    | 0 => tells_zero
    | fuel + 1 =>
      tells_seq (tells_start hc) (run_tells fuel (by decide)) (run_tells fuel (by decide))
  have hbody : ∀ fuel, TellsWithin fuel Rule.script.body c
    | 0 => tells_zero
    | fuel + 1 =>
      tells_seq (hstart fuel) (run_tells fuel (by decide)) (run_tells fuel (by decide))
  cases fuel with
  | zero => exact tells_zero
  | succ fuel => exact tells_rule (hbody fuel)

/-- An expression that is about what follows alone matches or fails. This takes the matcher: with
enough fuel it comes to an end, and what it says is one or the other. -/
theorem matches_or_fails {p : Peg} {spacing : Spacing} (hp : p.startless)
    (hbounded : p.bounded Rule.rank spacing) (s : List Char) :
    (∃ s' trees, p.Matches spacing s s' trees) ∨ p.Fails spacing s := by
  have htells := run_tells (256 * s.length + p.need Rule.rank spacing) hp ⟨0, s⟩ ⟨.none, spacing⟩
    .none
  rcases hrun : p.run (256 * s.length + p.need Rule.rank spacing) ⟨.none, spacing⟩ ⟨0, s⟩ .none
    with ⟨_ | _ | _, seen⟩
  · obtain ⟨-, core, hcore, -⟩ := htells.matched hrun
    exact .inl ⟨_, _, hcore⟩
  · exact .inr (htells.failed hrun)
  · exact absurd (htells.exhausted hrun hbounded) (Nat.lt_irrefl _)

/-- To fail is not to match. With this, failures need not be built from failures of the parts. -/
theorem fails_iff {p : Peg} {spacing : Spacing} (hp : p.startless)
    (hbounded : p.bounded Rule.rank spacing) {s : List Char} :
    p.Fails spacing s ↔ ∀ s' trees, ¬p.Matches spacing s s' trees := by
  refine ⟨fun h s' trees => h.not_matches, fun h => ?_⟩
  rcases matches_or_fails hp hbounded s with ⟨s', trees, hmatch⟩ | hfails
  · exact absurd hmatch (h s' trees)
  · exact hfails

end Peg

/-! ## Parsing

What the matcher tells is now read at the place where parsing starts, with the fuel it starts with.
-/

/-- Parsing tells the truth, for the rule of scripts as for all others. -/
theorem Rule.run_tells (r : Rule) (fuel : Nat) (source : List Char) :
    Peg.TellsWithin fuel (.rule r) ⟨0, source⟩ := by
  by_cases hr : r = .script
  · subst hr
    exact Peg.run_script_tells fuel rfl
  · exact Peg.run_tells fuel (p := .rule r) (decide_eq_true hr) _

/-- What a rule parses is what it matches: the bare forms of the trees are the nodes of a match. -/
theorem Rule.matches_of_parse {r : Rule} {source : List Char} {trees : List Tree}
    (h : r.parse source = .ok trees) :
    ∃ s', (Peg.rule r).Matches .skipped source s' (Tree.coreAll trees) := by
  rw [Rule.parse] at h
  split at h
  · next c trees' seen hrun =>
    obtain rfl := Except.ok.inj h
    obtain ⟨-, core, hcore, hmade⟩ := (r.run_tells _ _ _ _).matched hrun
    rw [hmade rfl]
    exact ⟨_, hcore⟩
  · cases h

/-- Matching any rule descends no more than 256 levels before a character is consumed. With
`Rule.body_bounded` this is what makes the fuel of `Rule.parse` enough. -/
theorem Rule.need_le (r : Rule) (spacing : Spacing) :
    (Peg.rule r).need Rule.rank spacing ≤ 256 := by
  have h : ∀ spacing ∈ [Spacing.skipped, .compound, .token], ∀ r ∈ Rule.all,
      (Peg.rule r).need Rule.rank spacing ≤ 256 := by decide +kernel
  exact h spacing (by cases spacing <;> decide) r r.mem_all

/-- **What a rule matches is what it parses.** To show that a text is accepted, it is enough to give
a match of it. -/
theorem Rule.parse_of_matches {r : Rule} {source s' : List Char} {core : List Tree}
    (h : (Peg.rule r).Matches .skipped source s' core) :
    ∃ trees, r.parse source = .ok trees ∧ Tree.coreAll trees = core := by
  have htells := r.run_tells (parseFuel source.length) source .outermost .none
  rw [Rule.parse]
  rcases hrun : (Peg.rule r).run (parseFuel source.length) .outermost ⟨0, source⟩ .none with
    ⟨_ | _ | _, seen⟩
  · obtain ⟨-, core', hcore', hmade⟩ := htells.matched hrun
    refine ⟨_, rfl, ?_⟩
    rw [hmade rfl]
    exact (hcore'.unique h).2
  · exact absurd (htells.failed hrun) h.not_fails
  · have hfuel := htells.exhausted hrun rfl
    have hneed := r.need_le .skipped
    simp only [parseFuel, Context.outermost] at hfuel
    omega

end Scriptlet
