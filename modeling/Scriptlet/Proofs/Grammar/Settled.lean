import Scriptlet.Proofs.Grammar.Extension

/-!
# Settled choices

For each rule it is told what may stand behind it in a program (`Rule.follow`), and from this that
every choice in its body is settled: what follows tells, also with more behind the text, what was
left out (`Rule.settled`). A match therefore goes on to match with more behind the text and makes
the same nodes (`Peg.Matches.carried`), except that a semicolon may now stand at its end that was
missing.

What follows is told by expressions and not by kinds of places. A kind would say too little: a block
and an object may both follow a `return`, and begin alike. An expression that follows was matched,
so that it can be looked into further (`Peg.excludes`). The lists are those of the theory of
parsing, follow sets; that they are complete is shown by computing, for each rule, that what stands
behind a part of its body is in the list of the part.

The semicolon behind the text needs care. A statement at the end that has none takes it, and the
match of the statement then ends one character later than the text did. Only some rules can do so
(`Rule.absorbs`), and whatever they are a part of has nothing more to match but the end of the text.

* `Rule.follow`, `Peg.settles`, `Rule.settled`: what follows each rule, and that it decides.
* `Carried`, `Peg.Carries`: where a match ends with more text, and that it goes on to match.
* `Peg.Matches.carried`: every match that is followed as its rule says is carried over.
-/

namespace Scriptlet

open Peg

/-! ## What follows

What stands behind a part is the next part, or, if that one is empty, what stands behind the whole.
So the lists are computed from the lists of the whole by putting expressions in front
(`Peg.before`).
-/

namespace Peg

/-- Expressions of which one matches where the first expression and then the second do. An
alternative gives two, and what may be left out gives one without it. -/
def before : Peg → Peg → List Peg
  | .choice p q, f => p.before f ++ q.before f
  | .optional p, f => p.before f ++ [f]
  | .many p, f => [p, f]
  | .ahead _, f | .notAhead _, f => [f]
  | p, f => [.seq p f]

/-- One of the expressions matches at the place and makes plain nodes. A list of expressions is
followed if one of them stands. -/
def OneStands (follow : List Peg) (s : List Char) : Prop := ∃ f ∈ follow, f.StandsPlain s

/-- What stands in front of a place where something stands is told by putting it in front. -/
theorem exists_before {q f : Peg} {s s₁ : List Char} {trees : List Tree}
    (h : q.Matches .skipped s s₁ trees) (htrees : ∀ t ∈ trees, t.Plain) (hs : dropTrivia s = s)
    (hf : f.StandsPlain (dropTrivia s₁)) : OneStands (q.before f) s := by
  have hseq : ∀ {q : Peg}, q.Matches .skipped s s₁ trees → (seq q f).StandsPlain s := by
    intro q h
    obtain ⟨s₂, trees₂, hmatch, hplain⟩ := hf
    exact ⟨s₂, trees ++ trees₂, .seq h hmatch, List.forall_mem_append.mpr ⟨htrees, hplain⟩⟩
  have hself : s₁ = s → f.StandsPlain s := by
    rintro rfl
    rwa [hs] at hf
  induction q with
  | choice p q ihp ihq =>
    rcases matches_choice_iff.mp h with h | ⟨-, h⟩
    · obtain ⟨g, hg, hstands⟩ := ihp h
      exact ⟨g, List.mem_append_left _ hg, hstands⟩
    · obtain ⟨g, hg, hstands⟩ := ihq h
      exact ⟨g, List.mem_append_right _ hg, hstands⟩
  | optional p ih =>
    rcases matches_optional_iff.mp h with ⟨-, hempty, -⟩ | h
    · exact ⟨f, List.mem_append_right _ (List.mem_singleton_self _), hself hempty⟩
    · obtain ⟨g, hg, hstands⟩ := ih h
      exact ⟨g, List.mem_append_left _ hg, hstands⟩
  | many p _ =>
    rcases matches_many_iff.mp h with ⟨-, hempty, -⟩ | ⟨_, _, _, hfirst, -, rfl⟩
    · exact ⟨f, List.mem_cons_of_mem _ (List.mem_singleton_self _), hself hempty⟩
    · exact ⟨p, List.mem_cons_self, _, _, hfirst, (List.forall_mem_append.mp htrees).1⟩
  | ahead p _ => exact ⟨f, List.mem_singleton_self _, hself (matches_ahead_iff.mp h).2.1⟩
  | notAhead p _ => exact ⟨f, List.mem_singleton_self _, hself (matches_notAhead_iff.mp h).2.1⟩
  | word _ | one _ | start | finish | rule _ | seq _ _ _ _ =>
    exact ⟨_, List.mem_singleton_self _, hseq h⟩

/-- What follows a part of a match is its next part, or what follows it. -/
theorem OneStands.before {q : Peg} {follow : List Peg} {s s₁ : List Char} {trees : List Tree}
    (h : q.Matches .skipped s s₁ trees) (htrees : ∀ t ∈ trees, t.Plain) (hs : dropTrivia s = s)
    (hfollow : OneStands follow (dropTrivia s₁)) : OneStands (follow.flatMap q.before) s := by
  obtain ⟨f, hf, hstands⟩ := hfollow
  obtain ⟨g, hg, hstands⟩ := exists_before h htrees hs hstands
  exact ⟨g, List.mem_flatMap.mpr ⟨f, hf, hg⟩, hstands⟩

/-- Where one of the expressions stands, no comment without end does. -/
theorem OneStands.kind_ne {follow : List Peg} {s : List Char} (h : OneStands follow s)
    (hguarded : follow.all guarded) (hs : dropTrivia s = s) : kind s ≠ .fixed ['/', '*'] := by
  obtain ⟨f, hf, hstands⟩ := h
  exact (hstands.kind_mem (List.all_eq_true.mp hguarded f hf) hs).2

end Peg

/-- What may stand behind a statement in a program: the end, another statement, the brace that
closes a block, or an `else`. -/
def afterStatement : List Peg :=
  [finish, rule .statement, lit "\x7d", rule .elseKeyword ++ rule .statement]

/-- What may stand behind a sequence of expressions. As the semicolon of a statement may be missing,
another statement may stand there. -/
def afterExpression : List Peg := [lit ";", lit ")", lit "]"] ++ afterStatement

/-- What may stand behind an operand, from the weakest operators to the strongest. An operand of an
operator has only weaker ones behind it, so the lists of the operands are beginnings of this one. -/
def operators : List Peg :=
  [lit "?", rule .logicalOrOperator, rule .logicalAndOperator, rule .equalityOperator,
    rule .relationalOperator, rule .additiveOperator, rule .multiplicativeOperator,
    rule .updateOperator, rule .arguments <|> rule .propertyAccess <|> rule .elementAccess]

/-- What may stand behind an operand of all but the given number of operators. -/
def afterOperand (count : Nat) : List Peg :=
  operators.take count ++
    [lit ",", lit ":", rule .assignmentOperator ++ rule .assignmentExpression] ++ afterExpression

/-- The rules of which it is not told what stands behind them: they are not inside of a
statement of the language. -/
def Rule.unfollowed : List Rule := [.endOfInput, .forInit]

/-- What may stand behind a rule in a program. The grammar fixes these lists; they are written down
here, and found to be right by `Rule.settled`. -/
def Rule.follow : Rule → List Peg
  | .statement | .emptyStatement | .variableStatement | .ifStatement | .returnStatement
  | .functionDeclaration | .expressionStatement => afterStatement
  | .variableDeclarationList => lit ";" :: afterStatement
  | .variableDeclaration => lit "," :: lit ";" :: afterStatement
  | .bindingTarget => lit "=" :: lit "," :: lit ";" :: afterStatement
  | .formalParameters => [rule .block]
  | .formalParameter => [lit ",", lit ")"]
  | .expression => afterExpression
  | .assignmentExpression | .conditionalExpression => afterOperand 0
  | .logicalOrExpression => afterOperand 1
  | .logicalAndExpression => afterOperand 2
  | .equalityExpression => afterOperand 3
  | .relationalExpression => afterOperand 4
  | .additiveExpression => afterOperand 5
  | .multiplicativeExpression => afterOperand 6
  | .unaryExpression | .postfixExpression => afterOperand 7
  | .leftHandSideExpression => afterOperand 8
  | .propertyDefinition | .propertyAssignment => [lit ",", lit "\x7d"]
  | .propertyName => [lit ":"]
  | _ => afterOperand 9

/-! ## Settled expressions

A choice is settled if whatever was left out is told to be left out by each expression that may
follow (`Peg.parted`). Besides, no part but the last may take the semicolon, unless what stands
behind waits for something else.
-/

/-- Whether a rule takes the semicolon behind the text. -/
def Rule.absorbs (r : Rule) : Bool :=
  r ∈ [Rule.statement, .variableStatement, .ifStatement, .returnStatement, .expressionStatement]

namespace Peg

/-- Whether the expression takes the semicolon behind the text. -/
def absorbs : Peg → Bool
  | .rule r => r.absorbs
  | .seq p q | .choice p q => p.absorbs || q.absorbs
  | .optional p => p = lit ";" || p.absorbs
  | _ => false

/-- The kinds of the places where a script may begin. -/
abbrev scriptBegins : List Kind := .finish :: (rule .statement).plainBegins

/-- Whether the expression matches nothing behind the text, nor where a script begins. -/
def waits : Peg → Bool
  | .optional p => p.solid && scriptBegins.all (· ∉ p.begins)
  | _ => false

/-- Whether what may follow tells, also with more behind the text, what the expression leaves out.
The list of a part is the list of the whole with the rest of the whole in front; a rule needs no
more than that what follows it is in its own list. -/
def settles : Peg → List Peg → Bool
  | .word w, _ => w ≠ []
  | .one _, _ | .start, _ | .finish, _ => false
  | .rule r, follow =>
    r ∉ Rule.untold && (!r.plain || r.kinds?.isSome ||
      r ∉ Rule.unfollowed && follow.all fun f => f.spine.any (· ∈ r.follow))
  | .seq p q, follow =>
    p.settles (follow.flatMap q.before) && q.settles follow && (!p.absorbs || q.waits) &&
      (follow.flatMap q.before).all guarded
  | .choice p q, follow =>
    p.settles follow && q.settles follow && (follow.flatMap q.before).all (p.parted ·)
  | .many p, follow =>
    p.settles (p :: follow) && p.consumes && follow.all (p.parted ·) &&
      (p :: follow).all guarded && (!p.absorbs || follow.all consumes)
  | .optional p, follow => p.settles follow && (p = lit ";" || follow.all (p.parted ·))
  | .ahead p, _ => p = rule .returnAtLineEnd
  | .notAhead p, _ => p = (lit "\x7b" <|> rule .functionWord)

section

variable {p q : Peg} {follow : List Peg}

attribute [local simp] settles

/-- The computation, operator by operator, as the induction on matches uses it. -/
theorem settles_seq_iff : (seq p q).settles follow ↔
    p.settles (follow.flatMap q.before) ∧ q.settles follow ∧ (p.absorbs → q.waits) ∧
      (follow.flatMap q.before).all guarded := by
  simp [and_assoc, imp_iff_not_or]

theorem settles_choice_iff : (choice p q).settles follow ↔
    p.settles follow ∧ q.settles follow ∧ (follow.flatMap q.before).all (p.parted ·) := by
  simp [and_assoc]

theorem settles_many_iff : (many p).settles follow ↔
    p.settles (p :: follow) ∧ p.consumes ∧ follow.all (p.parted ·) ∧ (p :: follow).all guarded ∧
      (p.absorbs → follow.all consumes) := by
  simp [and_assoc, imp_iff_not_or]

theorem settles_optional_iff : (Peg.optional p).settles follow ↔
    p.settles follow ∧ (p = lit ";" ∨ follow.all (p.parted ·)) := by
  simp

end

end Peg

/-- **The choices in the rules that occur in programs are settled.** The kernel computes this for
every rule of the grammar, once. -/
theorem Rule.settled {r : Rule} (hplain : r.plain) (htold : r ∉ Rule.untold)
    (hkinds : r.kinds? = none) (hr : r ∉ Rule.unfollowed) :
    r.body.settles r.follow ∧ (r.body.absorbs → r.absorbs) := by
  have h : ∀ r ∈ Rule.all, r.plain → r ∉ Rule.untold → r.kinds? = none → r ∉ Rule.unfollowed →
      r.body.settles r.follow ∧ (r.body.absorbs → r.absorbs) := by decide +kernel
  exact h r r.mem_all hplain htold hkinds hr

/-! ## Matches with more behind them

A match is carried over together with the place where it ends. This is the same place, except for a
match at the end of the text that takes the semicolon, which is then behind it.
-/

/-- Where a match ends with more behind the text, given where it ended: at the same place, or
behind the semicolon. -/
def Carried (more : List Char) (p : Peg) (s t : List Char) : Prop :=
  Extends more s t ∨ p.absorbs ∧ dropTrivia s = [] ∧ dropTrivia t = dropTrivia more

/-- What a part takes of the semicolon, the whole does. -/
theorem Carried.mono {more s t : List Char} {p q : Peg} (h : Carried more p s t)
    (hpq : p.absorbs → q.absorbs) : Carried more q s t :=
  h.imp_right fun ⟨hp, h⟩ => ⟨hpq hp, h⟩

theorem dropTrivia_newline (s : List Char) : dropTrivia ('\n' :: s) = dropTrivia s :=
  dropTrivia_congr (List.dropWhile_cons_of_pos (by decide))

/-- A node that is no token is made alike wherever it is. -/
theorem Rule.made_of_told {r : Rule} (hr : r ∉ Rule.untold) (hkinds : r.kinds? = none)
    (s s' t t' : List Char) (trees : List Tree) :
    r.made .skipped s s' trees = r.made .skipped t t' trees := by
  have h : ∀ r ∈ Rule.all, r ∉ Rule.untold → r.kinds? = none → r.kind ≠ .token := by
    decide +kernel
  rw [Rule.made, Rule.made, if_neg (h r r.mem_all hr hkinds), if_neg (h r r.mem_all hr hkinds)]

namespace Peg

/-- What an expression that is a statement must not begin with. -/
theorem fails_braceOrFunction_iff {s : List Char} :
    (lit "\x7b" <|> rule .functionWord).Fails .skipped s ↔
      kind s ≠ .fixed ['\x7b'] ∧ kind s ≠ .fixed "function".toList := by
  refine ⟨fun h => ⟨fun hkind => ?_, fun hkind => ?_⟩, fun ⟨hbrace, hword⟩ => .both ?_ ?_⟩
  · obtain ⟨s', trees, hmatch⟩ := matches_of_certain (p := lit "\x7b" <|> rule .functionWord)
      (s := s) (by rw [hkind]; decide)
    exact h.not_matches hmatch
  · obtain ⟨s', trees, hmatch⟩ := matches_of_certain (p := lit "\x7b" <|> rule .functionWord)
      (s := s) (by rw [hkind]; decide)
    exact h.not_matches hmatch
  · refine fails_of_not_matches (by decide) (by decide) fun s' trees h => hbrace ?_
    exact (exists_matches_lone_iff (by decide) (by decide) (by decide)).mp ⟨s', trees, h⟩
  · refine (fails_iff rfl (by decide)).mpr fun s' trees h => hword ?_
    obtain ⟨inner, hinner, -⟩ := (matches_token_iff rfl).mp h
    obtain ⟨htake, -, -⟩ := (matches_wholeWords_iff rfl (List.pairwise_singleton _ _)
      (by decide)).mp hinner
    have htake := List.mem_singleton.mp htake
    rw [kind_of_reserved (htake ▸ by decide), htake]

/-- Where neither stands neither does with more behind the text. -/
theorem fails_braceOrFunction_extended {s : List Char}
    (h : (lit "\x7b" <|> rule .functionWord).Fails .skipped s) (more : List Char) :
    (lit "\x7b" <|> rule .functionWord).Fails .skipped (extended more s) := by
  obtain ⟨hbrace, hword⟩ := fails_braceOrFunction_iff.mp h
  rw [fails_braceOrFunction_iff, kind_extended, Kind.extended]
  split
  · exact ⟨by decide, by decide⟩
  · exact ⟨hbrace, hword⟩

/-- A semicolon that is missing is still missing with more behind the text, unless at its end. There
the one behind the text is taken. -/
theorem semicolon_carried {s : List Char} (h : (lit ";").Fails .skipped s)
    (more : List Char) : ∃ t, (Peg.optional (lit ";")).Matches .skipped (extended more s) t [] ∧
      Carried more (.optional (lit ";")) s t := by
  by_cases hs : s = []
  · subst hs
    exact ⟨'\n' :: more, .present (.word rfl), .inr ⟨rfl, dropTrivia_nil, dropTrivia_newline more⟩⟩
  · refine ⟨extended more s, .absent (.word fun s' heq => ?_), .inl (extends_extended more s)⟩
    rw [extended_of_ne_nil hs] at heq
    obtain ⟨u, rfl, -⟩ := eq_append_of_append_cons (by decide) heq
    exact fails_word_iff.mp h u rfl

/-- A `return` that ends its line still does, and nothing is taken to find out. -/
theorem returnAtLineEnd_extended {s s' : List Char} {trees : List Tree}
    (h : (Peg.rule .returnAtLineEnd).Matches .skipped s s' trees) (more : List Char) :
    (Peg.ahead (.rule .returnAtLineEnd)).Matches .skipped (extended more s) (extended more s)
      [] := by
  have hs : s ≠ [] := by
    rintro rfl
    exact absurd (h.length_lt (by decide)) (by simp)
  obtain ⟨s₁, trees₁, hmatch⟩ := (returnAtLineEnd_append (';' :: '\n' :: more)).1 ⟨s', trees, h⟩
  rw [extended_of_ne_nil hs]
  exact .ahead hmatch

/-- What is repeated inside of a statement goes on to its end, so none of the repetitions but the
last ends where the text does. -/
theorem Iterates.dropTrivia_ne_nil {p : Peg} {follow : List Peg} {s s' : List Char}
    {trees : List Tree} (h : p.Iterates .skipped s s' trees) (hp : p.consumes)
    (hfollow : follow.all consumes) (hstands : OneStands follow (dropTrivia s')) :
    dropTrivia s ≠ [] := by
  have hne : ∀ {p : Peg} {s' trees}, p.consumes → p.Matches .skipped (dropTrivia s) s' trees →
      dropTrivia s ≠ [] := by
    intro p s' trees hp h hnil
    rw [hnil] at h
    exact absurd (h.length_lt hp) (by simp)
  rcases iterates_iff.mp h with ⟨-, rfl, -⟩ | ⟨s₁, _, _, hmatch, -, -⟩
  · obtain ⟨f, hf, s₁, trees, hmatch, -⟩ := hstands
    exact hne (List.all_eq_true.mp hfollow f hf) hmatch
  · exact hne hp hmatch

/-- At the place of a repetition stands its body, or what follows the repetition if nothing is
repeated. -/
theorem Iterates.oneStands {p : Peg} {follow : List Peg} {s s' : List Char} {trees : List Tree}
    (h : p.Iterates .skipped s s' trees) (htrees : ∀ t ∈ trees, t.Plain)
    (hstands : OneStands follow (dropTrivia s')) : OneStands (p :: follow) (dropTrivia s) := by
  rcases iterates_iff.mp h with ⟨-, rfl, -⟩ | ⟨s₁, _, _, hmatch, -, rfl⟩
  · obtain ⟨f, hf, hstands⟩ := hstands
    exact ⟨f, List.mem_cons_of_mem _ hf, hstands⟩
  · exact ⟨p, List.mem_cons_self, s₁, _, hmatch, (List.forall_mem_append.mp htrees).1⟩

/-- What follows tells what was left out. -/
theorem OneStands.fails_extended {p : Peg} {follow : List Peg} {s : List Char}
    (h : OneStands follow s) (hparted : follow.all (p.parted ·)) (hfails : p.Fails .skipped s)
    (hs : dropTrivia s = s) (more : List Char) : p.Fails .skipped (extended more s) := by
  obtain ⟨f, hf, hstands⟩ := h
  exact hfails.extended (List.all_eq_true.mp hparted f hf) hstands hs

/-- What follows a rule is told by the rule. -/
theorem OneStands.follow {r : Rule} {follow : List Peg} {s : List Char} (h : OneStands follow s)
    (hr : follow.all fun f => f.spine.any (· ∈ r.follow)) : OneStands r.follow s := by
  obtain ⟨f, hf, hstands⟩ := h
  obtain ⟨g, hg, hmem⟩ := List.any_eq_true.mp (List.all_eq_true.mp hr f hf)
  exact ⟨g, of_decide_eq_true hmem, hstands.of_spine hg⟩

/-- Behind the semicolon, what waits for something else is left out: the next text begins there. -/
theorem waits_carried {more : List Char} (hmore : kind (dropTrivia more) ∈ scriptBegins)
    {p q : Peg} (hq : q.waits) (hp : p.absorbs) {s t s' : List Char}
    {trees : List Tree} (h : q.Matches .skipped (dropTrivia s) s' trees)
    (hs : dropTrivia s = []) (ht : dropTrivia t = dropTrivia more) :
    ∃ t', q.Matches .skipped (dropTrivia t) t' trees ∧ Carried more (seq p q) s' t' := by
  cases q with
  | optional q =>
    obtain ⟨hsolid, hbegins⟩ := Bool.and_eq_true_iff.mp hq
    have hfails : ∀ {u}, dropTrivia u = u → kind u ∈ scriptBegins → q.Fails .skipped u :=
      fun hu hkind => fails_of_kind hsolid hu
        (of_decide_eq_true (List.all_eq_true.mp hbegins _ hkind))
    rcases matches_optional_iff.mp h with ⟨-, rfl, rfl⟩ | h
    · refine ⟨dropTrivia t, .absent (hfails (dropTrivia_dropTrivia t) (ht ▸ hmore)), .inr ?_⟩
      rw [dropTrivia_dropTrivia, dropTrivia_dropTrivia]
      exact ⟨Bool.or_eq_true_iff.mpr (.inl hp), hs, ht⟩
    · rw [hs] at h
      exact absurd h (hfails dropTrivia_nil List.mem_cons_self).not_matches
  | word _ | one _ | start | finish | rule _ | seq _ _ | choice _ _ | many _ | ahead _
  | notAhead _ => cases hq

/-! ### Going on, operator by operator

For each way to match there is a lemma that says when a match goes on to match with more behind the
text, given that its parts do. What follows the match, which decides about the parts that were left
out, is up to the induction (`Peg.Matches.carried`).
-/

/-- The match goes on to match with more behind the text, and makes the same nodes. -/
def Carries (more : List Char) (p : Peg) (s s' : List Char) (trees : List Tree) : Prop :=
  ∃ t', p.Matches .skipped (extended more s) t' trees ∧ Carried more p s' t'

/-- `Carries` for the matches behind the first one of a repetition, of which it is known that the
semicolon is not taken. -/
def CarriesAgain (more : List Char) (p : Peg) (s' t : List Char) (trees : List Tree) : Prop :=
  ∃ t', p.Iterates .skipped t t' trees ∧ Extends more s' t'

section

variable {more : List Char} {p q : Peg} {r : Rule} {s s₁ s' t : List Char}
  {trees trees' : List Tree}

/-- A token ends where it ended, whatever stands behind it now. -/
theorem Carries.token (hr : r.kinds?.isSome) (h : (rule r).Matches .skipped s s' trees) :
    (rule r).Carries more s s' trees :=
  ⟨_, h.token_extended hr more, .inl (.behind _)⟩

/-- What takes nothing goes on to take nothing. -/
theorem Carries.stay (h : p.Matches .skipped (extended more s) (extended more s) []) :
    p.Carries more s s [] :=
  ⟨_, h, .inl (extends_extended more s)⟩

/-- A rule takes the semicolon if its body does, and its node has no text of its own. -/
theorem Carries.rule (htold : r ∉ Rule.untold) (hkinds : r.kinds? = none)
    (habsorbs : r.body.absorbs → r.absorbs) (body : r.body.Carries more s s' trees) :
    (rule r).Carries more s s' (r.made .skipped s s' trees) := by
  obtain ⟨t', body, hcarried⟩ := body
  refine ⟨t', ?_, hcarried.mono habsorbs⟩
  rw [Rule.made_of_told htold hkinds s s' (extended more s) t']
  exact (matches_told_iff htold hkinds).mpr ⟨_, body, rfl⟩

/-- If the first part took the semicolon, the second one has nothing to match. -/
theorem Carries.seq (hmore : kind (dropTrivia more) ∈ scriptBegins)
    (hplace : kind (dropTrivia s₁) ≠ .fixed ['/', '*']) (hwaits : p.absorbs → q.waits)
    (h : q.Matches .skipped (dropTrivia s₁) s' trees') (first : p.Carries more s s₁ trees)
    (second : q.Carries more (dropTrivia s₁) s' trees') :
    (seq p q).Carries more s s' (trees ++ trees') := by
  obtain ⟨t₁, first, hextends | ⟨habsorbs, hs₁, ht₁⟩⟩ := first
  · obtain ⟨t', second, hcarried⟩ := second
    refine ⟨t', .seq first ?_, hcarried.mono fun h => Bool.or_eq_true_iff.mpr (.inr h)⟩
    rwa [Spacing.skip, hextends.dropTrivia_eq hplace]
  · obtain ⟨t', second, hcarried⟩ := waits_carried hmore (hwaits habsorbs) habsorbs h hs₁ ht₁
    exact ⟨t', .seq first second, hcarried⟩

/-- A first alternative that matched is carried over as it is. -/
theorem Carries.left (first : p.Carries more s s' trees) :
    (choice p q).Carries more s s' trees := by
  obtain ⟨t', first, hcarried⟩ := first
  exact ⟨t', .left first, hcarried.mono fun h => Bool.or_eq_true_iff.mpr (.inl h)⟩

/-- A second alternative is carried over if the first one still fails with more text behind, which
is what being settled means. -/
theorem Carries.right (first : p.Fails .skipped (extended more s))
    (second : q.Carries more s s' trees) : (choice p q).Carries more s s' trees := by
  obtain ⟨t', second, hcarried⟩ := second
  exact ⟨t', .right first second, hcarried.mono fun h => Bool.or_eq_true_iff.mpr (.inr h)⟩

/-- What is repeated does not take the semicolon if the repetition goes on behind it. -/
theorem Carries.times (hne : p.absorbs → dropTrivia s₁ ≠ []) (first : p.Carries more s s₁ trees)
    (following : ∀ t, Extends more s₁ t → p.CarriesAgain more s' t trees') :
    (many p).Carries more s s' (trees ++ trees') := by
  obtain ⟨t₁, first, hextends | ⟨habsorbs, hs₁, -⟩⟩ := first
  · obtain ⟨t', following, hextends⟩ := following t₁ hextends
    exact ⟨t', .times first following, .inl hextends⟩
  · exact absurd hs₁ (hne habsorbs)

/-- What might have been left out is taken as it was. -/
theorem Carries.present (body : p.Carries more s s' trees) :
    (Peg.optional p).Carries more s s' trees := by
  obtain ⟨t', body, hcarried⟩ := body
  exact ⟨t', .present body, hcarried.mono fun h => Bool.or_eq_true_iff.mpr (.inr h)⟩

/-- A repetition ends where it ended if its body still fails there. -/
theorem CarriesAgain.stop (ht : Extends more s t)
    (hplace : kind (dropTrivia s) ≠ .fixed ['/', '*'])
    (body : p.Fails .skipped (extended more (dropTrivia s))) : p.CarriesAgain more s t [] := by
  refine ⟨t, .stop ?_, ht⟩
  rwa [Spacing.skip, ht.dropTrivia_eq hplace]

/-- Each match of a repetition is followed by the next one, or by what follows the repetition, and is
not at the end of the text if it could take the semicolon. -/
theorem CarriesAgain.step (ht : Extends more s t)
    (hplace : kind (dropTrivia s) ≠ .fixed ['/', '*']) (hne : p.absorbs → dropTrivia s₁ ≠ [])
    (body : p.Carries more (dropTrivia s) s₁ trees)
    (following : ∀ t, Extends more s₁ t → p.CarriesAgain more s' t trees') :
    p.CarriesAgain more s' t (trees ++ trees') := by
  obtain ⟨t₁, body, hextends | ⟨habsorbs, hs₁, -⟩⟩ := body
  · obtain ⟨t', following, hextends⟩ := following t₁ hextends
    refine ⟨t', .step ?_ following, hextends⟩
    rwa [Spacing.skip, ht.dropTrivia_eq hplace]
  · exact absurd hs₁ (hne habsorbs)

end

mutual

/-- **A match goes on to match with more behind the text**, and makes the same nodes. The match has
to be settled and to be followed by something on its list. The induction is on the match; at a rule,
its body is settled by what was computed. -/
theorem Matches.carried {more : List Char} (hmore : kind (dropTrivia more) ∈ scriptBegins)
    {spacing : Spacing} {p : Peg} {s s' : List Char} {trees : List Tree} {follow : List Peg} :
    p.Matches spacing s s' trees → spacing = .skipped → p.settles follow → dropTrivia s = s →
      (∀ t ∈ trees, t.Plain) → OneStands follow (dropTrivia s') → p.Carries more s s' trees
  | .word h, _, hp, _, _, _ =>
    ⟨_, (Matches.word h).word_extended (of_decide_eq_true hp) more, .inl (.behind _)⟩
  | .rule (r := r) body, hs, hp, hskip, htrees, hfollow => by
    obtain ⟨htold, hr⟩ := Bool.and_eq_true_iff.mp hp
    have htold : r ∉ Rule.untold := of_decide_eq_true htold
    obtain ⟨hplain, hinner⟩ := Tree.plain_of_made htold (hs ▸ htrees)
    rw [hplain, Bool.not_true, Bool.false_or, Bool.or_eq_true] at hr
    rw [hs]
    -- a token is carried over as a whole; any other rule is carried over through its production
    by_cases htoken : r.kinds?.isSome
    · exact .token htoken (.rule (hs ▸ body))
    · obtain ⟨hunfollowed, hr⟩ := Bool.and_eq_true_iff.mp (hr.resolve_left htoken)
      have hkinds := Option.not_isSome_iff_eq_none.mp htoken
      have hinside := Rule.inside_of_told htold hkinds
      obtain ⟨hsettled, habsorbs⟩ :=
        Rule.settled hplain htold hkinds (of_decide_eq_true hunfollowed)
      exact .rule htold hkinds habsorbs (body.carried hmore (hs ▸ hinside) hsettled hskip hinner
        (hfollow.follow hr))
  | @Matches.seq _ _ q _ s₁ s' _ trees' first second, hs, hp, hskip, htrees, hfollow => by
    obtain ⟨hp, hq, hwaits, hguarded⟩ := settles_seq_iff.mp hp
    obtain ⟨htrees, htrees'⟩ := List.forall_mem_append.mp htrees
    -- the second part begins behind the trivia, where nothing more is skipped
    have hskip₁ := dropTrivia_dropTrivia s₁
    have hsecond : q.Matches .skipped (dropTrivia s₁) s' trees' := by rwa [hs] at second
    have hcarries : q.Carries more (dropTrivia s₁) s' trees' := by
      have hcarries := second.carried hmore hs hq (Spacing.dropTrivia_skip hs s₁) htrees' hfollow
      rwa [hs] at hcarries
    have hstands := OneStands.before hsecond htrees' hskip₁ hfollow
    exact .seq hmore (hstands.kind_ne hguarded hskip₁) hwaits hsecond
      (first.carried hmore hs hp hskip htrees hstands) hcarries
  | .left first, hs, hp, hskip, htrees, hfollow =>
    .left (first.carried hmore hs (settles_choice_iff.mp hp).1 hskip htrees hfollow)
  | .right first second, hs, hp, hskip, htrees, hfollow => by
    obtain ⟨-, hq, hparted⟩ := settles_choice_iff.mp hp
    have hstands := OneStands.before (hs ▸ second) htrees hskip hfollow
    -- what stands behind the match tells the first alternative apart, so it fails there as before
    exact .right (hstands.fails_extended hparted (hs ▸ first) hskip more)
      (second.carried hmore hs hq hskip htrees hfollow)
  | .never body, hs, hp, hskip, _, hfollow => by
    obtain ⟨-, -, hparted, -, -⟩ := settles_many_iff.mp hp
    rw [hskip] at hfollow
    exact .stay (.never (hfollow.fails_extended hparted (hs ▸ body) hskip more))
  | @Matches.times _ p _ s₁ s' _ trees' first following, hs, hp, hskip, htrees, hfollow => by
    obtain ⟨hp', hconsumes, -, -, hfinal⟩ := settles_many_iff.mp hp
    obtain ⟨htrees, htrees'⟩ := List.forall_mem_append.mp htrees
    have hfollowing : p.Iterates .skipped s₁ s' trees' := hs ▸ following
    exact .times
      (fun habsorbs => hfollowing.dropTrivia_ne_nil hconsumes (hfinal habsorbs) hfollow)
      (first.carried hmore hs hp' hskip htrees (hfollowing.oneStands htrees' hfollow))
      fun _ ht => following.carried hmore hs hp htrees' hfollow ht
  | .absent body, hs, hp, hskip, _, hfollow => by
    obtain ⟨-, rfl | hparted⟩ := settles_optional_iff.mp hp
    -- the one thing that may be there now and was not: the semicolon at the end
    · exact semicolon_carried (hs ▸ body) more
    · rw [hskip] at hfollow
      exact .stay (.absent (hfollow.fails_extended hparted (hs ▸ body) hskip more))
  | .present body, hs, hp, hskip, htrees, hfollow =>
    .present (body.carried hmore hs (settles_optional_iff.mp hp).1 hskip htrees hfollow)
  | .ahead body, hs, hp, _, _, _ => by
    obtain rfl := of_decide_eq_true hp
    exact .stay (returnAtLineEnd_extended (hs ▸ body) more)
  | .notAhead body, hs, hp, _, _, _ => by
    obtain rfl := of_decide_eq_true hp
    exact .stay (.notAhead (fails_braceOrFunction_extended (hs ▸ body) more))

/-- What is repeated inside of a statement goes on to be repeated with more behind the text. It does
not take the semicolon, since something follows it. -/
theorem Iterates.carried {more : List Char} (hmore : kind (dropTrivia more) ∈ scriptBegins)
    {spacing : Spacing} {p : Peg} {s s' t : List Char} {trees : List Tree} {follow : List Peg} :
    p.Iterates spacing s s' trees → spacing = .skipped → (many p).settles follow →
      (∀ t ∈ trees, t.Plain) → OneStands follow (dropTrivia s') → Extends more s t →
        p.CarriesAgain more s' t trees
  | .stop body, hs, hp, _, hfollow, ht => by
    obtain ⟨-, -, hparted, hguarded, -⟩ := settles_many_iff.mp hp
    have hskip := dropTrivia_dropTrivia s
    have hfails : p.Fails .skipped (dropTrivia s) := by rwa [hs] at body
    exact .stop ht (hfollow.kind_ne (Bool.and_eq_true_iff.mp hguarded).2 hskip)
      (hfollow.fails_extended hparted hfails hskip more)
  | @Iterates.step _ _ _ s₁ _ trees trees' body following, hs, hp, htrees, hfollow, ht => by
    obtain ⟨hp', hconsumes, -, hguarded, hfinal⟩ := settles_many_iff.mp hp
    obtain ⟨htrees, htrees'⟩ := List.forall_mem_append.mp htrees
    have hbody : p.Matches .skipped (dropTrivia s) s₁ trees := by rwa [hs] at body
    have hfollowing : p.Iterates .skipped s₁ s' trees' := hs ▸ following
    have hcarries : p.Carries more (dropTrivia s) s₁ trees := by
      have hcarries := body.carried hmore hs hp' (Spacing.dropTrivia_skip hs s) htrees
        (hfollowing.oneStands htrees' hfollow)
      rwa [hs] at hcarries
    have hstands : OneStands (p :: follow) (dropTrivia s) :=
      ⟨p, List.mem_cons_self, _, _, hbody, htrees⟩
    exact .step ht (hstands.kind_ne hguarded (dropTrivia_dropTrivia s))
      (fun habsorbs => hfollowing.dropTrivia_ne_nil hconsumes (hfinal habsorbs) hfollow)
      hcarries fun _ ht => following.carried hmore hs hp htrees' hfollow ht

end

end Peg

end Scriptlet
