import Mathlib.Data.Bool.AllAny
import Scriptlet.Proofs.Grammar.Corner
import Scriptlet.Proofs.Program.Source

/-!
# Levels of expressions

Where nothing more stands that a level of expressions could take, it passes on what the level below
matches: `Rule.Denotes.lift`. Which levels do so is computed from the grammar, given the kinds of
the places before and behind the expression.

There are a dozen levels of expressions, and a name in parentheses is matched through all of them.
To show that a text is matched, each level would have to be gone through: it tries alternatives that
fail, and behind what it takes looks for an operator that is not there. Both depend on no more than
the kind of the place where the expression begins and the kind of the place where it ends. So the
levels between two rules are passed by one computation (`Rule.passesWithin`), and the few passages
that are needed are listed (`Rule.passages`) and checked together.

The nodes of the levels in between are nodes with one child. They are lowered as their child is, so
that the levels need not be mentioned when it comes to programs (`Rule.Denotes`).
-/

namespace Scriptlet

open Peg

/-! ## Places

What is known of a place: nothing is skipped there, and its kind.
-/

/-- The place is of the kind, and nothing is skipped there. -/
structure At (s : List Char) (k : Kind) : Prop where
  skip : dropTrivia s = s
  kind : kind s = k

namespace At

variable {s : List Char}

/-- A character that is a token whatever stands behind it: no punctuator begins with it but
itself. -/
theorem lone {c : Char} (hc : c ∈ ['(', ')', '[', ']', '\x7b', '\x7d', ',', ';', ':'])
    (s : List Char) : At (c :: s) (.fixed [c]) := by
  have hall : ∀ c ∈ ['(', ')', '[', ']', '\x7b', '\x7d', ',', ';', ':'], isBlank c = false ∧
      c ≠ '/' ∧ [c] ∈ punctuators ∧ [c] ≠ ['.'] ∧ ∀ p ∈ punctuators, [c] <+: p → p = [c] :=
    List.all_iff_forall_prop.mp (by decide)
  obtain ⟨hblank, hslash, hmem, hpoint, hlone⟩ := hall c hc
  exact ⟨dropTrivia_cons hblank hslash s, Opening.kind_of_lone hmem hlone hpoint ⟨s, rfl⟩⟩

/-- A reserved word in front of something else is a token, and is all that the characters of words
make. -/
theorem reserved {w : List Char} (hw : w ∈ reservedWords)
    (hs : ∀ c ∈ s.head?, isIdentChar c = false) :
    At (w ++ s) (.fixed w) ∧ (w ++ s).takeWhile isIdentChar = w ∧
      (w ++ s).dropWhile isIdentChar = s := by
  have hall : ∀ w ∈ reservedWords, w.all isIdentChar := by decide
  obtain ⟨htake, hdrop⟩ := (eq_append_iff_takeWhile (hall w hw)).mp ⟨rfl, hs⟩
  have hmem : (w ++ s).takeWhile isIdentChar ∈ reservedWords := htake.symm ▸ hw
  refine ⟨⟨dropTrivia_of_isIdentStart (isIdentStart_of_reserved hmem), ?_⟩, htake, hdrop.symm⟩
  rw [kind_of_reserved hmem, htake]

/-- What begins with none of a place's kind fails there. -/
theorem fails {k : Kind} (h : At s k) {p : Peg} (hp : p.solid) (hk : k ∉ p.begins) :
    p.Fails .skipped s :=
  fails_of_kind hp h.skip (h.kind ▸ hk)

end At

/-! ## Parts

Matches put together, in the form in which writing a text needs them: places are given as texts with
something in front.
-/

namespace Peg

variable {p q : Peg} {s s₁ s₂ s' : List Char} {trees trees' : List Tree}

/-- One expression after the other, given what is skipped between them and where the second
begins. -/
theorem Matches.andThen (first : p.Matches .skipped s s₁ trees) (hskip : dropTrivia s₁ = s₂)
    (second : q.Matches .skipped s₂ s' trees') :
    (Peg.seq p q).Matches .skipped s s' (trees ++ trees') := by
  rw [← hskip] at second
  exact .seq first second

/-- An expression between two words: parentheses, brackets and braces. -/
theorem matches_enclosed {opening closing : List Char} (hs : dropTrivia s = s)
    (h : p.Matches .skipped s s₁ trees) (hs₁ : dropTrivia s₁ = closing ++ s') :
    (word opening ++ p ++ word closing).Matches .skipped (opening ++ s) s' trees := by
  have hmatch : (word opening ++ p ++ word closing).Matches .skipped (opening ++ s) s'
      ([] ++ trees ++ []) :=
    .andThen (.andThen (.word rfl) hs h) hs₁ (.word rfl)
  rwa [List.nil_append, List.append_nil] at hmatch

/-- What is repeated where nothing is skipped is matched repeatedly: the first match is one like the
others. -/
theorem Iterates.many_of_skip (h : p.Iterates .skipped s s' trees) (hs : dropTrivia s = s) :
    (Peg.many p).Matches .skipped s s' trees := by
  have hskip : Spacing.skipped.skip s = s := hs
  rcases iterates_iff.mp h with ⟨hfails, rfl, rfl⟩ | ⟨s₁, _, _, hfirst, hmore, rfl⟩
  · rw [hskip] at hfails
    exact .never hfails
  · rw [hskip] at hfirst
    exact .times hfirst hmore

/-- A list with commas is its first element and then the others with their commas. -/
theorem matches_commaSeparated (first : p.Matches .skipped s s₁ trees)
    (hs₁ : dropTrivia s₁ = s₁) (rest : (lit "," ++ p).Iterates .skipped s₁ s' trees') :
    (commaSeparated p).Matches .skipped s s' (trees ++ trees') :=
  first.andThen hs₁ (rest.many_of_skip hs₁)

/-- A silent rule matches what its body does. -/
theorem matches_silent_iff {r : Rule} (hr : r.kind = .silent) :
    (rule r).Matches .skipped s s' trees ↔ r.body.Matches .skipped s s' trees := by
  have hmade : ∀ inner, r.made .skipped s s' inner = inner := by
    intro inner
    simp [Rule.made, Rule.visible, hr]
  rw [matches_rule_iff, Rule.inside, hr]
  simp only [hmade, exists_eq_right']

theorem matches_keywordRule {k : Rule × Rule × String} (hk : k ∈ keywords)
    (hs : ∀ c ∈ s.head?, isIdentChar c = false) :
    (rule k.1).Matches .skipped (k.2.2.toList ++ s) s [] := by
  obtain ⟨-, htake, hdrop⟩ := At.reserved (keywords_spec k hk).2.2.2.2 hs
  exact (matches_keywordRule_iff hk).mpr ⟨htake, hdrop.symm, rfl⟩

/-- Whether the expression is a choice that comes to the rule `x` at places of the kind. -/
def picks (k : Kind) (x : Rule) : Peg → Bool
  | .rule r => r = x
  | .choice p q => p.picks k x || p.solid && k ∉ p.begins && q.picks k x
  | _ => false

/-- A choice comes to the alternative that the kind picks, since all before it fail. -/
theorem Matches.picked {k : Kind} (hs : At s k) {x : Rule} (hp : p.picks k x)
    (h : (Peg.rule x).Matches .skipped s s' trees) : p.Matches .skipped s s' trees := by
  fun_induction picks k x p with
  | case1 r =>
    obtain rfl : r = x := of_decide_eq_true hp
    exact h
  | case2 p q ihp ihq =>
    rcases Bool.or_eq_true_iff.mp hp with hp | hq
    · exact .left (ihp hp)
    · rw [Bool.and_eq_true, Bool.and_eq_true, decide_eq_true_eq] at hq
      exact .right (hs.fails hq.1.1 hq.1.2) (ihq hq.2)
  | case3 => cases hp

end Peg

/-- Expressions that do not begin with the token that ends what they are repeated in or left out of.
An empty list of arguments, for instance, ends where arguments would be tried. -/
def Peg.refusals : List (Peg × Kind) :=
  [(commaSeparated (rule .assignmentExpression), .fixed [')']),
    (commaSeparated (rule .formalParameter), .fixed [')']),
    (commaSeparated (rule .propertyDefinition) ++ optional (lit ","), .fixed ['\x7d']),
    (rule .statement, .fixed ['\x7d']), (rule .statement, .finish),
    (rule .expression, .fixed [';'])]

/-- They do not, by computation. -/
theorem Peg.refusals_refuse : ∀ r ∈ refusals, r.1.solid ∧ r.2 ∉ r.1.begins := by
  decide +kernel

theorem At.refused {s : List Char} {k : Kind} (h : At s k) {p : Peg} (hp : (p, k) ∈ refusals) :
    p.Fails .skipped s :=
  h.fails (refusals_refuse _ hp).1 (refusals_refuse _ hp).2

/-! ## Levels

A passage is given by the rule below, the rule above, and the two kinds. It is found by following
the productions upwards.
-/

/-- Whether the expression matches what the rule `x` does between places of the two kinds, and
makes no more of it, if `rules` says so of the rules: it prefers nothing that begins so, and
adds what may be left out only. -/
def Peg.passes (k f : Kind) (x : Rule) (rules : Rule → Bool) : Peg → Bool
  | .rule r => r = x || rules r
  | .seq p (.many q) | .seq p (.optional q) => p.passes k f x rules && q.solid && f ∉ q.begins
  | .choice p q => p.passes k f x rules || p.solid && k ∉ p.begins && q.passes k f x rules
  | _ => false

/-- Whether the rule passes on what the rule `x` matches between places of the two kinds,
through so many rules inside one another. -/
def Rule.passesWithin (k f : Kind) (x : Rule) : Nat → Rule → Bool
  | 0, _ => false
  | n + 1, r =>
    r ∉ Rule.untold && r.kinds?.isNone && (r.kind = .silent || r ∈ Rule.passing) &&
      r.body.passes k f x (passesWithin k f x n)

/-- A node of a level with one child stands for it. -/
theorem Expr.ofTree_passing {r : Rule} (hr : r ∈ Rule.passing) (start : Nat) (text : List Char)
    (only : Tree) : Expr.ofTree ⟨r, start, text, [only]⟩ = Expr.ofTree only := by
  simp only [Rule.passing, Rule.chains, List.cons_append, List.nil_append, List.mem_cons,
    List.not_mem_nil, or_false] at hr
  rcases hr with rfl | rfl | rfl | rfl | rfl | rfl | rfl | rfl | rfl | rfl | rfl | rfl | rfl
  all_goals first | rfl | exact bind_pure (Expr.ofTree only)

/-- An expression matches what the rule below does, if the same is known of the rules in it. That it
makes no more of it is carried along as a property of the node. -/
theorem Peg.Matches.passes {s s' : List Char} {k f : Kind} (hs : At s k) (hs' : At s' f)
    {R : Tree → Prop} {x : Rule}
    (hx : ∃ t, (Peg.rule x).Matches .skipped s s' [t] ∧ R t) {rules : Rule → Bool}
    (hrules : ∀ {r : Rule}, rules r → ∃ t, (Peg.rule r).Matches .skipped s s' [t] ∧ R t)
    {p : Peg} (hp : p.passes k f x rules) : ∃ t, p.Matches .skipped s s' [t] ∧ R t := by
  -- what may be left out is
  have hseq : ∀ {p q : Peg}, (∃ t, p.Matches .skipped s s' [t] ∧ R t) →
      q.Matches .skipped s' s' [] → ∃ t, (Peg.seq p q).Matches .skipped s s' [t] ∧ R t := by
    rintro p q ⟨t, hp, ht⟩ hq
    refine ⟨t, matches_seq_iff.mpr ⟨s', [t], [], hp, ?_, rfl⟩, ht⟩
    rw [Spacing.skip, hs'.skip]
    exact hq
  fun_induction Peg.passes k f x rules p with
  | case1 r =>
    rcases Bool.or_eq_true_iff.mp hp with hr | hr
    · obtain rfl : r = x := of_decide_eq_true hr
      exact hx
    · exact hrules hr
  | case2 p q ih =>
    rw [Bool.and_eq_true, Bool.and_eq_true, decide_eq_true_eq] at hp
    exact hseq (ih hp.1.1) (.never (hs'.fails hp.1.2 hp.2))
  | case3 p q ih =>
    rw [Bool.and_eq_true, Bool.and_eq_true, decide_eq_true_eq] at hp
    exact hseq (ih hp.1.1) (.absent (hs'.fails hp.1.2 hp.2))
  | case4 p q ihp ihq =>
    rcases Bool.or_eq_true_iff.mp hp with h | h
    · obtain ⟨t, h, ht⟩ := ihp h
      exact ⟨t, .left h, ht⟩
    · rw [Bool.and_eq_true, Bool.and_eq_true, decide_eq_true_eq] at h
      obtain ⟨t, hq, ht⟩ := ihq h.2
      exact ⟨t, .right (hs.fails h.1.1 h.1.2) hq, ht⟩
  | case5 => cases hp

/-- Between the places, the rule matches a node that denotes the expression. The two places are all
that is told of the text. -/
def Rule.Denotes (r : Rule) (s s' : List Char) (e : Expr) : Prop :=
  ∃ t, (rule r).Matches .skipped s s' [t] ∧ Expr.ofTree t = .ok e

/-- A rule denotes what a rule below does if it passes that on. -/
theorem Rule.Denotes.of_passesWithin {x : Rule} {s s' : List Char} {e : Expr}
    (h : x.Denotes s s' e) {k f : Kind} (hs : At s k) (hs' : At s' f) {n : Nat} {r : Rule}
    (hr : Rule.passesWithin k f x n r) : r.Denotes s s' e := by
  induction n generalizing r with
  | zero => cases hr
  | succ n ih =>
    simp only [Rule.passesWithin, Bool.and_eq_true, Option.isNone_iff_eq_none,
      decide_eq_true_eq, Bool.or_eq_true] at hr
    obtain ⟨⟨⟨htold, hkinds⟩, hkind⟩, hbody⟩ := hr
    obtain ⟨t, hmatch, ht⟩ := Matches.passes hs hs' h (fun hr => ih hr) hbody
    have hrule := (matches_told_iff htold hkinds).mpr ⟨[t], hmatch, rfl⟩
    rcases hkind with hkind | hkind
    · have hmade : r.made .skipped s s' [t] = [t] := by simp [Rule.made, Rule.visible, hkind]
      exact ⟨t, hmade ▸ hrule, ht⟩
    · have hplain : ∀ r ∈ Rule.passing, r.kind = .plain := by decide
      have hmade : r.made .skipped s s' [t] = [⟨r, 0, [], [t]⟩] := by
        simp [Rule.made, Rule.visible, hplain r hkind]
      exact ⟨_, hmade ▸ hrule, (Expr.ofTree_passing hkind 0 [] t).trans ht⟩

/-- The level of the operands of an operator. -/
def BinaryOp.operand : BinaryOp → Rule
  | .add | .subtract => .multiplicativeExpression
  | .lessThan => .additiveExpression
  | .looseEquals | .strictEquals => .relationalExpression

/-- The rule of an operator. -/
def BinaryOp.operator : BinaryOp → Rule
  | .add | .subtract => .additiveOperator
  | .lessThan => .relationalOperator
  | .looseEquals | .strictEquals => .equalityOperator

/-- The level of an operator. -/
def BinaryOp.level : BinaryOp → Rule
  | .add | .subtract => .additiveExpression
  | .lessThan => .relationalExpression
  | .looseEquals | .strictEquals => .equalityExpression

/-- The levels that an expression passes through when all that is around it are parentheses,
brackets, commas and the operator that it is an operand of: the kinds of the places before and
behind it, the rule that matches it and the level it gets to. -/
def Rule.passages : List (Kind × Kind × Rule × Rule) :=
  let opening : Kind := .fixed ['(']
  let closing : Kind := .fixed [')']
  let atoms : List (Kind × Rule) :=
    [(.number, .numericLiteral), (.string, .stringLiteral), (.name, .identifier),
      (.fixed "null".toList, .nullLiteral), (.fixed "true".toList, .booleanLiteral),
      (.fixed "false".toList, .booleanLiteral), (.fixed "function".toList, .functionExpression),
      (.fixed ['\x7b'], .objectLiteral), (opening, .leftHandSideExpression),
      (opening, .assignmentExpression)]
  let parenthesized : List (Kind × Rule) :=
    [(.fixed [']'], .expression), (.fixed [';'], .expression),
      (.fixed [','], .assignmentExpression), (closing, .assignmentExpression),
      (.fixed [';'], .assignmentExpression), (.fixed ['\x7d'], .assignmentExpression),
      (.fixed ['='], .conditionalExpression), (.fixed ['['], .primaryExpression),
      (opening, .primaryExpression)]
  let operators : List BinaryOp := [.add, .subtract, .lessThan, .looseEquals, .strictEquals]
  atoms.map (fun (k, r) => (k, closing, r, .expression)) ++
    parenthesized.map (fun (f, r) => (opening, f, .parenthesizedExpression, r)) ++
    operators.flatMap fun op =>
      [(opening, .fixed op.token.toList, .parenthesizedExpression, op.operand),
        (opening, closing, .parenthesizedExpression, op.operand),
        (opening, closing, op.level, .expression)]

/-- All passages in the list are such. This is one computation, and the only place where the levels
are gone through. -/
theorem Rule.passages_pass : ∀ p ∈ Rule.passages,
    Rule.passesWithin p.1 p.2.1 p.2.2.1 16 p.2.2.2 := by
  decide +kernel

/-- **A level passes on what another one matches**, if it finds nothing else to take. The table
`Rule.passages` lists where, and which tokens must stand in front of and behind what is passed on.
-/
theorem Rule.Denotes.lift {x r : Rule} {s s' : List Char} {e : Expr} (h : x.Denotes s s' e)
    {k f : Kind} (hs : At s k) (hs' : At s' f) (hr : (k, f, x, r) ∈ Rule.passages) :
    r.Denotes s s' e :=
  h.of_passesWithin hs hs' (Rule.passages_pass _ hr)

end Scriptlet
