import Scriptlet.Proofs.Grammar.Trailing
import Scriptlet.Proofs.Program.Supported

/-!
# Second tokens

The trees of programs are made of few of the rules (`Tree.Plain`). In such a tree it can be computed
from the grammar what does not stand behind the first token of a match
(`Peg.Matches.tokenBeforeNot`), which tells a block from an object: the two begin alike.

Behind the opening brace, an object has a key, and behind the key a colon, a comma or the closing
brace. A block has statements there, and behind the first token of a plain statement there is
neither a colon nor a comma. So one token more than usual decides between the two, unless there is a
name alone in the braces, which may be either. This is the only place where the grammar cannot be
read with one token at a time, and only the one fact about statements is needed for it.

The computation runs like the one for first tokens, with the kinds of what stands behind the match
as an additional argument (`Peg.avoids`). It is about plain trees: with the operators that the
language does not have, and with sequences, much more could stand behind a first token.
-/

namespace Scriptlet

open Peg

/-! ## Plain trees

Programs have no sequences and few operators, so the trees to be considered are those without the
nodes that lowering refuses.
-/

/-- Whether the rule occurs in programs of the language: it is not foreign, nor an operator
that the language does not have at any rate. -/
def Rule.plain (r : Rule) : Bool :=
  r ∉ Rule.foreign ++ [.unaryOperator, .updateOperator, .multiplicativeOperator]

/-- The plain rules may be admitted: they are closed and few enough levels deep. -/
theorem Rule.admission_plain : Rule.Admission Rule.plain where
  silent := by decide
  closed := by decide +kernel

/-- The tree is one of the language as far as its rules tell, and without sequences. Every tree that
is lowered is plain. -/
def Tree.Plain : Tree → Prop :=
  Tree.Everywhere fun t => t.rule.plain ∧ (t.rule = .expression → t.children.length = 1)

/-- A plain tree is made of plain rules. -/
theorem Tree.Plain.admitted {t : Tree} (h : t.Plain) : t.Admitted Rule.plain := by
  induction h with
  | mk here _ ih => exact .mk here.1 ih

/-- What is plain of the nodes of a rule is plain of the rule and inside. -/
theorem Tree.plain_of_made {r : Rule} (hr : r ∉ Rule.untold) {s s' : List Char}
    {trees : List Tree} (h : ∀ t ∈ r.made .skipped s s' trees, t.Plain) :
    r.plain ∧ ∀ t ∈ trees, t.Plain := by
  refine ⟨(Rule.admission_plain.of_made hr fun t ht => (h t ht).admitted).1, ?_⟩
  rw [Rule.made] at h
  split at h
  · exact (h _ (List.mem_singleton_self _)).children
  · exact h

/-- The kinds of the places where a plain match of the expression may begin. -/
abbrev Peg.plainBegins (p : Peg) : List Kind := p.first (Rule.first Rule.plain)

/-! ## Second tokens

Which kinds an expression avoids behind its first token. For a sequence this is what its first part
avoids, with the beginning of the second part standing behind it.
-/

/-- Whether the expression is a token of the language, other than a point: that may also begin a
number. -/
def Peg.isToken : Peg → Bool
  | .word w => (Peg.word w).told && w ≠ ['.']
  | .rule r => r.plain && r.kinds?.isSome
  | _ => false

/-- Whether nothing of the kinds stands behind the first token of a plain match of the
expression, given the kinds of what stands behind the match and what `rules` says of the
rules. -/
def Peg.avoids (kinds : List Kind) (rules : List Kind → Rule → Bool) (after : List Kind) :
    Peg → Bool
  | .word w => w ≠ ['.'] && after.all (· ∉ kinds)
  | .rule r => rules after r
  | .seq p q =>
    p.avoids kinds rules (q.plainBegins ++ if q.vacuous then after else []) &&
      (p.consumes || q.avoids kinds rules after)
  | .choice p q => p.avoids kinds rules after && q.avoids kinds rules after
  | .many p => p.avoids kinds rules (p.plainBegins ++ after)
  | .optional p => p.avoids kinds rules after
  | .one _ | .start | .finish | .ahead _ | .notAhead _ => true

/-- Whether nothing of the kinds stands behind the first token of a plain match of the rule, through
so many rules inside one another. For a rule that is not plain there is nothing to show, and a
sequence is one expression. -/
def Rule.avoidsWithin (kinds : List Kind) : Nat → List Kind → Rule → Bool
  | 0, _, _ => false
  | n + 1, after, r =>
    !r.plain ||
      if r.kinds?.isSome then after.all (· ∉ kinds)
      else if r = .expression then avoidsWithin kinds n after .assignmentExpression
      else r.body.avoids kinds (avoidsWithin kinds n) after

/-- Behind the first token at the place stands nothing of the kinds. -/
def TokenBeforeNot (kinds : List Kind) (s : List Char) : Prop :=
  ∃ (a : Peg) (s₁ : List Char) (trees : List Tree), a.isToken ∧ a.Matches .skipped s s₁ trees ∧
    kind (dropTrivia s₁) ∉ kinds

/-- What stands behind a part of a plain match: the next part begins, or, if that one is empty,
whatever stands behind it. -/
theorem Peg.Matches.kind_mem_between {q : Peg} {s s' : List Char} {trees : List Tree}
    {after : List Kind} (h : q.Matches .skipped (Spacing.skipped.skip s) s' trees) (hq : q.told)
    (htrees : ∀ t ∈ trees, t.Plain) (hafter : kind (dropTrivia s') ∈ after) :
    kind (dropTrivia s) ∈ q.plainBegins ++ if q.vacuous then after else [] := by
  have hskip : dropTrivia (Spacing.skipped.skip s) = Spacing.skipped.skip s :=
    dropTrivia_dropTrivia s
  rcases h.kind_mem Rule.admission_plain rfl hq hskip fun t ht => (htrees t ht).admitted with
    hfirst | ⟨hempty, hvacuous⟩
  · exact List.mem_append_left _ hfirst
  · rw [hempty, hskip] at hafter
    rw [if_pos hvacuous]
    exact List.mem_append_right _ hafter

section

variable {kinds : List Kind} {s : List Char} (hs : dropTrivia s = s)
include hs

/-- An expression avoids the kinds behind its first token, if the same is known of the rules in
it. -/
theorem Peg.Matches.tokenBeforeNot_of {rules : List Kind → Rule → Bool}
    (hrules : ∀ {r : Rule} {s' : List Char} {trees : List Tree} {after : List Kind},
      (Peg.rule r).Matches .skipped s s' trees → rules after r → r ∉ Rule.untold →
        (∀ t ∈ trees, t.Plain) → kind (dropTrivia s') ∈ after → s' ≠ s → TokenBeforeNot kinds s)
    {p : Peg} {s' : List Char} {trees : List Tree} {after : List Kind}
    (h : p.Matches .skipped s s' trees) (havoids : p.avoids kinds rules after) (hp : p.told)
    (htrees : ∀ t ∈ trees, t.Plain) (hafter : kind (dropTrivia s') ∈ after) (hne : s' ≠ s) :
    TokenBeforeNot kinds s := by
  induction p generalizing s' trees after with
  | word w =>
    obtain ⟨hpoint, havoids⟩ := Bool.and_eq_true_iff.mp havoids
    exact ⟨.word w, s', trees, Bool.and_eq_true_iff.mpr ⟨hp, hpoint⟩, h,
      of_decide_eq_true (List.all_eq_true.mp havoids _ hafter)⟩
  | one _ | start => cases hp
  | finish =>
    obtain ⟨rfl, rfl, -⟩ := matches_finish_iff.mp h
    exact absurd rfl hne
  | rule r => exact hrules h havoids (of_decide_eq_true hp) htrees hafter hne
  | seq p q ihp ihq =>
    obtain ⟨hp, hq⟩ := Bool.and_eq_true_iff.mp hp
    obtain ⟨havoidsp, havoidsq⟩ := Bool.and_eq_true_iff.mp havoids
    obtain ⟨s₁, trees₁, trees₂, hfirst, hsecond, rfl⟩ := matches_seq_iff.mp h
    obtain ⟨htrees, htrees'⟩ := List.forall_mem_append.mp htrees
    -- the first part may have matched nothing, and then the token is in the second one
    by_cases hempty : s₁ = s
    · subst hempty
      rw [Spacing.skip_of_dropTrivia rfl hs] at hsecond
      refine ihq hsecond ?_ hq htrees' hafter hne
      exact (Bool.or_eq_true_iff.mp havoidsq).resolve_left fun hconsumes =>
        hfirst.ne_of_consumes hconsumes rfl
    · exact ihp hfirst havoidsp hp htrees (hsecond.kind_mem_between hq htrees' hafter) hempty
  | choice p q ihp ihq =>
    obtain ⟨hp, hq⟩ := Bool.and_eq_true_iff.mp hp
    obtain ⟨havoidsp, havoidsq⟩ := Bool.and_eq_true_iff.mp havoids
    rcases matches_choice_iff.mp h with h | ⟨-, h⟩
    · exact ihp h havoidsp hp htrees hafter hne
    · exact ihq h havoidsq hq htrees hafter hne
  | many p ih =>
    obtain ⟨hp, hconsumes⟩ := Bool.and_eq_true_iff.mp hp
    rcases matches_many_iff.mp h with ⟨-, hs', -⟩ | ⟨s₁, trees₁, trees₂, hfirst, hmore, rfl⟩
    · exact absurd hs' hne
    · obtain ⟨htrees, htrees'⟩ := List.forall_mem_append.mp htrees
      refine ih hfirst havoids hp htrees ?_ (hfirst.ne_of_consumes hconsumes)
      -- behind the first match comes another one, or what is behind the whole
      rcases iterates_iff.mp hmore with ⟨-, rfl, -⟩ | ⟨s₂, trees₃, trees₄, hagain, -, rfl⟩
      · exact List.mem_append_right _ hafter
      · refine List.mem_append_left _ ?_
        refine (hagain.kind_mem Rule.admission_plain rfl hp (dropTrivia_dropTrivia s₁) fun t ht =>
          (htrees' t (List.mem_append_left _ ht)).admitted).resolve_right fun h => ?_
        exact hagain.ne_of_consumes hconsumes h.1
  | optional p ih =>
    rcases matches_optional_iff.mp h with ⟨-, hs', -⟩ | h
    · exact absurd hs' hne
    · exact ih h havoids hp htrees hafter hne
  | ahead p _ => exact absurd (matches_ahead_iff.mp h).2.1 hne
  | notAhead p _ => exact absurd (matches_notAhead_iff.mp h).2.1 hne

end

/-- A sequence of one expression is that expression, and ends where it does up to trivia. -/
theorem Peg.Matches.of_expression {s s' : List Char} {trees : List Tree}
    (h : (Peg.rule .expression).Matches .skipped s s' trees) (htrees : ∀ t ∈ trees, t.Plain) :
    ∃ s₁ trees₁, (Peg.rule .assignmentExpression).Matches .skipped s s₁ trees₁ ∧
      (∀ t ∈ trees₁, t.Plain) ∧ dropTrivia s₁ = dropTrivia s' := by
  obtain ⟨inner, hinner, rfl⟩ := matches_rule_iff.mp h
  have hnode : Tree.Plain ⟨.expression, 0, [], inner⟩ := htrees _ (List.mem_singleton_self _)
  obtain ⟨s₁, trees₁, trees₂, hfirst, hmore, rfl⟩ := matches_seq_iff.mp hinner
  have hlength : (trees₁ ++ trees₂).length = 1 := hnode.here.2 rfl
  have hplain : ∀ t ∈ trees₁ ++ trees₂, t.Plain := hnode.children
  refine ⟨s₁, trees₁, hfirst, fun t ht => hplain t (List.mem_append_left _ ht), ?_⟩
  have hone : ∀ {s s' trees}, (Peg.rule .assignmentExpression).Matches .skipped s s' trees →
      trees.length = 1 := by
    intro s s' trees h
    obtain ⟨_, _, rfl⟩ := matches_rule_iff.mp h
    rfl
  rcases matches_many_iff.mp hmore with ⟨-, rfl, -⟩ | ⟨s₂, trees₃, trees₄, hagain, -, rfl⟩
  · exact (dropTrivia_dropTrivia s₁).symm
  · obtain ⟨_, _, _, _, hoperand, rfl⟩ := matches_seq_iff.mp hagain
    have h₁ := hone hfirst
    have h₂ := hone hoperand
    simp only [List.length_append] at hlength
    omega

/-- **Behind the first token of a plain match stands none of the kinds that it avoids.** -/
theorem Peg.Matches.tokenBeforeNot {kinds : List Kind} {s : List Char} (hs : dropTrivia s = s)
    (n : Nat) {r : Rule} {s' : List Char} {trees : List Tree} {after : List Kind}
    (h : (Peg.rule r).Matches .skipped s s' trees) (havoids : Rule.avoidsWithin kinds n after r)
    (hr : r ∉ Rule.untold) (htrees : ∀ t ∈ trees, t.Plain)
    (hafter : kind (dropTrivia s') ∈ after) (hne : s' ≠ s) : TokenBeforeNot kinds s := by
  induction n generalizing r s' trees after with
  | zero => cases havoids
  | succ n ih =>
    obtain ⟨inner, hinner, rfl⟩ := matches_rule_iff.mp h
    obtain ⟨hplain, hinnerPlain⟩ := Tree.plain_of_made hr htrees
    rw [Rule.avoidsWithin, hplain, Bool.not_true, Bool.false_or] at havoids
    split at havoids
    · next htoken =>
      exact ⟨.rule r, s', _, Bool.and_eq_true_iff.mpr ⟨hplain, htoken⟩, h,
        of_decide_eq_true (List.all_eq_true.mp havoids _ hafter)⟩
    · next htoken =>
      split at havoids
      · next hexpression =>
        subst hexpression
        obtain ⟨s₁, trees₁, hmatch, hplain₁, hs₁⟩ := h.of_expression htrees
        rw [← hs₁] at hafter
        exact ih hmatch havoids (by decide) hplain₁ hafter (hmatch.ne_of_consumes (by decide))
      · rw [Bool.not_eq_true, Option.isSome_eq_false_iff, Option.isNone_iff_eq_none] at htoken
        rw [Rule.inside_of_told hr htoken] at hinner
        exact hinner.tokenBeforeNot_of hs (fun h => ih h) havoids
          (Rule.admission_plain.closed r r.mem_all hr hplain htoken).1 hinnerPlain hafter hne

/-! ## Where tokens end

To compare the second tokens of two matches at one place, the first tokens have to end at the same
place. They do if they are words, numbers or strings. Operators may overlap.
-/

/-- Kinds of places where characters of words stand. -/
def wordKinds : List Kind := .name :: reservedWords.map .fixed

/-- At a place where characters of words stand, the token is all of them. A number and a string are
told by their kind alone. -/
theorem Peg.Matches.token_end {a : Peg} (ha : a.isToken) {s s' : List Char} {trees : List Tree}
    (h : a.Matches .skipped s s' trees) :
    (kind s ∈ wordKinds → s' = s.dropWhile isIdentChar) ∧
      (kind s = .number → a = .rule .numericLiteral) ∧
        (kind s = .string → a = .rule .stringLiteral) := by
  cases a with
  | word w =>
    obtain ⟨hw, hpoint⟩ := Bool.and_eq_true_iff.mp ha
    obtain ⟨hs, -⟩ := matches_word_iff.mp h
    -- a punctuator is not of any of these kinds
    have hkinds : ∀ p ∈ punctuators, Kind.fixed p ∉ wordKinds := by decide +kernel
    rcases Opening.kind_of_punctuator (of_decide_eq_true hw) ⟨s', hs.symm⟩ with
      ⟨p, hp, -, -, hkind⟩ | ⟨hw, -⟩
    · rw [hkind]
      exact ⟨fun hmem => absurd hmem (hkinds p hp), nofun, nofun⟩
    · exact absurd hw (of_decide_eq_true hpoint)
  | rule r =>
    obtain ⟨hplain, htoken⟩ := Bool.and_eq_true_iff.mp ha
    obtain ⟨kinds, hr⟩ := Option.isSome_iff_exists.mp htoken
    have hkind := h.kind_of_token hr
    have hkinds : ∀ r ∈ Rule.all, ∀ kinds ∈ r.kinds?, r.plain →
        ((.number ∈ kinds → r = .numericLiteral) ∧ (.string ∈ kinds → r = .stringLiteral)) ∧
          ((∀ k ∈ kinds, k ∉ wordKinds) ∨ r ∈ keywords.map (·.1) ∨
            r ∈ [.identifier, .identifierName, .varKind, .nullLiteral, .booleanLiteral]) := by
      decide +kernel
    obtain ⟨⟨hnumber, hstring⟩, hwords⟩ := hkinds r r.mem_all kinds hr hplain
    refine ⟨fun hmem => ?_, fun h => ?_, fun h => ?_⟩
    · rcases hwords with hnot | hkeyword | hmem'
      · exact absurd hmem (hnot _ hkind)
      · obtain ⟨k, hk, rfl⟩ := List.mem_map.mp hkeyword
        exact ((matches_keywordRule_iff hk).mp h).2.1
      · simp only [List.mem_cons, List.not_mem_nil, or_false] at hmem'
        rcases hmem' with rfl | rfl | hwhole
        · exact (matches_identifier_iff.mp h).2.2.1
        · exact (matches_identifierName_iff.mp h).2.1
        · have hbody : ∃ p : Peg, r.body = p ++ Peg.notAhead (.rule .identChar) ∧ p.isWords ∧
              (p.texts.Pairwise fun a b => ¬a <+: b ∧ ¬b <+: a) ∧
              (∀ w ∈ p.texts, w.all isIdentChar) ∧ r.kind = .token := by
            rcases hwhole with rfl | rfl | rfl <;> exact ⟨_, rfl, by decide⟩
          obtain ⟨p, hp, hwords, hfree, hchars, htoken⟩ := hbody
          obtain ⟨inner, hinner, -⟩ := (matches_token_iff htoken).mp h
          rw [hp] at hinner
          exact ((matches_wholeWords_iff hwords hfree hchars).mp hinner).2.1
    · rw [hnumber (h ▸ hkind)]
    · rw [hstring (h ▸ hkind)]
  | one _ | start | finish | seq _ _ | choice _ _ | many _ | optional _ | ahead _ | notAhead _ =>
    cases ha

/-- Where a name, a literal or a reserved word stands, tokens end at the same place, whatever rules
they are of. -/
theorem Peg.Matches.token_end_unique {a b : Peg} (ha : a.isToken) (hb : b.isToken)
    {s s₁ s₂ : List Char} {trees₁ trees₂ : List Tree} (h₁ : a.Matches .skipped s s₁ trees₁)
    (h₂ : b.Matches .skipped s s₂ trees₂) (hkind : kind s ∈ [.number, .string] ++ wordKinds) :
    s₁ = s₂ := by
  obtain ⟨hword₁, hnumber₁, hstring₁⟩ := h₁.token_end ha
  obtain ⟨hword₂, hnumber₂, hstring₂⟩ := h₂.token_end hb
  simp only [List.cons_append, List.nil_append, List.mem_cons] at hkind
  rcases hkind with hkind | hkind | hkind
  · rw [hnumber₁ hkind] at h₁
    rw [hnumber₂ hkind] at h₂
    exact (h₁.unique h₂).1
  · rw [hstring₁ hkind] at h₁
    rw [hstring₂ hkind] at h₂
    exact (h₁.unique h₂).1
  · rw [hword₁ hkind, hword₂ hkind]

end Scriptlet
