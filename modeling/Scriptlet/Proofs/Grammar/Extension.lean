import Scriptlet.Proofs.Grammar.Second

/-!
# More text

More may be put behind a text: a line break, a semicolon and another text. What matched in the text
goes on to match as it did, as long as no choice is decided otherwise. Where an expression was left
out, something else stood that tells that it is also left out with more behind it
(`Peg.Fails.extended`): another first token, for the most part. The exceptions are few, among them
the block behind a `return`, which begins as an object does.

Nothing like this holds of all grammars, nor of all places in this one. A statement at the end of a
text may have left something out because the text ended, and more text might supply it. That is why
it is a semicolon that comes first: it is a statement of its own and continues no other. What
remains to be shown is that whatever was left out before the end of the text is still left out, and
here the expression that stands there instead is used. The two have different first tokens, or the
same first token and a difference behind it (`Peg.excludes`), or they are among three pairs that are
treated by hand (`Peg.contested`).

* `extended`, `Extends`: the places of the text with more behind it.
* `Peg.apart`, `Peg.excludes`, `Peg.fails_of_excludes`: expressions that are told apart.
* `Peg.exists_matches_objectLiteral_iff`: when a brace opens an object.
* `Peg.contested`, `Peg.Fails.extended`: the three pairs, and all choices together.
-/

namespace Scriptlet

open Peg

/-! ## Places

A place in the text is known by what is left there, so the places of the longer text are longer
ones. At the end of the text this is not quite so: the line break is skipped along with the trivia
in front of it, and the place is where the semicolon stands.
-/

/-- What is at a place in the text where nothing is to be skipped, with `more` behind the text.
At the end of the text the line break is skipped. -/
def extended (more s : List Char) : List Char :=
  if s = [] then ';' :: '\n' :: more else s ++ '\n' :: ';' :: '\n' :: more

/-- `Extends more s t`: with `more` behind the text, `t` is at the place where `s` was. -/
inductive Extends (more : List Char) : List Char → List Char → Prop
  | behind (s : List Char) : Extends more s (s ++ '\n' :: ';' :: '\n' :: more)
  | atEnd : Extends more [] (';' :: '\n' :: more)

/-- The kind of a place with more behind the text. -/
def Kind.extended (k : Kind) : Kind := if k = .finish then .fixed [';'] else k

section

variable {more s t : List Char}

/-- Before the end, more stands behind what is left. -/
theorem extended_of_ne_nil (hs : s ≠ []) :
    extended more s = s ++ '\n' :: ';' :: '\n' :: more := if_neg hs

/-- The place that a rest stands for in the longer text is one of those that `Extends` relates to
it. -/
theorem extends_extended (more s : List Char) : Extends more s (extended more s) := by
  rw [extended]
  split
  · next hs =>
    rw [hs]
    exact .atEnd
  · exact .behind s

theorem kind_semicolon (s : List Char) : kind (';' :: s) = .fixed [';'] :=
  Opening.kind_of_lone (by decide) (by decide) (by decide) ⟨s, rfl⟩

/-- With more text behind it a place is of the kind it was of, and at the former end of the text it
is of the kind of the semicolon. -/
theorem kind_extended (more s : List Char) : kind (extended more s) = (kind s).extended := by
  by_cases hs : s = []
  · subst hs
    exact kind_semicolon _
  · rw [extended_of_ne_nil hs, kind_append hs, Kind.extended, if_neg (kind_ne_finish hs)]

/-- Before the end, more text behind a place does not change its kind. -/
theorem kind_extended_of_ne (h : kind s ≠ .finish) : kind (extended more s) = kind s := by
  rw [kind_extended, Kind.extended, if_neg h]

/-- What is skipped does not depend on what is behind the text, unless a comment does not end. In a
match that goes on to the end of the text, no comment is open. -/
theorem Extends.dropTrivia_eq (h : Extends more s t)
    (hkind : kind (dropTrivia s) ≠ .fixed ['/', '*']) :
    dropTrivia t = extended more (dropTrivia s) := by
  have hsemicolon : ∀ u, dropTrivia (';' :: u) = ';' :: u := dropTrivia_cons rfl (by decide)
  cases h with
  | behind =>
    by_cases hs : dropTrivia s = []
    · rw [dropTrivia_append_of_eq_nil hs, hsemicolon, hs, extended, if_pos rfl]
    · rw [dropTrivia_append hs hkind, extended_of_ne_nil hs]
  | atEnd => rw [hsemicolon, dropTrivia_nil, extended, if_pos rfl]

/-- Where nothing is skipped, nothing is skipped with more text either. -/
theorem dropTrivia_extended (hs : dropTrivia s = s) (hkind : kind s ≠ .fixed ['/', '*']) :
    dropTrivia (extended more s) = extended more s := by
  have hskip := (extends_extended more s).dropTrivia_eq (by rwa [hs])
  rwa [hs] at hskip

end

/-! ## Expressions apart

What tells that an expression fails is what matches in its place. This is decided by computation,
from the first tokens of both and, where they begin with the same token, from what is behind it.
-/

namespace Peg

/-- A plain match of the expression tells the kind of its place, and that no comment without end
begins there. Division is an operator, and a comment without end looks like one. -/
def guarded (f : Peg) : Bool := f.told && !f.vacuous && .fixed ['/', '*'] ∉ f.plainBegins

/-- Where the second expression matches, another token stands than the first one begins with, also
with more behind the text. The kind of the end of the text has become a semicolon, and is considered
as that. -/
def apart (p f : Peg) : Bool :=
  p.solid && f.guarded && f.plainBegins.all fun k => k.extended ∉ p.begins

/-- What follows in an expression behind a token that it begins with. -/
def behindToken (p : Peg) : Peg → Option Peg
  | .seq p' f => if p = p' ∧ p.isToken ∧ f.guarded then some f else none
  | _ => none

/-- Where the second expression matches, the first one fails with more behind the text: they
begin with different tokens, or are told apart behind the same token. -/
def excludes : Peg → Peg → Bool
  | .seq p q, f =>
    (seq p q).apart f || p.excludes f || (p.behindToken f).any fun f' => q.excludes f'
  | p, f => p.apart f

/-- The expression matches at the place and makes plain nodes. -/
def StandsPlain (f : Peg) (s : List Char) : Prop :=
  ∃ s' trees, f.Matches .skipped s s' trees ∧ ∀ t ∈ trees, t.Plain

section

variable {p f : Peg} {r : Rule} {more s s' : List Char} {trees : List Tree}

/-- What stands at a place is of one of the kinds that the expression begins with. -/
theorem StandsPlain.kind_mem (h : f.StandsPlain s) (hf : f.guarded) (hs : dropTrivia s = s) :
    kind s ∈ f.plainBegins ∧ kind s ≠ .fixed ['/', '*'] := by
  rw [guarded, Bool.and_eq_true, Bool.and_eq_true, Bool.not_eq_true'] at hf
  obtain ⟨⟨htold, hvacuous⟩, hcomment⟩ := hf
  obtain ⟨s', trees, hmatch, htrees⟩ := h
  have hmem := hmatch.kind_mem_first Rule.admission_plain htold hvacuous hs fun t ht =>
    (htrees t ht).admitted
  exact ⟨hmem, fun hkind => of_decide_eq_true hcomment (hkind ▸ hmem)⟩

/-- What two expressions in sequence match is matched by the one and then the other. -/
theorem StandsPlain.of_seq {q : Peg} (h : (seq p q).StandsPlain s) :
    p.StandsPlain s ∧
      ∃ s₁ trees, p.Matches .skipped s s₁ trees ∧ q.StandsPlain (dropTrivia s₁) := by
  obtain ⟨s', trees, hmatch, htrees⟩ := h
  obtain ⟨s₁, trees₁, trees₂, hfirst, hsecond, rfl⟩ := matches_seq_iff.mp hmatch
  obtain ⟨htrees₁, htrees₂⟩ := List.forall_mem_append.mp htrees
  exact ⟨⟨s₁, trees₁, hfirst, htrees₁⟩, s₁, trees₁, hfirst, s', trees₂, hsecond, htrees₂⟩

/-- A word that matches does so with more behind the text, since it lies in the text as a whole. -/
theorem Matches.word_extended {w : List Char} (hw : w ≠ [])
    (h : (Peg.word w).Matches .skipped s s' trees) (more : List Char) :
    (Peg.word w).Matches .skipped (extended more s) (s' ++ '\n' :: ';' :: '\n' :: more) trees := by
  obtain ⟨rfl, rfl⟩ := matches_word_iff.mp h
  rw [extended_of_ne_nil (by simp [hw]), List.append_assoc]
  exact .word rfl

/-- A token that matches does so with more behind the text and makes the same node, if what comes
behind it does not go on with it. -/
theorem Matches.token_extended (hr : r.kinds?.isSome)
    (h : (Peg.rule r).Matches .skipped s s' trees) (more : List Char) :
    (Peg.rule r).Matches .skipped (extended more s) (s' ++ '\n' :: ';' :: '\n' :: more) trees := by
  have hconsumes : ∀ r ∈ Rule.all, r.kinds?.isSome → r.consumes := by decide
  have hs : s ≠ [] := by
    rintro rfl
    exact absurd (h.length_lt (hconsumes r r.mem_all hr)) (by simp)
  rw [extended_of_ne_nil hs]
  exact h.append_token hr _

/-- What counts as a token here is a word or the rule of one, and matches with more behind the text
in both cases. -/
theorem Matches.isToken_extended (hp : p.isToken) (h : p.Matches .skipped s s' trees)
    (more : List Char) :
    p.Matches .skipped (extended more s) (s' ++ '\n' :: ';' :: '\n' :: more) trees := by
  cases p with
  | word w =>
    have hne : ∀ w ∈ punctuators, w ≠ [] := by decide
    exact h.word_extended (hne w (of_decide_eq_true (Bool.and_eq_true_iff.mp hp).1)) more
  | rule r => exact h.token_extended (Bool.and_eq_true_iff.mp hp).2 more
  | one _ | start | finish | seq _ _ | choice _ _ | many _ | optional _ | ahead _ | notAhead _ =>
    cases hp

/-- Where something else stands, an expression fails. -/
theorem fails_of_apart (hp : p.apart f) (h : f.StandsPlain s) (hs : dropTrivia s = s) :
    p.Fails .skipped (extended more s) := by
  rw [apart, Bool.and_eq_true, Bool.and_eq_true] at hp
  obtain ⟨⟨hsolid, hguarded⟩, hapart⟩ := hp
  obtain ⟨hmem, hcomment⟩ := h.kind_mem hguarded hs
  refine fails_of_kind hsolid (dropTrivia_extended hs hcomment) ?_
  rw [kind_extended]
  exact of_decide_eq_true (List.all_eq_true.mp hapart _ hmem)

/-- The rest of an expression is what follows the token that was taken off. -/
theorem behindToken_eq_some {f' : Peg} (h : p.behindToken f = some f') :
    f = seq p f' ∧ p.isToken ∧ f'.guarded := by
  rw [behindToken.eq_def] at h
  split at h
  · split at h
    · next hf =>
      obtain rfl := Option.some.inj h
      obtain ⟨rfl, htoken, hguarded⟩ := hf
      exact ⟨rfl, htoken, hguarded⟩
    · cases h
  · cases h

/-- An expression also fails where the same token stands but something else behind it. The induction
is on the expression, which may begin with several tokens that are the same. -/
theorem fails_of_excludes (hp : p.excludes f) (h : f.StandsPlain s) (hs : dropTrivia s = s) :
    p.Fails .skipped (extended more s) := by
  induction p generalizing f s with
  | seq p q ihp ihq =>
    rw [excludes, Bool.or_eq_true, Bool.or_eq_true] at hp
    rcases hp with (hp | hp) | hp
    · exact fails_of_apart hp h hs
    · exact .first (ihp hp h hs)
    · obtain ⟨f', hf', hq⟩ := (Option.any_eq_true _ _).mp hp
      obtain ⟨rfl, htoken, hguarded⟩ := behindToken_eq_some hf'
      obtain ⟨-, s₁, trees, hfirst, hsecond⟩ := h.of_seq
      have hskip := dropTrivia_dropTrivia s₁
      have hplace := (@Extends.behind more s₁).dropTrivia_eq (hsecond.kind_mem hguarded hskip).2
      refine .second (hfirst.isToken_extended htoken more) ?_
      rw [Spacing.skip, hplace]
      exact ihq hq hsecond hskip
  | word _ | one _ | start | finish | rule _ | choice _ _ _ _ | many _ _ | optional _ _
  | ahead _ _ | notAhead _ _ => exact fails_of_apart hp h hs

end

end Peg

/-! ## Blocks and objects

When an opening brace begins an object is asked in a text and in the longer one, and answered by the
kinds of two places: the one behind the brace and the one behind the token that stands there.
-/

namespace Peg

/-- A punctuator that no longer one begins with matches at the places of its kind. -/
theorem exists_matches_lone_iff {w s : List Char} (hw : w ∈ punctuators)
    (hlone : ∀ p ∈ punctuators, w <+: p → p = w) (hpoint : w ≠ ['.']) :
    (∃ s' trees, (word w).Matches .skipped s s' trees) ↔ kind s = .fixed w := by
  refine ⟨fun ⟨s', trees, h⟩ => ?_, fun h => matches_of_certain ?_⟩
  · exact Opening.kind_of_lone hw hlone hpoint ⟨s', (matches_word_iff.mp h).1.symm⟩
  · rw [h]
    have hself : w.isPrefixOf w := List.isPrefixOf_iff_prefix.mpr List.prefix_rfl
    exact List.mem_map_of_mem (List.mem_filter.mpr ⟨hw, hself⟩)

/-- A closing brace, a comma and a colon are matched exactly at the places of their kind. -/
theorem exists_matches_brace_iff {s : List Char} :
    (∃ s' trees, (lit "\x7d").Matches .skipped s s' trees) ↔ kind s = .fixed ['\x7d'] :=
  exists_matches_lone_iff (by decide) (by decide) (by decide)

theorem exists_matches_comma_iff {s : List Char} :
    (∃ s' trees, (lit ",").Matches .skipped s s' trees) ↔ kind s = .fixed [','] :=
  exists_matches_lone_iff (by decide) (by decide) (by decide)

theorem exists_matches_colon_iff {s : List Char} :
    (∃ s' trees, (lit ":").Matches .skipped s s' trees) ↔ kind s = .fixed [':'] :=
  exists_matches_lone_iff (by decide) (by decide) (by decide)

/-- A name is matched exactly at the places of the kind of names. -/
theorem exists_matches_identifier_iff {s : List Char} :
    (∃ s' trees, (rule .identifier).Matches .skipped s s' trees) ↔ kind s = .name := by
  refine ⟨fun ⟨s', trees, h⟩ => List.mem_singleton.mp (h.kind_of_token rfl), fun h => ?_⟩
  obtain ⟨hstart, hreserved⟩ := of_kind_eq_name h
  exact ⟨_, _, matches_identifier_iff.mpr ⟨hstart, hreserved, rfl, rfl⟩⟩

section

variable {a : Peg} {s s₂ : List Char} {trees : List Tree} (ha : a.isToken)
  (h : a.Matches .skipped s s₂ trees) (hcolon : kind (dropTrivia s₂) ≠ .fixed [':'])
include ha h hcolon

/-- If there is no colon behind the first token, there is no property with a value. The key,
whatever it is, ends where the token does. -/
theorem not_matches_propertyAssignment {s' : List Char} {trees' : List Tree} :
    ¬(rule .propertyAssignment).Matches .skipped s s' trees' := by
  intro hassignment
  obtain ⟨inner, hinner, -⟩ := matches_rule_iff.mp hassignment
  obtain ⟨_, _, _, hname, -, -⟩ := matches_seq_iff.mp hinner
  obtain ⟨s₁, _, _, hname, hmatch, -⟩ := matches_seq_iff.mp hname
  -- each of the tokens that a name may be ends where the first token does
  have hend : ∀ {r : Rule}, (rule r).isToken → (∀ k ∈ r.kinds?.getD [],
      k ∈ [.number, .string] ++ wordKinds) → ∀ {trees}, (rule r).Matches .skipped s s₁ trees →
        s₁ = s₂ := by
    intro r hr hkinds trees hmatch
    obtain ⟨kinds, hkind⟩ := Option.isSome_iff_exists.mp (Bool.and_eq_true_iff.mp hr).2
    rw [hkind] at hkinds
    exact hmatch.token_end_unique hr ha h (hkinds _ (hmatch.kind_of_token hkind))
  have heq : s₁ = s₂ := by
    obtain ⟨inner, hinner, -⟩ := matches_rule_iff.mp hname
    rcases matches_choice_iff.mp hinner with hstring | ⟨-, hinner⟩
    · exact hend (by decide) (by decide) hstring
    · rcases matches_choice_iff.mp hinner with hnumber | ⟨-, hword⟩
      · exact hend (by decide) (by decide) hnumber
      · exact hend (by decide) (by decide) hword
  rw [heq] at hmatch
  exact hcolon (exists_matches_colon_iff.mp ⟨_, _, hmatch⟩)

/-- What stands between the brace and its end is a property if and only if it is a name. -/
theorem matches_propertyDefinition_iff {s' : List Char} :
    (∃ trees', (rule .propertyDefinition).Matches .skipped s s' trees') ↔
      kind s = .name ∧ s' = s₂ := by
  have hname : ∀ {s' trees'}, (rule .identifier).Matches .skipped s s' trees' → s' = s₂ := by
    intro s' trees' hmatch
    refine hmatch.token_end_unique (by decide) ha h ?_
    rw [exists_matches_identifier_iff.mp ⟨_, _, hmatch⟩]
    decide
  refine ⟨fun ⟨trees', hmatch⟩ => ?_, ?_⟩
  · obtain ⟨inner, hinner, -⟩ := matches_rule_iff.mp hmatch
    rcases matches_choice_iff.mp hinner with hassignment | ⟨-, hshorthand⟩
    · exact absurd hassignment (not_matches_propertyAssignment ha h hcolon)
    · obtain ⟨inner, hinner, -⟩ := matches_rule_iff.mp hshorthand
      exact ⟨exists_matches_identifier_iff.mp ⟨_, _, hinner⟩, hname hinner⟩
  · rintro ⟨hkind, rfl⟩
    obtain ⟨s', trees', hidentifier⟩ := exists_matches_identifier_iff.mpr hkind
    obtain rfl := hname hidentifier
    have hfails : (rule .propertyAssignment).Fails .skipped s :=
      fails_of_not_matches (by decide) (by decide) fun _ _ =>
        not_matches_propertyAssignment ha h hcolon
    exact ⟨_, .rule (r := .propertyDefinition) (.right hfails
      (.rule (r := .shorthandProperty) hidentifier))⟩

end

/-- **When a brace opens an object**, if what is behind its first token is not what goes on in one:
a name alone is in it. An object may have names alone as properties, so this is one. -/
theorem exists_matches_objectLiteral_iff {a : Peg} {s s₂ : List Char} {trees : List Tree}
    (ha : a.isToken) (h : a.Matches .skipped (dropTrivia s) s₂ trees)
    (hbrace : kind (dropTrivia s) ≠ .fixed ['\x7d'])
    (hcolon : kind (dropTrivia s₂) ≠ .fixed [':']) (hcomma : kind (dropTrivia s₂) ≠ .fixed [',']) :
    (∃ s' trees', (rule .objectLiteral).Matches .skipped ('\x7b' :: s) s' trees') ↔
      kind (dropTrivia s) = .name ∧ kind (dropTrivia s₂) = .fixed ['\x7d'] := by
  have hproperty : ∀ s', (∃ trees', (rule .propertyDefinition).Matches .skipped (dropTrivia s) s'
      trees') ↔ kind (dropTrivia s) = .name ∧ s' = s₂ :=
    fun _ => matches_propertyDefinition_iff ha h hcolon
  -- so there is one property at most
  have hcomma : ∀ {s' trees'}, ¬(lit ",").Matches .skipped (dropTrivia s₂) s' trees' :=
    fun h => hcomma (exists_matches_comma_iff.mp ⟨_, _, h⟩)
  refine ⟨fun ⟨s', trees', hmatch⟩ => ?_, fun ⟨hname, hend⟩ => ?_⟩
  · obtain ⟨inner, hinner, -⟩ := (matches_told_iff (by decide) (by decide)).mp hmatch
    obtain ⟨s₅, _, _, hinner, hend, -⟩ := matches_seq_iff.mp hinner
    obtain ⟨s₁, _, _, hopen, hinner, -⟩ := matches_seq_iff.mp hinner
    obtain ⟨-, rfl⟩ := List.cons.inj (matches_word_iff.mp hopen).1
    rcases matches_optional_iff.mp hinner with ⟨-, rfl, -⟩ | hinner
    · rw [Spacing.skip, Spacing.skip, dropTrivia_dropTrivia] at hend
      -- no property at all: then the braces would close at once
      exact absurd (exists_matches_brace_iff.mp ⟨_, _, hend⟩) hbrace
    · obtain ⟨s₄, _, _, hinner, hlast, -⟩ := matches_seq_iff.mp hinner
      obtain ⟨s₃, _, _, hfirst, hmany, -⟩ := matches_seq_iff.mp hinner
      obtain ⟨hname, rfl⟩ := (hproperty _).mp ⟨_, hfirst⟩
      rcases matches_many_iff.mp hmany with ⟨-, rfl, -⟩ | ⟨_, _, _, hagain, -, -⟩
      · rw [Spacing.skip, Spacing.skip, dropTrivia_dropTrivia] at hlast
        rcases matches_optional_iff.mp hlast with ⟨-, rfl, -⟩ | hlast
        · rw [Spacing.skip, dropTrivia_dropTrivia] at hend
          exact ⟨hname, exists_matches_brace_iff.mp ⟨_, _, hend⟩⟩
        · exact absurd hlast hcomma
      · obtain ⟨_, _, _, hagain, -, -⟩ := matches_seq_iff.mp hagain
        exact absurd hagain hcomma
  · obtain ⟨_, hfirst⟩ := (hproperty s₂).mpr ⟨hname, rfl⟩
    obtain ⟨s', trees', hend⟩ := exists_matches_brace_iff.mpr hend
    have hfails : (lit ",").Fails .skipped (dropTrivia s₂) :=
      fails_of_not_matches (by decide) (by decide) fun _ _ => hcomma
    have hmany : (many (lit "," ++ rule .propertyDefinition)).Matches .skipped
        (Spacing.skipped.skip s₂) (dropTrivia s₂) [] := .never (.first hfails)
    have hlast : (Peg.optional (lit ",")).Matches .skipped
        (Spacing.skipped.skip (dropTrivia s₂)) (dropTrivia s₂) [] := by
      rw [Spacing.skip, dropTrivia_dropTrivia]
      exact .absent hfails
    rw [← dropTrivia_dropTrivia] at hend
    exact ⟨s', _, .rule (r := .objectLiteral) (.seq (.seq (.word rfl)
      (.present (.seq (.seq hfirst hmany) hlast))) hend)⟩

theorem exists_matches_objectLiteral_empty {s : List Char}
    (hbrace : kind (dropTrivia s) = .fixed ['\x7d']) :
    ∃ s' trees, (rule .objectLiteral).Matches .skipped ('\x7b' :: s) s' trees := by
  have hfails : (commaSeparated (rule .propertyDefinition) ++ Peg.optional (lit ",")).Fails
      .skipped (dropTrivia s) := by
    refine fails_of_kind (by decide) (dropTrivia_dropTrivia s) ?_
    rw [hbrace]
    decide
  obtain ⟨s', trees, hend⟩ := exists_matches_brace_iff.mpr hbrace
  rw [← dropTrivia_dropTrivia] at hend
  exact ⟨s', _, .rule (r := .objectLiteral) (.seq (.seq (.word rfl) (.absent hfails)) hend)⟩

end Peg

/-! ## Contested choices

The three choices in which the alternatives begin alike. A call's arguments begin as a statement in
parentheses does; an expression statement as any statement, a block and a declared function among
them; and `return` has two forms, with and without an argument.
-/

namespace Peg

section

variable {more s : List Char} (hs : dropTrivia s = s)

/-- With more behind the text an object is one without, if the token that it begins with and what
stands behind that token tell. -/
theorem exists_matches_objectLiteral_extended_iff {a : Peg} {s₁ s₂ : List Char} {trees : List Tree}
    (ha : a.isToken) (h : a.Matches .skipped (dropTrivia s₁) s₂ trees)
    (hbegins : kind (dropTrivia s₁) ∉ [.fixed ['\x7d'], .finish, .fixed ['/', '*']])
    (hbehind : kind (dropTrivia s₂) ∉
      [.fixed [':'], .fixed [','], .finish, .fixed ['/', '*']]) :
    (∃ s' trees', (rule .objectLiteral).Matches .skipped (extended more ('\x7b' :: s₁)) s' trees') ↔
      ∃ s' trees', (rule .objectLiteral).Matches .skipped ('\x7b' :: s₁) s' trees' := by
  simp only [List.mem_cons, List.not_mem_nil, or_false, not_or] at hbegins hbehind
  obtain ⟨hbrace, hfinish, hcomment⟩ := hbegins
  obtain ⟨hcolon, hcomma, hfinish', hcomment'⟩ := hbehind
  have hplace := (@Extends.behind more s₁).dropTrivia_eq hcomment
  have hplace' := (@Extends.behind more s₂).dropTrivia_eq hcomment'
  have hkind : kind (dropTrivia (s₁ ++ '\n' :: ';' :: '\n' :: more)) = kind (dropTrivia s₁) := by
    rw [hplace, kind_extended_of_ne hfinish]
  have hkind' : kind (dropTrivia (s₂ ++ '\n' :: ';' :: '\n' :: more)) = kind (dropTrivia s₂) := by
    rw [hplace', kind_extended_of_ne hfinish']
  have htoken := h.isToken_extended ha more
  rw [← hplace] at htoken
  have hextended : extended more ('\x7b' :: s₁) = '\x7b' :: (s₁ ++ '\n' :: ';' :: '\n' :: more) :=
    extended_of_ne_nil (List.cons_ne_nil _ _)
  rw [hextended, exists_matches_objectLiteral_iff ha htoken (hkind ▸ hbrace) (hkind' ▸ hcolon)
    (hkind' ▸ hcomma), hkind, hkind', exists_matches_objectLiteral_iff ha h hbrace hcolon hcomma]

/-- A plain block is empty, or a token stands in it behind which no object goes on. This is where
the second tokens of statements are used. -/
theorem StandsPlain.block_cases (h : (rule .block).StandsPlain s) :
    ∃ s₁, s = '\x7b' :: s₁ ∧ (kind (dropTrivia s₁) = .fixed ['\x7d'] ∨
      ∃ (a : Peg) (s₂ : List Char) (trees : List Tree),
        a.isToken ∧ a.Matches .skipped (dropTrivia s₁) s₂ trees ∧
        kind (dropTrivia s₁) ∉ [.fixed ['\x7d'], .finish, .fixed ['/', '*']] ∧
        kind (dropTrivia s₂) ∉ [.fixed [':'], .fixed [','], .finish, .fixed ['/', '*']]) := by
  obtain ⟨s', trees, hmatch, htrees⟩ := h
  obtain ⟨inner, hinner, rfl⟩ := (matches_told_iff (by decide) (by decide)).mp hmatch
  obtain ⟨-, hplain⟩ := Tree.plain_of_made (by decide) htrees
  obtain ⟨s₃, _, _, hbody, hend, rfl⟩ := matches_seq_iff.mp hinner
  obtain ⟨s₁, _, _, hopen, hmany, rfl⟩ := matches_seq_iff.mp hbody
  obtain ⟨rfl, rfl⟩ := matches_word_iff.mp hopen
  have hplain := (List.forall_mem_append.mp (List.forall_mem_append.mp hplain).1).2
  refine ⟨s₁, rfl, ?_⟩
  rcases matches_many_iff.mp hmany with ⟨-, rfl, -⟩ | ⟨s₂, _, _, hfirst, hmore, rfl⟩
  · have hkind := exists_matches_brace_iff.mp ⟨_, _, hend⟩
    rw [Spacing.skip, Spacing.skip, dropTrivia_dropTrivia] at hkind
    exact .inl hkind
  · have hplain := List.forall_mem_append.mp hplain
    have hskip := dropTrivia_dropTrivia s₁
    have hguarded : (rule .statement).guarded := by decide
    have hstatement : (rule .statement).StandsPlain (dropTrivia s₁) := ⟨_, _, hfirst, hplain.1⟩
    have hbegins : ∀ k ∈ (rule .statement).plainBegins,
        k ∉ [.fixed ['\x7d'], .finish, .fixed ['/', '*']] := by decide
    have hafter : kind (dropTrivia s₂) ∈ (rule .statement).plainBegins ++ [.fixed ['\x7d']] := by
      rcases iterates_iff.mp hmore with ⟨-, rfl, -⟩ | ⟨_, _, _, hagain, -, rfl⟩
      · have hkind : kind (dropTrivia s₃) = .fixed ['\x7d'] :=
          exists_matches_brace_iff.mp ⟨_, _, hend⟩
        rw [hkind]
        exact List.mem_append_right _ (List.mem_singleton_self _)
      · have hagain : (rule .statement).StandsPlain (dropTrivia s₂) :=
          ⟨_, _, hagain, (List.forall_mem_append.mp hplain.2).1⟩
        exact List.mem_append_left _ (hagain.kind_mem hguarded (dropTrivia_dropTrivia s₂)).1
    -- behind the first token of a statement there is no colon and no comma, by computation
    have havoids : Rule.avoidsWithin
        [.fixed [':'], .fixed [','], .finish, .fixed ['/', '*']] 24
        ((rule .statement).plainBegins ++ [.fixed ['\x7d']]) .statement := by decide
    obtain ⟨a, s₄, trees, ha, htoken, hbehind⟩ := hfirst.tokenBeforeNot hskip 24 havoids
      (by decide) hplain.1 hafter (hfirst.ne_of_consumes (by decide))
    exact .inr ⟨a, s₄, trees, ha, htoken, hbegins _ (hstatement.kind_mem hguarded hskip).1,
      hbehind⟩

/-- An object with more behind it, where a block was, is one without. In both texts it is decided by
the same two kinds. -/
theorem exists_matches_objectLiteral_of_extended (hblock : (rule .block).StandsPlain s)
    (hobject : ∃ s' trees, (rule .objectLiteral).Matches .skipped (extended more s) s' trees) :
    ∃ s' trees, (rule .objectLiteral).Matches .skipped s s' trees := by
  obtain ⟨s₁, rfl, hempty | ⟨a, s₂, trees, ha, htoken, hbegins, hbehind⟩⟩ := hblock.block_cases
  · exact exists_matches_objectLiteral_empty hempty
  · exact (exists_matches_objectLiteral_extended_iff ha htoken hbegins hbehind).mp hobject

include hs

/-- Where a statement stands and no arguments do, there are none with more behind it. Such a
statement begins with a parenthesis, and what is read as arguments is read as a parenthesized
expression. -/
theorem fails_arguments_extended (h : (rule .statement).StandsPlain s)
    (hfails : (rule .arguments).Fails .skipped s) :
    (rule .arguments).Fails .skipped (extended more s) := by
  obtain ⟨hbegins, hcomment⟩ := h.kind_mem (by decide) hs
  refine fails_of_kind (by decide) (dropTrivia_extended hs hcomment) fun hmem => ?_
  rw [kind_extended] at hmem
  -- a statement that begins as arguments do begins with them
  have hkinds : ∀ k ∈ (rule .statement).plainBegins, k.extended ∈ (rule .arguments).begins →
      Rule.leadsWithin Rule.plain k .parenthesizedExpression 24 .statement := by decide
  obtain ⟨s', trees, hmatch, htrees⟩ := h
  obtain ⟨s', trees, hmatch, -⟩ := hmatch.stands Rule.admission_plain hs 24
    (hkinds _ hbegins hmem) fun t ht => (htrees t ht).admitted
  obtain ⟨inner, hinner, -⟩ := (matches_told_iff (by decide) (by decide)).mp hmatch
  obtain ⟨s₂, _, _, hinner, hclose, -⟩ := matches_seq_iff.mp hinner
  obtain ⟨s₁, _, _, hopen, hexpression, -⟩ := matches_seq_iff.mp hinner
  obtain ⟨inner, hinner, -⟩ := (matches_told_iff (by decide) (by decide)).mp hexpression
  exact hfails.not_matches
    (.rule (r := .arguments) (.seq (.seq hopen (.present hinner)) hclose))

/-- A function that is declared is also one that is an expression. So where no expression stands,
there is no such declaration. -/
theorem StandsPlain.exists_functionExpression (h : (rule .statement).StandsPlain s)
    (hkind : kind s = .fixed "function".toList) :
    ∃ s' trees, (rule .functionExpression).Matches .skipped s s' trees := by
  have hleads : Rule.leadsWithin Rule.plain (kind s) .functionDeclaration 24 .statement := by
    rw [hkind]
    decide
  obtain ⟨s', trees, hmatch, htrees⟩ := h
  obtain ⟨s', trees, hmatch, -⟩ := hmatch.stands Rule.admission_plain hs 24 hleads fun t ht =>
    (htrees t ht).admitted
  obtain ⟨inner, hinner, -⟩ := (matches_told_iff (by decide) (by decide)).mp hmatch
  obtain ⟨_, _, _, hinner, hblock, -⟩ := matches_seq_iff.mp hinner
  obtain ⟨_, _, _, hinner, hparameters, -⟩ := matches_seq_iff.mp hinner
  obtain ⟨_, _, _, hkeyword, hname, -⟩ := matches_seq_iff.mp hinner
  exact ⟨_, _, .rule (r := .functionExpression)
    (.seq (.seq (.seq hkeyword (.present hname)) hparameters) hblock)⟩

/-- A statement that begins with a brace is a block. -/
theorem StandsPlain.block_of_brace (h : (rule .statement).StandsPlain s)
    (hkind : kind s = .fixed ['\x7b']) : (rule .block).StandsPlain s := by
  obtain ⟨s', trees, hmatch, htrees⟩ := h
  obtain ⟨inner, hinner, rfl⟩ := (matches_told_iff (by decide) (by decide)).mp hmatch
  rcases matches_choice_iff.mp hinner with hblock | ⟨-, hother⟩
  · exact ⟨_, _, hblock, htrees⟩
  · have hmem := hother.kind_mem_first Rule.admission_plain (by decide) (by decide) hs
      fun t ht => (htrees t ht).admitted
    rw [hkind] at hmem
    exact absurd hmem (by decide)

/-- Where a statement stands and no expression does, there is none with more behind it. -/
theorem fails_expression_extended (h : (rule .statement).StandsPlain s)
    (hfails : (rule .expression).Fails .skipped s) :
    (rule .expression).Fails .skipped (extended more s) := by
  obtain ⟨hbegins, hcomment⟩ := h.kind_mem (by decide) hs
  have hskip := @dropTrivia_extended more s hs hcomment
  refine fails_of_not_matches (by decide) (by decide) fun s' trees hexpression => ?_
  have hmem := hexpression.kind_mem_first Rule.admission_all (by decide) rfl hskip fun t _ =>
    t.admitted_all
  rw [kind_extended] at hmem
  have hlift : ∀ x, Rule.liftsWithin (kind s) x 24 .expression →
      ¬∃ s' trees, (rule x).Matches .skipped s s' trees := by
    intro x hx hmatch
    obtain ⟨s', trees, hmatch⟩ := exists_matches_of_liftsWithin hs hmatch 24 hx
    exact hfails.not_matches hmatch
  have hkinds : ∀ k ∈ (rule .statement).plainBegins, k.extended ∈ (rule .expression).begins →
      Rule.leadsWithin Rule.plain k .expression 24 .statement ∨ k = .fixed "function".toList ∨
        k = .fixed ['\x7b'] := by decide
  rcases hkinds _ hbegins hmem with hleads | hkind | hkind
  · obtain ⟨s₁, trees₁, hmatch, htrees⟩ := h
    obtain ⟨s', trees, hmatch, -⟩ := hmatch.stands Rule.admission_plain hs 24 hleads fun t ht =>
      (htrees t ht).admitted
    exact hfails.not_matches hmatch
  · have hlifts : Rule.liftsWithin (kind s) .functionExpression 24 .expression := by
      rw [hkind]
      decide +kernel
    exact hlift _ hlifts (h.exists_functionExpression hs hkind)
  · -- an object stands where the block does, with more behind it and so also without
    have hleads : Rule.leadsWithin (fun _ => true) (kind (extended more s)) .objectLiteral 24
        .expression := by
      rw [kind_extended, hkind]
      decide
    have hlifts : Rule.liftsWithin (kind s) .objectLiteral 24 .expression := by
      rw [hkind]
      decide +kernel
    obtain ⟨s', trees, hobject, -⟩ := hexpression.stands Rule.admission_all hskip 24 hleads
      fun t _ => t.admitted_all
    exact hlift _ hlifts (exists_matches_objectLiteral_of_extended (h.block_of_brace hs hkind)
      ⟨_, _, hobject⟩)

/-- Whether a `return` ends its line is the same with more behind the text, where a line break
stands. -/
theorem fails_returnAtLineEnd_extended (h : (rule .returnKeyword).StandsPlain s)
    (hfails : (ahead (rule .returnAtLineEnd) ++ rule .returnKeyword).Fails .skipped s) :
    (ahead (rule .returnAtLineEnd) ++ rule .returnKeyword).Fails .skipped (extended more s) := by
  obtain ⟨s', trees, hkeyword, -⟩ := h
  have hne : s ≠ [] := by
    rintro rfl
    exact absurd (hkeyword.length_lt (by decide)) (by simp)
  rcases fails_seq_iff.mp hfails with hahead | ⟨s₁, _, hahead, hsecond⟩
  · rw [extended_of_ne_nil hne]
    exact .first (.ahead ((returnAtLineEnd_append _).2 (fails_ahead_iff.mp hahead)))
  · obtain ⟨-, rfl, -⟩ := matches_ahead_iff.mp hahead
    rw [Spacing.skip_of_dropTrivia rfl hs] at hsecond
    exact absurd hsecond hkeyword.not_fails

end

/-- The expression and those that it begins with, each the first part of the one before. -/
def spine : Peg → List Peg
  | .seq p q => .seq p q :: p.spine
  | p => [p]

/-- Where an expression stands, all of those stand. -/
theorem StandsPlain.of_spine {f g : Peg} {s : List Char} (h : f.StandsPlain s)
    (hg : g ∈ f.spine) : g.StandsPlain s := by
  induction f with
  | seq p q ihp _ =>
    rcases List.mem_cons.mp hg with rfl | hg
    · exact h
    · exact ihp h.of_seq.1 hg
  | word _ | one _ | start | finish | rule _ | choice _ _ _ _ | many _ _ | optional _ _
  | ahead _ _ | notAhead _ _ =>
    obtain rfl := List.mem_singleton.mp hg
    exact h

/-- Expressions that begin alike, of which the first was left out because it fails where the
second matches. -/
def contested : List (Peg × Peg) :=
  [(rule .arguments, rule .statement), (rule .expression, rule .statement),
    (ahead (rule .returnAtLineEnd) ++ rule .returnKeyword, rule .returnKeyword)]

/-- Whether the first expression fails with more behind the text if it did without, where the second
matches. A default value is looked into, since only the equals sign tells it from a parameter. -/
def parted : Peg → Peg → Bool
  | .choice p q, f => p.parted f && q.parted f
  | .rule .defaultParameter, f => Rule.defaultParameter.body.excludes f
  | p, f => p.excludes f || p ∈ f.spine || f.spine.any fun g => (p, g) ∈ contested

/-- **What was left out is left out with more behind the text**, if what stands there instead tells.
Whether it tells is computed for each choice of the grammar (`Peg.parted`). -/
theorem Fails.extended {p f : Peg} {more s : List Char} (hfails : p.Fails .skipped s)
    (hp : p.parted f) (h : f.StandsPlain s) (hs : dropTrivia s = s) :
    p.Fails .skipped (extended more s) := by
  fun_induction parted p f with
  | case1 f p q ihp ihq =>
    obtain ⟨hp, hq⟩ := Bool.and_eq_true_iff.mp hp
    obtain ⟨hfails, hfails'⟩ := fails_choice_iff.mp hfails
    exact .both (ihp hfails hp h) (ihq hfails' hq h)
  | case2 f => exact .rule (fails_of_excludes hp h hs)
  | case3 p f =>
    rw [Bool.or_eq_true, Bool.or_eq_true, List.any_eq_true, decide_eq_true_eq] at hp
    rcases hp with (hp | hp) | ⟨g, hg, hp⟩
    · exact fails_of_excludes hp h hs
    · obtain ⟨s', trees, hmatch, -⟩ := h.of_spine hp
      exact absurd hmatch hfails.not_matches
    · have hg := h.of_spine hg
      simp only [contested, List.mem_cons, Prod.mk.injEq, List.not_mem_nil, or_false,
        decide_eq_true_eq] at hp
      rcases hp with ⟨rfl, rfl⟩ | ⟨rfl, rfl⟩ | ⟨rfl, rfl⟩
      · exact fails_arguments_extended hs hg hfails
      · exact fails_expression_extended hs hg hfails
      · exact fails_returnAtLineEnd_extended hs hg hfails

end Peg

end Scriptlet
