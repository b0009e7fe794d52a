import Scriptlet.Proofs.Grammar.Trailing

/-!
# Gaps

A gap is a place where a match skips white space and comments (`Peg.Skips`). What stands before a
gap is outside of comments and strings, so a text can be read from its beginning up to the gap
character by character, each comment and each string in one go. If two texts differ in one gap only
and are read alike up to it, they are `Respaced`; the trivia at the beginning of such texts are
skipped alike (`Respaced.skip`).

Not every change to the white space at a gap is harmless, for two reasons. A gap must not vanish, or
what stands before it may join with what stands behind; and behind a `return` a line break counts.
`Regapped` says what is asked of two gaps: they have the same text behind their trivia, the new one
begins with white space, and the line ends alike in both. `Seam` says what of this matters to the
tokens in front.

* `Inline`: trivia within a line, which may be put into a gap in any case.
* `Regapped`, `Seam`: what is asked of the two gaps.
* `Respaced`, `Respaced.skip`: the texts in front of the gaps.
* `Peg.Skips`: the gaps of a match.
-/

namespace Scriptlet

/-! ## Trivia within a line

How `dropTrivia` goes on over each kind of trivia. What a comment is, is a matter of texts here: a
body without the end of a comment in it, and the end.
-/

/-- The white space within a line. -/
def isInlineBlank (c : Char) : Bool := c = ' ' || (c = '\t' || c = '\ufeff')

/-- White space and block comments within a line. -/
inductive Inline : List Char → Prop
  | nil : Inline []
  | blank {c : Char} {s : List Char} (hc : isInlineBlank c) (more : Inline s) : Inline (c :: s)
  | comment {body s : List Char} (hend : ¬['*', '/'] <:+: body) (hfeed : '\n' ∉ body)
    (hreturn : '\r' ∉ body) (more : Inline s) : Inline ('/' :: '*' :: (body ++ '*' :: '/' :: s))

/-- White space within a line is white space. -/
theorem isBlank_of_isInlineBlank {c : Char} (h : isInlineBlank c) : isBlank c := by
  simp only [isInlineBlank, Bool.or_eq_true, decide_eq_true_eq] at h
  rcases h with rfl | rfl | rfl <;> decide

theorem dropTrivia_blank {c : Char} (h : isBlank c) (s : List Char) :
    dropTrivia (c :: s) = dropTrivia s :=
  dropTrivia_congr (List.dropWhile_cons_of_pos h)

/-- A comment is skipped as a whole, and then what comes behind it. -/
theorem dropTrivia_behind {s s' : List Char} (h : behindComment s = some s') :
    dropTrivia s = dropTrivia s' := by
  have hdrop : s.dropWhile isBlank = s := by
    rw [behindComment.eq_def] at h
    split at h
    · rfl
    · rfl
    · cases h
  exact dropTrivia_of_comment (hdrop.symm ▸ h)

/-- A block comment does not end before its end. -/
theorem not_blockEnd {c : Char} {body : List Char} (h : ¬['*', '/'] <:+: c :: body)
    (s : List Char) : ¬['*', '/'].isPrefixOf (c :: (body ++ '*' :: '/' :: s)) := by
  intro hbegins
  obtain ⟨t, ht⟩ := List.isPrefixOf_iff_prefix.mp hbegins
  obtain ⟨rfl, ht'⟩ := List.cons.inj ht
  cases body with
  | nil => exact absurd (List.cons.inj ht').1 (by decide)
  | cons d body =>
    obtain ⟨rfl, -⟩ := List.cons.inj ht'
    exact h ⟨[], body, rfl⟩

/-- What is not in a text is not in the rest of it. -/
theorem not_infix_of_cons {c : Char} {body : List Char} (h : ¬['*', '/'] <:+: c :: body) :
    ¬['*', '/'] <:+: body :=
  fun hinside => h (hinside.trans (List.suffix_cons c body).isInfix)

/-- A block comment goes on up to the first place where one may end. -/
theorem behindBlock_of_body {body : List Char} (h : ¬['*', '/'] <:+: body) (s : List Char) :
    behindBlock (body ++ '*' :: '/' :: s) = some s := by
  induction body with
  | nil => rfl
  | cons c body ih =>
    rw [List.cons_append, behindBlock, if_neg (not_blockEnd h s)]
    exact ih (not_infix_of_cons h)

/-- What is behind a block comment stands behind its end. -/
theorem exists_blockBody {s s' : List Char} (h : behindBlock s = some s') :
    ∃ body, ¬['*', '/'] <:+: body ∧ s = body ++ '*' :: '/' :: s' := by
  induction s with
  | nil => cases h
  | cons c s ih =>
    rw [behindBlock] at h
    split at h
    · next hbegins =>
      obtain rfl := Option.some.inj h
      obtain ⟨t, ht⟩ := List.isPrefixOf_iff_prefix.mp hbegins
      obtain ⟨rfl, rfl⟩ := List.cons.inj ht
      exact ⟨[], by simp, rfl⟩
    · next hbegins =>
      obtain ⟨body, hbody, rfl⟩ := ih h
      refine ⟨c :: body, fun hinside => ?_, rfl⟩
      rcases List.infix_cons_iff.mp hinside with hstarts | hinside
      · exact hbegins (List.isPrefixOf_iff_prefix.mpr (hstarts.trans (List.prefix_append _ _)))
      · exact hbody hinside

/-- A slash that begins no comment is not skipped. -/
theorem dropTrivia_slash {s : List Char} (h : ∀ d ∈ s.head?, d ≠ '/' ∧ d ≠ '*') :
    dropTrivia ('/' :: s) = '/' :: s := by
  have hdrop : ('/' :: s).dropWhile isBlank = '/' :: s := rfl
  rw [dropTrivia_of_no_comment, hdrop]
  rw [hdrop, behindComment.eq_def]
  split
  · next heq =>
    obtain ⟨-, rfl⟩ := List.cons.inj heq
    exact absurd rfl (h '/' rfl).1
  · next heq =>
    obtain ⟨-, rfl⟩ := List.cons.inj heq
    exact absurd rfl (h '*' rfl).2
  · rfl

theorem dropTrivia_block {body : List Char} (h : ¬['*', '/'] <:+: body) (s : List Char) :
    dropTrivia ('/' :: '*' :: (body ++ '*' :: '/' :: s)) = dropTrivia s :=
  dropTrivia_behind (behindBlock_of_body h s)

theorem dropTrivia_line {body : List Char} (h : '\n' ∉ body) (s : List Char) :
    dropTrivia ('/' :: '/' :: (body ++ '\n' :: s)) = dropTrivia s := by
  have hbody : ∀ c ∈ body, decide (c ≠ '\n') = true := fun c hc =>
    decide_eq_true fun heq => h (heq ▸ hc)
  have hdrop : (body ++ '\n' :: s).dropWhile (· ≠ '\n') = '\n' :: s := by
    rw [List.dropWhile_append_of_pos hbody]
    exact List.dropWhile_cons_of_neg (by decide)
  have hbehind : behindComment ('/' :: '/' :: (body ++ '\n' :: s)) = some ('\n' :: s) :=
    congrArg some hdrop
  rw [dropTrivia_behind hbehind]
  exact dropTrivia_blank (by decide) s

/-- Of a text that nothing is skipped of, nothing could be skipped: if two texts have the same
behind their trivia, the longer one begins with trivia. -/
theorem dropTrivia_ne_self {s s' : List Char} (h : dropTrivia s = dropTrivia s')
    (hlength : s'.length < s.length) : dropTrivia s ≠ s := by
  intro hs
  have hle := (dropTrivia_suffix s').length_le
  rw [← h, hs] at hle
  omega

/-- At a block comment something is skipped, so that the place behind it is another one. -/
theorem dropTrivia_block_ne {body : List Char} (h : ¬['*', '/'] <:+: body) (s : List Char) :
    dropTrivia ('/' :: '*' :: (body ++ '*' :: '/' :: s)) ≠
      '/' :: '*' :: (body ++ '*' :: '/' :: s) :=
  dropTrivia_ne_self (dropTrivia_block h s) (by simp; omega)

theorem dropTrivia_line_ne {body : List Char} (h : '\n' ∉ body) (s : List Char) :
    dropTrivia ('/' :: '/' :: (body ++ '\n' :: s)) ≠ '/' :: '/' :: (body ++ '\n' :: s) :=
  dropTrivia_ne_self (dropTrivia_line h s) (by simp; omega)

/-- A character that is no white space and begins no comment is not skipped. -/
theorem dropTrivia_char {c : Char} {s : List Char} (hblank : isBlank c = false)
    (hslash : c = '/' → ∀ d ∈ s.head?, d ≠ '/' ∧ d ≠ '*') : dropTrivia (c :: s) = c :: s := by
  by_cases hc : c = '/'
  · subst hc
    exact dropTrivia_slash (hslash rfl)
  · exact dropTrivia_cons hblank hc s

/-- Nothing is skipped at a quote, since no trivia begin with one. -/
theorem dropTrivia_quote {quote : Char} (h : quote = '"' ∨ quote = '\'') (s : List Char) :
    dropTrivia (quote :: s) = quote :: s := by
  rcases h with rfl | rfl
  · exact dropTrivia_cons (by decide) (by decide) s
  · exact dropTrivia_cons (by decide) (by decide) s

/-- Trivia within a line are skipped, as trivia are. -/
theorem Inline.dropTrivia {text : List Char} (h : Inline text) (s : List Char) :
    dropTrivia (text ++ s) = Scriptlet.dropTrivia s := by
  induction h with
  | nil => rfl
  | blank hc _ ih => rw [List.cons_append, dropTrivia_blank (isBlank_of_isInlineBlank hc), ih]
  | comment hend _ _ _ ih =>
    simp only [List.cons_append, List.append_assoc]
    rw [dropTrivia_block hend, ih]

/-! ## Strings

Between the quotes there may be anything but the quote and line breaks, and anything behind a
backslash.
-/

/-- The characters between the quotes of a string. -/
inductive Quoted (quote : Char) : List Char → Prop
  | nil : Quoted quote []
  | plain {c : Char} {s : List Char} (hc : c ≠ quote ∧ c ≠ '\\' ∧ c ≠ '\n')
    (more : Quoted quote s) : Quoted quote (c :: s)
  | escaped {c : Char} {s : List Char} (more : Quoted quote s) : Quoted quote ('\\' :: c :: s)

/-- A string ends at the first quote that stands behind such characters. -/
theorem Quoted.behindChars {quote : Char} (hquote : quote ≠ '\\') {text : List Char}
    (h : Quoted quote text) (s : List Char) :
    behindChars quote (text ++ quote :: s) = quote :: s := by
  induction h with
  | nil => cases s <;> simp [Scriptlet.behindChars, hquote]
  | @plain c text hc _ ih =>
    cases text with
    | nil => simpa [Scriptlet.behindChars, hc] using ih
    | cons d text => simpa [Scriptlet.behindChars, hc] using ih
  | escaped _ ih =>
    rw [List.cons_append, List.cons_append, Scriptlet.behindChars, if_pos rfl]
    exact ih

/-- Conversely, the characters in front of the quote at which a string ends are such characters. -/
theorem quoted_of_behindChars {quote : Char} {s s' : List Char}
    (h : behindChars quote s = quote :: s') :
    ∃ text, Quoted quote text ∧ s = text ++ quote :: s' := by
  fun_induction behindChars quote s with
  | case1 => cases h
  | case2 c _ => exact ⟨[], .nil, h⟩
  | case3 => cases h
  | case4 d s ih =>
    obtain ⟨text, htext, rfl⟩ := ih h
    exact ⟨'\\' :: d :: text, .escaped htext, rfl⟩
  | case5 c d s _ _ => exact ⟨[], .nil, h⟩
  | case6 c d s hne hstop ih =>
    obtain ⟨text, htext, hs⟩ := ih h
    rw [not_or] at hstop
    exact ⟨c :: text, .plain ⟨hstop.1, hne, hstop.2⟩ htext, by rw [hs]; rfl⟩

/-! ## Texts that differ in a gap

Two texts are compared from their beginnings. Where they differ is given by the two rests `z` and
`z'`; in front of these the texts are the same, and read in the same portions.
-/

/-- Characters that are neither white space nor quotes nor slashes. -/
def isOrdinary (c : Char) : Bool := !isBlank c && (c ≠ '"' && (c ≠ '\'' && c ≠ '/'))

/-- Ordinary characters are those that no comment, string or white space begins with. -/
theorem isOrdinary_iff {c : Char} :
    isOrdinary c ↔ isBlank c = false ∧ c ≠ '"' ∧ c ≠ '\'' ∧ c ≠ '/' := by
  simp [isOrdinary]

/-- What may stand between a `return` and the end of its line. -/
def inlineTrivium : Peg :=
  Peg.lit " " <|> Peg.lit "\t" <|> Peg.lit "\ufeff" <|> Peg.rule .inlineBlockComment

/-- Behind trivia within the line the line ends. This is what is looked ahead for behind a
`return`. -/
def EndsLine (s : List Char) : Prop :=
  ∃ s' trees, inlineTrivium.Iterates .token s s' trees ∧ ¬Peg.lineEnd.Fails .token s'

/-- The texts begin with trivia, and behind them they are the same; the line ends alike in both. The
first text does not begin with a line break, and the second begins with white space, so that no line
comment and no token of the text in front goes on. -/
structure Regapped (z z' : List Char) : Prop where
  skip : dropTrivia z = dropTrivia z'
  apart : dropTrivia z ≠ z
  inline : '\n' ∉ z.head?
  blank : ∃ c ∈ z'.head?, isBlank c
  line : EndsLine z ↔ EndsLine z'

/-- A gap begins with white space or with a comment. -/
theorem Regapped.exists_head {z z' : List Char} (hz : Regapped z z') :
    ∃ c u, z = c :: u ∧ (isBlank c ∨ c = '/') := by
  cases z with
  | nil => exact absurd (List.suffix_nil.mp (dropTrivia_suffix [])) hz.apart
  | cons c u =>
    refine ⟨c, u, rfl, ?_⟩
    by_contra hc
    rw [not_or, Bool.not_eq_true] at hc
    exact hz.apart (dropTrivia_cons hc.1 hc.2 u)

/-- What is asked of the places up to which two texts are the same, so that the texts end their
lines alike: a comment or a name goes on in neither, and the line ends alike in both. -/
structure Seam (z z' : List Char) : Prop where
  head : (∀ d ∈ z.head?, d ≠ '/' ∧ d ≠ '*') → ∀ d ∈ z'.head?, d ≠ '/' ∧ d ≠ '*'
  name : ∀ u ∈ [z, z'], ∀ c ∈ u.head?, isIdentChar c = false
  line : EndsLine z ↔ EndsLine z'

/-- Gaps are places at which texts may differ. -/
theorem Regapped.seam {z z' : List Char} (hz : Regapped z z') : Seam z z' where
  head := fun _ d hd => by
    obtain ⟨c, hc, hblank⟩ := hz.blank
    obtain rfl := Option.mem_unique hc hd
    refine ⟨?_, ?_⟩ <;>
    · rintro rfl
      cases hblank
  name := by
    have hnone : ∀ {c : Char}, isBlank c ∨ c = '/' → isIdentChar c = false := by
      intro c hc
      simp only [isBlank, Bool.or_eq_true, decide_eq_true_eq] at hc
      rcases hc with (rfl | rfl | rfl | rfl | rfl) | rfl <;> decide
    obtain ⟨c, u, rfl, hc⟩ := hz.exists_head
    obtain ⟨d, hd, hd'⟩ := hz.blank
    simp only [List.forall_mem_cons, List.not_mem_nil, false_imp_iff, implies_true, and_true]
    refine ⟨?_, ?_⟩
    · rintro _ ⟨⟩
      exact hnone hc
    · intro e he
      obtain rfl := Option.mem_unique hd he
      exact hnone (.inl hd')
  line := hz.line

/-- The first text leads up to `z` and the second, in the same way, up to `z'`. Comments and strings
are passed in one go, so `z` is not inside of one. -/
inductive Respaced (z z' : List Char) : List Char → List Char → Prop
  | here : Respaced z z' z z'
  | char {c : Char} {s t : List Char} (hc : c ≠ '"' ∧ c ≠ '\'')
    (hslash : c = '/' → ∀ d ∈ s.head?, d ≠ '/' ∧ d ≠ '*') (more : Respaced z z' s t) :
    Respaced z z' (c :: s) (c :: t)
  | block {body s t : List Char} (hend : ¬['*', '/'] <:+: body) (more : Respaced z z' s t) :
    Respaced z z' ('/' :: '*' :: (body ++ '*' :: '/' :: s))
      ('/' :: '*' :: (body ++ '*' :: '/' :: t))
  | line {body s t : List Char} (hend : '\n' ∉ body) (more : Respaced z z' s t) :
    Respaced z z' ('/' :: '/' :: (body ++ '\n' :: s)) ('/' :: '/' :: (body ++ '\n' :: t))
  | string {quote : Char} {text s t : List Char} (hquote : quote = '"' ∨ quote = '\'')
    (htext : Quoted quote text) (more : Respaced z z' s t) :
    Respaced z z' (quote :: (text ++ quote :: s)) (quote :: (text ++ quote :: t))

/-- The texts differ in the gap, or are both behind it. Once the gap is skipped the texts are the
same. -/
def Aligned (z z' s t : List Char) : Prop := Respaced z z' s t ∨ s = t

namespace Respaced

variable {z z' s t : List Char}

/-- What stands before the gap is the same. -/
theorem exists_before (h : Respaced z z' s t) : ∃ u, s = u ++ z ∧ t = u ++ z' := by
  induction h with
  | here => exact ⟨[], rfl, rfl⟩
  | @char c _ _ _ _ _ ih =>
    obtain ⟨u, rfl, rfl⟩ := ih
    exact ⟨c :: u, rfl, rfl⟩
  | @block body _ _ _ _ ih =>
    obtain ⟨u, rfl, rfl⟩ := ih
    exact ⟨'/' :: '*' :: (body ++ '*' :: '/' :: u), by simp, by simp⟩
  | @line body _ _ _ _ ih =>
    obtain ⟨u, rfl, rfl⟩ := ih
    exact ⟨'/' :: '/' :: (body ++ '\n' :: u), by simp, by simp⟩
  | @string quote text _ _ _ _ _ ih =>
    obtain ⟨u, rfl, rfl⟩ := ih
    exact ⟨quote :: (text ++ quote :: u), by simp, by simp⟩

/-- If the first text does not go on with a comment behind a slash, neither does the
second. -/
theorem head_of (hz : Seam z z') (h : Respaced z z' s t) (hs : ∀ d ∈ s.head?, d ≠ '/' ∧ d ≠ '*') :
    ∀ d ∈ t.head?, d ≠ '/' ∧ d ≠ '*' := by
  cases h with
  | here => exact hz.head hs
  | char _ _ _ => exact hs
  | block _ _ | line _ _ => exact hs
  | string _ _ _ => exact hs

/-- **Respaced texts are respaced behind the trivia they begin with.** If the gap is among the
trivia, they are the same behind it. The induction is on how the text leads up to the gap. -/
theorem skip (hz : Regapped z z') (h : Respaced z z' s t) :
    Aligned z z' (dropTrivia s) (dropTrivia t) := by
  induction h with
  | here => exact .inr hz.skip
  | @char c s t hc hslash more ih =>
    by_cases hblank : isBlank c
    · rw [dropTrivia_blank hblank, dropTrivia_blank hblank]
      exact ih
    · rw [dropTrivia_char (Bool.eq_false_iff.mpr hblank) hslash,
        dropTrivia_char (Bool.eq_false_iff.mpr hblank) fun heq => more.head_of hz.seam (hslash heq)]
      exact .inl (.char hc hslash more)
  | block hend _ ih =>
    rw [dropTrivia_block hend, dropTrivia_block hend]
    exact ih
  | line hend _ ih =>
    rw [dropTrivia_line hend, dropTrivia_line hend]
    exact ih
  | @string quote text s t hquote htext more ih =>
    rw [dropTrivia_quote hquote, dropTrivia_quote hquote]
    exact .inl (.string hquote htext more)

end Respaced

/-- The text leads up to the gap. -/
def LeadsTo (z z' s : List Char) : Prop := ∃ t, Respaced z z' s t

/-! ## Where a match skips trivia

The gaps of a match, for each way to match. An inductive definition like that of matches, with one
place singled out; it is stated with matches for the parts that have no gap at the place.
-/

mutual

/-- `p.Skips spacing s s' z`: in the match of `p` from `s` to `s'`, trivia are skipped at `z`.
What is skipped while something is only tried or looked ahead for does not count. -/
inductive Peg.Skips : Spacing → Peg → List Char → List Char → List Char → Prop
  | between {p q s s₁ s' trees trees'} (first : p.Matches .skipped s s₁ trees)
    (second : q.Matches .skipped (dropTrivia s₁) s' trees') : Skips .skipped (.seq p q) s s' s₁
  | first {spacing p q s s₁ s' z trees} (first : Skips spacing p s s₁ z)
    (second : q.Matches spacing (spacing.skip s₁) s' trees) : Skips spacing (.seq p q) s s' z
  | second {spacing p q s s₁ s' z trees} (first : p.Matches spacing s s₁ trees)
    (second : Skips spacing q (spacing.skip s₁) s' z) : Skips spacing (.seq p q) s s' z
  | rule {spacing s s' z} {r : Rule} (body : Skips (r.inside spacing) r.body s s' z) :
    Skips spacing (.rule r) s s' z
  | left {spacing p q s s' z} (first : Skips spacing p s s' z) : Skips spacing (.choice p q) s s' z
  | right {spacing p q s s' z} (first : p.Fails spacing s) (second : Skips spacing q s s' z) :
    Skips spacing (.choice p q) s s' z
  | once {spacing p s s₁ s' z trees} (first : Skips spacing p s s₁ z)
    (more : p.Iterates spacing s₁ s' trees) : Skips spacing (.many p) s s' z
  | again {spacing p s s₁ s' z trees} (first : p.Matches spacing s s₁ trees)
    (more : SkipsAgain spacing p s₁ s' z) : Skips spacing (.many p) s s' z
  | present {spacing p s s' z} (body : Skips spacing p s s' z) : Skips spacing (.optional p) s s' z

/-- `Peg.Skips` for the matches behind the first one of a repetition. -/
inductive Peg.SkipsAgain : Spacing → Peg → List Char → List Char → List Char → Prop
  | between {p s s₁ s' trees trees'} (body : p.Matches .skipped (dropTrivia s) s₁ trees)
    (more : p.Iterates .skipped s₁ s' trees') : SkipsAgain .skipped p s s' s
  | body {spacing p s s₁ s' z trees} (body : Skips spacing p (spacing.skip s) s₁ z)
    (more : p.Iterates spacing s₁ s' trees) : SkipsAgain spacing p s s' z
  | more {spacing p s s₁ s' z trees} (body : p.Matches spacing (spacing.skip s) s₁ trees)
    (more : SkipsAgain spacing p s₁ s' z) : SkipsAgain spacing p s s' z

end

namespace Peg

mutual

/-- Where a match skips something, there is a match. -/
theorem Skips.exists_matches {spacing : Spacing} {p : Peg} {s s' z : List Char} :
    p.Skips spacing s s' z → ∃ trees, p.Matches spacing s s' trees
  | .between first second => ⟨_, .seq first second⟩
  | .first first second => by
    obtain ⟨_, first⟩ := first.exists_matches
    exact ⟨_, .seq first second⟩
  | .second first second => by
    obtain ⟨_, second⟩ := second.exists_matches
    exact ⟨_, .seq first second⟩
  | .rule body => by
    obtain ⟨_, body⟩ := body.exists_matches
    exact ⟨_, .rule body⟩
  | .left first => by
    obtain ⟨_, first⟩ := first.exists_matches
    exact ⟨_, .left first⟩
  | .right first second => by
    obtain ⟨_, second⟩ := second.exists_matches
    exact ⟨_, .right first second⟩
  | .once first more => by
    obtain ⟨_, first⟩ := first.exists_matches
    exact ⟨_, .times first more⟩
  | .again first more => by
    obtain ⟨_, more⟩ := more.exists_iterates
    exact ⟨_, .times first more⟩
  | .present body => by
    obtain ⟨_, body⟩ := body.exists_matches
    exact ⟨_, .present body⟩

/-- A repetition that skips something in or between two of its matches is one of the repetitions of
its body. -/
theorem SkipsAgain.exists_iterates {spacing : Spacing} {p : Peg} {s s' z : List Char} :
    p.SkipsAgain spacing s s' z → ∃ trees, p.Iterates spacing s s' trees
  | .between body more => ⟨_, .step body more⟩
  | .body body more => by
    obtain ⟨_, body⟩ := body.exists_matches
    exact ⟨_, .step body more⟩
  | .more body more => by
    obtain ⟨_, more⟩ := more.exists_iterates
    exact ⟨_, .step body more⟩

end

mutual

theorem Skips.spacing_eq {spacing : Spacing} {p : Peg} {s s' z : List Char} :
    p.Skips spacing s s' z → spacing = .skipped
  | .between _ _ => rfl
  | .first first _ => first.spacing_eq
  | .second _ second => second.spacing_eq
  | .rule body => by
    by_contra hspacing
    exact Rule.inside_ne_skipped _ hspacing body.spacing_eq
  | .left first => first.spacing_eq
  | .right _ second => second.spacing_eq
  | .once first _ => first.spacing_eq
  | .again _ more => more.spacing_eq
  | .present body => body.spacing_eq

theorem SkipsAgain.spacing_eq {spacing : Spacing} {p : Peg} {s s' z : List Char} :
    p.SkipsAgain spacing s s' z → spacing = .skipped
  | .between _ _ => rfl
  | .body body _ => body.spacing_eq
  | .more _ more => more.spacing_eq

end

end Peg

end Scriptlet
