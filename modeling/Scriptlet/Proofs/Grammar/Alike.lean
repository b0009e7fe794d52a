import Scriptlet.Proofs.Grammar.Gap

/-!
# Texts that are read alike

Two texts are read alike where the grammar cannot tell them apart: what matches in one also does in
the other, with the same nodes, and what fails fails (`Peg.Matches.alike`). For this it is enough
that the texts begin alike wherever nothing is skipped, that trivia are skipped alike, and that
lines end alike behind a `return` (`ReadAlike`). That a text can be read character by character up
to some place, each comment and each string in one go, is shown backwards along a match
(`Peg.Matches.led`), since no part of a match ends inside of a comment or a string.

Along the way something is counted that every rule leaves as it was, such as the parentheses that
are open (`Steady`). It is computed from the grammar that no token has white space, quotes or
slashes in it, strings and the slash at the beginning of an operator apart.

The module is general in the relation between the texts and in what is counted, and used twice: for
texts that differ in a gap, with nothing counted, and for texts that are the same up to a closing
parenthesis, with the open parentheses counted. What is particular to either is in the conditions of
`Led` and `ReadAlike`. They speak of characters, comments and strings, and not of the grammar.

* `Peg.calm`: the expression is made of ordinary characters; every rule but a few is.
* `Peg.count`, `Steady`: what an expression adds to the count, computed along it.
* `Led`, `Peg.Matches.led`: the way to a place, backwards along a match.
* `ReadAlike`, `Peg.Matches.alike`: matches in texts that are read alike.
-/

namespace Scriptlet

/-! ## Calm expressions

Where a text may be cut is decided by white space, quotes and slashes. An expression is calm if it
has none of them, except a slash where an operator may stand: there no comment can begin, or it
would have been skipped.
-/

/-- The characters are ordinary, except that the first may be a slash if `slash` says so. -/
def calmWord (slash : Bool) : List Char → Bool
  | [] => true
  | c :: s => (isOrdinary c || slash && c = '/') && s.all isOrdinary

theorem calmWord_of_all {slash : Bool} {w : List Char} (h : w.all isOrdinary) :
    calmWord slash w := by
  cases w with
  | nil => rfl
  | cons c w =>
    rw [List.all_cons, Bool.and_eq_true] at h
    rw [calmWord, h.1, h.2]
    rfl

/-- A word is calm without a slash exactly if all its characters are ordinary. -/
theorem calmWord_false_iff {w : List Char} : calmWord false w ↔ w.all isOrdinary := by
  cases w with
  | nil => exact iff_of_true rfl rfl
  | cons c w => rw [calmWord, Bool.false_and, Bool.or_false, List.all_cons]

/-- Only the first characters may begin with a slash. -/
theorem calmWord_append {slash : Bool} {w w' : List Char} (h : calmWord slash w)
    (h' : calmWord false w') : calmWord slash (w ++ w') := by
  rw [calmWord_false_iff] at h'
  cases w with
  | nil => exact calmWord_of_all h'
  | cons c w =>
    rw [calmWord, Bool.and_eq_true] at h
    rw [List.cons_append, calmWord, List.all_append, h.1, h.2, h']
    rfl

/-- The rules that are no part of a match of a script, except for what is looked ahead for and
for what strings and scripts themselves are made of. -/
def Rule.restless : List Rule :=
  [.whitespace, .comment, .script, .doubleStringCharacters, .singleStringCharacters,
    .returnAtLineEnd, .inlineBlockComment]

/-- The rules inside of tokens. -/
def Rule.inner : List Rule :=
  [.hexIntegerLiteral, .decimalLiteral, .exponentPart, .identifierName, .identStart, .identChar,
    .reservedWord]

/-- Whether the expression is made of ordinary characters. Where nothing can be skipped, a slash
may stand at the beginning: `slash` says whether the expression stands at such a place. -/
def Peg.calm (spacing : Spacing) (slash : Bool) : Peg → Bool
  | .word w => calmWord slash w
  | .one chars => chars ≠ .any
  | .start => false
  | .finish => true
  | .rule r => if spacing = .skipped then r ∉ Rule.restless else r ∈ Rule.inner
  | .seq p q => p.calm spacing slash && q.calm spacing (spacing = .skipped)
  | .choice p q => p.calm spacing slash && q.calm spacing slash
  | .many p => p.calm spacing (spacing = .skipped)
  | .optional p => p.calm spacing slash
  | .ahead p => p = .rule .returnAtLineEnd || p.calm spacing slash
  | .notAhead p => p.calm spacing slash

/-- All rules outside of tokens are calm, but for those listed and for strings. This is computed. -/
theorem Rule.calm_skipped : ∀ r ∈ Rule.all, r ∉ Rule.restless →
    r = .stringLiteral ∨ r.inside .skipped ≠ .compound ∧ r.body.calm (r.inside .skipped) true := by
  decide +kernel

/-- The rules inside of tokens are calm as well, and none of their words begins with a slash. -/
theorem Rule.calm_inner : ∀ r ∈ Rule.inner,
    r ∉ Rule.restless ∧ r.inside .token = .token ∧ r.body.calm .token false := by
  decide

/-- The characters that stand in no class but the one of all characters: white space, quotes,
slashes and parentheses. -/
def marks : List Char := [' ', '\t', '\r', '\n', '\ufeff', '"', '\'', '/', '(', ')']

/-- Only the class of all characters has any of the marks in it. -/
theorem not_mem_marks {chars : CharClass} (h : chars ≠ .any) {c : Char} (hc : chars.contains c) :
    c ∉ marks := by
  intro hmem
  have hnone : ∀ chars ∈ [CharClass.letter, .digit, .hexDigit, .letterOrDigit],
      marks.all (!chars.contains ·) := by
    decide
  have hclass : chars ∈ [CharClass.letter, .digit, .hexDigit, .letterOrDigit] := by
    cases chars <;> simp at h ⊢
  have hnot := List.all_eq_true.mp (hnone _ hclass) c hmem
  rw [hc] at hnot
  cases hnot

/-- The characters of all classes but the one of all characters are ordinary. -/
theorem isOrdinary_of_contains {chars : CharClass} (h : chars ≠ .any) {c : Char}
    (hc : chars.contains c) : isOrdinary c := by
  have hmarks := not_mem_marks h hc
  simp only [marks, List.mem_cons, List.not_mem_nil, or_false, not_or] at hmarks
  simp [isOrdinary, isBlank, hmarks]

/-! ## What is counted along a match

A count is a partial function from character to character. It is not defined where the characters
cannot go on, as where a parenthesis closes that was never opened. That an expression has a count of
its own, whatever it matches, is what the grammar is written for: each rule opens what it closes.
-/

/-- What a count that `step` takes from character to character comes to behind a match, if it is the
same for all matches. Alternatives have to agree, and what is repeated or left out must not
count. -/
def Peg.count (step : Nat → Char → Option Nat) : Peg → Nat → Option Nat
  | .word w, n => w.foldlM step n
  | .one _, n | .start, n | .finish, n | .rule _, n => some n
  | .seq p q, n => (p.count step n).bind (q.count step)
  | .choice p q, n => if p.count step n = q.count step n then p.count step n else none
  | .many p, n | .optional p, n => if p.count step n = some n then some n else none
  | .ahead p, n | .notAhead p, n => if (p.count step n).isSome then some n else none

/-- Every rule leaves the count as it was, and so do all characters but parentheses. Rules that are
not part of a match are not asked about. -/
structure Steady (step : Nat → Char → Option Nat) : Prop where
  body {r : Rule} (hr : r ∉ Rule.restless) (n : Nat) : r.body.count step n = some n
  other {c : Char} (hopen : c ≠ '(') (hclose : c ≠ ')') (n : Nat) : step n c = some n

/-- The characters of a class leave the count as it is, unless the class has all characters. -/
theorem Steady.of_class {step : Nat → Char → Option Nat} (hstep : Steady step)
    {chars : CharClass} (hany : chars ≠ .any) {c : Char} (hc : chars.contains c) (n : Nat) :
    step n c = some n := by
  have hmarks := not_mem_marks hany hc
  refine hstep.other ?_ ?_ n
  · rintro rfl
    exact hmarks (by decide)
  · rintro rfl
    exact hmarks (by decide)

namespace Peg

variable {step : Nat → Char → Option Nat} {p q : Peg} {n m : Nat}

/-- A sequence counts what its first part does and then what its second part does with the
result. -/
theorem count_seq_iff :
    (seq p q).count step n = some m ↔ ∃ k, p.count step n = some k ∧ q.count step k = some m :=
  Option.bind_eq_some_iff

theorem count_choice_iff :
    (choice p q).count step n = some m ↔ p.count step n = some m ∧ q.count step n = some m := by
  rw [count]
  split
  · next heq => rw [← heq, and_self]
  · next hne => exact ⟨nofun, fun ⟨hp, hq⟩ => absurd (hp.trans hq.symm) hne⟩

/-- What is repeated must leave the count as it is, since it may match any number of times. -/
theorem count_many_iff : (many p).count step n = some m ↔ p.count step n = some n ∧ n = m := by
  rw [count]
  split
  · next heq => rw [heq, Option.some.injEq, and_iff_right rfl]
  · next hne => exact ⟨nofun, fun h => absurd h.1 hne⟩

theorem count_optional_iff :
    (Peg.optional p).count step n = some m ↔ p.count step n = some n ∧ n = m :=
  count_many_iff (p := p)

/-- What is looked ahead for is not taken, so it leaves the count as it is; it only has to have
one. -/
theorem count_ahead_iff :
    (ahead p).count step n = some m ↔ (∃ k, p.count step n = some k) ∧ n = m := by
  rw [count]
  split
  · next hsome => rw [Option.some.injEq, and_iff_right (Option.isSome_iff_exists.mp hsome)]
  · next hnone => exact ⟨nofun, fun h => absurd (Option.isSome_iff_exists.mpr h.1) hnone⟩

theorem count_notAhead_iff :
    (notAhead p).count step n = some m ↔ (∃ k, p.count step n = some k) ∧ n = m :=
  count_ahead_iff (p := p)

end Peg

namespace Peg

mutual

/-- What a calm expression matches inside of a token is calm, and counted as the expression says. So
a token can be passed as a word. -/
theorem Matches.exists_calmWord {step : Nat → Char → Option Nat} (hstep : Steady step)
    {spacing : Spacing} {p : Peg} {slash : Bool} {s s' : List Char} {trees : List Tree}
    {n m : Nat} : p.Matches spacing s s' trees → spacing = .token →
      p.calm spacing slash → p.count step n = some m →
        ∃ w, s = w ++ s' ∧ calmWord slash w ∧ w.foldlM step n = some m
  | .word h, _, hp, hcount => ⟨_, h, hp, hcount⟩
  | .one (x := c) h hc, _, hp, hcount => by
    have hany := of_decide_eq_true hp
    obtain rfl := Option.some.inj hcount
    refine ⟨[c], h, calmWord_of_all (by simp [isOrdinary_of_contains hany hc]), ?_⟩
    rw [List.foldlM_cons, hstep.of_class hany hc]
    rfl
  | .start, _, hp, _ => nomatch hp
  | .finish, _, _, hcount => ⟨[], rfl, rfl, hcount⟩
  | .rule (r := r) body, hs, hp, hcount => by
    -- inside of a token only rules without nodes are met
    have hr : r ∈ Rule.inner := by
      rw [calm, hs] at hp
      exact of_decide_eq_true hp
    obtain ⟨hrest, hinside, hcalm⟩ := Rule.calm_inner r hr
    rw [← hs] at hinside
    obtain rfl := Option.some.inj hcount
    obtain ⟨w, hw, hcalm, hcount⟩ := body.exists_calmWord hstep (hinside.trans hs)
      (hinside.symm ▸ hs.symm ▸ hcalm) (hstep.body hrest n)
    exact ⟨w, hw, calmWord_of_all (calmWord_false_iff.mp hcalm), hcount⟩
  | .seq first second, hs, hp, hcount => by
    obtain ⟨hp, hq⟩ := Bool.and_eq_true_iff.mp hp
    obtain ⟨k, hk, hm⟩ := count_seq_iff.mp hcount
    obtain ⟨w, hw, hcalm, hcount⟩ := first.exists_calmWord hstep hs hp hk
    obtain ⟨w', hw', hcalm', hcount'⟩ := second.exists_calmWord hstep hs hq hm
    rw [hs] at hw' hcalm'
    refine ⟨w ++ w', ?_, calmWord_append hcalm hcalm', ?_⟩
    · rw [hw, List.append_assoc, ← hw']
      rfl
    · rw [List.foldlM_append, hcount]
      exact hcount'
  | .left first, hs, hp, hcount =>
    first.exists_calmWord hstep hs (Bool.and_eq_true_iff.mp hp).1 (count_choice_iff.mp hcount).1
  | .right _ second, hs, hp, hcount =>
    second.exists_calmWord hstep hs (Bool.and_eq_true_iff.mp hp).2 (count_choice_iff.mp hcount).2
  | .never _, _, _, hcount => ⟨[], rfl, rfl, congrArg some (count_many_iff.mp hcount).2⟩
  | .absent _, _, _, hcount => ⟨[], rfl, rfl, congrArg some (count_optional_iff.mp hcount).2⟩
  | .ahead _, _, _, hcount => ⟨[], rfl, rfl, congrArg some (count_ahead_iff.mp hcount).2⟩
  | .notAhead _, _, _, hcount => ⟨[], rfl, rfl, congrArg some (count_notAhead_iff.mp hcount).2⟩
  | .times (p := p) first more, hs, hp, hcount => by
    have hp' : p.calm spacing false := by
      rw [calm, hs] at hp
      rw [hs]
      exact hp
    obtain ⟨hinner, rfl⟩ := count_many_iff.mp hcount
    obtain ⟨w, hw, hcalm, hfirst⟩ := first.exists_calmWord hstep hs hp' hinner
    obtain ⟨w', rfl, hcalm', hmore⟩ := more.exists_calmWord hstep hs hp' hinner
    refine ⟨w ++ w', by rw [hw, List.append_assoc], ?_, ?_⟩
    · exact calmWord_of_all (calmWord_false_iff.mp (calmWord_append hcalm hcalm'))
    · rw [List.foldlM_append, hfirst]
      exact hmore
  | .present body, hs, hp, hcount => by
    obtain ⟨hinner, rfl⟩ := count_optional_iff.mp hcount
    exact body.exists_calmWord hstep hs hp hinner

/-- What a repetition inside a token takes is one calm word, with no slash at its beginning. -/
theorem Iterates.exists_calmWord {step : Nat → Char → Option Nat} (hstep : Steady step)
    {spacing : Spacing} {p : Peg} {s s' : List Char} {trees : List Tree} {n : Nat} :
    p.Iterates spacing s s' trees → spacing = .token →
      p.calm spacing false → p.count step n = some n →
        ∃ w, s = w ++ s' ∧ calmWord false w ∧ w.foldlM step n = some n
  | .stop _, _, _, _ => ⟨[], rfl, rfl, rfl⟩
  | .step body more, hs, hp, hcount => by
    obtain ⟨w, hw, hcalm, hbody⟩ := body.exists_calmWord hstep hs hp hcount
    obtain ⟨w', rfl, hcalm', hmore⟩ := more.exists_calmWord hstep hs hp hcount
    rw [hs] at hw
    refine ⟨w ++ w', ?_, calmWord_append hcalm hcalm', ?_⟩
    · rw [List.append_assoc, ← hw]
      rfl
    · rw [List.foldlM_append, hbody]
      exact hmore

end

end Peg

/-! ## The way to a place

Given that the text behind a match leads up to a place, the text in front of it does: the match is
passed from its end to its beginning. It is done backwards because what may be passed depends on
what stands behind: a slash is a single character only if it does not begin a comment.
-/

/-- `L n s` says that `s` leads up to some place, where the count comes to be what it should be if
it is `n` at the beginning of `s`. What can stand in front of such a text: single characters,
comments and strings. -/
structure Led (step : Nat → Char → Option Nat) (L : Nat → List Char → Prop) : Prop
    extends Steady step where
  char {n m : Nat} {c : Char} {s : List Char} (hc : c ≠ '"' ∧ c ≠ '\'')
    (hslash : c = '/' → ∀ d ∈ s.head?, d ≠ '/' ∧ d ≠ '*') (hcount : step n c = some m)
    (h : L m s) : L n (c :: s)
  block {n : Nat} {body s : List Char} (hend : ¬['*', '/'] <:+: body) (h : L n s) :
    L n ('/' :: '*' :: (body ++ '*' :: '/' :: s))
  line {n : Nat} {body s : List Char} (hend : '\n' ∉ body) (hs : s.head? = some '\n' ∨ s = [])
    (h : L n s) : L n ('/' :: '/' :: (body ++ s))
  string {n : Nat} {quote : Char} {text s : List Char} (hquote : quote = '"' ∨ quote = '\'')
    (htext : Quoted quote text) (h : L n s) : L n (quote :: (text ++ quote :: s))

namespace Led

variable {step : Nat → Char → Option Nat} {L : Nat → List Char → Prop} (hL : Led step L)
  {n m : Nat} {s : List Char}
include hL

theorem of_dropWhile (h : L n (s.dropWhile isBlank)) : L n s := by
  induction s with
  | nil => exact h
  | cons c s ih =>
    by_cases hblank : isBlank c
    · rw [List.dropWhile_cons_of_pos hblank] at h
      have hne : ∀ d, isBlank d = false → c ≠ d := by
        rintro d hd rfl
        rw [hblank] at hd
        cases hd
      exact hL.char ⟨hne _ rfl, hne _ rfl⟩ (fun heq => absurd heq (hne _ rfl))
        (hL.other (hne _ rfl) (hne _ rfl) n) (ih h)
    · rwa [List.dropWhile_cons_of_neg hblank] at h

theorem of_comment {s' : List Char} (hs : behindComment s = some s') (h : L n s') : L n s := by
  rw [behindComment.eq_def] at hs
  split at hs
  · next s =>
    obtain rfl := Option.some.inj hs
    have hbody : '\n' ∉ s.takeWhile (· ≠ '\n') := fun hmem => by
      simpa using List.mem_takeWhile_imp hmem
    have hhead := List.head?_dropWhile_not (· ≠ '\n') s
    have hrest : (s.dropWhile (· ≠ '\n')).head? = some '\n' ∨ s.dropWhile (· ≠ '\n') = [] := by
      generalize s.dropWhile (· ≠ '\n') = rest at *
      cases rest with
      | nil => exact .inr rfl
      | cons c rest => exact .inl (by simpa using hhead)
    rw [← List.takeWhile_append_dropWhile (p := (· ≠ '\n')) (l := s)]
    exact hL.line hbody hrest h
  · next s =>
    obtain ⟨body, hbody, rfl⟩ := exists_blockBody hs
    exact hL.block hbody h
  · cases hs

/-- Trivia are made of white space and comments, so what holds of every place behind them holds of
the place before. -/
theorem of_dropTrivia (h : L n (dropTrivia s)) : L n s := by
  fun_induction dropTrivia s with
  | case1 s _ => exact hL.of_dropWhile h
  | case2 s s' hs ih => exact hL.of_dropWhile (hL.of_comment hs (ih h))

/-- Ordinary characters are on the way, one by one. -/
theorem append {w : List Char} (hw : w.all isOrdinary) (hcount : w.foldlM step n = some m)
    (h : L m s) : L n (w ++ s) := by
  induction w generalizing n with
  | nil =>
    obtain rfl := Option.some.inj hcount
    exact h
  | cons c w ih =>
    obtain ⟨hc, hw⟩ := Bool.and_eq_true_iff.mp hw
    obtain ⟨-, hdouble, hsingle, hslash⟩ := isOrdinary_iff.mp hc
    rw [List.foldlM_cons] at hcount
    obtain ⟨k, hk, hcount⟩ := Option.bind_eq_some_iff.mp hcount
    exact hL.char ⟨hdouble, hsingle⟩ (absurd · hslash) hk (ih hw hcount)

/-- A slash where nothing can be skipped is on the way, unless a comment without end begins
with it. -/
theorem slash (hs : dropTrivia ('/' :: s) = '/' :: s) (hstar : '*' ∉ s.head?) (h : L n s) :
    L n ('/' :: s) := by
  refine hL.char (by decide) (fun _ d hd => ⟨?_, ?_⟩) (hL.other (by decide) (by decide) n) h
  · rintro rfl
    obtain ⟨u, rfl⟩ := List.head?_eq_some_iff.mp hd
    -- a comment up to the end of the line would be skipped
    have hskip := dropTrivia_behind (s := '/' :: '/' :: u) rfl
    have hle := (dropTrivia_suffix (u.dropWhile (· ≠ '\n'))).length_le
    have hle' := (List.dropWhile_suffix (l := u) (· ≠ '\n')).length_le
    rw [← hskip, hs] at hle
    simp only [List.length_cons] at hle
    omega
  · rintro rfl
    exact hstar hd

end Led

/-- Whether matches of the expression do not end inside of comments and strings. The operator
of division does if a comment without end begins with it, but then no operand follows. -/
def Peg.sweeps : Peg → Bool
  | .word w => w.all isOrdinary
  | .one chars => chars ≠ .any
  | .start | .finish | .ahead _ | .notAhead _ => true
  | .rule r => r ∉ .multiplicativeOperator :: Rule.restless
  | .seq p q =>
    (p.sweeps || p = .rule .multiplicativeOperator && q = .rule .unaryExpression) && q.sweeps
  | .choice p q => p.sweeps && q.sweeps
  | .many p | .optional p => p.sweeps

/-- Every rule that is matched outside of tokens is a calm token, one of the two operators that
begin with a slash, a string, or made of such. -/
theorem Rule.sweeps_skipped : ∀ r ∈ Rule.all, r ∉ .multiplicativeOperator :: Rule.restless →
    (r.kind = .token ∧ r.body.calm .token false) ∨ r = .assignmentOperator ∨
      r = .stringLiteral ∨ r.inside .skipped = .skipped ∧ r.body.sweeps := by
  decide +kernel

namespace Peg

theorem quote_of_mem {quote : Char} {r : Rule} (h : (quote, r) ∈ quotes) :
    quote = '"' ∨ quote = '\'' := by
  have hquotes : ∀ q ∈ quotes, q.1 = '"' ∨ q.1 = '\'' := by decide
  exact hquotes _ h

section

variable {step : Nat → Char → Option Nat} {L : Nat → List Char → Prop} (hL : Led step L)
  {n m : Nat} {s s' : List Char} {trees trees' : List Tree}
include hL

/-- The way through an operator of assignment, which may begin with a slash. -/
theorem Matches.led_assignment (h : (Peg.rule .assignmentOperator).Matches .skipped s s' trees)
    (hs : dropTrivia s = s) (h' : L n s') : L n s := by
  have hkind := h.kind_of_token rfl
  obtain ⟨inner, hinner, -⟩ := (matches_token_iff rfl).mp h
  have hcalm : Rule.assignmentOperator.body.calm .token true := by decide
  obtain ⟨w, rfl, hw, hcount⟩ :=
    hinner.exists_calmWord hL.toSteady rfl hcalm (hL.body (by decide) n)
  cases w with
  | nil => exact h'
  | cons c w =>
    rw [calmWord, Bool.and_eq_true] at hw
    obtain ⟨hc, hw⟩ := hw
    by_cases hslash : c = '/'
    · subst hslash
      rw [List.foldlM_cons, hL.other (by decide) (by decide)] at hcount
      refine hL.slash (s := w ++ s') hs (fun hstar => ?_) (hL.append hw hcount h')
      obtain ⟨u, hu⟩ := List.head?_eq_some_iff.mp hstar
      rw [List.cons_append, hu, kind_of_open_comment] at hkind
      exact absurd hkind (by decide)
    · refine hL.append (w := c :: w) ?_ hcount h'
      rw [List.all_cons, hw, Bool.and_true]
      simpa [hslash] using hc

/-- The way through an operator of multiplication with an operand behind it. Without the operand,
the slash might begin a comment that does not end. -/
theorem Matches.led_multiplication {s'' : List Char}
    (h : (Peg.rule .multiplicativeOperator).Matches .skipped s s' trees)
    (hoperand : (Peg.rule .unaryExpression).Matches .skipped (dropTrivia s') s'' trees')
    (hs : dropTrivia s = s) (h' : L n s') : L n s := by
  obtain ⟨inner, hinner, -⟩ := (matches_token_iff rfl).mp h
  obtain ⟨s₁, _, _, hword, hnot, -⟩ := matches_seq_iff.mp hinner
  obtain ⟨-, rfl, -⟩ := matches_notAhead_iff.mp hnot
  obtain ⟨w, hw, rfl⟩ := hword.mem_texts rfl
  have hw : w ∈ [['*'], ['/'], ['%']] := hw
  simp only [List.mem_cons, List.not_mem_nil, or_false] at hw
  rcases hw with rfl | rfl | rfl
  · exact hL.char (by decide) (absurd · (by decide)) (hL.other (by decide) (by decide) n) h'
  · refine hL.slash hs (fun hstar => ?_) h'
    obtain ⟨u, hu⟩ := List.head?_eq_some_iff.mp hstar
    have hskip : dropTrivia s' = '*' :: u := hu ▸ dropTrivia_cons (by decide) (by decide) u
    -- no operand begins with a star
    have hbegins := hoperand.kind_mem_first Rule.admission_all (by decide) rfl
      (dropTrivia_dropTrivia _) fun t _ => t.admitted_all
    rw [hskip] at hbegins
    have hstars : ∀ p ∈ punctuators, ['*'] <+: p →
        Kind.fixed p ∉ (Peg.rule .unaryExpression).begins := by decide
    rcases Opening.kind_of_punctuator (t := ['*']) (by decide) ⟨u, rfl⟩ with
      ⟨p, hp, -, hstar, hkind⟩ | ⟨hpoint, -⟩
    · rw [List.singleton_append] at hkind
      exact hstars p hp hstar (hkind ▸ hbegins)
    · exact absurd hpoint (by decide)
  · exact hL.char (by decide) (absurd · (by decide)) (hL.other (by decide) (by decide) n) h'

/-- The way through a string, in one go. -/
theorem Matches.led_string (h : (Peg.rule .stringLiteral).Matches .skipped s s' trees)
    (h' : L n s') : L n s := by
  obtain ⟨quote, r, hmem, u, rfl, hclose, -⟩ := matches_stringLiteral_iff.mp h
  obtain ⟨text, htext, rfl⟩ := quoted_of_behindChars hclose
  exact hL.string (quote_of_mem hmem) htext h'

end

section

variable {step : Nat → Char → Option Nat} {L : Nat → List Char → Prop} (hL : Led step L)
include hL

mutual

/-- **Matches are on the way**: if what is left leads up to the place, so does what was there. -/
theorem Matches.led {spacing : Spacing} {p : Peg} {n m : Nat} {s s' : List Char}
    {trees : List Tree} : p.Matches spacing s s' trees → spacing = .skipped → p.sweeps →
      p.count step n = some m → dropTrivia s = s → L m s' → L n s
  | .word h, _, hp, hcount, _, h' => by
    rw [h]
    exact hL.append hp hcount h'
  | .one (x := c) h hc, _, hp, hcount, _, h' => by
    have hany := of_decide_eq_true hp
    obtain ⟨-, hdouble, hsingle, hslash⟩ := isOrdinary_iff.mp (isOrdinary_of_contains hany hc)
    obtain rfl := Option.some.inj hcount
    rw [h]
    exact hL.char ⟨hdouble, hsingle⟩ (absurd · hslash) (hL.toSteady.of_class hany hc n) h'
  | .start, _, _, hcount, _, h' | .finish, _, _, hcount, _, h' => Option.some.inj hcount ▸ h'
  | .never _, _, _, hcount, _, h' => (count_many_iff.mp hcount).2 ▸ h'
  | .absent _, _, _, hcount, _, h' => (count_optional_iff.mp hcount).2 ▸ h'
  | .ahead _, _, _, hcount, _, h' => (count_ahead_iff.mp hcount).2 ▸ h'
  | .notAhead _, _, _, hcount, _, h' => (count_notAhead_iff.mp hcount).2 ▸ h'
  | .rule (r := r) body, hspacing, hp, hcount, hs, h' => by
    have hr := of_decide_eq_true hp
    obtain rfl := Option.some.inj hcount
    have hcount := hL.body (fun hmem => hr (List.mem_cons_of_mem _ hmem)) n
    -- a token of calm words, the two rules that are restless, or a rule that is gone through
    rcases Rule.sweeps_skipped r r.mem_all hr with ⟨hkind, hcalm⟩ | rfl | rfl | ⟨hinside, hsweeps⟩
    · have hinside : r.inside spacing = .token := by rw [Rule.inside, hkind]
      obtain ⟨w, rfl, hw, hcount⟩ :=
        body.exists_calmWord hL.toSteady hinside (hinside.symm ▸ hcalm) hcount
      exact hL.append (calmWord_false_iff.mp hw) hcount h'
    · exact (hspacing ▸ Matches.rule body).led_assignment hL hs h'
    · exact (hspacing ▸ Matches.rule body).led_string hL h'
    · exact body.led (hspacing ▸ hinside) hsweeps hcount hs h'
  | .seq first second, hspacing, hp, hcount, hs, h' => by
    obtain ⟨hp, hq⟩ := Bool.and_eq_true_iff.mp hp
    obtain ⟨k, hk, hm⟩ := count_seq_iff.mp hcount
    -- from behind: the place after the trivia is on the way, hence the place before them
    have hsecond := second.led hspacing hq hm (Spacing.dropTrivia_skip hspacing _) h'
    rw [hspacing] at hsecond
    have hmiddle := hL.of_dropTrivia hsecond
    rcases Bool.or_eq_true_iff.mp hp with hp | hoperator
    · exact first.led hspacing hp hk hs hmiddle
    · obtain ⟨hp, hq⟩ := Bool.and_eq_true_iff.mp hoperator
      obtain rfl := of_decide_eq_true hp
      obtain rfl := of_decide_eq_true hq
      obtain rfl := Option.some.inj hk
      rw [hspacing] at first second
      exact first.led_multiplication hL second hs hmiddle
  | .left first, hspacing, hp, hcount, hs, h' =>
    first.led hspacing (Bool.and_eq_true_iff.mp hp).1 (count_choice_iff.mp hcount).1 hs h'
  | .right _ second, hspacing, hp, hcount, hs, h' =>
    second.led hspacing (Bool.and_eq_true_iff.mp hp).2 (count_choice_iff.mp hcount).2 hs h'
  | .times first more, hspacing, hp, hcount, hs, h' => by
    obtain ⟨hinner, rfl⟩ := count_many_iff.mp hcount
    exact first.led hspacing hp hinner hs (more.led hspacing hp hinner h')
  | .present body, hspacing, hp, hcount, hs, h' => by
    obtain ⟨hinner, rfl⟩ := count_optional_iff.mp hcount
    exact body.led hspacing hp hinner hs h'

/-- A repetition leads from its end back to its beginning, from its last match to the first. -/
theorem Iterates.led {spacing : Spacing} {p : Peg} {n : Nat} {s s' : List Char}
    {trees : List Tree} : p.Iterates spacing s s' trees → spacing = .skipped → p.sweeps →
      p.count step n = some n → L n s' → L n s
  | .stop _, _, _, _, h' => h'
  | .step body more, hspacing, hp, hcount, h' => by
    have hbody := body.led hspacing hp hcount (Spacing.dropTrivia_skip hspacing _)
      (more.led hspacing hp hcount h')
    rw [hspacing] at hbody
    exact hL.of_dropTrivia hbody

end

end

end Peg

/-! ## The beginnings of texts that are read alike

The condition on a relation between texts under which it is kept by matching. It is stated for
places where nothing is skipped, and says what the texts begin with there.
-/

/-- What two texts begin with where nothing is skipped, if they are related by `R` and the count
is `n`: a character that is no quote, or a string. The texts may also be the same. -/
inductive Begins (step : Nat → Char → Option Nat) (R : Nat → List Char → List Char → Prop)
    (n : Nat) : List Char → List Char → Prop
  | same {s : List Char} (h : ∀ m u, R m u u) : Begins step R n s s
  | char {c : Char} {s t : List Char} (hc : c ≠ '"' ∧ c ≠ '\'')
    (more : ∀ m, step n c = some m → R m s t) : Begins step R n (c :: s) (c :: t)
  | string {quote : Char} {text s t : List Char} (hquote : quote = '"' ∨ quote = '\'')
    (htext : Quoted quote text) (more : R n s t) :
    Begins step R n (quote :: (text ++ quote :: s)) (quote :: (text ++ quote :: t))

/-- Texts that are related by `R n`, where the count is `n`, are read alike. What they begin with is
asked only where nothing is skipped in one of them. -/
structure ReadAlike (step : Nat → Char → Option Nat) (R : Nat → List Char → List Char → Prop) : Prop
    extends Steady step where
  skip {n : Nat} {s t : List Char} (h : R n s t) : R n (dropTrivia s) (dropTrivia t)
  begins {n : Nat} {s t : List Char} (h : R n s t) (hskip : dropTrivia s = s ∨ dropTrivia t = t) :
    Begins step R n s t
  lineEnd {n : Nat} {s t : List Char} (h : R n s t) (spacing : Spacing) :
    (∃ s' trees, (Peg.rule .returnAtLineEnd).Matches spacing s s' trees) ↔
      ∃ t' trees, (Peg.rule .returnAtLineEnd).Matches spacing t t' trees

/-- No quote is a backslash. -/
theorem ne_escape {quote : Char} (h : quote = '"' ∨ quote = '\'') : quote ≠ '\\' := by
  rcases h with rfl | rfl <;> decide

namespace ReadAlike

variable {step : Nat → Char → Option Nat} {R : Nat → List Char → List Char → Prop}
  (hR : ReadAlike step R) {n m : Nat} {s t : List Char} {c : Char}
include hR

/-- Whether or not trivia are skipped, the texts are related behind them. -/
theorem skip_spacing (h : R n s t) (spacing : Spacing) : R n (spacing.skip s) (spacing.skip t) := by
  cases spacing with
  | skipped => exact hR.skip h
  | compound | token => exact h

theorem eq_nil_iff (h : R n s t) : s = [] ↔ t = [] := by
  refine ⟨?_, ?_⟩
  · rintro rfl
    cases hR.begins h (.inl dropTrivia_nil)
    rfl
  · rintro rfl
    cases hR.begins h (.inr dropTrivia_nil)
    rfl

/-- A character that is no quote begins both texts if it begins one. -/
theorem of_head (h : R n s t) (hskip : dropTrivia s = s ∨ dropTrivia t = t)
    (hc : c ≠ '"' ∧ c ≠ '\'') (hcount : step n c = some m) (hhead : [c] <+: s ∨ [c] <+: t) :
    ∃ s' t', s = c :: s' ∧ t = c :: t' ∧ R m s' t' := by
  have hcons : ∀ {d : Char} {u v : List Char}, [c] <+: d :: u ∨ [c] <+: d :: v → c = d := by
    rintro d u v (h | h)
    · exact (List.cons_prefix_cons.mp h).1
    · exact (List.cons_prefix_cons.mp h).1
  cases hR.begins h hskip with
  | same hsame =>
    obtain ⟨u, rfl⟩ := hhead.elim id id
    exact ⟨u, u, rfl, rfl, hsame m u⟩
  | char _ more =>
    obtain rfl := hcons hhead
    exact ⟨_, _, rfl, rfl, more m hcount⟩
  | string hquote _ _ =>
    obtain rfl := hcons hhead
    exact absurd hquote (not_or.mpr hc)

/-- An ordinary character begins both texts if it begins one of them, and the texts behind it are
related again. -/
theorem of_ordinary (h : R n s t) (hc : isOrdinary c) (hcount : step n c = some m)
    (hhead : [c] <+: s ∨ [c] <+: t) : ∃ s' t', s = c :: s' ∧ t = c :: t' ∧ R m s' t' := by
  obtain ⟨hblank, hdouble, hsingle, hslash⟩ := isOrdinary_iff.mp hc
  have hsettled : ∀ {u : List Char}, [c] <+: u → dropTrivia u = u := by
    rintro _ ⟨u, rfl⟩
    exact dropTrivia_cons hblank hslash u
  exact hR.of_head h (hhead.imp hsettled hsettled) ⟨hdouble, hsingle⟩ hcount hhead

/-- Several ordinary characters begin both texts if they begin one, by induction on them. -/
theorem of_ordinaries {w : List Char} (h : R n s t) (hw : w.all isOrdinary)
    (hcount : w.foldlM step n = some m) (hbegins : w <+: s ∨ w <+: t) :
    ∃ s' t', s = w ++ s' ∧ t = w ++ t' ∧ R m s' t' := by
  induction w generalizing n s t with
  | nil =>
    obtain rfl := Option.some.inj hcount
    exact ⟨s, t, rfl, rfl, h⟩
  | cons c w ih =>
    obtain ⟨hc, hw⟩ := Bool.and_eq_true_iff.mp hw
    rw [List.foldlM_cons] at hcount
    obtain ⟨k, hk, hcount⟩ := Option.bind_eq_some_iff.mp hcount
    have hhead : [c] <+: c :: w := ⟨w, rfl⟩
    obtain ⟨s, t, rfl, rfl, more⟩ := hR.of_ordinary h hc hk (hbegins.imp hhead.trans hhead.trans)
    rw [List.cons_prefix_cons, List.cons_prefix_cons] at hbegins
    obtain ⟨s', t', hs, ht, more⟩ := ih more hw hcount (hbegins.imp And.right And.right)
    exact ⟨s', t', congrArg _ hs, congrArg _ ht, more⟩

/-- **A calm word begins both texts if it begins one.** The texts behind it are related at the count
to which its characters lead, so the match can go on there. -/
theorem of_word {slash : Bool} {w : List Char} (h : R n s t) (hw : calmWord slash w)
    (hcount : w.foldlM step n = some m) (hslash : slash → dropTrivia s = s)
    (hbegins : w <+: s ∨ w <+: t) : ∃ s' t', s = w ++ s' ∧ t = w ++ t' ∧ R m s' t' := by
  cases w with
  | nil =>
    obtain rfl := Option.some.inj hcount
    exact ⟨s, t, rfl, rfl, h⟩
  | cons c w =>
    obtain ⟨hc, hw⟩ := Bool.and_eq_true_iff.mp hw
    rw [List.foldlM_cons] at hcount
    obtain ⟨k, hk, hcount⟩ := Option.bind_eq_some_iff.mp hcount
    have hhead : [c] <+: c :: w := ⟨w, rfl⟩
    have hboth : ∃ s' t', s = c :: s' ∧ t = c :: t' ∧ R k s' t' := by
      rcases Bool.or_eq_true_iff.mp hc with hc | hc
      · exact hR.of_ordinary h hc hk (hbegins.imp hhead.trans hhead.trans)
      · obtain ⟨hs, hc⟩ := Bool.and_eq_true_iff.mp hc
        obtain rfl := of_decide_eq_true hc
        exact hR.of_head h (.inl (hslash hs)) (by decide) hk (hbegins.imp hhead.trans hhead.trans)
    obtain ⟨s, t, rfl, rfl, more⟩ := hboth
    rw [List.cons_prefix_cons, List.cons_prefix_cons] at hbegins
    obtain ⟨s', t', hs, ht, more⟩ :=
      hR.of_ordinaries more hw hcount (hbegins.imp And.right And.right)
    exact ⟨s', t', congrArg _ hs, congrArg _ ht, more⟩

/-- A character of a class begins both texts if it begins one, and does not count. -/
theorem of_class {chars : CharClass} (h : R n s t) (hany : chars ≠ .any)
    (hc : chars.contains c) (hhead : [c] <+: s ∨ [c] <+: t) :
    ∃ s' t', s = c :: s' ∧ t = c :: t' ∧ R n s' t' :=
  hR.of_ordinary h (isOrdinary_of_contains hany hc) (hR.toSteady.of_class hany hc n) hhead

open Peg

/-- A string is the same in both texts, since it is passed in one go. -/
theorem stringLiteral {s' : List Char} {trees : List Tree} (hst : R n s t)
    (h : (rule .stringLiteral).Matches .skipped s s' trees) :
    ∃ t', (rule .stringLiteral).Matches .skipped t t' trees ∧ R n s' t' := by
  obtain ⟨quote, r, hmem, u, rfl, hclose, rfl⟩ := matches_stringLiteral_iff.mp h
  have hquote := quote_of_mem hmem
  have hbegins := hR.begins hst (.inl (dropTrivia_quote hquote u))
  generalize hs : quote :: u = s at hbegins
  cases hbegins with
  | same hsame =>
    subst hs
    exact ⟨s', h, hsame n s'⟩
  | char hc _ =>
    obtain ⟨rfl, -⟩ := List.cons.inj hs
    exact absurd hquote (not_or.mpr hc)
  | @string _ text s₁ t₁ _ htext more =>
    obtain ⟨rfl, rfl⟩ := List.cons.inj hs
    have hclosed := htext.behindChars (ne_escape hquote)
    obtain rfl := (List.cons.inj ((hclosed s₁).symm.trans hclose)).2
    refine ⟨t₁, matches_stringLiteral_iff.mpr ⟨quote, r, hmem, _, rfl, hclosed t₁, ?_⟩, more⟩
    rw [textBetween_self_append, textBetween_self_append]

/-- Where there is no string in one text there is none in the other, as a quote begins both or
neither and the related strings end together. -/
theorem fails_stringLiteral (hst : R n s t) (h : (rule .stringLiteral).Fails .skipped s) :
    (rule .stringLiteral).Fails .skipped t := by
  refine (fails_iff (by decide) (by decide)).mpr fun t' trees h' => ?_
  obtain ⟨quote, r, hmem, u, rfl, hclose, rfl⟩ := matches_stringLiteral_iff.mp h'
  have hquote := quote_of_mem hmem
  have hbegins := hR.begins hst (.inr (dropTrivia_quote hquote u))
  generalize ht : quote :: u = t at hbegins
  cases hbegins with
  | same _ =>
    subst ht
    exact h.not_matches h'
  | char hc _ =>
    obtain ⟨rfl, -⟩ := List.cons.inj ht
    exact absurd hquote (not_or.mpr hc)
  | @string _ text s₁ t₁ _ htext more =>
    obtain ⟨rfl, rfl⟩ := List.cons.inj ht
    have hclosed := htext.behindChars (ne_escape hquote)
    exact h.not_matches (matches_stringLiteral_iff.mpr ⟨quote, r, hmem, _, rfl, hclosed s₁, rfl⟩)

/-- Where no line ends in one text, none does in the other. -/
theorem fails_lineEnd {spacing : Spacing} (hst : R n s t)
    (h : (rule .returnAtLineEnd).Fails spacing s) : (rule .returnAtLineEnd).Fails spacing t := by
  have hbody : Rule.returnAtLineEnd.body.bounded Rule.rank .token := by decide
  refine .rule ((fails_iff (by decide) hbody).mpr fun t' trees h' => ?_)
  obtain ⟨s', trees', hmatch⟩ := (hR.lineEnd hst spacing).mpr ⟨t', _, .rule h'⟩
  exact h.not_matches hmatch

end ReadAlike

/-! ## Matches in texts that are read alike

Now the relation is carried along a match. Outside of tokens it is carried from place to place;
inside of tokens, where nothing is skipped, the same characters are taken from both texts, which the
text of the node depends on.
-/

/-- What a calm rule matches is calm, strings apart. -/
theorem Rule.calm_body {r : Rule} {spacing : Spacing} {slash : Bool}
    (hspacing : spacing ≠ .compound) (h : (Peg.rule r).calm spacing slash) :
    r ∉ Rule.restless ∧ ((spacing = .skipped ∧ r = .stringLiteral) ∨
      ∃ slash' : Bool, r.inside spacing ≠ .compound ∧ r.body.calm (r.inside spacing) slash' ∧
        (r.inside spacing = .skipped ∨ slash' → spacing = .skipped)) := by
  rw [Peg.calm] at h
  by_cases hskip : spacing = .skipped
  · rw [if_pos hskip] at h
    subst hskip
    refine ⟨of_decide_eq_true h, ?_⟩
    rcases Rule.calm_skipped r r.mem_all (of_decide_eq_true h) with rfl | ⟨hinside, hcalm⟩
    · exact .inl ⟨rfl, rfl⟩
    · exact .inr ⟨true, hinside, hcalm, fun _ => rfl⟩
  · rw [if_neg hskip] at h
    obtain rfl : spacing = .token := by
      cases spacing with
      | skipped => exact absurd rfl hskip
      | compound => exact absurd rfl hspacing
      | token => rfl
    obtain ⟨hrest, hinside, hcalm⟩ := Rule.calm_inner r (of_decide_eq_true h)
    refine ⟨hrest, .inr ⟨false, ?_, ?_, ?_⟩⟩
    · rw [hinside]
      exact nofun
    · rwa [hinside]
    · rw [hinside]
      exact nofun

/-- Two nodes are the same if they are no tokens or have the same text. -/
theorem Rule.made_congr {r : Rule} {s s' t t' : List Char}
    (h : r.kind = .token → textBetween s s' = textBetween t t') (spacing : Spacing)
    (trees : List Tree) : r.made spacing s s' trees = r.made spacing t t' trees := by
  rw [Rule.made, Rule.made]
  by_cases hkind : r.kind = .token
  · rw [h hkind]
  · rw [if_neg hkind, if_neg hkind]

namespace Peg

/-- Where nothing is skipped, the same characters were taken from both texts. Tokens are read
without skipping, and their nodes hold the text between the two places. -/
def SameTaken (spacing : Spacing) (s s' t t' : List Char) : Prop :=
  spacing ≠ .skipped → ∃ w, s = w ++ s' ∧ t = w ++ t'

/-- In the second text, the expression matches with the same nodes, and behind the matches the
texts are related again. -/
def Follows (R : List Char → List Char → Prop) (spacing : Spacing) (p : Peg) (s s' : List Char)
    (trees : List Tree) (t : List Char) : Prop :=
  ∃ t', p.Matches spacing t t' trees ∧ R s' t' ∧ SameTaken spacing s s' t t'

/-- `Follows` for the matches behind the first one of a repetition. -/
def FollowsAgain (R : List Char → List Char → Prop) (spacing : Spacing) (p : Peg)
    (s s' : List Char) (trees : List Tree) (t : List Char) : Prop :=
  ∃ t', p.Iterates spacing t t' trees ∧ R s' t' ∧ SameTaken spacing s s' t t'

namespace SameTaken

variable {spacing : Spacing} {s s₁ s' t t₁ t' : List Char}

theorem refl : SameTaken spacing s s t t := fun _ => ⟨[], rfl, rfl⟩

theorem trans (h : SameTaken spacing s s₁ t t₁) (h' : SameTaken spacing s₁ s' t₁ t') :
    SameTaken spacing s s' t t' := by
  intro hne
  obtain ⟨w, rfl, rfl⟩ := h hne
  obtain ⟨w', rfl, rfl⟩ := h' hne
  exact ⟨w ++ w', by rw [List.append_assoc], by rw [List.append_assoc]⟩

/-- What is skipped in between does not matter, since then nothing is said. -/
theorem trans_skip (h : SameTaken spacing s s₁ t t₁)
    (h' : SameTaken spacing (spacing.skip s₁) s' (spacing.skip t₁) t') :
    SameTaken spacing s s' t t' := by
  intro hne
  rw [Spacing.skip_of_ne hne, Spacing.skip_of_ne hne] at h'
  exact h.trans h' hne

end SameTaken

/-! ### Following, operator by operator

The lemmas say for each way to match that it is followed if its parts are. What the relation has
to do with calm expressions is left to the induction (`Peg.Matches.alike`). -/

section

variable {R R₁ : List Char → List Char → Prop} {spacing : Spacing} {p q : Peg}
  {s s₁ s' t : List Char} {trees trees' : List Tree}

/-- What takes nothing is followed where it matches. -/
theorem Follows.stay (h : p.Matches spacing t t trees) (hst : R s t) :
    p.Follows R spacing s s trees t :=
  ⟨t, h, hst, .refl⟩

/-- A rule makes the same node if its body is followed: its text is the same if it is a token. -/
theorem Follows.rule {r : Rule} (body : r.body.Follows R (r.inside spacing) s s' trees t) :
    (rule r).Follows R spacing s s' (r.made spacing s s' trees) t := by
  obtain ⟨t', body, halike, htaken⟩ := body
  refine ⟨t', ?_, halike, fun hne => htaken (Rule.inside_ne_skipped _ hne)⟩
  rw [Rule.made_congr (t := t)]
  · exact .rule body
  · intro hkind
    obtain ⟨w, rfl, rfl⟩ := htaken (by rw [Rule.inside, hkind]; exact nofun)
    rw [textBetween_self_append, textBetween_self_append]

/-- The second part of a sequence is followed from wherever the first one was followed to. -/
theorem Follows.seq (first : p.Follows R₁ spacing s s₁ trees t)
    (second : ∀ t₁, R₁ s₁ t₁ → q.Follows R spacing (spacing.skip s₁) s' trees' (spacing.skip t₁)) :
    (seq p q).Follows R spacing s s' (trees ++ trees') t := by
  obtain ⟨t₁, first, halike, htaken⟩ := first
  obtain ⟨t', second, halike, htaken'⟩ := second t₁ halike
  exact ⟨t', .seq first second, halike, htaken.trans_skip htaken'⟩

/-- A choice is followed by its first alternative if that one is followed. -/
theorem Follows.left (first : p.Follows R spacing s s' trees t) :
    (choice p q).Follows R spacing s s' trees t := by
  obtain ⟨t', first, halike⟩ := first
  exact ⟨t', .left first, halike⟩

/-- A second alternative is followed where the first one fails in the second text too. That it does
fail is the point at which following needs the texts to be alike. -/
theorem Follows.right (first : p.Fails spacing t) (second : q.Follows R spacing s s' trees t) :
    (choice p q).Follows R spacing s s' trees t := by
  obtain ⟨t', second, halike⟩ := second
  exact ⟨t', .right first second, halike⟩

/-- A repetition is followed match by match, from wherever the match before was followed to. -/
theorem Follows.times (first : p.Follows R₁ spacing s s₁ trees t)
    (more : ∀ t₁, R₁ s₁ t₁ → p.FollowsAgain R spacing s₁ s' trees' t₁) :
    (many p).Follows R spacing s s' (trees ++ trees') t := by
  obtain ⟨t₁, first, halike, htaken⟩ := first
  obtain ⟨t', more, halike, htaken'⟩ := more t₁ halike
  exact ⟨t', .times first more, halike, htaken.trans htaken'⟩

theorem Follows.present (body : p.Follows R spacing s s' trees t) :
    (Peg.optional p).Follows R spacing s s' trees t := by
  obtain ⟨t', body, halike⟩ := body
  exact ⟨t', .present body, halike⟩

/-- The next match of a repetition is followed behind what is skipped in front of it. -/
theorem FollowsAgain.step
    (body : p.Follows R₁ spacing (spacing.skip s) s₁ trees (spacing.skip t))
    (more : ∀ t₁, R₁ s₁ t₁ → p.FollowsAgain R spacing s₁ s' trees' t₁) :
    p.FollowsAgain R spacing s s' (trees ++ trees') t := by
  obtain ⟨t₁, body, halike, htaken⟩ := body
  obtain ⟨t', more, halike, htaken'⟩ := more t₁ halike
  exact ⟨t', .step body more, halike, SameTaken.refl.trans_skip (htaken.trans htaken')⟩

end

section

variable {step : Nat → Char → Option Nat} {R : Nat → List Char → List Char → Prop}
  (hR : ReadAlike step R)
include hR

/-- Fixed characters are followed if they are calm: they begin the second text as well. -/
theorem Matches.word_alike {spacing : Spacing} {slash : Bool} {w : List Char} {n m : Nat}
    {s s' t : List Char} (h : s = w ++ s') (hw : calmWord slash w)
    (hcount : w.foldlM step n = some m) (hslash : slash → dropTrivia s = s) (hst : R n s t) :
    (Peg.word w).Follows (R m) spacing s s' [] t := by
  subst h
  obtain ⟨s', t', hs', rfl, more⟩ := hR.of_word hst hw hcount hslash (.inl ⟨_, rfl⟩)
  obtain rfl := List.append_cancel_left hs'
  exact ⟨t', .word rfl, more, fun _ => ⟨w, rfl, rfl⟩⟩

theorem Matches.one_alike {spacing : Spacing} {chars : CharClass} {x : Char} {n : Nat}
    {s s' t : List Char} (h : s = x :: s') (hx : chars.contains x) (hany : chars ≠ .any)
    (hst : R n s t) : (Peg.one chars).Follows (R n) spacing s s' [] t := by
  subst h
  obtain ⟨s', t', hs', rfl, more⟩ := hR.of_class hst hany hx (.inl ⟨_, rfl⟩)
  obtain rfl := (List.cons.inj hs').2
  exact ⟨t', .one rfl hx, more, fun _ => ⟨[x], rfl, rfl⟩⟩

mutual

/-- **What matches in a text also does in one that is read alike, with the same nodes.** The
expression has to be calm and to have a count. The induction is on the match, over matches,
repetitions and failures at once; what is particular to an operator is in the lemmas above. -/
theorem Matches.alike {spacing : Spacing} {p : Peg} {slash : Bool} {n m : Nat}
    {s s' t : List Char} {trees : List Tree} : p.Matches spacing s s' trees →
      spacing ≠ .compound → p.calm spacing slash → p.count step n = some m →
        (spacing = .skipped ∨ slash → dropTrivia s = s) → R n s t →
          p.Follows (R m) spacing s s' trees t
  | .word h, _, hp, hcount, hs, hst =>
    Matches.word_alike hR h hp hcount (fun h => hs (.inr h)) hst
  | .one h hx, _, hp, hcount, _, hst => by
    obtain rfl := Option.some.inj hcount
    exact Matches.one_alike hR h hx (of_decide_eq_true hp) hst
  | .start, _, hp, _, _, _ => nomatch hp
  | .finish, _, _, hcount, _, hst => by
    obtain rfl := Option.some.inj hcount
    obtain rfl := (hR.eq_nil_iff hst).mp rfl
    exact .stay .finish hst
  | .rule body, hspacing, hp, hcount, hs, hst => by
    obtain rfl := Option.some.inj hcount
    obtain ⟨hrest, ⟨rfl, rfl⟩ | ⟨slash', hinside, hcalm, hsettled⟩⟩ :=
      Rule.calm_body hspacing hp
    -- strings may differ between the texts, and the relation says of them what is needed
    · obtain ⟨t', h', halike⟩ := hR.stringLiteral hst (.rule body)
      exact ⟨t', h', halike, fun hne => absurd rfl hne⟩
    · exact .rule (body.alike hinside hcalm (hR.body hrest n) (fun h => hs (.inl (hsettled h))) hst)
  | .seq first second, hspacing, hp, hcount, hs, hst => by
    obtain ⟨hp, hq⟩ := Bool.and_eq_true_iff.mp hp
    obtain ⟨k, hk, hm⟩ := count_seq_iff.mp hcount
    exact .seq (first.alike hspacing hp hk hs hst) fun _ halike =>
      second.alike hspacing hq hm (fun hskip =>
        Spacing.dropTrivia_skip (hskip.elim id of_decide_eq_true) _) (hR.skip_spacing halike _)
  | .left first, hspacing, hp, hcount, hs, hst =>
    .left (first.alike hspacing (Bool.and_eq_true_iff.mp hp).1 (count_choice_iff.mp hcount).1 hs
      hst)
  | .right first second, hspacing, hp, hcount, hs, hst => by
    obtain ⟨hp, hq⟩ := Bool.and_eq_true_iff.mp hp
    obtain ⟨hcount, hcount'⟩ := count_choice_iff.mp hcount
    exact .right (first.alike hspacing hp hcount hs hst) (second.alike hspacing hq hcount' hs hst)
  | .never body, hspacing, hp, hcount, hs, hst => by
    -- repeating leaves the count as it is, so it is the same in front of every match
    obtain ⟨hinner, rfl⟩ := count_many_iff.mp hcount
    exact .stay (.never (body.alike hspacing hp hinner
      (fun hskip => hs (.inl (hskip.elim id of_decide_eq_true))) hst)) hst
  | .times first more, hspacing, hp, hcount, hs, hst => by
    obtain ⟨hinner, rfl⟩ := count_many_iff.mp hcount
    exact .times (first.alike hspacing hp hinner
      (fun hskip => hs (.inl (hskip.elim id of_decide_eq_true))) hst) fun _ halike =>
        more.alike hspacing hp hinner halike
  | .absent body, hspacing, hp, hcount, hs, hst => by
    obtain ⟨hinner, rfl⟩ := count_optional_iff.mp hcount
    exact .stay (.absent (body.alike hspacing hp hinner hs hst)) hst
  | .present body, hspacing, hp, hcount, hs, hst => by
    obtain ⟨hinner, rfl⟩ := count_optional_iff.mp hcount
    exact .present (body.alike hspacing hp hinner hs hst)
  | .ahead (p := p) body, hspacing, hp, hcount, hs, hst => by
    obtain ⟨⟨k, hinner⟩, rfl⟩ := count_ahead_iff.mp hcount
    have hahead : ∃ t' trees, p.Matches spacing t t' trees := by
      -- only the end of a line may be looked for without being calm
      rcases Bool.or_eq_true_iff.mp hp with hp | hp
      · obtain rfl := of_decide_eq_true hp
        exact (hR.lineEnd hst spacing).mp ⟨_, _, body⟩
      · obtain ⟨t', body', -⟩ := body.alike hspacing hp hinner hs hst
        exact ⟨t', _, body'⟩
    obtain ⟨t', _, body'⟩ := hahead
    exact .stay (.ahead body') hst
  | .notAhead body, hspacing, hp, hcount, hs, hst => by
    obtain ⟨⟨k, hinner⟩, rfl⟩ := count_notAhead_iff.mp hcount
    exact .stay (.notAhead (body.alike hspacing hp hinner hs hst)) hst

theorem Iterates.alike {spacing : Spacing} {p : Peg} {n : Nat} {s s' t : List Char}
    {trees : List Tree} : p.Iterates spacing s s' trees → spacing ≠ .compound →
      p.calm spacing (spacing = .skipped) → p.count step n = some n → R n s t →
        p.FollowsAgain (R n) spacing s s' trees t
  | .stop body, hspacing, hp, hcount, hst => by
    have hfails := body.alike hspacing hp hcount (fun hskip =>
      Spacing.dropTrivia_skip (hskip.elim id of_decide_eq_true) _) (hR.skip_spacing hst _)
    exact ⟨t, .stop hfails, hst, .refl⟩
  | .step body more, hspacing, hp, hcount, hst =>
    .step (body.alike hspacing hp hcount (fun hskip =>
      Spacing.dropTrivia_skip (hskip.elim id of_decide_eq_true) _) (hR.skip_spacing hst _))
      fun _ halike => more.alike hspacing hp hcount halike

/-- **What fails in a text also does in one that is read alike.** It does not follow from the
statement about matches, as the relation need not be symmetric. -/
theorem Fails.alike {spacing : Spacing} {p : Peg} {slash : Bool} {n m : Nat} {s t : List Char} :
    p.Fails spacing s → spacing ≠ .compound → p.calm spacing slash → p.count step n = some m →
      (spacing = .skipped ∨ slash → dropTrivia s = s) → R n s t → p.Fails spacing t
  | .word h, _, hp, hcount, hs, hst => by
    -- a word that begins the second text would begin the first one too
    refine .word fun t' ht => ?_
    obtain ⟨s', -, hs', -⟩ :=
      hR.of_word hst hp hcount (fun h => hs (.inr h)) (.inr ⟨t', ht.symm⟩)
    exact h s' hs'
  | .one h, _, hp, _, hs, hst => by
    refine .one fun x t' ht hx => ?_
    obtain ⟨s', -, hs', -⟩ := hR.of_class hst (of_decide_eq_true hp) hx (.inr ⟨t', ht.symm⟩)
    exact h x s' hs' hx
  | .finish h, _, _, _, _, hst => .finish fun ht => h ((hR.eq_nil_iff hst).mpr ht)
  | .rule body, hspacing, hp, hcount, hs, hst => by
    obtain ⟨hrest, ⟨hskip, rfl⟩ | ⟨slash', hinside, hcalm, hsettled⟩⟩ :=
      Rule.calm_body hspacing hp
    · exact hskip ▸ hR.fails_stringLiteral hst (hskip ▸ Fails.rule body)
    · exact .rule (body.alike hinside hcalm (hR.body hrest n)
        (fun h => hs (.inl (hsettled h))) hst)
  | .first first, hspacing, hp, hcount, hs, hst => by
    obtain ⟨k, hk, -⟩ := count_seq_iff.mp hcount
    exact .first (first.alike hspacing (Bool.and_eq_true_iff.mp hp).1 hk hs hst)
  | .second first second, hspacing, hp, hcount, hs, hst => by
    obtain ⟨hp, hq⟩ := Bool.and_eq_true_iff.mp hp
    obtain ⟨k, hk, hm⟩ := count_seq_iff.mp hcount
    obtain ⟨t₁, first', halike, -⟩ := first.alike hspacing hp hk hs hst
    exact .second first' (second.alike hspacing hq hm (fun hskip =>
      Spacing.dropTrivia_skip (hskip.elim id of_decide_eq_true) _) (hR.skip_spacing halike _))
  | .both first second, hspacing, hp, hcount, hs, hst => by
    obtain ⟨hp, hq⟩ := Bool.and_eq_true_iff.mp hp
    obtain ⟨hcount, hcount'⟩ := count_choice_iff.mp hcount
    exact .both (first.alike hspacing hp hcount hs hst) (second.alike hspacing hq hcount' hs hst)
  | .ahead body, hspacing, hp, hcount, hs, hst => by
    obtain ⟨⟨k, hinner⟩, rfl⟩ := count_ahead_iff.mp hcount
    rcases Bool.or_eq_true_iff.mp hp with hp | hp
    · obtain rfl := of_decide_eq_true hp
      exact .ahead (hR.fails_lineEnd hst body)
    · exact .ahead (body.alike hspacing hp hinner hs hst)
  | .notAhead body, hspacing, hp, hcount, hs, hst => by
    obtain ⟨⟨k, hinner⟩, rfl⟩ := count_notAhead_iff.mp hcount
    obtain ⟨t', body', -⟩ := body.alike hspacing hp hinner hs hst
    exact .notAhead body'

end

end

end Peg

end Scriptlet
