import Scriptlet.Proofs.Grammar.Respacing

/-!
# Expressions in parentheses

What stands behind the parenthesis that closes an expression has no part in how the expression is
read (`Peg.Matches.parenthesized_append`). Two texts that are the same up to that parenthesis are
read alike, since none of the expressions that are tried inside gets past it: every rule closes the
parentheses that it opens and no others.

This lets a text in parentheses be read by itself. The proof has to exclude that some rule, tried
inside the parentheses and given up later, looked at what stands behind them; to this end the open
parentheses are counted along each match, and no match can pass the parenthesis at which the count
would become negative. Parentheses in comments and strings do not count, so the text is passed in
portions again.
-/

namespace Scriptlet

/-! ## Open parentheses

A count that is not defined where more parentheses are closed than were opened. Rules leave it as it
was, which is computed with none open and then known for any number.
-/

/-- How many parentheses are open behind a character, if `n` are before it. Where none is open,
none can be closed. -/
def nest (n : Nat) (c : Char) : Option Nat :=
  if c = '(' then some (n + 1)
  else if c = ')' then if n = 0 then none else some (n - 1)
  else some n

/-- With one more parenthesis open in front of a character, one more is open behind it. -/
theorem nest_succ {n m : Nat} {c : Char} (h : nest n c = some m) :
    nest (n + 1) c = some (m + 1) := by
  simp only [nest] at h ⊢
  split_ifs at h ⊢ <;> grind

/-- Several characters that lead from one count to another do so with one more parenthesis open. -/
theorem foldlM_nest_succ {w : List Char} {n m : Nat} (h : w.foldlM nest n = some m) :
    w.foldlM nest (n + 1) = some (m + 1) := by
  induction w generalizing n with
  | nil => exact congrArg _ (congrArg _ (Option.some.inj h))
  | cons c w ih =>
    rw [List.foldlM_cons] at h ⊢
    obtain ⟨k, hk, h⟩ := Option.bind_eq_some_iff.mp h
    rw [nest_succ hk]
    exact ih h

namespace Peg

/-- An expression opens and closes the same parentheses inside of others. -/
theorem count_nest_succ {p : Peg} {n m : Nat} (h : p.count nest n = some m) :
    p.count nest (n + 1) = some (m + 1) := by
  induction p generalizing n m with
  | word w => exact foldlM_nest_succ h
  | one _ | start | finish | rule _ => exact congrArg _ (congrArg _ (Option.some.inj h))
  | seq p q ihp ihq =>
    obtain ⟨k, hp, hq⟩ := count_seq_iff.mp h
    exact count_seq_iff.mpr ⟨k + 1, ihp hp, ihq hq⟩
  | choice p q ihp ihq =>
    obtain ⟨hp, hq⟩ := count_choice_iff.mp h
    exact count_choice_iff.mpr ⟨ihp hp, ihq hq⟩
  | many p ih | optional p ih =>
    obtain ⟨hp, rfl⟩ := count_many_iff.mp h
    exact count_many_iff.mpr ⟨ih hp, rfl⟩
  | ahead p ih | notAhead p ih =>
    obtain ⟨⟨k, hp⟩, rfl⟩ := count_ahead_iff.mp h
    exact count_ahead_iff.mpr ⟨⟨k + 1, ih hp⟩, rfl⟩

end Peg

/-- Every rule closes what it opens, with none open before: a computation over all rules. -/
theorem Rule.count_nest_zero : ∀ r ∈ Rule.all, r ∉ Rule.restless →
    r.body.count nest 0 = some 0 := by
  decide +kernel

/-- **Every rule closes the parentheses that it opens and no others.** However many are open before
a match, as many are open behind it: with none open this is computed for every body
(`Rule.count_nest_zero`), and more of them change nothing. -/
theorem steady_nest : Steady nest where
  body := by
    intro r hr n
    induction n with
    | zero => exact Rule.count_nest_zero r r.mem_all hr
    | succ n ih => exact Peg.count_nest_succ ih
  other := fun hopen hclose n => by rw [nest, if_neg hopen, if_neg hclose]

/-! ## Texts up to a closing parenthesis

The relation is the one of respaced texts with the count added, and the gap replaced by the closing
parenthesis.
-/

/-- With `n` more parentheses open, both texts lead up to the one that closes them, in the same way;
behind it the first text goes on with `z` and the second with `z'`. Nothing is asked of these
two. -/
inductive Enclosed (z z' : List Char) : Nat → List Char → List Char → Prop
  | here : Enclosed z z' 0 (')' :: z) (')' :: z')
  | char {n m : Nat} {c : Char} {s t : List Char} (hc : c ≠ '"' ∧ c ≠ '\'')
    (hslash : c = '/' → ∀ d ∈ s.head?, d ≠ '/' ∧ d ≠ '*') (hnest : nest n c = some m)
    (more : Enclosed z z' m s t) : Enclosed z z' n (c :: s) (c :: t)
  | block {n : Nat} {body s t : List Char} (hend : ¬['*', '/'] <:+: body)
    (more : Enclosed z z' n s t) :
    Enclosed z z' n ('/' :: '*' :: (body ++ '*' :: '/' :: s))
      ('/' :: '*' :: (body ++ '*' :: '/' :: t))
  | line {n : Nat} {body s t : List Char} (hend : '\n' ∉ body) (more : Enclosed z z' n s t) :
    Enclosed z z' n ('/' :: '/' :: (body ++ '\n' :: s)) ('/' :: '/' :: (body ++ '\n' :: t))
  | string {n : Nat} {quote : Char} {text s t : List Char} (hquote : quote = '"' ∨ quote = '\'')
    (htext : Quoted quote text) (more : Enclosed z z' n s t) :
    Enclosed z z' n (quote :: (text ++ quote :: s)) (quote :: (text ++ quote :: t))

/-- At a closing parenthesis neither a comment nor a name goes on, and no line ends. -/
theorem seam_close (z z' : List Char) : Seam (')' :: z) (')' :: z') where
  head := by
    rintro - _ ⟨⟩
    decide
  name := by
    simp only [List.forall_mem_cons, List.not_mem_nil, false_imp_iff, implies_true, and_true]
    refine ⟨?_, ?_⟩ <;>
    · rintro _ ⟨⟩
      decide
  line := by
    have hends : ∀ u, ¬EndsLine (')' :: u) := by
      intro u
      rw [endsLine_of_fails (Peg.inlineTrivium_fails_cons (by decide) (absurd · (by decide))),
        not_not, Peg.fails_lineEnd_cons (absurd · (by decide))]
      decide
    exact iff_of_false (hends z) (hends z')

namespace Enclosed

variable {z z' s t : List Char} {n : Nat}

/-- But for the count, the texts lead up to the parenthesis as to a gap. -/
theorem respaced (h : Enclosed z z' n s t) : Respaced (')' :: z) (')' :: z') s t := by
  induction h with
  | here => exact .here
  | char hc hslash _ _ ih => exact .char hc hslash ih
  | block hend _ ih => exact .block hend ih
  | line hend _ ih => exact .line hend ih
  | string hquote htext _ ih => exact .string hquote htext ih

/-- Trivia are skipped alike, as in respaced texts, and do not count. -/
theorem skip (h : Enclosed z z' n s t) : Enclosed z z' n (dropTrivia s) (dropTrivia t) := by
  induction h with
  | here =>
    rw [dropTrivia_cons (by decide) (by decide), dropTrivia_cons (by decide) (by decide)]
    exact .here
  | @char n m c s t hc hslash hnest more ih =>
    by_cases hblank : isBlank c
    · have hne : ∀ d, isBlank d = false → c ≠ d := by
        rintro d hd rfl
        rw [hblank] at hd
        cases hd
      obtain rfl : n = m :=
        Option.some.inj ((steady_nest.other (hne _ rfl) (hne _ rfl) n).symm.trans hnest)
      rw [dropTrivia_blank hblank, dropTrivia_blank hblank]
      exact ih
    · have hblank := Bool.eq_false_iff.mpr hblank
      rw [dropTrivia_char hblank hslash, dropTrivia_char hblank fun heq =>
        more.respaced.head_of (seam_close z z') (hslash heq)]
      exact .char hc hslash hnest more
  | block hend _ ih =>
    rw [dropTrivia_block hend, dropTrivia_block hend]
    exact ih
  | line hend _ ih =>
    rw [dropTrivia_line hend, dropTrivia_line hend]
    exact ih
  | string hquote htext more =>
    rw [dropTrivia_quote hquote, dropTrivia_quote hquote]
    exact .string hquote htext more

/-- With no more parentheses open, a parenthesis that closes is the one behind which the texts
differ. -/
theorem eq_close {s t : List Char} (h : Enclosed z z' 0 (')' :: s) t) : t = ')' :: z' := by
  cases h with
  | here => rfl
  | char _ _ hnest _ => cases hnest
  | string hquote _ _ => exact absurd hquote (by decide)

/-- What the texts begin with where nothing is skipped. No expression can go past the closing
parenthesis, which is where the count ends. -/
theorem begins (h : Enclosed z z' n s t) (hskip : dropTrivia s = s ∨ dropTrivia t = t) :
    Begins nest (Enclosed z z') n s t := by
  cases h with
  | here => exact .char (by decide) fun _ hclose => nomatch hclose
  | char hc _ hnest more =>
    refine .char hc fun m hm => ?_
    obtain rfl := Option.some.inj (hnest.symm.trans hm)
    exact more
  | block hend _ =>
    exact absurd hskip (not_or.mpr ⟨dropTrivia_block_ne hend _, dropTrivia_block_ne hend _⟩)
  | line hend _ =>
    exact absurd hskip (not_or.mpr ⟨dropTrivia_line_ne hend _, dropTrivia_line_ne hend _⟩)
  | string hquote htext more => exact .string hquote htext more

end Enclosed

/-- **Texts that are the same up to the closing parenthesis are read alike.** Skipping trivia and
taking words keep the two places related, as nothing that is matched leads past that parenthesis,
and a line ends at both places or at none. -/
theorem alike_enclosed (z z' : List Char) : ReadAlike nest (Enclosed z z') where
  toSteady := steady_nest
  skip := Enclosed.skip
  begins := Enclosed.begins
  lineEnd := fun h _ => Peg.returnAtLineEnd_respaced (seam_close z z') h.respaced

/-- What leads up to the parenthesis does so with characters, comments and strings in front. -/
theorem led_enclosed (z z' : List Char) : Led nest fun n s => ∃ t, Enclosed z z' n s t where
  toSteady := steady_nest
  char := fun hc hslash hnest ⟨t, ht⟩ => ⟨_, .char hc hslash hnest ht⟩
  block := fun hend ⟨t, ht⟩ => ⟨_, .block hend ht⟩
  line := by
    rintro n body s hend hs ⟨t, ht⟩
    have hne : s ≠ [] := by
      rintro rfl
      cases ht
    obtain ⟨s, rfl⟩ := List.head?_eq_some_iff.mp (hs.resolve_right hne)
    generalize hline : '\n' :: s = line at ht
    cases ht with
    | here => exact absurd (List.cons.inj hline).1 (by decide)
    | char _ _ hnest more =>
      obtain ⟨rfl, rfl⟩ := List.cons.inj hline
      obtain rfl := Option.some.inj hnest
      exact ⟨_, .line hend more⟩
    | block _ _ | line _ _ => exact absurd (List.cons.inj hline).1 (by decide)
    | string hquote _ _ =>
      obtain ⟨rfl, -⟩ := List.cons.inj hline
      exact absurd hquote (by decide)
  string := fun hquote htext ⟨t, ht⟩ => ⟨_, .string hquote htext ht⟩

namespace Peg

/-- **What stands behind an expression in parentheses does not change how it is read.** The match
itself leads from the closing parenthesis back to the opening one; the texts are then read alike in
between. -/
theorem Matches.parenthesized_append {w s' : List Char} {trees : List Tree}
    (h : (Peg.rule .parenthesizedExpression).Matches .skipped (w ++ s') s' trees)
    (more : List Char) :
    (Peg.rule .parenthesizedExpression).Matches .skipped (w ++ more) more trees := by
  obtain ⟨_, hbody, rfl⟩ := matches_rule_iff.mp h
  obtain ⟨s₂, _, _, hinner, hend, rfl⟩ := matches_seq_iff.mp hbody
  obtain ⟨s₁, _, _, hbegin, hexpression, rfl⟩ := matches_seq_iff.mp hinner
  obtain ⟨hopen, rfl⟩ := matches_word_iff.mp hbegin
  obtain ⟨hclose, rfl⟩ := matches_word_iff.mp hend
  have hclose : dropTrivia s₂ = ')' :: s' := hclose
  have hL := led_enclosed s' more
  have hR := alike_enclosed s' more
  -- the text leads up to the closing parenthesis
  obtain ⟨t₁, ht₁⟩ : ∃ t, Enclosed s' more 0 s₁ t := by
    refine hL.of_dropTrivia (hexpression.led hL rfl (by decide) rfl (dropTrivia_dropTrivia s₁) ?_)
    refine hL.of_dropTrivia ?_
    rw [hclose]
    exact ⟨_, .here⟩
  -- what is in the parentheses is read alike
  have hcalm : (Peg.rule .expression).calm .skipped true := by decide
  obtain ⟨t₂, hexpression', ht₂, -⟩ := hexpression.alike hR nofun hcalm rfl
    (fun _ => dropTrivia_dropTrivia s₁) ht₁.skip
  have hclose' : dropTrivia t₂ = ')' :: more := (hclose ▸ ht₂.skip).eq_close
  -- and the text in front of the parenthesis is the same
  obtain ⟨u, rfl, rfl⟩ := ht₁.respaced.exists_before
  obtain rfl : w = '(' :: (u ++ [')']) := by
    have hw : w ++ s' = '(' :: (u ++ [')']) ++ s' := by
      rw [hopen]
      simp
    exact List.append_cancel_right hw
  have htext : '(' :: (u ++ [')']) ++ more = '(' :: (u ++ ')' :: more) := by simp
  rw [htext, Rule.made_congr (t := '(' :: (u ++ ')' :: more)) (absurd · (by decide))]
  exact .rule (.seq (.seq (.word rfl) hexpression') (.word hclose'))

end Peg

end Scriptlet
