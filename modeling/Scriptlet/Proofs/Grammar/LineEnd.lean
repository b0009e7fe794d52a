import Scriptlet.Proofs.Grammar.Gap

/-!
# The end of the line behind a `return`

Whether a `return` ends its line is looked ahead for by an expression with its own idea of trivia,
which are those within a line. Respaced texts end their lines alike (`Respaced.endsLine_iff`), so
the lookahead comes to the same in both (`Peg.returnAtLineEnd_respaced`).

The lookahead reads blanks and block comments as characters, inside of a token. A comment over
several lines is not one within a line: there the line ends inside of the comment. So it matters not
only that something is skipped behind a `return`, as it does everywhere else, but what. `EndsLine`
is the condition, and the relation between respaced texts is shown to keep it, character by
character and comment by comment.
-/

namespace Scriptlet

open Peg

/-! ## Trivia within a line

What the expression for trivia within a line matches, and where it fails.
-/

/-- The inside of a comment within a line goes up to the end of the comment. -/
theorem atInlineEnd_of_body {body : List Char} (hend : ¬['*', '/'] <:+: body)
    (hfeed : '\n' ∉ body) (hreturn : '\r' ∉ body) (s : List Char) :
    atInlineEnd (body ++ '*' :: '/' :: s) = '*' :: '/' :: s := by
  induction body with
  | nil => rfl
  | cons c body ih =>
    rw [List.mem_cons, not_or] at hfeed hreturn
    rw [List.cons_append, atInlineEnd, if_neg]
    · exact ih (not_infix_of_cons hend) hfeed.2 hreturn.2
    · rintro (hbegins | rfl | rfl)
      · exact not_blockEnd hend s hbegins
      · exact hfeed.1 rfl
      · exact hreturn.1 rfl

/-- In a comment over several lines the end of the line comes first. -/
theorem atInlineEnd_of_break {body : List Char} (hend : ¬['*', '/'] <:+: body)
    (hbreak : '\n' ∈ body ∨ '\r' ∈ body) (s : List Char) :
    ∃ c u, atInlineEnd (body ++ '*' :: '/' :: s) = c :: u ∧ (c = '\n' ∨ c = '\r') := by
  induction body with
  | nil => simp at hbreak
  | cons c body ih =>
    by_cases hc : c = '\n' ∨ c = '\r'
    · refine ⟨c, body ++ '*' :: '/' :: s, ?_, hc⟩
      rw [List.cons_append, atInlineEnd, if_pos (.inr hc)]
    · rw [not_or] at hc
      rw [List.cons_append, atInlineEnd, if_neg]
      · refine ih (not_infix_of_cons hend) ?_
        simpa [Ne.symm hc.1, Ne.symm hc.2] using hbreak
      · rintro (hbegins | rfl | rfl)
        · exact not_blockEnd hend s hbegins
        · exact hc.1 rfl
        · exact hc.2 rfl

namespace Peg

theorem takesOne_inlineBlank :
    (lit " " <|> lit "\t" <|> lit "\ufeff").TakesOne isInlineBlank :=
  (takesOne_word ' ').choice ((takesOne_word '\t').choice (takesOne_word '\ufeff'))

/-- A blank that is not a line break is one of the trivia that are looked past to find the end of
the line. -/
theorem inlineTrivium_blank {c : Char} (hc : isInlineBlank c) (s : List Char) :
    inlineTrivium.Matches .token (c :: s) s [] := by
  rcases matches_choice_iff.mp (takesOne_inlineBlank.takes hc) with hspace | ⟨hspace, hc⟩
  · exact .left hspace
  rcases matches_choice_iff.mp hc with htab | ⟨htab, hc⟩
  · exact .right hspace (.left htab)
  · exact .right hspace (.right htab (.left hc))

theorem inlineTrivium_fails {s : List Char} (hs : ∀ c ∈ s.head?, isInlineBlank c = false)
    (hcomment : (rule .inlineBlockComment).Fails .token s) : inlineTrivium.Fails .token s := by
  obtain ⟨hspace, hs⟩ := fails_choice_iff.mp (takesOne_inlineBlank.fails hs)
  obtain ⟨htab, hmark⟩ := fails_choice_iff.mp hs
  exact .both hspace (.both htab (.both hmark hcomment))

/-- A block comment without a line break in it is one of these trivia, as a whole. -/
theorem inlineTrivium_comment {body : List Char} (hend : ¬['*', '/'] <:+: body)
    (hfeed : '\n' ∉ body) (hreturn : '\r' ∉ body) (s : List Char) :
    inlineTrivium.Matches .token ('/' :: '*' :: (body ++ '*' :: '/' :: s)) s [] := by
  have hslash : ∀ x : Char, x ≠ '/' → ∀ u, (word [x]).Fails .token ('/' :: u) := by
    intro x hx u
    refine (takesOne_word x).fails ?_
    rintro _ ⟨⟩
    exact decide_eq_false (Ne.symm hx)
  refine .right (hslash _ (by decide) _) (.right (hslash _ (by decide) _)
    (.right (hslash _ (by decide) _) ?_))
  have hbody := (inlineCharacters_match (body ++ '*' :: '/' :: s)).1
  rw [atInlineEnd_of_body hend hfeed hreturn] at hbody
  exact .rule (r := .inlineBlockComment) (.seq (.seq (.word rfl) hbody) (.word rfl))

/-- A comment over several lines is not one within a line, though it is skipped elsewhere. -/
theorem inlineTrivium_fails_break {body : List Char} (hend : ¬['*', '/'] <:+: body)
    (hbreak : '\n' ∈ body ∨ '\r' ∈ body) (s : List Char) :
    inlineTrivium.Fails .token ('/' :: '*' :: (body ++ '*' :: '/' :: s)) := by
  refine inlineTrivium_fails (by rintro _ ⟨⟩; decide) (.rule ?_)
  obtain ⟨c, u, hstop, hc⟩ := atInlineEnd_of_break hend hbreak s
  have hbody := (inlineCharacters_match (body ++ '*' :: '/' :: s)).1
  rw [hstop] at hbody
  refine .second (.seq (.word rfl) hbody) (.word fun s' hs' => ?_)
  obtain ⟨rfl, -⟩ := List.cons.inj hs'
  exact absurd hc (by decide)

/-- Any other character begins nothing of the kind. -/
theorem inlineTrivium_fails_cons {c : Char} {s : List Char} (hc : isInlineBlank c = false)
    (hs : c = '/' → '*' ∉ s.head?) : inlineTrivium.Fails .token (c :: s) := by
  refine inlineTrivium_fails (by rintro _ ⟨⟩; exact hc) ?_
  refine .rule (.first (.first (.word fun s' hs' => ?_)))
  obtain ⟨rfl, rfl⟩ := List.cons.inj hs'
  exact hs rfl rfl

/-- A character that begins no comment ends the line if it is a line break. -/
theorem fails_lineEnd_cons {c : Char} {s : List Char}
    (hs : c = '/' → ∀ d ∈ s.head?, d ≠ '/' ∧ d ≠ '*') :
    lineEnd.Fails .token (c :: s) ↔ c ≠ '\n' ∧ c ≠ '\r' := by
  rw [fails_lineEnd_iff]
  refine ⟨fun ⟨hwords, _⟩ => ⟨?_, ?_⟩, fun hc => ⟨fun w hw s' hs' => ?_, nofun⟩⟩
  · rintro rfl
    exact hwords ['\n'] (by decide) s rfl
  · rintro rfl
    exact hwords ['\r'] (by decide) s rfl
  · simp only [List.mem_cons, List.not_mem_nil, or_false] at hw
    rcases hw with rfl | rfl | rfl | rfl
    · exact hc.1 (List.cons.inj hs').1
    · exact hc.2 (List.cons.inj hs').1
    · obtain ⟨rfl, rfl⟩ := List.cons.inj hs'
      exact (hs rfl '/' rfl).1 rfl
    · obtain ⟨rfl, rfl⟩ := List.cons.inj hs'
      exact (hs rfl '*' rfl).2 rfl

end Peg

/-! ## Lines that end

The end of the line is unaffected by trivia within the line in front of it.
-/

section

variable {s s' : List Char} {trees : List Tree}

/-- Whether the line ends is the same in front of a blank or a comment within the line and behind
it. -/
theorem endsLine_of_matches (h : inlineTrivium.Matches .token s s' trees) :
    EndsLine s ↔ EndsLine s' := by
  refine ⟨fun ⟨s₁, _, hmany, hend⟩ => ?_, fun ⟨s₁, _, hmany, hend⟩ => ⟨s₁, _, .step h hmany, hend⟩⟩
  rcases iterates_iff.mp hmany with ⟨hfails, -, -⟩ | ⟨s₂, _, trees', hfirst, hmore, -⟩
  · exact absurd hfails h.not_fails
  · obtain ⟨rfl, -⟩ := h.unique hfirst
    exact ⟨s₁, trees', hmore, hend⟩

/-- Where there is none, the line has to end at once. -/
theorem endsLine_of_fails (h : inlineTrivium.Fails .token s) :
    EndsLine s ↔ ¬lineEnd.Fails .token s := by
  refine ⟨fun ⟨s₁, _, hmany, hend⟩ => ?_, fun hend => ⟨s, [], .stop h, hend⟩⟩
  rcases iterates_iff.mp hmany with ⟨-, rfl, -⟩ | ⟨s₂, _, trees', hfirst, -, -⟩
  · exact hend
  · exact absurd h hfirst.not_fails

end

/-- Trivia within a line do not end it, however many there are. -/
theorem Inline.endsLine_iff {text : List Char} (h : Inline text) (s : List Char) :
    EndsLine (text ++ s) ↔ EndsLine s := by
  induction h with
  | nil => exact .rfl
  | blank hc _ ih => exact (endsLine_of_matches (inlineTrivium_blank hc _)).trans ih
  | comment hend hfeed hreturn _ ih =>
    simp only [List.cons_append, List.append_assoc]
    exact (endsLine_of_matches (inlineTrivium_comment hend hfeed hreturn _)).trans ih

/-- Trivia within a line may take each other's place, if those that come instead begin with white
space. They are a gap in which respacing is always harmless. -/
theorem Inline.regapped {text text' s : List Char} (h : Inline text) (h' : Inline text')
    (hs : Scriptlet.dropTrivia (text ++ s) = s) (hne : text ≠ [])
    (hblank : ∃ c ∈ text'.head?, isInlineBlank c) : Regapped (text ++ s) (text' ++ s) where
  skip := by rw [h.dropTrivia, h'.dropTrivia]
  apart := fun heq => hne (List.append_left_eq_self.mp (heq.symm.trans hs))
  inline := by
    cases h with
    | nil => exact absurd rfl hne
    | blank hc _ =>
      rintro ⟨⟩
      cases hc
    | comment _ _ _ _ => rintro ⟨⟩
  blank := by
    obtain ⟨c, hc, hblank⟩ := hblank
    obtain ⟨text', rfl⟩ := List.head?_eq_some_iff.mp hc
    exact ⟨c, rfl, isBlank_of_isInlineBlank hblank⟩
  line := (h.endsLine_iff s).trans (h'.endsLine_iff s).symm

namespace Respaced

variable {z z' s t : List Char} (hz : Seam z z')
include hz

/-- **Respaced texts end their lines alike.** By induction on how the texts lead up to the gap,
where they do by assumption. -/
theorem endsLine_iff (h : Respaced z z' s t) : EndsLine s ↔ EndsLine t := by
  -- of all that is passed, only a comment over several lines ends the line, in both texts alike
  induction h with
  | here => exact hz.line
  | @char c s t hc hslash more ih =>
    by_cases hblank : isInlineBlank c
    · exact (endsLine_of_matches (inlineTrivium_blank hblank s)).trans
        (ih.trans (endsLine_of_matches (inlineTrivium_blank hblank t)).symm)
    · have hends : ∀ u : List Char, (c = '/' → ∀ d ∈ u.head?, d ≠ '/' ∧ d ≠ '*') →
          (EndsLine (c :: u) ↔ ¬(c ≠ '\n' ∧ c ≠ '\r')) := by
        intro u hu
        rw [← fails_lineEnd_cons hu]
        exact endsLine_of_fails (inlineTrivium_fails_cons (Bool.eq_false_iff.mpr hblank)
          fun heq hstar => (hu heq _ hstar).2 rfl)
      exact (hends s hslash).trans (hends t fun heq => more.head_of hz (hslash heq)).symm
  | @block body s t hend _ ih =>
    by_cases hbreak : '\n' ∈ body ∨ '\r' ∈ body
    · have hends : ∀ u, EndsLine ('/' :: '*' :: (body ++ '*' :: '/' :: u)) := by
        intro u
        refine (endsLine_of_fails (inlineTrivium_fails_break hend hbreak u)).mpr fun hfails => ?_
        exact (fails_lineEnd_iff.mp hfails).1 ['/', '*'] (by decide) _ rfl
      exact iff_of_true (hends s) (hends t)
    · rw [not_or] at hbreak
      have hcomment := inlineTrivium_comment hend hbreak.1 hbreak.2
      exact (endsLine_of_matches (hcomment s)).trans
        (ih.trans (endsLine_of_matches (hcomment t)).symm)
  | @line body s t _ _ _ =>
    have hends : ∀ u, EndsLine ('/' :: '/' :: u) := by
      intro u
      refine (endsLine_of_fails (inlineTrivium_fails_cons (by decide) (by rintro - ⟨⟩))).mpr
        fun hfails => ?_
      exact (fails_lineEnd_iff.mp hfails).1 ['/', '/'] (by decide) _ rfl
    exact iff_of_true (hends _) (hends _)
  | @string quote text s t hquote _ _ _ =>
    have hends : ∀ u, ¬EndsLine (quote :: u) := by
      intro u
      have hne : quote ≠ '/' ∧ quote ≠ '\n' ∧ quote ≠ '\r' ∧ isInlineBlank quote = false := by
        rcases hquote with rfl | rfl <;> decide
      rw [endsLine_of_fails (inlineTrivium_fails_cons hne.2.2.2 fun heq => absurd heq hne.1),
        not_not, fails_lineEnd_cons fun heq => absurd heq hne.1]
      exact ⟨hne.2.1, hne.2.2.1⟩
    exact iff_of_false (hends _) (hends _)

/-- A text that leads up to a gap begins with the same name as a respaced one, as no name goes on
over the gap. -/
theorem name (h : Respaced z z' s t) :
    s.takeWhile isIdentChar = t.takeWhile isIdentChar ∧
      Respaced z z' (s.dropWhile isIdentChar) (t.dropWhile isIdentChar) := by
  have hstop : ∀ {c : Char}, isIdentChar c = false → ∀ {u v}, Respaced z z' (c :: u) (c :: v) →
      (c :: u).takeWhile isIdentChar = (c :: v).takeWhile isIdentChar ∧
        Respaced z z' ((c :: u).dropWhile isIdentChar) ((c :: v).dropWhile isIdentChar) := by
    intro c hc u v h
    simpa [List.takeWhile_cons, List.dropWhile_cons, hc] using h
  have hnone : ∀ u ∈ [z, z'], u.takeWhile isIdentChar = [] ∧ u.dropWhile isIdentChar = u := by
    intro u hu
    cases u with
    | nil => exact ⟨rfl, rfl⟩
    | cons c u => simp [hz.name _ hu c rfl]
  induction h with
  | here =>
    obtain ⟨htake, hdrop⟩ := hnone z (by simp)
    obtain ⟨htake', hdrop'⟩ := hnone z' (by simp)
    rw [htake, hdrop, htake', hdrop']
    exact ⟨rfl, .here⟩
  | @char c s t hc hslash more ih =>
    by_cases hname : isIdentChar c
    · simpa [List.takeWhile_cons, List.dropWhile_cons, hname] using ih
    · exact hstop (Bool.eq_false_iff.mpr hname) (.char hc hslash more)
  | block hend more _ => exact hstop (by decide) (.block hend more)
  | line hend more _ => exact hstop (by decide) (.line hend more)
  | string hquote htext more _ =>
    refine hstop ?_ (.string hquote htext more)
    rcases hquote with rfl | rfl <;> decide

end Respaced

namespace Peg

/-- A `return` at the end of its line, without the lookahead: the word, and a line that ends behind
it. -/
theorem exists_matches_returnAtLineEnd_iff {spacing : Spacing} {s : List Char} :
    (∃ s' trees, (rule .returnAtLineEnd).Matches spacing s s' trees) ↔
      s.takeWhile isIdentChar ∈ ["return".toList] ∧ EndsLine (s.dropWhile isIdentChar) := by
  have hword : ∀ {s' trees}, (wholeWord "return").Matches .token s s' trees ↔
      s.takeWhile isIdentChar ∈ ["return".toList] ∧ s' = s.dropWhile isIdentChar ∧ trees = [] :=
    matches_wholeWords_iff (p := lit "return") rfl (by decide) (by decide)
  have hmany : ∀ {u u' trees}, (many inlineTrivium).Matches .token u u' trees ↔
      inlineTrivium.Iterates .token u u' trees := matches_many_iff.trans iterates_iff.symm
  refine ⟨fun ⟨s', trees, h⟩ => ?_, fun ⟨hname, s₁, trees, hiterates, hend⟩ => ?_⟩
  · obtain ⟨inner, hinner, -⟩ := (matches_token_iff rfl).mp h
    obtain ⟨s₁, _, _, hline, hend, -⟩ := matches_seq_iff.mp hinner
    obtain ⟨s₂, _, _, hreturn, htrivia, -⟩ := matches_seq_iff.mp hline
    obtain ⟨hname, rfl, -⟩ := hword.mp hreturn
    exact ⟨hname, s₁, _, hmany.mp htrivia, hend.not_fails⟩
  · obtain ⟨s', trees', hend⟩ := exists_matches_lineEnd_iff.mpr hend
    have hline := Matches.seq (hword.mpr ⟨hname, rfl, rfl⟩) (hmany.mpr hiterates)
    exact ⟨s', _, (matches_token_iff rfl).mpr ⟨_, .seq hline hend, rfl⟩⟩

/-- **A `return` ends its line in a text if it does in a respaced one.** This is the one question of
the grammar that looks at the trivia themselves, and gaps are defined so that they give the same
answer. -/
theorem returnAtLineEnd_respaced {z z' s t : List Char} (hz : Seam z z') (hst : Respaced z z' s t)
    {spacing : Spacing} : (∃ s' trees, (rule .returnAtLineEnd).Matches spacing s s' trees) ↔
      ∃ t' trees, (rule .returnAtLineEnd).Matches spacing t t' trees := by
  rw [exists_matches_returnAtLineEnd_iff, exists_matches_returnAtLineEnd_iff, (hst.name hz).1,
    (hst.name hz).2.endsLine_iff hz]

end Peg

end Scriptlet
