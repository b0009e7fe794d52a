import Scriptlet.Proofs.Grammar.Corner

/-!
# Trailing text

A line break does not join with what stands before it. What a text begins with, what is skipped at
its beginning and where its tokens end does not change if a line break is put behind it, and
anything behind that. The one exception is a block comment that does not end: more text may end it.

The statements are about `s ++ '\n' :: more`. They go from characters to tokens:

* `kind_append`: the text begins with the same kind of token, if it is not empty;
* `dropTrivia_append`: the same is skipped in front of it, if something is left;
* `Peg.Matches.append_token`: the token there ends where it did;
* `Peg.returnAtLineEnd_append`: and a `return` in it ends its line if it did.

The last one is a case of its own since the lookahead behind a `return` reads white space and
comments as characters, inside of a token, where nothing is skipped. Inside of tokens, expressions
are shown to do the same on both texts operator by operator (`Peg.Spared`).
-/

namespace Scriptlet

/-! ## Kinds and trivia -/

/-- A run of characters ends at the line break at the latest, if the line break is none of them. -/
theorem takeWhile_append_newline {f : Char → Bool} (hf : f '\n' = false) (s more : List Char) :
    (s ++ '\n' :: more).takeWhile f = s.takeWhile f := by
  induction s with
  | nil => exact List.takeWhile_cons_of_neg (Bool.eq_false_iff.mp hf)
  | cons c s ih => simp only [List.cons_append, List.takeWhile_cons, ih]

/-- What is left behind such a run has the line break behind it. -/
theorem dropWhile_append_newline {f : Char → Bool} (hf : f '\n' = false) (s more : List Char) :
    (s ++ '\n' :: more).dropWhile f = s.dropWhile f ++ '\n' :: more := by
  induction s with
  | nil => exact List.dropWhile_cons_of_neg (Bool.eq_false_iff.mp hf)
  | cons c s ih =>
    simp only [List.cons_append, List.dropWhile_cons, ih]
    split <;> rfl

/-- No punctuator contains a line break, so the longest one that the text begins with stays the
longest. -/
theorem find_punctuator_append (s more : List Char) :
    punctuators.find? (·.isPrefixOf (s ++ '\n' :: more)) = punctuators.find? (·.isPrefixOf s) := by
  have hnot : ∀ p ∈ punctuators, '\n' ∉ p := by decide
  have hbegins : ∀ p ∈ punctuators, p.isPrefixOf (s ++ '\n' :: more) = p.isPrefixOf s := by
    intro p hp
    rw [Bool.eq_iff_iff, List.isPrefixOf_iff_prefix, List.isPrefixOf_iff_prefix]
    refine ⟨fun ⟨s', h⟩ => ?_, fun h => h.trans (List.prefix_append _ _)⟩
    obtain ⟨t, rfl, -⟩ := eq_append_of_append_cons (hnot p hp) h.symm
    exact List.prefix_append _ _
  revert hbegins
  generalize punctuators = l
  intro hbegins
  induction l with
  | nil => rfl
  | cons p l ih =>
    obtain ⟨hp, hl⟩ := List.forall_mem_cons.mp hbegins
    rw [List.find?_cons, List.find?_cons, hp, ih hl]

/-- **What a text begins with is not changed by what is put behind it**, as long as it begins with
something. -/
theorem kind_append {s : List Char} (hs : s ≠ []) (more : List Char) :
    kind (s ++ '\n' :: more) = kind s := by
  -- Each kind is told by a run of characters at the beginning, or by a punctuator.
  cases s with
  | nil => exact absurd rfl hs
  | cons c s =>
    have hhead : (s ++ '\n' :: more).head?.any Char.isDigit = s.head?.any Char.isDigit := by
      cases s <;> rfl
    have htake := takeWhile_append_newline (f := isIdentChar) (by decide) (c :: s) more
    have hfind := find_punctuator_append (c :: s) more
    rw [List.cons_append] at htake hfind ⊢
    rw [kind, kind, htake, hfind, hhead]

/-- A block comment that ends does so at its first end, whatever is behind. -/
theorem behindBlock_append {s s' : List Char} (h : behindBlock s = some s') (more : List Char) :
    behindBlock (s ++ more) = some (s' ++ more) := by
  induction s with
  | nil => cases h
  | cons c s ih =>
    rw [behindBlock] at h
    rw [List.cons_append, behindBlock]
    split at h
    · next hend =>
      obtain rfl := Option.some.inj h
      obtain ⟨t, ht⟩ := List.isPrefixOf_iff_prefix.mp hend
      obtain ⟨rfl, rfl⟩ := List.cons.inj ht
      rfl
    · next hend =>
      rw [if_neg, ih h]
      cases s with
      | nil => cases h
      | cons d s =>
        intro hend'
        obtain ⟨t, ht⟩ := List.isPrefixOf_iff_prefix.mp hend'
        obtain ⟨rfl, ht'⟩ := List.cons.inj ht
        obtain ⟨rfl, -⟩ := List.cons.inj ht'
        exact hend rfl

/-- A line comment also ends where it did if more lines follow, as it goes up to the first line
break. -/
theorem behindComment_append {s s' : List Char} (h : behindComment s = some s')
    (more : List Char) : behindComment (s ++ '\n' :: more) = some (s' ++ '\n' :: more) := by
  rw [behindComment.eq_def] at h
  split at h
  · next s =>
    obtain rfl := Option.some.inj h
    exact congrArg some (dropWhile_append_newline (by decide) s more)
  · next s => exact behindBlock_append h _
  · cases h

/-- A block comment that is not skipped stands there as the beginning of a token that no rule
has. -/
theorem kind_of_open_comment (s : List Char) : kind ('/' :: '*' :: s) = .fixed ['/', '*'] :=
  Opening.kind_of_lone (by decide) (by decide) (by decide) ⟨s, rfl⟩

/-- No comment arises from what is put behind a text, unless one was open. -/
theorem behindComment_append_of_eq_none {s : List Char} (hs : s ≠ [])
    (h : behindComment s = none) (hkind : kind s ≠ .fixed ['/', '*']) (more : List Char) :
    behindComment (s ++ '\n' :: more) = none := by
  cases s with
  | nil => exact absurd rfl hs
  | cons c s =>
    by_cases hc : c = '/'
    · subst hc
      cases s with
      | nil => rfl
      | cons d s =>
        rw [behindComment.eq_def] at h
        rw [List.cons_append, List.cons_append, behindComment.eq_def]
        split
        · next hd =>
          obtain ⟨rfl, -⟩ := List.cons.inj (List.cons.inj hd).2
          cases h
        · next hd =>
          obtain ⟨rfl, -⟩ := List.cons.inj (List.cons.inj hd).2
          exact absurd (kind_of_open_comment s) hkind
        · rfl
    · rw [List.cons_append, behindComment.eq_def]
      split
      · next hd => exact absurd (List.cons.inj hd).1 hc
      · next hd => exact absurd (List.cons.inj hd).1 hc
      · rfl

/-- What is skipped depends on what is left behind the white space only. -/
theorem dropTrivia_congr {s t : List Char} (h : s.dropWhile isBlank = t.dropWhile isBlank) :
    dropTrivia s = dropTrivia t := by
  cases hs : behindComment (s.dropWhile isBlank) with
  | none => rw [dropTrivia_of_no_comment hs, dropTrivia_of_no_comment (h ▸ hs), h]
  | some s' =>
    have ht := hs
    rw [h] at ht
    rw [dropTrivia_of_comment hs, dropTrivia_of_comment ht]

/-- White space ends where it did if something else stands behind it. -/
theorem dropWhile_isBlank_append {s : List Char} (hs : s.dropWhile isBlank ≠ [])
    (more : List Char) : (s ++ more).dropWhile isBlank = s.dropWhile isBlank ++ more := by
  rw [List.dropWhile_append, if_neg]
  rwa [List.isEmpty_iff]

theorem ne_nil_of_behindComment {s s' : List Char} (h : behindComment s = some s') : s ≠ [] := by
  rintro rfl
  cases h

/-- What is skipped at the beginning of a text is not changed by what is put behind it, if something
is left and is not a comment without end. -/
theorem dropTrivia_append {s : List Char} (hs : dropTrivia s ≠ [])
    (hkind : kind (dropTrivia s) ≠ .fixed ['/', '*']) (more : List Char) :
    dropTrivia (s ++ '\n' :: more) = dropTrivia s ++ '\n' :: more := by
  fun_induction dropTrivia s with
  | case1 s h =>
    have hdrop := dropWhile_isBlank_append hs ('\n' :: more)
    rw [dropTrivia_of_no_comment, hdrop]
    rw [hdrop]
    exact behindComment_append_of_eq_none hs h hkind more
  | case2 s s' h ih =>
    have hdrop := dropWhile_isBlank_append (ne_nil_of_behindComment h) ('\n' :: more)
    rw [@dropTrivia_of_comment _ (s' ++ '\n' :: more), ih hs hkind]
    rw [hdrop]
    exact behindComment_append h more

/-- If nothing is left, all of the text is skipped, the line break with it, and then more of what is
behind. -/
theorem dropTrivia_append_of_eq_nil {s : List Char} (hs : dropTrivia s = []) (more : List Char) :
    dropTrivia (s ++ '\n' :: more) = dropTrivia more := by
  fun_induction dropTrivia s with
  | case1 s h =>
    refine dropTrivia_congr ?_
    have hblank : isBlank '\n' = true := by decide
    rw [List.dropWhile_append, hs]
    exact List.dropWhile_cons_of_pos hblank
  | case2 s s' h ih =>
    have hdrop := dropWhile_isBlank_append (ne_nil_of_behindComment h) ('\n' :: more)
    rw [@dropTrivia_of_comment _ (s' ++ '\n' :: more), ih hs]
    rw [hdrop]
    exact behindComment_append h more

/-! ## Tokens -/

/-- A string that ends does so at its first quote that is not escaped. -/
theorem behindChars_append {quote : Char} (hquote : quote ≠ '\\') {s s' : List Char}
    (h : behindChars quote s = quote :: s') (more : List Char) :
    behindChars quote (s ++ more) = quote :: (s' ++ more) := by
  fun_induction behindChars quote s with
  | case1 => cases h
  | case2 c _ =>
    obtain ⟨rfl, rfl⟩ := List.cons.inj h
    cases more with
    | nil => simp [behindChars]
    | cons d more => simp [behindChars, hquote]
  | case3 => cases h
  | case4 d s ih =>
    rw [List.cons_append, List.cons_append, behindChars, if_pos rfl]
    exact ih h
  | case5 c d s hne hstop =>
    obtain ⟨rfl, rfl⟩ := List.cons.inj h
    rw [List.cons_append, List.cons_append, behindChars, if_neg hne, if_pos hstop]
  | case6 c d s hne hstop ih =>
    rw [List.cons_append, List.cons_append, behindChars, if_neg hne, if_neg hstop]
    exact ih h

/-- No token goes on over a line break. -/
theorem isSeparator_newline : isSeparator '\n' := by decide

namespace Peg

variable {s s' : List Char} {trees : List Tree}

/-- **The end of a token is not changed by what is put behind it**, and neither is its node. -/
theorem Matches.append_token {r : Rule} (hr : r.kinds?.isSome)
    (h : (Peg.rule r).Matches .skipped s s' trees) (more : List Char) :
    (Peg.rule r).Matches .skipped (s ++ '\n' :: more) (s' ++ '\n' :: more) trees := by
  have hkinds : ∀ r ∈ Rule.all, r.kinds?.isSome → r ∈ Rule.firm ∧ r.kind = .token ∨
      r = .stringLiteral ∨ r ∈ keywords.map (·.1) := by decide
  rcases hkinds r r.mem_all hr with ⟨hfirm, hkind⟩ | rfl | hkeyword
  · obtain ⟨inner, hinner, rfl⟩ := (matches_token_iff hkind).mp h
    refine (matches_token_iff hkind).mpr ⟨inner, ?_, (Rule.made_append r _ hinner.suffix _ _).symm⟩
    exact hinner.append isSeparator_newline more nofun (Rule.body_spares isSeparator_newline hfirm)
  · obtain ⟨quote, r, hmem, u, rfl, hclose, rfl⟩ := matches_stringLiteral_iff.mp h
    have hquote : ∀ q ∈ quotes, q.1 ≠ '\\' := by decide
    have hsuffix : quote :: s' <:+ u := by
      rw [← hclose]
      exact (stringCharacters_matches quote u).suffix
    refine matches_stringLiteral_iff.mpr ⟨quote, r, hmem, u ++ '\n' :: more, rfl,
      behindChars_append (hquote _ hmem) hclose _, ?_⟩
    rw [← List.cons_append, textBetween_append hsuffix]
  · obtain ⟨k, hk, rfl⟩ := List.mem_map.mp hkeyword
    obtain ⟨htake, rfl, rfl⟩ := (matches_keywordRule_iff hk).mp h
    refine (matches_keywordRule_iff hk).mpr ⟨?_, ?_, rfl⟩
    · rw [takeWhile_append_newline (by decide), htake]
    · rw [dropWhile_append_newline (by decide)]

/-- What an expression does inside a token is not changed by what is put behind the text. Failing is
part of it, since what is tried first may fail. -/
structure Spared (p : Peg) : Prop where
  matches_append : ∀ {s s' trees}, p.Matches .token s s' trees → ∀ more : List Char,
    p.Matches .token (s ++ '\n' :: more) (s' ++ '\n' :: more) trees
  fails_append : ∀ {s}, p.Fails .token s → ∀ more : List Char, p.Fails .token (s ++ '\n' :: more)

/-- An expression that no line break can be part of is not changed by one behind the text. Whether
it can is computed (`Peg.spares`). -/
theorem spared_of_spares {p : Peg} (hp : p.spares '\n') : p.Spared where
  matches_append := fun h more => h.append isSeparator_newline more nofun hp
  fails_append := fun h more => h.append isSeparator_newline more nofun hp

/-- Nothing is skipped inside a token, so the parts of a sequence are spared each for itself. -/
theorem Spared.seq {p q : Peg} (hp : p.Spared) (hq : q.Spared) : (seq p q).Spared where
  matches_append := fun h more => by
    obtain ⟨s₁, trees₁, trees₂, hfirst, hsecond, rfl⟩ := matches_seq_iff.mp h
    exact .seq (hp.matches_append hfirst more) (hq.matches_append hsecond more)
  fails_append := fun h more => by
    rcases fails_seq_iff.mp h with hfirst | ⟨s₁, trees₁, hfirst, hsecond⟩
    · exact .first (hp.fails_append hfirst more)
    · exact .second (hp.matches_append hfirst more) (hq.fails_append hsecond more)

theorem Spared.choice {p q : Peg} (hp : p.Spared) (hq : q.Spared) : (choice p q).Spared where
  matches_append := fun h more => by
    rcases matches_choice_iff.mp h with h | ⟨hfails, h⟩
    · exact .left (hp.matches_append h more)
    · exact .right (hp.fails_append hfails more) (hq.matches_append h more)
  fails_append := fun h more => by
    obtain ⟨hp', hq'⟩ := fails_choice_iff.mp h
    exact .both (hp.fails_append hp' more) (hq.fails_append hq' more)

/-- What is repeated ends where it did, because the body fails there as it did. -/
theorem Spared.iterates {p : Peg} (hp : p.Spared) {spacing : Spacing} {s s' : List Char}
    {trees : List Tree} (more : List Char) : p.Iterates spacing s s' trees → spacing = .token →
      p.Iterates .token (s ++ '\n' :: more) (s' ++ '\n' :: more) trees
  | .stop body, hs => by
    rw [hs] at body
    exact .stop (hp.fails_append body more)
  | .step body again, hs => by
    have hagain := hp.iterates more again hs
    rw [hs] at body
    exact .step (hp.matches_append body more) hagain

theorem Spared.many {p : Peg} (hp : p.Spared) : (many p).Spared where
  matches_append := fun h more => by
    rcases matches_many_iff.mp h with ⟨hfails, rfl, rfl⟩ | ⟨s₁, _, _, hfirst, hmore, rfl⟩
    · exact .never (hp.fails_append hfails more)
    · exact .times (hp.matches_append hfirst more) (hp.iterates more hmore rfl)
  fails_append := nofun

end Peg

/-! ## A `return` at the end of a line

A `return` ends its line if behind it and behind blanks and comments within the line there is a line
break, another comment or the end of the text. The end of the text may become a line break, and is
the end of the line then too.
-/

/-- What is left where a block comment ends, or the line does: the inside of a comment within a line
goes up to here. -/
def atInlineEnd : List Char → List Char
  | [] => []
  | c :: s =>
    if ['*', '/'].isPrefixOf (c :: s) ∨ c = '\n' ∨ c = '\r' then c :: s else atInlineEnd s

/-- The line ends at the latest where the text did. -/
theorem atInlineEnd_append (s more : List Char) :
    atInlineEnd (s ++ '\n' :: more) = atInlineEnd s ++ '\n' :: more := by
  induction s with
  | nil => rfl
  | cons c s ih =>
    have hbegins : ['*', '/'].isPrefixOf (c :: s ++ '\n' :: more) =
        ['*', '/'].isPrefixOf (c :: s) := by
      cases s <;> rfl
    rw [List.cons_append] at hbegins
    rw [List.cons_append, atInlineEnd, hbegins, atInlineEnd]
    split
    · rfl
    · exact ih

namespace Peg

/-- What a comment within a line does not go beyond: its end, or that of the line. -/
def inlineStop : Peg := lit "*/" <|> lit "\n" <|> lit "\r"

/-- What goes on inside a comment within a line. -/
def inlineCharacter : Peg := notAhead inlineStop ++ one .any

/-- The inside of a comment within a line, as the rule matches it and as `atInlineEnd` computes
it. -/
theorem inlineCharacters_match (s : List Char) :
    (many inlineCharacter).Matches .token s (atInlineEnd s) [] ∧
      inlineCharacter.Iterates .token s (atInlineEnd s) [] := by
  have hwords : inlineStop.isWords := by decide
  have htexts : inlineStop.texts = [['*', '/'], ['\n'], ['\r']] := rfl
  induction s with
  | nil =>
    have hnot : inlineStop.Fails .token [] := by
      refine (fails_words_iff hwords).mpr fun w hw s' hs => ?_
      simp [htexts, List.nil_eq_append_iff.mp hs] at hw
    have hfails : inlineCharacter.Fails .token [] := .second (.notAhead hnot) (.one nofun)
    exact ⟨.never hfails, .stop hfails⟩
  | cons c s ih =>
    rw [atInlineEnd]
    split
    · next h =>
      have hstop : ∃ s', ∃ w ∈ inlineStop.texts, c :: s = w ++ s' := by
        rcases h with h | rfl | rfl
        · obtain ⟨s', hs⟩ := List.isPrefixOf_iff_prefix.mp h
          exact ⟨s', ['*', '/'], by decide, hs.symm⟩
        · exact ⟨s, ['\n'], by decide, rfl⟩
        · exact ⟨s, ['\r'], by decide, rfl⟩
      obtain ⟨s', hstop⟩ := hstop
      have hfails : inlineCharacter.Fails .token (c :: s) :=
        .first (.notAhead ((matches_words_iff hwords (by decide)).mpr ⟨hstop, rfl⟩))
      exact ⟨.never hfails, .stop hfails⟩
    · next h =>
      have hnot : inlineStop.Fails .token (c :: s) := by
        refine (fails_words_iff hwords).mpr fun w hw s' hs => h ?_
        simp only [htexts, List.mem_cons, List.not_mem_nil, or_false] at hw
        rcases hw with rfl | rfl | rfl
        · exact .inl (List.isPrefixOf_iff_prefix.mpr ⟨s', hs.symm⟩)
        · exact .inr (.inl (List.cons.inj hs).1)
        · exact .inr (.inr (List.cons.inj hs).1)
      have htakes : inlineCharacter.Matches .token (c :: s) s [] :=
        .seq (.notAhead hnot) (.one rfl rfl)
      exact ⟨.times htakes ih.2, .step htakes ih.2⟩

/-- The characters of a comment are spared, though a line break is among those that end it. -/
theorem spared_inlineCharacters : (many inlineCharacter).Spared where
  matches_append := fun {s s' trees} h more => by
    obtain ⟨rfl, rfl⟩ := h.unique (inlineCharacters_match s).1
    rw [← atInlineEnd_append]
    exact (inlineCharacters_match _).1
  fails_append := nofun

/-- The comment within a line is spared by further lines: if it ended within the line it still does,
and if it did not it still does not. -/
theorem spared_inlineBlockComment : (rule .inlineBlockComment).Spared := by
  have hbody : Rule.inlineBlockComment.body.Spared :=
    ((spared_of_spares (by decide)).seq spared_inlineCharacters).seq (spared_of_spares (by decide))
  refine ⟨fun h more => ?_, fun h more => .rule (hbody.fails_append (fails_rule_iff.mp h) more)⟩
  obtain ⟨inner, hinner, rfl⟩ := matches_rule_iff.mp h
  exact .rule (r := .inlineBlockComment) (hbody.matches_append hinner more)

/-- What leads up to the end of the line behind a `return`. -/
def returnInLine : Peg :=
  wholeWord "return" ++ many (lit " " <|> lit "\t" <|> lit "\ufeff" <|> rule .inlineBlockComment)

/-- What may stand at the end of the line behind a `return`. -/
def lineEnd : Peg := lit "\n" <|> lit "\r" <|> lit "//" <|> lit "/*" <|> rule .endOfInput

/-- Further lines spare all that leads from a `return` up to the end of its line. -/
theorem spared_returnInLine : returnInLine.Spared := by
  have hblank : ∀ x : Char, x ≠ '\n' → (word [x]).Spared := fun x hx =>
    spared_of_spares (decide_eq_true fun h => hx (List.mem_singleton.mp h).symm)
  exact (spared_of_spares (by decide)).seq ((hblank ' ' (by decide)).choice
    ((hblank '\t' (by decide)).choice
      ((hblank '\ufeff' (by decide)).choice spared_inlineBlockComment))).many

/-- There is no end of a line where something else stands. -/
theorem fails_lineEnd_iff {s : List Char} :
    lineEnd.Fails .token s ↔
      (∀ w ∈ [['\n'], ['\r'], ['/', '/'], ['/', '*']], ∀ s', s ≠ w ++ s') ∧ s ≠ [] := by
  have hfinish : (rule .endOfInput).Fails .token s ↔ s ≠ [] := by
    refine fails_rule_iff.trans ⟨fun h => ?_, .finish⟩
    cases h with
    | finish h => exact h
  change (choice (word ['\n']) (choice (word ['\r']) (choice (word ['/', '/'])
    (choice (word ['/', '*']) (rule .endOfInput))))).Fails .token s ↔ _
  simp only [fails_choice_iff, fails_word_iff, hfinish, List.forall_mem_cons, and_assoc,
    List.not_mem_nil, false_implies, implies_true, true_and]

/-- What stands at the end of a line also does with a line break behind it. -/
theorem fails_lineEnd_append {s : List Char} (more : List Char) :
    lineEnd.Fails .token (s ++ '\n' :: more) ↔ lineEnd.Fails .token s := by
  rw [fails_lineEnd_iff, fails_lineEnd_iff]
  refine ⟨fun ⟨hwords, _⟩ => ⟨fun w hw s' hs => ?_, ?_⟩, fun ⟨hwords, hs⟩ => ⟨?_, by simp⟩⟩
  · exact hwords w hw (s' ++ '\n' :: more) (by rw [hs, List.append_assoc])
  · rintro rfl
    exact hwords ['\n'] (by decide) more rfl
  · intro w hw s' hs'
    cases s with
    | nil => exact hs rfl
    | cons c s =>
      simp only [List.mem_cons, List.not_mem_nil, or_false] at hw
      rcases hw with rfl | rfl | rfl | rfl
      · exact hwords ['\n'] (by decide) s (by rw [(List.cons.inj hs').1]; rfl)
      all_goals
        obtain ⟨t, ht, -⟩ := eq_append_of_append_cons (by decide) hs'
        exact hwords _ (by decide) t ht

/-- Since only whether a line ends is asked, matching is not failing. -/
theorem exists_matches_lineEnd_iff {s : List Char} :
    (∃ s' trees, lineEnd.Matches .token s s' trees) ↔ ¬lineEnd.Fails .token s := by
  refine ⟨fun ⟨s', trees, h⟩ => h.not_fails, fun h => ?_⟩
  exact (matches_or_fails (by decide) (by decide) s).resolve_right h

/-- **Whether a `return` ends its line is not changed by what is put behind the text.** Both
directions are said: one text may be tried where it does, the other where it does not. -/
theorem returnAtLineEnd_append {s : List Char} (more : List Char) :
    ((∃ s' trees, (rule .returnAtLineEnd).Matches .skipped s s' trees) →
      ∃ s' trees, (rule .returnAtLineEnd).Matches .skipped (s ++ '\n' :: more) s' trees) ∧
    ((rule .returnAtLineEnd).Fails .skipped s →
      (rule .returnAtLineEnd).Fails .skipped (s ++ '\n' :: more)) := by
  refine ⟨?_, fun h => ?_⟩
  · rintro ⟨s', trees, h⟩
    obtain ⟨inner, hinner, -⟩ := (matches_token_iff rfl).mp h
    obtain ⟨s₁, trees₁, trees₂, hline, hend, -⟩ := matches_seq_iff.mp hinner
    have hend : ¬lineEnd.Fails .token s₁ := exists_matches_lineEnd_iff.mp ⟨_, _, hend⟩
    rw [← fails_lineEnd_append more] at hend
    obtain ⟨s₂, trees₃, hend⟩ := exists_matches_lineEnd_iff.mpr hend
    have hbody := Matches.seq (spared_returnInLine.matches_append hline more) hend
    exact ⟨s₂, _, (matches_token_iff rfl).mpr ⟨_, hbody, rfl⟩⟩
  · refine fails_rule_iff.mpr ?_
    rcases fails_seq_iff.mp (fails_rule_iff.mp h) with hline | ⟨s₁, trees₁, hline, hend⟩
    · exact .first (spared_returnInLine.fails_append hline more)
    · exact .second (spared_returnInLine.matches_append hline more)
        ((fails_lineEnd_append more).mpr hend)

end Peg

end Scriptlet
