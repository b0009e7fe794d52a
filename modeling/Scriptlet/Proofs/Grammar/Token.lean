import Scriptlet.Proofs.Grammar.Adequacy
import Scriptlet.Proofs.Grammar.Shape

/-!
# Tokens

How the tokens of the grammar are matched: names, reserved words, string literals, and what the
expressions written with words alone match. Most tokens are spared by what stands behind them: if a
character belongs to none of the parts of a token, whatever it begins can be put behind the text
without a change to the match (`Peg.Matches.append`, `Peg.Fails.append`).

The statements here replace the productions of tokens. They say what a token matches by functions on
lists of characters, by `takeWhile` and `dropWhile` above all, and no module further on opens one of
these productions again. A word, for example, is all the characters of words at a place; whether it
is a name is a question about that run of characters and the list of reserved words
(`Peg.matches_identifier_iff`), and the lookaheads by which the production finds this out are gone.

* `Rule.firm`, `isSeparator`: the tokens that are spared, and the characters that spare all of them.
* `Peg.matches_identifier_iff`, `Peg.matches_reservedWord_iff`, `Peg.matches_keyword_iff`: words.
* `Peg.matches_stringLiteral_iff`, `behindChars`: strings, up to the quote that ends them.
-/

namespace Scriptlet

/-! ## Text behind a token

The matcher looks at what stands behind a token, to see whether the token goes on. What it looks for
are characters that occur in the production, so a character that does not occur there is as good as
the end of the text. This is decided by going through the production (`Peg.spares`), once for all
tokens.
-/

/-- What is between two places stays the same with more text behind both of them. -/
theorem textBetween_append {s s' : List Char} (h : s' <:+ s) (more : List Char) :
    textBetween (s ++ more) (s' ++ more) = textBetween s s' := by
  obtain ⟨text, rfl⟩ := h
  simp [textBetween, List.append_assoc]

theorem textBetween_self_append (text s : List Char) : textBetween (text ++ s) s = text := by
  simp [textBetween]

/-- The rules that match a token by words and classes of characters alone. Strings are not among
them, since any character may stand in a string, nor are comments. -/
def Rule.firm : List Rule :=
  [.varKind, .assignmentOperator, .logicalOrOperator, .logicalAndOperator, .equalityOperator,
    .relationalOperator, .additiveOperator, .multiplicativeOperator, .unaryOperator,
    .updateOperator, .thisExpression, .nullLiteral, .booleanLiteral, .numericLiteral,
    .hexIntegerLiteral, .decimalLiteral, .exponentPart, .identifier, .identifierName, .identStart,
    .identChar, .reservedWord, .functionWord, .ifWord, .elseWord, .whileWord, .forWord,
    .returnWord, .throwWord, .breakWord, .continueWord, .newWord]

/-- The expression is made of words and classes of characters alone, and the character is in
none of them. -/
def Peg.spares (x : Char) : Peg → Bool
  | .word chars => x ∉ chars
  | .one chars => !chars.contains x
  | .start | .finish => false
  | .rule r => r ∈ Rule.firm
  | .seq p q | .choice p q => p.spares x && q.spares x
  | .many p | .optional p | .ahead p | .notAhead p => p.spares x

/-- Characters that belong to no firm token. -/
def isSeparator (x : Char) : Bool := Rule.firm.all fun r => r.body.spares x

/-- A separator belongs to no part of a firm token, as it was chosen so. -/
theorem Rule.body_spares {x : Char} (hx : isSeparator x) {r : Rule} (hr : r ∈ Rule.firm) :
    r.body.spares x :=
  List.all_eq_true.mp hx r hr

/-- A word without the character is found before it or not at all. -/
theorem eq_append_of_append_cons {chars s s' more : List Char} {x : Char} (hx : x ∉ chars)
    (h : s ++ x :: more = chars ++ s') : ∃ t, s = chars ++ t ∧ s' = t ++ x :: more := by
  induction chars generalizing s with
  | nil => exact ⟨s, rfl, h.symm⟩
  | cons c chars ih =>
    rw [List.mem_cons, not_or] at hx
    cases s with
    | nil => exact absurd (List.cons.inj h).1 hx.1
    | cons d s =>
      obtain ⟨rfl, h'⟩ := List.cons.inj h
      obtain ⟨t, rfl, ht⟩ := ih hx.2 h'
      exact ⟨t, rfl, ht⟩

/-- In tokens, and where parts stand side by side, nothing is skipped. -/
theorem Spacing.skip_of_ne {spacing : Spacing} (h : spacing ≠ .skipped) (s : List Char) :
    spacing.skip s = s := by
  cases spacing with
  | skipped => exact absurd rfl h
  | compound | token => rfl

/-- No rule makes its parts skip trivia where nothing is skipped around it. -/
theorem Rule.inside_ne_skipped (r : Rule) {spacing : Spacing} (h : spacing ≠ .skipped) :
    r.inside spacing ≠ .skipped := by
  rw [Rule.inside]
  split <;> first | exact h | decide

/-- A node does not depend on what stands behind it. -/
theorem Rule.made_append (r : Rule) (spacing : Spacing) {s s' : List Char} (h : s' <:+ s)
    (more : List Char) (trees : List Tree) :
    r.made spacing (s ++ more) (s' ++ more) trees = r.made spacing s s' trees := by
  rw [Rule.made, Rule.made, textBetween_append h]

namespace Peg

mutual

/-- A match by words and classes is spared by what begins with another character. Matches,
repetitions and failures are treated in one induction, as a lookahead turns one into the other. -/
theorem Matches.append {spacing : Spacing} {p : Peg} {s s' : List Char} {trees : List Tree}
    {x : Char} (hx : isSeparator x) (more : List Char) :
    p.Matches spacing s s' trees → spacing ≠ .skipped → p.spares x →
      p.Matches spacing (s ++ x :: more) (s' ++ x :: more) trees
  | .word h, _, _ => .word (by rw [h, List.append_assoc])
  | .one h hc, _, _ => .one (by rw [h, List.cons_append]) hc
  | .rule body, hs, hp =>
    Rule.made_append _ _ body.suffix _ _ ▸ .rule (body.append hx more (Rule.inside_ne_skipped _ hs)
      (Rule.body_spares hx (of_decide_eq_true hp)))
  | .seq first second, hs, hp => by
    obtain ⟨hp, hq⟩ := Bool.and_eq_true_iff.mp hp
    have hsecond := second.append hx more hs hq
    rw [Spacing.skip_of_ne hs, ← Spacing.skip_of_ne hs (_ ++ _)] at hsecond
    exact .seq (first.append hx more hs hp) hsecond
  | .left first, hs, hp => .left (first.append hx more hs (Bool.and_eq_true_iff.mp hp).1)
  | .right first second, hs, hp =>
    .right (first.append hx more hs (Bool.and_eq_true_iff.mp hp).1)
      (second.append hx more hs (Bool.and_eq_true_iff.mp hp).2)
  | .never body, hs, hp => .never (body.append hx more hs hp)
  | .times first iterates, hs, hp =>
    .times (first.append hx more hs hp) (iterates.append hx more hs hp)
  | .absent body, hs, hp => .absent (body.append hx more hs hp)
  | .present body, hs, hp => .present (body.append hx more hs hp)
  | .ahead body, hs, hp => .ahead (body.append hx more hs hp)
  | .notAhead body, hs, hp => .notAhead (body.append hx more hs hp)

/-- A repetition inside a token is the same with a separator and more text behind it: it ends where
the separator stands at the latest. -/
theorem Iterates.append {spacing : Spacing} {p : Peg} {s s' : List Char} {trees : List Tree}
    {x : Char} (hx : isSeparator x) (more : List Char) :
    p.Iterates spacing s s' trees → spacing ≠ .skipped → p.spares x →
      p.Iterates spacing (s ++ x :: more) (s' ++ x :: more) trees
  | .stop body, hs, hp => by
    have hbody := body.append hx more hs hp
    rw [Spacing.skip_of_ne hs, ← Spacing.skip_of_ne hs (_ ++ _)] at hbody
    exact .stop hbody
  | .step body iterates, hs, hp => by
    have hbody := body.append hx more hs hp
    rw [Spacing.skip_of_ne hs, ← Spacing.skip_of_ne hs (_ ++ _)] at hbody
    exact .step hbody (iterates.append hx more hs hp)

/-- An expression inside a token that fails still fails with a separator behind the text, which is
not what was missing. -/
theorem Fails.append {spacing : Spacing} {p : Peg} {s : List Char} {x : Char}
    (hx : isSeparator x) (more : List Char) :
    p.Fails spacing s → spacing ≠ .skipped → p.spares x → p.Fails spacing (s ++ x :: more)
  | .word h, _, hp => .word fun s' hs' => by
    obtain ⟨t, ht, -⟩ := eq_append_of_append_cons (of_decide_eq_true hp) hs'
    exact h t ht
  | .one h, _, hp => .one fun y s' hs' => by
    cases s with
    | nil =>
      obtain ⟨rfl, -⟩ := List.cons.inj hs'
      rw [Peg.spares, Bool.not_eq_true'] at hp
      rw [hp]
      exact nofun
    | cons z s =>
      obtain ⟨rfl, -⟩ := List.cons.inj hs'
      exact h z s rfl
  | .rule body, hs, hp =>
    .rule (body.append hx more (Rule.inside_ne_skipped _ hs)
      (Rule.body_spares hx (of_decide_eq_true hp)))
  | .first first, hs, hp => .first (first.append hx more hs (Bool.and_eq_true_iff.mp hp).1)
  | .second first second, hs, hp => by
    obtain ⟨hp, hq⟩ := Bool.and_eq_true_iff.mp hp
    have hsecond := second.append hx more hs hq
    rw [Spacing.skip_of_ne hs, ← Spacing.skip_of_ne hs (_ ++ _)] at hsecond
    exact .second (first.append hx more hs hp) hsecond
  | .both first second, hs, hp =>
    .both (first.append hx more hs (Bool.and_eq_true_iff.mp hp).1)
      (second.append hx more hs (Bool.and_eq_true_iff.mp hp).2)
  | .ahead body, hs, hp => .ahead (body.append hx more hs hp)
  | .notAhead body, hs, hp => .notAhead (body.append hx more hs hp)

end

end Peg

/-! ## Words

Names and reserved words are told apart by looking at the whole run of the characters of words. The
grammar says this with lookaheads for the boundary of a word; `takeWhile` says it directly.
-/

/-- The characters that names begin with. -/
def isIdentStart (c : Char) : Bool := c.isAlpha || (c = '_' || c = '$')

/-- The characters that names go on with. -/
def isIdentChar (c : Char) : Bool := c.isAlphanum || (c = '_' || c = '$')

/-- What a name begins with it may go on with. -/
theorem isIdentChar_of_isIdentStart {c : Char} (h : isIdentStart c) : isIdentChar c := by
  rw [isIdentStart, Bool.or_eq_true] at h
  rw [isIdentChar, Char.isAlphanum, Bool.or_eq_true, Bool.or_eq_true]
  exact h.imp .inl id

/-- The words that are no names. Some of them are not used by the language, and still reserved. -/
def reservedWords : List (List Char) :=
  ["break", "const", "continue", "do", "else", "false", "for", "function", "if", "let", "new",
    "null", "return", "this", "throw", "true", "typeof", "var", "while"].map String.toList

/-- A word at the beginning of a text, and not of a longer word, is all of the characters of
words there. -/
theorem eq_append_iff_takeWhile {w s s' : List Char} (hw : w.all isIdentChar) :
    s = w ++ s' ∧ (∀ c ∈ s'.head?, isIdentChar c = false) ↔
      s.takeWhile isIdentChar = w ∧ s' = s.dropWhile isIdentChar := by
  refine ⟨?_, ?_⟩
  · rintro ⟨rfl, hs'⟩
    obtain ⟨htake, hdrop⟩ := takeWhile_dropWhile_append (List.all_eq_true.mp hw) hs'
    exact ⟨htake, hdrop.symm⟩
  · rintro ⟨rfl, rfl⟩
    refine ⟨List.takeWhile_append_dropWhile.symm, fun c hc => ?_⟩
    have hnot := List.head?_dropWhile_not isIdentChar s
    rw [hc] at hnot
    simpa using hnot

namespace Peg

/-- The rule for the first character of a name is a function on characters. -/
theorem takesOne_identStart : (rule .identStart).TakesOne isIdentStart := by
  have h : Rule.identStart.body.TakesOne isIdentStart :=
    (takesOne_one .letter).choice ((takesOne_word '_').choice (takesOne_word '$'))
  exact h.rule rfl rfl

/-- The rule for the other characters of a name is a function on characters. -/
theorem takesOne_identChar : (rule .identChar).TakesOne isIdentChar := by
  have h : Rule.identChar.body.TakesOne isIdentChar :=
    (takesOne_one .letterOrDigit).choice ((takesOne_word '_').choice (takesOne_word '$'))
  exact h.rule rfl rfl

/-- Where one character is asked for, failing is a question about the first character there. -/
theorem TakesOne.fails_iff {p : Peg} {f : Char → Bool} (h : p.TakesOne f) {s : List Char} :
    p.Fails .token s ↔ ∀ c ∈ s.head?, f c = false := by
  refine ⟨fun hfails c hc => ?_, h.fails⟩
  obtain ⟨s', rfl⟩ := List.head?_eq_some_iff.mp hc
  by_contra hf
  exact (h.takes (Bool.not_eq_false _ ▸ hf)).not_fails hfails

/-- The texts of a choice between words. -/
def texts : Peg → List (List Char)
  | .word chars => [chars]
  | .choice p q => p.texts ++ q.texts
  | _ => []

/-- Whether the expression is a choice between words. -/
def isWords : Peg → Bool
  | .word _ => true
  | .choice p q => p.isWords && q.isWords
  | _ => false

/-- A choice between words fails where none of them stands. -/
theorem fails_words_iff {p : Peg} {spacing : Spacing} {s : List Char} (hp : p.isWords) :
    p.Fails spacing s ↔ ∀ w ∈ p.texts, ∀ s', s ≠ w ++ s' := by
  induction p with
  | word chars => simp [texts, fails_word_iff]
  | choice p q ihp ihq =>
    obtain ⟨hp, hq⟩ := Bool.and_eq_true_iff.mp hp
    rw [fails_choice_iff, ihp hp, ihq hq, texts, List.forall_mem_append]
  | one _ | start | finish | rule _ | seq _ _ _ _ | many _ _ | optional _ _ | ahead _ _
  | notAhead _ _ => cases hp

/-- A choice between words, none the beginning of another, matches any of them. Without the
condition the order would matter: an earlier word that begins a later one hides it. -/
theorem matches_words_iff {p : Peg} {spacing : Spacing} {s s' : List Char} {trees : List Tree}
    (hp : p.isWords) (hfree : p.texts.Pairwise fun a b => ¬a <+: b ∧ ¬b <+: a) :
    p.Matches spacing s s' trees ↔ (∃ w ∈ p.texts, s = w ++ s') ∧ trees = [] := by
  induction p with
  | word chars => simp [texts, matches_word_iff]
  | choice p q ihp ihq =>
    obtain ⟨hp, hq⟩ := Bool.and_eq_true_iff.mp hp
    obtain ⟨hfree, hfree', hcross⟩ := List.pairwise_append.mp hfree
    rw [matches_choice_iff, ihp hp hfree, ihq hq hfree', fails_words_iff hp]
    refine ⟨?_, ?_⟩
    · rintro (⟨⟨w, hw, hs⟩, ht⟩ | ⟨-, ⟨w, hw, hs⟩, ht⟩)
      · exact ⟨⟨w, List.mem_append_left _ hw, hs⟩, ht⟩
      · exact ⟨⟨w, List.mem_append_right _ hw, hs⟩, ht⟩
    · rintro ⟨⟨w, hw, hs⟩, ht⟩
      rcases List.mem_append.mp hw with hw | hw
      · exact .inl ⟨⟨w, hw, hs⟩, ht⟩
      · refine .inr ⟨fun v hv t hs' => ?_, ⟨w, hw, hs⟩, ht⟩
        -- two words at one place: one of them begins the other
        have hvw := hcross v hv w hw
        rcases List.prefix_or_prefix_of_prefix ⟨t, hs'.symm⟩ ⟨s', hs.symm⟩ with h | h
        · exact hvw.1 h
        · exact hvw.2 h
  | one _ | start | finish | rule _ | seq _ _ _ _ | many _ _ | optional _ _ | ahead _ _
  | notAhead _ _ => cases hp

/-- Whole words are matched where the characters of words make one of them. This is the form that
keywords and the literals `true`, `false`, `null` and `this` have. -/
theorem matches_wholeWords_iff {p : Peg} {s s' : List Char} {trees : List Tree}
    (hp : p.isWords) (hfree : p.texts.Pairwise fun a b => ¬a <+: b ∧ ¬b <+: a)
    (hchars : ∀ w ∈ p.texts, w.all isIdentChar) :
    (p ++ notAhead (rule .identChar)).Matches .token s s' trees ↔
      s.takeWhile isIdentChar ∈ p.texts ∧ s' = s.dropWhile isIdentChar ∧ trees = [] := by
  refine matches_seq_iff.trans ⟨?_, ?_⟩
  · rintro ⟨s₁, trees₁, trees₂, hfirst, hsecond, rfl⟩
    obtain ⟨⟨w, hw, rfl⟩, rfl⟩ := (matches_words_iff hp hfree).mp hfirst
    obtain ⟨hfails, rfl, rfl⟩ := matches_notAhead_iff.mp hsecond
    obtain ⟨htake, hdrop⟩ :=
      (eq_append_iff_takeWhile (hchars w hw)).mp ⟨rfl, takesOne_identChar.fails_iff.mp hfails⟩
    exact ⟨(congrArg (· ∈ p.texts) htake).mpr hw, hdrop, rfl⟩
  · rintro ⟨hw, rfl, rfl⟩
    obtain ⟨hs, hbound⟩ := (eq_append_iff_takeWhile (hchars _ hw)).mpr ⟨rfl, rfl⟩
    exact ⟨_, [], [], (matches_words_iff hp hfree).mpr ⟨⟨_, hw, hs⟩, rfl⟩,
      .notAhead (takesOne_identChar.fails hbound), rfl⟩

end Peg

/-- Where something else than white space or a comment begins, nothing is skipped. -/
theorem dropTrivia_cons {c : Char} (hblank : isBlank c = false) (hc : c ≠ '/') (s : List Char) :
    dropTrivia (c :: s) = c :: s := by
  have hdrop : (c :: s).dropWhile isBlank = c :: s :=
    List.dropWhile_cons_of_neg (Bool.eq_false_iff.mp hblank)
  rw [dropTrivia_of_no_comment, hdrop]
  rw [hdrop, behindComment.eq_def]
  split
  · next h => exact absurd (List.cons.inj h).1 hc
  · next h => exact absurd (List.cons.inj h).1 hc
  · rfl

theorem isIdentStart_eq_false_of_isBlank {c : Char} (h : isBlank c) : isIdentStart c = false := by
  simp only [isBlank, Bool.or_eq_true, decide_eq_true_eq] at h
  rcases h with rfl | rfl | rfl | rfl | rfl <;> decide

/-- Nothing is skipped in front of a word, since no word begins with white space or with a slash. -/
theorem dropTrivia_of_isIdentStart {s : List Char} (h : ∃ c ∈ s.head?, isIdentStart c) :
    dropTrivia s = s := by
  obtain ⟨c, hc, hstart⟩ := h
  obtain ⟨s, rfl⟩ := List.head?_eq_some_iff.mp hc
  refine dropTrivia_cons ?_ ?_ s
  · by_contra hblank
    rw [isIdentStart_eq_false_of_isBlank (Bool.not_eq_false _ ▸ hblank)] at hstart
    cases hstart
  · rintro rfl
    cases hstart

/-- A reserved word begins as a name does. -/
theorem isIdentStart_of_reserved {s : List Char} (h : s.takeWhile isIdentChar ∈ reservedWords) :
    ∃ c ∈ s.head?, isIdentStart c := by
  have hall : ∀ w ∈ reservedWords, w.head?.any isIdentStart := by decide
  obtain ⟨c, hc, hstart⟩ := (Option.any_eq_true _ _).mp (hall _ h)
  refine ⟨c, ?_, hstart⟩
  cases s with
  | nil => cases hc
  | cons d s =>
    rw [List.takeWhile_cons] at hc
    split at hc
    · exact hc
    · cases hc

namespace Peg

variable {spacing : Spacing} {s s' : List Char} {trees : List Tree}

/-- A token matches what its production matches inside of a token. -/
theorem matches_token_iff {r : Rule} (hkind : r.kind = .token) :
    (rule r).Matches spacing s s' trees ↔
      ∃ inner, r.body.Matches .token s s' inner ∧ trees = r.made spacing s s' inner := by
  rw [matches_rule_iff, Rule.inside, hkind]

/-- Any word may stand behind a point, reserved or not. -/
theorem matches_identifierName_iff :
    (rule .identifierName).Matches spacing s s' trees ↔
      (∃ c ∈ s.head?, isIdentStart c) ∧ s' = s.dropWhile isIdentChar ∧
        trees = Rule.identifierName.made spacing s s' [] := by
  have hbody : ∀ {c : Char} (u : List Char), isIdentStart c →
      Rule.identifierName.body.Matches .token (c :: u) ((c :: u).dropWhile isIdentChar) [] := by
    intro c u hc
    rw [List.dropWhile_cons_of_pos (isIdentChar_of_isIdentStart hc)]
    exact .seq (takesOne_identStart.takes hc) (takesOne_identChar.many u)
  refine (matches_token_iff rfl).trans ⟨?_, ?_⟩
  · rintro ⟨inner, hmatch, rfl⟩
    by_cases hstart : ∃ c ∈ s.head?, isIdentStart c
    · obtain ⟨c, hc, hstart'⟩ := id hstart
      obtain ⟨u, rfl⟩ := List.head?_eq_some_iff.mp hc
      obtain ⟨rfl, rfl⟩ := hmatch.unique (hbody u hstart')
      exact ⟨hstart, rfl, rfl⟩
    · refine absurd hmatch (Fails.first (takesOne_identStart.fails fun c hc => ?_)).not_matches
      by_contra hne
      exact hstart ⟨c, hc, Bool.not_eq_false _ ▸ hne⟩
  · rintro ⟨⟨c, hc, hstart⟩, rfl, rfl⟩
    obtain ⟨u, rfl⟩ := List.head?_eq_some_iff.mp hc
    exact ⟨[], hbody u hstart, rfl⟩

/-- A reserved word is a whole word of the list. -/
theorem matches_reservedWord_iff :
    (rule .reservedWord).Matches .token s s' trees ↔
      s.takeWhile isIdentChar ∈ reservedWords ∧ s' = s.dropWhile isIdentChar ∧ trees = [] := by
  have hmade : ∀ inner, Rule.reservedWord.made .token s s' inner = inner := fun _ => rfl
  rw [matches_token_iff rfl]
  simp only [hmade, exists_eq_right']
  exact matches_wholeWords_iff (by decide) (by decide) (by decide)

/-- A name is a whole word that is not of the list. -/
theorem matches_identifier_iff :
    (rule .identifier).Matches spacing s s' trees ↔
      (∃ c ∈ s.head?, isIdentStart c) ∧ s.takeWhile isIdentChar ∉ reservedWords ∧
        s' = s.dropWhile isIdentChar ∧ trees = Rule.identifier.made spacing s s' [] := by
  refine (matches_token_iff rfl).trans ⟨?_, ?_⟩
  · rintro ⟨inner, hmatch, rfl⟩
    obtain ⟨s₁, trees₁, trees₂, hnot, hname, rfl⟩ := matches_seq_iff.mp hmatch
    obtain ⟨hfails, rfl, rfl⟩ := matches_notAhead_iff.mp hnot
    obtain ⟨hstart, rfl, rfl⟩ := matches_identifierName_iff.mp hname
    refine ⟨hstart, fun hres => ?_, rfl, rfl⟩
    exact hfails.not_matches (matches_reservedWord_iff.mpr ⟨hres, rfl, rfl⟩)
  · rintro ⟨hstart, hres, rfl, rfl⟩
    have hfails : (rule .reservedWord).Fails .token s :=
      (fails_iff rfl (by decide)).mpr fun s' trees h =>
        hres (matches_reservedWord_iff.mp h).1
    exact ⟨[], .seq (.notAhead hfails) (matches_identifierName_iff.mpr ⟨hstart, rfl, rfl⟩), rfl⟩

/-- A keyword is matched where its word stands, and nothing but the word. -/
theorem matches_keyword_iff {boundary : Rule} {w : String} (hkind : boundary.kind = .token)
    (hbody : boundary.body = wholeWord w) (hw : w.toList ∈ reservedWords) :
    (keyword boundary w).Matches .skipped s s' trees ↔
      s.takeWhile isIdentChar = w.toList ∧ s' = s.dropWhile isIdentChar ∧ trees = [] := by
  have hall : ∀ w ∈ reservedWords, w.all isIdentChar := by decide
  have hword : ∀ {s' trees}, (wholeWord w).Matches .token s s' trees ↔
      s.takeWhile isIdentChar ∈ [w.toList] ∧ s' = s.dropWhile isIdentChar ∧ trees = [] :=
    matches_wholeWords_iff rfl (List.pairwise_singleton _ _) fun v hv =>
      hall v (List.mem_singleton.mp hv ▸ hw)
  refine matches_seq_iff.trans ⟨?_, ?_⟩
  · rintro ⟨s₁, trees₁, trees₂, hahead, hlit, rfl⟩
    obtain ⟨⟨s₂, trees₃, hboundary⟩, rfl, rfl⟩ := matches_ahead_iff.mp hahead
    obtain ⟨inner, hinner, -⟩ := (matches_token_iff hkind).mp hboundary
    rw [hbody] at hinner
    obtain ⟨htake, -, -⟩ := hword.mp hinner
    have htake := List.mem_singleton.mp htake
    have hskip : Spacing.skipped.skip s₁ = s₁ :=
      dropTrivia_of_isIdentStart (isIdentStart_of_reserved (htake ▸ hw))
    rw [hskip] at hlit
    obtain ⟨hs, rfl⟩ := matches_word_iff.mp hlit
    refine ⟨htake, ?_, rfl⟩
    have hsplit := List.takeWhile_append_dropWhile (p := isIdentChar) (l := s₁)
    rw [htake] at hsplit
    exact (List.append_cancel_left (hs.symm.trans hsplit.symm))
  · rintro ⟨htake, rfl, rfl⟩
    have hinner := hword.mpr ⟨List.mem_singleton.mpr htake, rfl, rfl⟩
    rw [← hbody] at hinner
    have hskip : Spacing.skipped.skip s = s :=
      dropTrivia_of_isIdentStart (isIdentStart_of_reserved (htake ▸ hw))
    refine ⟨s, [], [], .ahead ((matches_token_iff hkind).mpr ⟨[], hinner, rfl⟩), ?_, rfl⟩
    rw [hskip]
    refine .word ?_
    rw [← htake]
    exact List.takeWhile_append_dropWhile.symm

end Peg

/-! ## Literals

String literals are followed by a function that goes through the characters as the production does:
two at a time behind a backslash, one at a time otherwise. Of number literals only the first
character is needed here.
-/

/-- What is left of a text behind the characters of a string between quotes. It stops at the quote,
at a line break and at the end of the text; a backslash takes the character behind it along. -/
def behindChars (quote : Char) : List Char → List Char
  | [] => []
  | [c] => if c = quote ∨ c = '\\' ∨ c = '\n' then [c] else []
  | c :: d :: s =>
    if c = '\\' then behindChars quote s
    else if c = quote ∨ c = '\n' then c :: d :: s
    else behindChars quote (d :: s)

namespace Peg

/-- A character of a string between quotes, or a backslash with any character behind it. -/
def stringCharacter (quote : Char) : Peg :=
  (notAhead (word [quote] <|> lit "\\" <|> lit "\n") ++ one .any) <|> (lit "\\" ++ one .any)

variable {quote c : Char} {s : List Char}

/-- A character that is neither the quote nor a backslash nor a line break may stand in a string. -/
theorem stringCharacter_plain (hc : ¬(c = quote ∨ c = '\\' ∨ c = '\n')) (s : List Char) :
    (stringCharacter quote).Matches .token (c :: s) s [] := by
  have hfails : (word [quote] <|> lit "\\" <|> lit "\n").Fails .token (c :: s) := by
    refine ((takesOne_word quote).choice
      ((takesOne_word '\\').choice (takesOne_word '\n'))).fails ?_
    rintro _ ⟨⟩
    simpa using hc
  exact .left (.seq (.notAhead hfails) (.one rfl rfl))

/-- Behind a backslash any character may stand in a string. -/
theorem stringCharacter_escaped (c : Char) (s : List Char) :
    (stringCharacter quote).Matches .token ('\\' :: c :: s) s [] := by
  have hstop : (word [quote] <|> lit "\\" <|> lit "\n").Matches .token ('\\' :: c :: s)
      (c :: s) [] := by
    refine ((takesOne_word quote).choice
      ((takesOne_word '\\').choice (takesOne_word '\n'))).takes ?_
    simp
  exact .right (.first (.notAhead hstop)) (.seq (.word rfl) (.one rfl rfl))

/-- Nothing else may stand in a string: it ends at the quote, at a line break and at a backslash
with nothing behind it. -/
theorem stringCharacter_fails (hs : s = [] ∨ s = ['\\'] ∨
    ∃ c u, s = c :: u ∧ c ≠ '\\' ∧ (c = quote ∨ c = '\n')) :
    (stringCharacter quote).Fails .token s := by
  have hstop := (takesOne_word quote).choice ((takesOne_word '\\').choice (takesOne_word '\n'))
  rcases hs with rfl | rfl | ⟨c, u, rfl, hne, hc⟩
  · exact .both (.second (.notAhead (hstop.fails nofun)) (.one nofun)) (.first (.word nofun))
  · exact .both (.first (.notAhead (hstop.takes (by simp)))) (.second (.word rfl) (.one nofun))
  · refine .both (.first (.notAhead (hstop.takes ?_))) (.first ((takesOne_word '\\').fails ?_))
    · rcases hc with rfl | rfl <;> simp
    · rintro _ ⟨⟩
      exact decide_eq_false hne

/-- The characters of a string, matched one after the other, are what `behindChars` goes through. -/
theorem stringCharacters_iterate (quote : Char) (s : List Char) :
    (stringCharacter quote).Iterates .token s (behindChars quote s) [] := by
  fun_induction behindChars quote s with
  | case1 => exact .stop (stringCharacter_fails (.inl rfl))
  | case2 c h =>
    refine .stop (stringCharacter_fails ?_)
    by_cases hc : c = '\\'
    · exact .inr (.inl (congrArg (fun c => [c]) hc))
    · exact .inr (.inr ⟨c, [], rfl, hc, h.imp_right fun h => h.resolve_left hc⟩)
  | case3 c h => exact .step (stringCharacter_plain h []) (.stop (stringCharacter_fails (.inl rfl)))
  | case4 d s ih => exact .step (stringCharacter_escaped d s) ih
  | case5 c d s hne h => exact .stop (stringCharacter_fails (.inr (.inr ⟨c, _, rfl, hne, h⟩)))
  | case6 c d s hne h ih =>
    refine .step (stringCharacter_plain ?_ (d :: s)) ih
    rintro (hc | hc | hc)
    · exact h (.inl hc)
    · exact hne hc
    · exact h (.inr hc)

/-- The characters of a string go on as far as they can. -/
theorem stringCharacters_matches (quote : Char) (s : List Char) :
    (many (stringCharacter quote)).Matches .token s (behindChars quote s) [] := by
  have hiterates := stringCharacters_iterate quote s
  rcases iterates_iff.mp hiterates with ⟨hfails, hs, -⟩ | ⟨s₁, trees₁, trees₂, hfirst, hmore, ht⟩
  · rw [hs]
    exact .never hfails
  · rw [ht]
    exact .times hfirst hmore

/-- The quotes of string literals, each with the rule of what stands between two of them. -/
def quotes : List (Char × Rule) :=
  [('"', .doubleStringCharacters), ('\'', .singleStringCharacters)]

/-- What stands between two quotes. The two kinds of strings differ in the quote and in the rule of
the inside, so they are treated together. -/
theorem matches_quoted_iff {r : Rule} (hr : (quote, r) ∈ quotes) {s' : List Char}
    {trees : List Tree} :
    (word [quote] ++ rule r ++ word [quote]).Matches .compound s s' trees ↔
      ∃ u, s = quote :: u ∧ behindChars quote u = quote :: s' ∧
        trees = [⟨r, 0, textBetween u (quote :: s'), []⟩] := by
  have hchars : ∀ {u u' trees}, (rule r).Matches .compound u u' trees ↔
      u' = behindChars quote u ∧ trees = [⟨r, 0, textBetween u u', []⟩] := by
    intro u u' trees
    simp only [quotes, List.mem_cons, Prod.mk.injEq, List.not_mem_nil, or_false] at hr
    rcases hr with ⟨rfl, rfl⟩ | ⟨rfl, rfl⟩
    all_goals
      refine (matches_token_iff rfl).trans ⟨?_, ?_⟩
      · rintro ⟨inner, hinner, rfl⟩
        obtain ⟨rfl, rfl⟩ := hinner.unique (stringCharacters_matches _ u)
        exact ⟨rfl, rfl⟩
      · rintro ⟨rfl, rfl⟩
        exact ⟨[], stringCharacters_matches _ u, rfl⟩
  refine matches_seq_iff.trans ⟨?_, ?_⟩
  · rintro ⟨s₁, trees₁, trees₂, hfirst, hlast, rfl⟩
    obtain ⟨u, trees₃, trees₄, hopen, hinner, rfl⟩ := matches_seq_iff.mp hfirst
    obtain ⟨rfl, rfl⟩ := matches_word_iff.mp hopen
    obtain ⟨rfl, rfl⟩ := hchars.mp hinner
    obtain ⟨hclose, rfl⟩ := matches_word_iff.mp hlast
    change behindChars quote u = quote :: s' at hclose
    refine ⟨u, rfl, hclose, ?_⟩
    rw [← hclose]
    rfl
  · rintro ⟨u, rfl, hclose, rfl⟩
    refine ⟨behindChars quote u, [⟨r, 0, textBetween u (quote :: s'), []⟩], [], ?_, .word hclose,
      rfl⟩
    refine matches_seq_iff.mpr ⟨u, [], _, .word rfl, hchars.mpr ⟨rfl, ?_⟩, rfl⟩
    rw [hclose]
    rfl

/-- A string literal is what stands between two quotes, a node with one child for the inside. -/
theorem matches_stringLiteral_iff {spacing : Spacing} {s' : List Char} {trees : List Tree} :
    (rule .stringLiteral).Matches spacing s s' trees ↔
      ∃ quote r, (quote, r) ∈ quotes ∧ ∃ u, s = quote :: u ∧ behindChars quote u = quote :: s' ∧
        trees = [⟨.stringLiteral, 0, [], [⟨r, 0, textBetween u (quote :: s'), []⟩]⟩] := by
  have hdouble : ('"', Rule.doubleStringCharacters) ∈ quotes := by decide
  have hsingle : ('\'', Rule.singleStringCharacters) ∈ quotes := by decide
  refine matches_rule_iff.trans ⟨?_, ?_⟩
  · rintro ⟨inner, hinner, rfl⟩
    rcases matches_choice_iff.mp hinner with h | ⟨-, h⟩
    · obtain ⟨u, hs, hclose, rfl⟩ := (matches_quoted_iff hdouble).mp h
      exact ⟨_, _, hdouble, u, hs, hclose, rfl⟩
    · obtain ⟨u, hs, hclose, rfl⟩ := (matches_quoted_iff hsingle).mp h
      exact ⟨_, _, hsingle, u, hs, hclose, rfl⟩
  · rintro ⟨quote, r, hmem, u, rfl, hclose, rfl⟩
    refine ⟨[⟨r, 0, textBetween u (quote :: s'), []⟩], ?_, rfl⟩
    have hquoted := (matches_quoted_iff hmem).mpr ⟨u, rfl, hclose, rfl⟩
    simp only [quotes, List.mem_cons, Prod.mk.injEq, List.not_mem_nil, or_false] at hmem
    rcases hmem with ⟨rfl, rfl⟩ | ⟨rfl, rfl⟩
    · exact .left hquoted
    · refine .right (.first (.first (.word fun s' hs => ?_))) hquoted
      cases hs

/-- A number literal begins with a digit, or with a point and a digit. Which literals there are is
shown elsewhere; here it is asked whether there may be one. -/
theorem Matches.numericLiteral_head {spacing : Spacing} {s' : List Char} {trees : List Tree}
    (h : (Peg.rule .numericLiteral).Matches spacing s s' trees) :
    (∃ c ∈ s.head?, c.isDigit) ∨ ∃ c u, s = '.' :: c :: u ∧ c.isDigit := by
  obtain ⟨inner, hinner, -⟩ := (matches_token_iff rfl).mp h
  obtain ⟨s₁, _, _, hnumber, -, -⟩ := matches_seq_iff.mp hinner
  rcases matches_choice_iff.mp hnumber with hhex | ⟨-, hdecimal⟩
  · obtain ⟨_, hhex, -⟩ := matches_rule_iff.mp hhex
    obtain ⟨_, _, _, hfirst, -, -⟩ := matches_seq_iff.mp hhex
    obtain ⟨_, _, _, hzero, -, -⟩ := matches_seq_iff.mp hfirst
    rw [(matches_word_iff.mp hzero).1]
    exact .inl ⟨'0', rfl, by decide⟩
  · obtain ⟨_, hdecimal, -⟩ := matches_rule_iff.mp hdecimal
    obtain ⟨_, _, _, hfirst, -, -⟩ := matches_seq_iff.mp hdecimal
    rcases matches_choice_iff.mp hfirst with hdigits | ⟨-, hpoint⟩
    · obtain ⟨_, _, _, hdigits, -, -⟩ := matches_seq_iff.mp hdigits
      obtain ⟨_, _, _, hdigit, -, -⟩ := matches_seq_iff.mp hdigits
      obtain ⟨⟨c, rfl, hc⟩, -⟩ := matches_one_iff.mp hdigit
      exact .inl ⟨c, rfl, hc⟩
    · obtain ⟨_, _, _, hpoint, hdigits, -⟩ := matches_seq_iff.mp hpoint
      obtain ⟨rfl, -⟩ := matches_word_iff.mp hpoint
      obtain ⟨_, _, _, hdigit, -, -⟩ := matches_seq_iff.mp hdigits
      obtain ⟨⟨c, hs, hc⟩, -⟩ := matches_one_iff.mp hdigit
      exact .inr ⟨c, _, congrArg _ hs, hc⟩

end Peg

end Scriptlet
