import Scriptlet.Proofs.Grammar.Token

/-!
# First tokens

What stands at a place, as far as its first token tells, is its `kind`, and the kinds that a match
of an expression may begin with can be computed from the expression: `Peg.first`. A place of another
kind is therefore a place where the expression fails (`Peg.fails_of_kind`). The grammar is written
such that this decides nearly all of its choices.

This is the first set of the theory of parsing, for a grammar that has no separate tokens. The kinds
take the place of tokens: a kind is told by a run of characters, without regard to what was expected
there, so that a slash and an equals sign are one kind together even where a rule asks for a slash
alone. An `Opening` makes up for the difference. It says how a token may begin, and which kinds that
may be.

The sets are lists that the kernel can compute. Where a choice has to be decided in a proof, the
kind of the place is known, the list of the alternative is evaluated, and the kind is not in it. The
set may be restricted to rules that are admitted (`Rule.Admission`), which makes it smaller: in the
trees of programs many rules do not occur, and what begins with those need not be considered.

* `kind`, `Kind`: what stands at a place.
* `Peg.openings`, `Peg.Matches.opens`: how tokens begin that are written with words alone.
* `Rule.kinds?`, `Peg.Matches.kind_of_token`: the kinds of tokens.
* `Peg.first`, `Peg.Matches.kind_mem`, `Peg.fails_of_kind`: the kinds of expressions.
-/

namespace Scriptlet

/-! ## Kinds

A kind is a function of the text. It knows about words, numbers, quotes and punctuators, and takes
the longest punctuator that stands there; nothing is said of places where trivia stand, in front of
which no match begins.
-/

/-- What stands at a place that is not white space or a comment. -/
inductive Kind where
  /-- nothing -/
  | finish
  /-- a name that is not reserved -/
  | name
  | number
  | string
  /-- a reserved word, or characters other than those of words that belong together -/
  | fixed (text : List Char)
  | other
deriving DecidableEq

/-- The characters other than those of words that belong together, longer ones first. The
beginning of a comment is among them, since a comment that does not end is not skipped. -/
def punctuators : List (List Char) :=
  [">>>=", "...", "===", "!==", "<<=", ">>=", "||", "&&", "==", "!=", "<=", ">=", "+=", "-=", "*=",
    "/=", "%=", "&=", "|=", "^=", "++", "--", "/*", "=", "<", ">", "+", "-", "*", "/", "%", "!",
    "~", "?", ":", ";", ",", ".", "(", ")", "[", "]", "\x7b", "\x7d"].map String.toList

/-- The kind of a place. -/
def kind : List Char → Kind
  | [] => .finish
  | c :: s =>
    if isIdentStart c then
      if (c :: s).takeWhile isIdentChar ∈ reservedWords then
        .fixed ((c :: s).takeWhile isIdentChar)
      else .name
    else if c.isDigit || (c = '.' && s.head?.any Char.isDigit) then .number
    else if c = '"' || c = '\'' then .string
    else (punctuators.find? (·.isPrefixOf (c :: s))).elim .other .fixed

/-- A run of word characters that is a reserved word is of a kind of its own, which tells which word
it is. -/
theorem kind_of_reserved {s : List Char} (h : s.takeWhile isIdentChar ∈ reservedWords) :
    kind s = .fixed (s.takeWhile isIdentChar) := by
  obtain ⟨c, hc, hstart⟩ := isIdentStart_of_reserved h
  obtain ⟨s, rfl⟩ := List.head?_eq_some_iff.mp hc
  rw [kind, if_pos hstart, if_pos h]

/-- All words that are not reserved are of one kind. -/
theorem kind_of_name {s : List Char} (hstart : ∃ c ∈ s.head?, isIdentStart c)
    (h : s.takeWhile isIdentChar ∉ reservedWords) : kind s = .name := by
  obtain ⟨c, hc, hstart⟩ := hstart
  obtain ⟨s, rfl⟩ := List.head?_eq_some_iff.mp hc
  rw [kind, if_pos hstart, if_neg h]

/-- What the kind of a place says about the text there, case by case in the order in which `kind`
tries them. Proofs about kinds go through these cases instead of through the definition. -/
theorem kind_cases (c : Char) (s : List Char) :
    (isIdentStart c ∧ (c :: s).takeWhile isIdentChar ∈ reservedWords ∧
      kind (c :: s) = .fixed ((c :: s).takeWhile isIdentChar)) ∨
    (isIdentStart c ∧ (c :: s).takeWhile isIdentChar ∉ reservedWords ∧ kind (c :: s) = .name) ∨
    ((c.isDigit || (c = '.' && s.head?.any Char.isDigit)) ∧ kind (c :: s) = .number) ∨
    kind (c :: s) = .string ∨
    (∃ p ∈ punctuators, p <+: c :: s ∧ kind (c :: s) = .fixed p) ∨ kind (c :: s) = .other := by
  rw [kind]
  split
  · next hstart =>
    split
    · next hreserved => exact .inl ⟨hstart, hreserved, rfl⟩
    · next hreserved => exact .inr (.inl ⟨hstart, hreserved, rfl⟩)
  · split
    · next hdigit => exact .inr (.inr (.inl ⟨hdigit, rfl⟩))
    · split
      · exact .inr (.inr (.inr (.inl rfl)))
      · cases hfind : punctuators.find? (·.isPrefixOf (c :: s)) with
        | none => exact .inr (.inr (.inr (.inr (.inr rfl))))
        | some p =>
          have hp := (List.find?_eq_some_iff_append.mp hfind).1
          exact .inr (.inr (.inr (.inr (.inl ⟨p, List.mem_of_find?_eq_some hfind,
            List.isPrefixOf_iff_prefix.mp hp, rfl⟩))))

/-- Where something stands, the text has not ended. -/
theorem kind_ne_finish {s : List Char} (hs : s ≠ []) : kind s ≠ .finish := by
  cases s with
  | nil => exact absurd rfl hs
  | cons c s =>
    rcases kind_cases c s with ⟨-, -, h⟩ | ⟨-, -, h⟩ | ⟨-, h⟩ | h | ⟨p, -, -, h⟩ | h
    all_goals
      rw [h]
      exact nofun

/-- What a fixed kind says about the text: a punctuator stands there, or a reserved word. -/
theorem of_kind_eq_fixed {s t : List Char} (h : kind s = .fixed t) :
    t ∈ punctuators ∧ t <+: s ∨ t ∈ reservedWords ∧ s.takeWhile isIdentChar = t := by
  cases s with
  | nil => cases h
  | cons c s =>
    rcases kind_cases c s with ⟨-, hmem, h'⟩ | ⟨-, -, h'⟩ | ⟨-, h'⟩ | h' | ⟨p, hp, hs, h'⟩ | h'
    all_goals rw [h'] at h
    · obtain rfl := Kind.fixed.inj h
      exact .inr ⟨hmem, rfl⟩
    · cases h
    · cases h
    · cases h
    · obtain rfl := Kind.fixed.inj h
      exact .inl ⟨hp, hs⟩
    · cases h

/-- What the kind of a name says about the text: a word stands there that is not reserved. -/
theorem of_kind_eq_name {s : List Char} (h : kind s = .name) :
    (∃ c ∈ s.head?, isIdentStart c) ∧ s.takeWhile isIdentChar ∉ reservedWords := by
  cases s with
  | nil => cases h
  | cons c s =>
    rcases kind_cases c s with ⟨-, -, h'⟩ | ⟨hc, hs, -⟩ | ⟨-, h'⟩ | h' | ⟨p, -, -, h'⟩ | h'
    · cases h'.symm.trans h
    · exact ⟨⟨c, rfl, hc⟩, hs⟩
    all_goals cases h'.symm.trans h

/-- A point before a number stands before a digit. -/
theorem digit_of_kind_point {s : List Char} (h : kind ('.' :: s) = .number) :
    ∃ d ∈ s.head?, d.isDigit := by
  rcases kind_cases '.' s with ⟨-, -, h'⟩ | ⟨-, -, h'⟩ | ⟨hs, -⟩ | h' | ⟨p, -, -, h'⟩ | h'
  · cases h'.symm.trans h
  · cases h'.symm.trans h
  · cases s with
    | nil => cases hs
    | cons d s => exact ⟨d, rfl, hs⟩
  all_goals cases h'.symm.trans h

/-! ## Openings

A token that is written with words alone asks for a word and looks ahead for what must not follow.
The kinds of the places at which it may begin are the punctuators that begin with its word, less
those that begin with something it avoids.
-/

/-- How a token begins: with a text and none of the longer ones to be avoided. If the text is a
whole word, no character of words follows. -/
structure Opening where
  text : List Char
  avoided : List (List Char)
  whole : Bool

namespace Opening

/-- A token may begin in this way at the beginning of the text. It is a condition on the text that a
match satisfies; whether there is a match is not said. -/
structure Opens (o : Opening) (s : List Char) : Prop where
  text : o.text <+: s
  avoided : ∀ a ∈ o.avoided, ¬a <+: s
  whole : o.whole → s.takeWhile isIdentChar = o.text

/-- The kinds of the places where a token may begin in this way. A point is also the beginning of
some numbers. -/
def kinds (o : Opening) : List Kind :=
  if o.whole then [.fixed o.text]
  else
    ((punctuators.filter fun p =>
        o.text.isPrefixOf p && o.avoided.all fun a => !a.isPrefixOf p).map Kind.fixed)
      ++ if o.text = ['.'] then [.number] else []

/-- The text is a reserved word if it must be a whole word, and a punctuator otherwise. -/
def valid (o : Opening) : Bool :=
  if o.whole then o.text ∈ reservedWords else o.text ∈ punctuators

/-- The kind of a place where a punctuator stands is that of a punctuator that begins with
it, or a number if it is the point before one. -/
theorem kind_of_punctuator {t s : List Char} (ht : t ∈ punctuators) (hs : t <+: s) :
    (∃ p ∈ punctuators, p <+: s ∧ t <+: p ∧ kind s = .fixed p) ∨ t = ['.'] ∧ kind s = .number := by
  have hhead : ∀ t ∈ punctuators, t.head?.any fun c =>
      !isIdentStart c && (!c.isDigit && (c ≠ '"' && c ≠ '\'')) := by decide +kernel
  obtain ⟨c, hc, hplain⟩ := (Option.any_eq_true _ _).mp (hhead t ht)
  obtain ⟨hstart, hdigit, hquote, hquote'⟩ :
      isIdentStart c = false ∧ c.isDigit = false ∧ c ≠ '"' ∧ c ≠ '\'' := by simpa using hplain
  obtain ⟨s', rfl⟩ := hs
  obtain ⟨u, rfl⟩ := List.head?_eq_some_iff.mp hc
  rw [List.cons_append, kind, hstart, hdigit]
  simp only [Bool.false_eq_true, if_false, Bool.false_or]
  split
  · next hpoint =>
    rw [Bool.and_eq_true, decide_eq_true_eq] at hpoint
    obtain ⟨rfl, hnext⟩ := hpoint
    have hpoint : ∀ t ∈ punctuators, t.head? = some '.' →
        t = ['.'] ∨ t.tail.head?.any Char.isDigit = false ∧ t.tail ≠ [] := by decide
    rcases hpoint _ ht rfl with ht | ⟨hnot, hne⟩
    · exact .inr ⟨ht, rfl⟩
    · rw [List.tail_cons] at hnot hne
      rw [List.head?_append_of_ne_nil _ hne, hnot] at hnext
      cases hnext
  · rw [if_neg (by simp [hquote, hquote'])]
    -- the punctuator that is found is not shorter, since longer ones come first
    have hfound : (punctuators.find? (·.isPrefixOf (c :: u ++ s'))).isSome := by
      rw [List.find?_isSome]
      exact ⟨c :: u, ht, List.isPrefixOf_iff_prefix.mpr ⟨s', rfl⟩⟩
    obtain ⟨p, hp⟩ := Option.isSome_iff_exists.mp hfound
    obtain ⟨hbegins, as, bs, hsplit, has⟩ := List.find?_eq_some_iff_append.mp hp
    have hbegins : p <+: c :: u ++ s' := List.isPrefixOf_iff_prefix.mp hbegins
    have hsorted : punctuators.Pairwise fun a b => b.length ≤ a.length := by decide
    have hle : (c :: u).length ≤ p.length := by
      rw [hsplit] at ht hsorted
      rcases List.mem_append.mp ht with ht | ht
      · have hnot := has _ ht
        rw [Bool.not_eq_true', ← Bool.not_eq_true, List.isPrefixOf_iff_prefix] at hnot
        exact absurd ⟨s', rfl⟩ hnot
      · rcases List.mem_cons.mp ht with ht | ht
        · rw [ht]
        · exact (List.pairwise_cons.mp (List.pairwise_append.mp hsorted).2.1).1 _ ht
    refine .inl ⟨p, List.mem_of_find?_eq_some hp, hbegins, ?_, ?_⟩
    · exact List.prefix_of_prefix_length_le ⟨s', rfl⟩ hbegins hle
    · rw [List.cons_append] at hp
      rw [hp]
      rfl

/-- The kind of a place where a punctuator stands that no longer one begins with is that
punctuator. -/
theorem kind_of_lone {t s : List Char} (ht : t ∈ punctuators)
    (hlone : ∀ p ∈ punctuators, t <+: p → p = t) (hpoint : t ≠ ['.']) (hs : t <+: s) :
    kind s = .fixed t := by
  rcases kind_of_punctuator ht hs with ⟨p, hp, -, hbegins, hkind⟩ | ⟨h, -⟩
  · rw [hkind, hlone p hp hbegins]
  · exact absurd h hpoint

/-- **An opening tells the kinds**: where a token may begin in this way, the place is of one of the
kinds computed for it. -/
theorem Opens.kind_mem {o : Opening} {s : List Char} (hs : o.Opens s) (hvalid : o.valid) :
    kind s ∈ o.kinds := by
  rw [valid] at hvalid
  rw [kinds]
  split
  · next hwhole =>
    rw [if_pos hwhole, decide_eq_true_eq] at hvalid
    have htake := hs.whole hwhole
    rw [kind_of_reserved (htake ▸ hvalid), htake]
    exact List.mem_singleton_self _
  · next hwhole =>
    rw [if_neg hwhole, decide_eq_true_eq] at hvalid
    rcases kind_of_punctuator hvalid hs.text with ⟨p, hp, hps, htp, hkind⟩ | ⟨htext, hkind⟩
    · rw [hkind]
      refine List.mem_append_left _ (List.mem_map_of_mem (List.mem_filter.mpr ⟨hp, ?_⟩))
      rw [Bool.and_eq_true, List.isPrefixOf_iff_prefix, List.all_eq_true]
      refine ⟨htp, fun a ha => ?_⟩
      rw [Bool.not_eq_true', ← Bool.not_eq_true, List.isPrefixOf_iff_prefix]
      exact fun h => hs.avoided a ha (h.trans hps)
    · rw [hkind, if_pos htext]
      exact List.mem_append_right _ (List.mem_singleton_self _)

end Opening

namespace Peg

/-- The ways in which a token begins that is written with words alone, read off the production. -/
def openings : Peg → List Opening
  | .word w => [⟨w, [], false⟩]
  | .choice p q => p.openings ++ q.openings
  | .seq p (.notAhead q) =>
    if q = .rule .identChar then p.texts.map fun w => ⟨w, [], true⟩
    else p.texts.map fun w => ⟨w, q.texts.map (w ++ ·), false⟩
  | _ => []

/-- Whether a token is written with words alone, and each of them well chosen. -/
def opened : Peg → Bool
  | .word w => (Opening.mk w [] false).valid
  | .choice p q => p.opened && q.opened
  | .seq p (.notAhead q) =>
    p.isWords && (q = .rule .identChar || q.isWords) &&
      (seq p (.notAhead q)).openings.all Opening.valid
  | _ => false

/-- A choice between words matches one of its words. -/
theorem Matches.mem_texts {p : Peg} {spacing : Spacing} {s s' : List Char} {trees : List Tree}
    (hp : p.isWords) (h : p.Matches spacing s s' trees) : ∃ w ∈ p.texts, s = w ++ s' := by
  induction p with
  | word chars => exact ⟨chars, List.mem_singleton_self _, (matches_word_iff.mp h).1⟩
  | choice p q ihp ihq =>
    obtain ⟨hp, hq⟩ := Bool.and_eq_true_iff.mp hp
    rcases matches_choice_iff.mp h with h | ⟨-, h⟩
    · obtain ⟨w, hw, hs⟩ := ihp hp h
      exact ⟨w, List.mem_append_left _ hw, hs⟩
    · obtain ⟨w, hw, hs⟩ := ihq hq h
      exact ⟨w, List.mem_append_right _ hw, hs⟩
  | one _ | start | finish | rule _ | seq _ _ _ _ | many _ _ | optional _ _ | ahead _ _
  | notAhead _ _ => cases hp

/-- A token written with words alone begins in one of its ways. The lookahead of the production is
what keeps the texts to be avoided away. -/
theorem Matches.opens {p : Peg} {s s' : List Char} {trees : List Tree} (hp : p.opened)
    (h : p.Matches .token s s' trees) : ∃ o ∈ p.openings, o.valid ∧ o.Opens s := by
  fun_induction opened p with
  | case1 w =>
    obtain ⟨rfl, -⟩ := matches_word_iff.mp h
    exact ⟨_, List.mem_singleton_self _, hp, ⟨s', rfl⟩, nofun, nofun⟩
  | case2 p q ihp ihq =>
    obtain ⟨hp, hq⟩ := Bool.and_eq_true_iff.mp hp
    rcases matches_choice_iff.mp h with h | ⟨-, h⟩
    · obtain ⟨o, ho, hopens⟩ := ihp hp h
      exact ⟨o, List.mem_append_left _ ho, hopens⟩
    · obtain ⟨o, ho, hopens⟩ := ihq hq h
      exact ⟨o, List.mem_append_right _ ho, hopens⟩
  | case3 p q =>
    rw [Bool.and_eq_true, Bool.and_eq_true, List.all_eq_true] at hp
    obtain ⟨⟨hwords, hq⟩, hvalid⟩ := hp
    obtain ⟨s₁, _, _, hfirst, hnot, -⟩ := matches_seq_iff.mp h
    obtain ⟨hfails, -, -⟩ := matches_notAhead_iff.mp hnot
    obtain ⟨w, hw, rfl⟩ := hfirst.mem_texts hwords
    rw [openings] at hvalid ⊢
    split at hvalid
    · next hident =>
      rw [if_pos hident]
      have hmem := List.mem_map_of_mem (f := fun w => Opening.mk w [] true) hw
      have hreserved : w ∈ reservedWords := of_decide_eq_true (hvalid _ hmem)
      have hall : ∀ w ∈ reservedWords, w.all isIdentChar := by decide
      rw [hident] at hfails
      have hbound := takesOne_identChar.fails_iff.mp hfails
      have htake := ((eq_append_iff_takeWhile (hall w hreserved)).mp ⟨rfl, hbound⟩).1
      exact ⟨_, hmem, hvalid _ hmem, ⟨_, rfl⟩, nofun, fun _ => htake⟩
    · next hident =>
      rw [if_neg hident]
      rw [decide_eq_false hident, Bool.false_or] at hq
      have hmem := List.mem_map_of_mem
        (f := fun w => Opening.mk w (q.texts.map (w ++ ·)) false) hw
      refine ⟨_, hmem, hvalid _ hmem, ⟨_, rfl⟩, fun a ha => ?_, nofun⟩
      obtain ⟨v, hv, rfl⟩ := List.mem_map.mp ha
      rintro ⟨t, ht⟩
      rw [List.append_assoc] at ht
      exact (fails_words_iff hq).mp hfails v hv t (List.append_cancel_left ht).symm
  | case4 p => cases hp

end Peg

/-! ## Tokens

The kinds of every token: computed for those written with words, given for names, numbers and
strings. Keywords are silent rules around a token, and count as tokens here.
-/

/-- The keywords, each with the rule of its word and its text. -/
def keywords : List (Rule × Rule × String) :=
  [(.functionKeyword, .functionWord, "function"), (.ifKeyword, .ifWord, "if"),
    (.elseKeyword, .elseWord, "else"), (.whileKeyword, .whileWord, "while"),
    (.forKeyword, .forWord, "for"), (.returnKeyword, .returnWord, "return"),
    (.throwKeyword, .throwWord, "throw"), (.breakKeyword, .breakWord, "break"),
    (.continueKeyword, .continueWord, "continue"), (.newKeyword, .newWord, "new")]

/-- The table is right: a keyword is its word, as a whole, and nothing else. -/
theorem keywords_spec : ∀ k ∈ keywords, k.1.body = Peg.keyword k.2.1 k.2.2 ∧
    k.1.kind = .silent ∧ k.2.1.kind = .token ∧ k.2.1.body = Peg.wholeWord k.2.2 ∧
    k.2.2.toList ∈ reservedWords := by
  decide

/-- A keyword is matched where its word stands, and makes no node. -/
theorem Peg.matches_keywordRule_iff {k : Rule × Rule × String} (hk : k ∈ keywords)
    {s s' : List Char} {trees : List Tree} :
    (rule k.1).Matches .skipped s s' trees ↔
      s.takeWhile isIdentChar = k.2.2.toList ∧ s' = s.dropWhile isIdentChar ∧ trees = [] := by
  obtain ⟨hbody, hkind, htoken, hword, hreserved⟩ := keywords_spec k hk
  have hmade : ∀ inner, k.1.made .skipped s s' inner = inner := by
    intro inner
    rw [Rule.made, Rule.visible, hkind]
    rfl
  rw [matches_rule_iff, hbody, Rule.inside, hkind]
  simp only [hmade, exists_eq_right']
  exact matches_keyword_iff htoken hword hreserved

/-- The tokens that are written with words alone. -/
def Rule.wordy : List Rule :=
  [.varKind, .assignmentOperator, .logicalOrOperator, .logicalAndOperator, .equalityOperator,
    .relationalOperator, .additiveOperator, .multiplicativeOperator, .unaryOperator,
    .updateOperator, .thisExpression, .nullLiteral, .booleanLiteral]

/-- The productions of these rules are of the form that openings are read off, and all words in them
are punctuators or reserved. -/
theorem Rule.wordy_opened : ∀ r ∈ Rule.wordy, r.kind = .token ∧ r.body.opened := by
  decide

/-- The kinds of the places where a token may stand, if the rule is one of a token. For other rules
there are none, and their production has to be looked into. -/
def Rule.kinds? (r : Rule) : Option (List Kind) :=
  match r with
  | .identifier => some [.name]
  | .identifierName => some (.name :: reservedWords.map .fixed)
  | .numericLiteral => some [.number]
  | .stringLiteral => some [.string]
  | _ =>
    if r ∈ Rule.wordy then some (r.body.openings.flatMap Opening.kinds)
    else (keywords.find? (·.1 = r)).map fun k => [.fixed k.2.2.toList]

theorem isIdentStart_of_isDigit {c : Char} (h : c.isDigit) : isIdentStart c = false := by
  have hrange : 48 ≤ c.toNat ∧ c.toNat ≤ 57 := Char.isDigit_iff_toNat.mp h
  by_contra hstart
  simp only [isIdentStart, Bool.not_eq_false, Bool.or_eq_true, decide_eq_true_eq] at hstart
  rcases hstart with hc | rfl | rfl
  · have := toNat_of_isAlpha hc
    omega
  · revert hrange
    decide
  · revert hrange
    decide

/-- A place where a number may begin is of the kind of numbers: at a digit, or at a point with a
digit behind it. -/
theorem kind_of_number {s : List Char}
    (h : (∃ c ∈ s.head?, c.isDigit) ∨ ∃ c u, s = '.' :: c :: u ∧ c.isDigit) :
    kind s = .number := by
  rcases h with ⟨c, hc, hd⟩ | ⟨c, u, rfl, hd⟩
  · obtain ⟨u, rfl⟩ := List.head?_eq_some_iff.mp hc
    rw [kind, isIdentStart_of_isDigit hd, hd]
    rfl
  · have hstart : isIdentStart '.' = false := by decide
    rw [kind, hstart, List.head?_cons, Option.any_some, hd]
    rfl

theorem dropTrivia_of_isDigit {c : Char} (h : c.isDigit) (s : List Char) :
    dropTrivia (c :: s) = c :: s := by
  refine dropTrivia_cons ?_ ?_ s
  · by_contra hblank
    rw [Bool.not_eq_false, isBlank] at hblank
    simp only [Bool.or_eq_true, decide_eq_true_eq] at hblank
    rcases hblank with rfl | rfl | rfl | rfl | rfl <;> cases h
  · rintro rfl
    cases h

theorem kind_of_quote {quote : Char} {r : Rule} (h : (quote, r) ∈ Peg.quotes) (s : List Char) :
    kind (quote :: s) = .string := by
  simp only [Peg.quotes, List.mem_cons, Prod.mk.injEq, List.not_mem_nil, or_false] at h
  rcases h with ⟨rfl, -⟩ | ⟨rfl, -⟩ <;> rfl

/-- A token stands at a place of one of its kinds. The cases are those of `Rule.kinds?`. -/
theorem Peg.Matches.kind_of_token {r : Rule} {kinds : List Kind} (hr : r.kinds? = some kinds)
    {s s' : List Char} {trees : List Tree} (h : (Peg.rule r).Matches .skipped s s' trees) :
    kind s ∈ kinds := by
  rw [Rule.kinds?.eq_def] at hr
  split at hr
  · obtain rfl := Option.some.inj hr
    obtain ⟨hstart, hres, -⟩ := matches_identifier_iff.mp h
    rw [kind_of_name hstart hres]
    exact List.mem_singleton_self _
  · obtain rfl := Option.some.inj hr
    obtain ⟨hstart, -⟩ := matches_identifierName_iff.mp h
    by_cases hres : s.takeWhile isIdentChar ∈ reservedWords
    · rw [kind_of_reserved hres]
      exact List.mem_cons_of_mem _ (List.mem_map_of_mem hres)
    · rw [kind_of_name hstart hres]
      exact List.mem_cons_self
  · obtain rfl := Option.some.inj hr
    rw [kind_of_number h.numericLiteral_head]
    exact List.mem_singleton_self _
  · obtain rfl := Option.some.inj hr
    obtain ⟨quote, r, hmem, u, rfl, -, -⟩ := matches_stringLiteral_iff.mp h
    rw [kind_of_quote hmem]
    exact List.mem_singleton_self _
  · split at hr
    · next hwordy =>
      obtain rfl := Option.some.inj hr
      obtain ⟨hkind, hopened⟩ := Rule.wordy_opened r hwordy
      obtain ⟨inner, hinner, -⟩ := (matches_token_iff hkind).mp h
      obtain ⟨o, ho, hvalid, hopens⟩ := hinner.opens hopened
      exact List.mem_flatMap.mpr ⟨o, ho, hopens.kind_mem hvalid⟩
    · obtain ⟨k, hk, rfl⟩ := Option.map_eq_some_iff.mp hr
      have hmem := List.mem_of_find?_eq_some hk
      obtain rfl : k.1 = r := of_decide_eq_true (List.find?_eq_some_iff_append.mp hk).1
      obtain ⟨htake, -, -⟩ := (matches_keywordRule_iff hmem).mp h
      rw [kind_of_reserved (htake ▸ (keywords_spec k hmem).2.2.2.2), htake]
      exact List.mem_singleton_self _

/-! ## First tokens

The kinds of an expression. Two refinements are needed for this grammar, beyond what is usual: a
lookahead may bar kinds (`Peg.barred`), and a point behind which a name is asked for does not begin
a number (`Peg.deadEnds`).
-/

namespace Peg

/-- Kinds of places where the expression is sure to match, as far as it is easily told. It is used
for what is in a lookahead, which fails there. -/
def certain : Peg → List Kind
  | .word w => (punctuators.filter (w.isPrefixOf ·)).map Kind.fixed
  | .rule .functionWord => [.fixed "function".toList]
  | .choice (.word w) p => (word w).certain ++ p.certain
  | _ => []

/-- Kinds of places that the expression excludes by a look ahead. -/
def barred : Peg → List Kind
  | .notAhead p => p.certain
  | _ => []

/-- Kinds of places where the first expression may match but the second not behind it: a name
does not begin with a digit. -/
def deadEnds (p q : Peg) : List Kind :=
  if p = lit "." ∧ q = rule .identifierName then [.number] else []

/-- The kinds of the places where a match of the expression that is not empty may begin, if `rules`
says so of the rules. Of a sequence whose first part may be empty, the second one counts too. -/
def first (rules : Rule → List Kind) : Peg → List Kind
  | .word w => (Opening.mk w [] false).kinds
  | .one _ | .start | .ahead _ | .notAhead _ => []
  | .finish => [.finish]
  | .rule r => rules r
  | .seq p q =>
    if p.consumes then (p.first rules).filter (· ∉ p.deadEnds q)
    else p.first rules ++ (q.first rules).filter (· ∉ p.barred)
  | .choice p q => p.first rules ++ q.first rules
  | .many p | .optional p => p.first rules

end Peg

/-- The rules of which the first tokens are not told: what tokens and trivia are made of, and
the script as a whole. -/
def Rule.untold : List Rule :=
  [.whitespace, .comment, .script, .hexIntegerLiteral, .decimalLiteral, .exponentPart,
    .doubleStringCharacters, .singleStringCharacters, .identStart, .identChar, .reservedWord,
    .returnAtLineEnd, .inlineBlockComment, .functionWord, .ifWord, .elseWord, .whileWord, .forWord,
    .returnWord, .throwWord, .breakWord, .continueWord, .newWord]

/-- Whether the first tokens of the expression are told: it is made of tokens and of rules that are.
What is repeated has to consume something, so that a repetition that is not empty begins with its
body. -/
def Peg.told : Peg → Bool
  | .word w => w ∈ punctuators
  | .one _ | .start => false
  | .finish => true
  | .rule r => r ∉ Rule.untold
  | .seq p q | .choice p q => p.told && q.told
  | .many p => p.told && p.consumes
  | .optional p => p.told
  | .ahead p | .notAhead p => p.startless

/-- Whether the expression may match nothing at all, and not for lack of text. The end of the input
is matched for lack of text, and is a kind. -/
def Peg.vacuous : Peg → Bool
  | .word _ | .one _ | .finish | .rule _ => false
  | .start | .many _ | .optional _ | .ahead _ | .notAhead _ => true
  | .seq p q => p.vacuous && q.vacuous
  | .choice p q => p.vacuous || q.vacuous

/-- No rule that is told may match nothing. -/
theorem Rule.body_vacuous {r : Rule} (hr : r ∉ Rule.untold) : r.body.vacuous = false := by
  have h : ∀ r ∈ Rule.all, r ∉ Rule.untold → r.body.vacuous = false := by decide
  exact h r r.mem_all hr

/-- The kinds of the places where a rule may begin, through so many rules inside one another and
without those that are not admitted. With no depth left the list is empty, which would be wrong;
that the depth is enough is part of `Rule.Admission`. -/
def Rule.firstWithin (admitted : Rule → Bool) : Nat → Rule → List Kind
  | 0, _ => []
  | k + 1, r =>
    if admitted r then r.kinds?.getD (r.body.first (firstWithin admitted k)) else []

/-- The kinds of the places where a rule may begin, if only the admitted ones make nodes. -/
def Rule.first (admitted : Rule → Bool) : Rule → List Kind := firstWithin admitted 24

/-- All rules are admitted that make no nodes, and no more of them are inside one another than
`Rule.first` goes through: the list for a rule has all that is computed from its production with the
lists of the rules in it. Both are computed once for each choice of admitted rules. -/
structure Rule.Admission (admitted : Rule → Bool) : Prop where
  silent : ∀ r ∈ Rule.all, r.kind = .silent → admitted r
  closed : ∀ r ∈ Rule.all, r ∉ Rule.untold → admitted r → r.kinds? = none → r.body.told ∧
    ∀ k ∈ r.body.first (Rule.first admitted), k ∈ Rule.first admitted r

/-- All rules may be admitted, which gives the first tokens of all of the grammar. -/
theorem Rule.admission_all : Rule.Admission fun _ => true where
  silent := fun _ _ _ => rfl
  closed := by decide +kernel

/-- The rules of a tree are admitted, all the way down. -/
def Tree.Admitted (admitted : Rule → Bool) : Tree → Prop := Tree.Everywhere fun t => admitted t.rule

/-- What is admitted of the nodes of a rule is admitted of the rule and inside. -/
theorem Rule.Admission.of_made {admitted : Rule → Bool} (hadmitted : Rule.Admission admitted)
    {r : Rule} (hr : r ∉ Rule.untold) {s s' : List Char} {trees : List Tree}
    (h : ∀ t ∈ r.made .skipped s s' trees, t.Admitted admitted) :
    admitted r ∧ ∀ t ∈ trees, t.Admitted admitted := by
  rw [Rule.made] at h
  split at h
  · have hnode := h _ (List.mem_singleton_self _)
    exact ⟨hnode.here, hnode.children⟩
  · next hvisible =>
    have hsilent : ∀ r ∈ Rule.all, r ∉ Rule.untold → ¬r.visible .skipped → r.kind = .silent := by
      decide +kernel
    exact ⟨hadmitted.silent r r.mem_all (hsilent r r.mem_all hr hvisible), h⟩

/-- The rules that are told skip trivia between their parts. -/
theorem Rule.inside_of_told {r : Rule} (hr : r ∉ Rule.untold) (hkinds : r.kinds? = none) :
    r.inside .skipped = .skipped := by
  have h : ∀ r ∈ Rule.all, r ∉ Rule.untold → r.kinds? = none → r.inside .skipped = .skipped := by
    decide +kernel
  exact h r r.mem_all hr hkinds

/-- A rule matches what its body does, and skips what is between its parts. -/
theorem Peg.matches_told_iff {r : Rule} (hr : r ∉ Rule.untold) (hkinds : r.kinds? = none)
    {s s' : List Char} {trees : List Tree} :
    (rule r).Matches .skipped s s' trees ↔
      ∃ inner, r.body.Matches .skipped s s' inner ∧ trees = r.made .skipped s s' inner := by
  rw [matches_rule_iff, Rule.inside_of_told hr hkinds]

theorem Spacing.dropTrivia_skip {spacing : Spacing} (h : spacing = .skipped) (s : List Char) :
    dropTrivia (spacing.skip s) = spacing.skip s := by
  rw [h]
  exact dropTrivia_dropTrivia s

/-- Where there are no trivia, nothing is skipped, whatever the spacing. -/
theorem Spacing.skip_of_dropTrivia {spacing : Spacing} (h : spacing = .skipped) {s : List Char}
    (hs : dropTrivia s = s) : spacing.skip s = s := by
  rw [h]
  exact hs

namespace Peg

/-- The expression matches where it is certain to. -/
theorem matches_of_certain {p : Peg} {s : List Char} (h : kind s ∈ p.certain) :
    ∃ s' trees, p.Matches .skipped s s' trees := by
  fun_induction certain p with
  | case1 w =>
    obtain ⟨t, ht, hkind⟩ := List.mem_map.mp h
    obtain ⟨ht, hbegins⟩ := List.mem_filter.mp ht
    obtain ⟨u, rfl⟩ := List.isPrefixOf_iff_prefix.mp hbegins
    have hnot : ∀ t ∈ punctuators, t ∉ reservedWords := by decide
    rcases of_kind_eq_fixed hkind.symm with ⟨-, v, rfl⟩ | ⟨hres, -⟩
    · exact ⟨u ++ v, [], .word (List.append_assoc _ _ _)⟩
    · exact absurd hres (hnot _ ht)
  | case2 =>
    have hkind := List.mem_singleton.mp h
    have hnot : "function".toList ∉ punctuators := by decide
    rcases of_kind_eq_fixed hkind with ⟨hmem, -⟩ | ⟨-, htake⟩
    · exact absurd hmem hnot
    · have hbody : (wholeWord "function").Matches .token s (s.dropWhile isIdentChar) [] :=
        (matches_wholeWords_iff rfl (List.pairwise_singleton _ _) (by decide)).mpr
          ⟨List.mem_singleton.mpr htake, rfl, rfl⟩
      exact ⟨_, _, (matches_token_iff rfl).mpr ⟨[], hbody, rfl⟩⟩
  | case3 w p ihw ihp =>
    by_cases hbegins : ∃ s', s = w ++ s'
    · obtain ⟨s', hs⟩ := hbegins
      exact ⟨s', [], .left (.word hs)⟩
    · have hfails : (word w).Fails .skipped s := .word fun s' hs => hbegins ⟨s', hs⟩
      rcases List.mem_append.mp h with h | h
      · obtain ⟨s', trees, hmatch⟩ := ihw h
        exact absurd hmatch hfails.not_matches
      · obtain ⟨s', trees, hmatch⟩ := ihp h
        exact ⟨s', trees, .right hfails hmatch⟩
  | case4 p => cases h

/-- What is excluded by a look ahead does not stand there. -/
theorem Matches.not_barred {p : Peg} {s s' : List Char} {trees : List Tree}
    (h : p.Matches .skipped s s' trees) : kind s ∉ p.barred := by
  rw [barred.eq_def]
  split
  · intro hmem
    obtain ⟨s', trees, hmatch⟩ := matches_of_certain hmem
    exact (matches_notAhead_iff.mp h).1.not_matches hmatch
  · exact List.not_mem_nil

/-- No match goes to a dead end: a point with a digit behind it is not a point with a name behind
it. -/
theorem not_deadEnd {p q : Peg} {s s' : List Char} {trees : List Tree}
    (h : (seq p q).Matches .skipped s s' trees) : kind s ∉ p.deadEnds q := by
  rw [deadEnds]
  split
  · next hpq =>
    obtain ⟨rfl, rfl⟩ := hpq
    obtain ⟨s₁, _, _, hpoint, hname, -⟩ := matches_seq_iff.mp h
    obtain ⟨rfl, -⟩ := matches_word_iff.mp hpoint
    obtain ⟨⟨c, hc, hstart⟩, -, -⟩ := matches_identifierName_iff.mp hname
    rw [List.mem_singleton]
    intro hkind
    obtain ⟨d, hd, hdigit⟩ := digit_of_kind_point hkind
    obtain ⟨u, rfl⟩ := List.head?_eq_some_iff.mp hd
    rw [Spacing.skip, dropTrivia_of_isDigit hdigit, List.head?_cons] at hc
    obtain rfl := Option.mem_some.mp hc
    rw [isIdentStart_of_isDigit hdigit] at hstart
    cases hstart
  · exact List.not_mem_nil

/-- **A match begins with one of the first tokens**, unless it is empty. The induction is on the
match, and a rule's list has what its body's list has by the admission. -/
theorem Matches.kind_mem {admitted : Rule → Bool} (hadmitted : Rule.Admission admitted)
    {spacing : Spacing} {p : Peg} {s s' : List Char} {trees : List Tree} :
    p.Matches spacing s s' trees → spacing = .skipped → p.told → dropTrivia s = s →
      (∀ t ∈ trees, t.Admitted admitted) →
        kind s ∈ p.first (Rule.first admitted) ∨ s' = s ∧ p.vacuous
  | .word h, _, hp, _, _ =>
    .inl (Opening.Opens.kind_mem ⟨⟨_, h.symm⟩, nofun, nofun⟩ hp)
  | .finish, _, _, _, _ => .inl (List.mem_singleton_self _)
  | .rule (r := r) body, hs, hp, hskip, htrees => by
    have htold : r ∉ Rule.untold := of_decide_eq_true hp
    obtain ⟨hr, htrees⟩ := hadmitted.of_made htold (hs ▸ htrees)
    cases hkinds : r.kinds? with
    | some kinds =>
      -- the kinds of a token are listed with its rule
      have hmem := Matches.kind_of_token hkinds (hs ▸ Matches.rule body)
      rw [Peg.first, Rule.first, Rule.firstWithin, if_pos hr, hkinds]
      exact .inl hmem
    | none =>
      obtain ⟨hbody, hfirst⟩ := hadmitted.closed r r.mem_all htold hr hkinds
      have hinside : r.inside spacing = .skipped := hs ▸ Rule.inside_of_told htold hkinds
      refine (body.kind_mem hadmitted hinside hbody hskip htrees).imp (hfirst _) fun h => ?_
      rw [Rule.body_vacuous htold] at h
      exact absurd h.2 Bool.false_ne_true
  | .seq first second, hs, hp, hskip, htrees => by
    obtain ⟨hp, hq⟩ := Bool.and_eq_true_iff.mp hp
    obtain ⟨htrees, htrees'⟩ := List.forall_mem_append.mp htrees
    have hfirst := first.kind_mem hadmitted hs hp hskip htrees
    have hsecond := second.kind_mem hadmitted hs hq (Spacing.dropTrivia_skip hs _) htrees'
    rw [Peg.first]
    split
    · next hconsumes =>
      -- the first part takes something, so the place is of one of its kinds
      have hmem := hfirst.resolve_right fun h => first.ne_of_consumes hconsumes h.1
      have hseq := Matches.seq first second
      rw [hs] at hseq
      exact .inl (List.mem_filter.mpr ⟨hmem, decide_eq_true (not_deadEnd hseq)⟩)
    · rcases hfirst with hfirst | ⟨hs₁, hvacuous⟩
      · exact .inl (List.mem_append_left _ hfirst)
      -- the first part took nothing, so that the second one began at the same place
      · rw [hs₁, Spacing.skip_of_dropTrivia hs hskip] at hsecond
        refine hsecond.imp (fun hmem => ?_) fun h =>
          ⟨h.1, Bool.and_eq_true_iff.mpr ⟨hvacuous, h.2⟩⟩
        refine List.mem_append_right _ (List.mem_filter.mpr ⟨hmem, decide_eq_true ?_⟩)
        exact (hs ▸ first).not_barred
  | .left first, hs, hp, hskip, htrees =>
    (first.kind_mem hadmitted hs (Bool.and_eq_true_iff.mp hp).1 hskip htrees).imp
      (List.mem_append_left _) fun h => ⟨h.1, Bool.or_eq_true_iff.mpr (.inl h.2)⟩
  | .right _ second, hs, hp, hskip, htrees =>
    (second.kind_mem hadmitted hs (Bool.and_eq_true_iff.mp hp).2 hskip htrees).imp
      (List.mem_append_right _) fun h => ⟨h.1, Bool.or_eq_true_iff.mpr (.inr h.2)⟩
  | .never _, _, _, _, _ | .absent _, _, _, _, _ | .ahead _, _, _, _, _ | .notAhead _, _, _, _, _ =>
    .inr ⟨rfl, rfl⟩
  | .times first _, hs, hp, hskip, htrees => by
    obtain ⟨hp, hconsumes⟩ := Bool.and_eq_true_iff.mp hp
    obtain ⟨htrees, -⟩ := List.forall_mem_append.mp htrees
    refine .inl ((first.kind_mem hadmitted hs hp hskip htrees).resolve_right fun h => ?_)
    exact first.ne_of_consumes hconsumes h.1
  | .present body, hs, hp, hskip, htrees =>
    (body.kind_mem hadmitted hs hp hskip htrees).imp_right fun h => ⟨h.1, rfl⟩

end Peg

/-- Any tree is admitted if all rules are. -/
theorem Tree.admitted_all : ∀ t : Tree, t.Admitted fun _ => true
  | ⟨_, _, _, children⟩ => .mk rfl fun t' (_ : t' ∈ children) => t'.admitted_all

/-! ## Failures

The use of it all: where the kind of a place is not in the list, there is no match, and as every
told expression matches or fails, it fails.
-/

namespace Peg

/-- What is told does not ask where it stands. -/
theorem startless_of_told {p : Peg} (hp : p.told) : p.startless := by
  induction p with
  | word _ | finish => rfl
  | one _ | start => cases hp
  | rule r =>
    have hr : r ∉ Rule.untold := of_decide_eq_true hp
    refine decide_eq_true ?_
    rintro rfl
    exact hr (by decide)
  | seq p q ihp ihq | choice p q ihp ihq =>
    obtain ⟨hp, hq⟩ := Bool.and_eq_true_iff.mp hp
    exact Bool.and_eq_true_iff.mpr ⟨ihp hp, ihq hq⟩
  | many p ih => exact ih (Bool.and_eq_true_iff.mp hp).1
  | optional p ih => exact ih hp
  | ahead p _ | notAhead p _ => exact hp

/-- The kinds of the places where a match of the expression may begin. -/
abbrev begins (p : Peg) : List Kind := p.first (Rule.first fun _ => true)

/-- The first tokens of the expression are told, and it matches nothing without one. -/
def solid (p : Peg) : Bool := p.told && !p.vacuous && p.bounded Rule.rank .skipped

/-- An expression that does not match fails, which the matcher decides. -/
theorem fails_of_not_matches {p : Peg} (hp : p.told) (hbounded : p.bounded Rule.rank .skipped)
    {s : List Char} (h : ∀ s' trees, ¬p.Matches .skipped s s' trees) : p.Fails .skipped s :=
  (fails_iff (startless_of_told hp) hbounded).mpr h

/-- A match of an expression that is not vacuous begins with one of its first tokens. -/
theorem Matches.kind_mem_first {admitted : Rule → Bool} (hadmitted : Rule.Admission admitted)
    {p : Peg} {s s' : List Char} {trees : List Tree} (h : p.Matches .skipped s s' trees)
    (hp : p.told) (hvacuous : p.vacuous = false) (hs : dropTrivia s = s)
    (htrees : ∀ t ∈ trees, t.Admitted admitted) : kind s ∈ p.first (Rule.first admitted) := by
  refine (h.kind_mem hadmitted rfl hp hs htrees).resolve_right fun hempty => ?_
  rw [hvacuous] at hempty
  exact absurd hempty.2 Bool.false_ne_true

/-- **Where none of its first tokens stands, an expression fails.** Both conditions on the
expression are computed, and so is that the kind is not in the list. -/
theorem fails_of_kind {p : Peg} (hp : p.solid) {s : List Char} (hs : dropTrivia s = s)
    (hkind : kind s ∉ p.begins) : p.Fails .skipped s := by
  rw [solid, Bool.and_eq_true, Bool.and_eq_true] at hp
  obtain ⟨⟨htold, hvacuous⟩, hbounded⟩ := hp
  rw [Bool.not_eq_true'] at hvacuous
  refine fails_of_not_matches htold hbounded fun s' trees h => hkind ?_
  exact h.kind_mem_first Rule.admission_all htold hvacuous hs fun t _ => t.admitted_all

end Peg

end Scriptlet
