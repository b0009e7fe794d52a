import Scriptlet.Proofs.Grammar.LineEnd

/-!
# The argument of a `return`

The argument of a `return` begins on its line. What stands between the two is a run of white space
and comments (`Trivium.Run`), and whether the line ends in it is a matter of the run alone
(`Trivium.Run.endsLine_iff`), though the grammar has two ideas of it: the lookahead that ends the
statement has its own white space and comments, and what is skipped in front of an argument has
others. The two part ways only where no argument begins (`Trivium.fails_expression`).

So the theorem of this module can be stated about texts, without the grammar's rules for trivia: the
keyword, a run that is as long as can be, and whatever stands behind the run. For every such text
the statement is parsed, and it has an argument exactly if the line does not end in the run and an
expression can be parsed behind it (`Trivium.Run.parse_returnStatement`).

That the argument is the same expression as the one parsed by itself, and that it begins where the
run ends, needs the offsets. Matches do not have them. They are followed through the matcher by
`Peg.Reaches`, which says what every match from a place leads to.
-/

namespace Scriptlet

open Peg

/-- A white space character or a comment. Comments are given by what stands inside of them. -/
inductive Trivium where
  | blank (c : Char)
  /-- what stands between `/*` and `*/` -/
  | block (body : List Char)
  /-- what stands behind `//` -/
  | line (body : List Char)

namespace Trivium

/-- How it is written. -/
def text : Trivium → List Char
  | .blank c => [c]
  | .block body => '/' :: '*' :: (body ++ ['*', '/'])
  | .line body => '/' :: '/' :: body

/-- The text is that of a trivium, which ends where `rest` begins. A block comment has its end
nowhere inside, and a line comment goes up to a line break or to the end of the text. -/
def Stands : Trivium → List Char → Prop
  | .blank c, _ => isBlank c
  | .block body, _ => ¬['*', '/'] <:+: body
  | .line body, rest => '\n' ∉ body ∧ ∀ c ∈ rest.head?, c = '\n'

/-- The line ends in the trivium: at a line break, also inside a comment, or behind `//`. A byte
order mark and a comment within the line do not end it. -/
def endsLine : Trivium → Bool
  | .blank c => c = '\n' || c = '\r'
  | .block body => body.contains '\n' || body.contains '\r'
  | .line _ => true

/-- How several are written. -/
def texts (w : List Trivium) : List Char := w.flatMap text

/-- They stand in front of `r` one after the other, and no more stand there. The last condition
makes the run of a text unique. -/
def Run : List Trivium → List Char → Prop
  | [], r => ∀ (t : Trivium) (rest : List Char), t.Stands rest → r ≠ t.text ++ rest
  | t :: w, r => t.Stands (texts w ++ r) ∧ Run w r

theorem texts_cons_append (t : Trivium) (w : List Trivium) (r : List Char) :
    texts (t :: w) ++ r = t.text ++ (texts w ++ r) := by
  rw [texts, List.flatMap_cons, List.append_assoc]
  rfl

theorem block_text_append (body rest : List Char) :
    (block body).text ++ rest = '/' :: '*' :: (body ++ '*' :: '/' :: rest) := by
  simp [text]

/-- Every text begins with a run, so the run in the theorem below is no restriction. -/
theorem exists_run (s : List Char) : ∃ w r, s = texts w ++ r ∧ Run w r := by
  induction hn : s.length using Nat.strongRecOn generalizing s with
  | _ n ih =>
    by_cases hnone : Run [] s
    · exact ⟨[], s, rfl, hnone⟩
    · simp only [Run, not_forall, not_not] at hnone
      obtain ⟨t, rest, ht, rfl⟩ := hnone
      have hlt : rest.length < n := by
        rw [← hn, List.length_append]
        cases t <;> simp [text]
      obtain ⟨w, r, rfl, hw⟩ := ih _ hlt rest rfl
      exact ⟨t :: w, r, (texts_cons_append t w r).symm, ht, hw⟩

variable {t : Trivium} {w : List Trivium} {s s' r : List Char}

/-! ## What is skipped

In front of an argument, `dropTrivia` skips what runs are made of, with the one exception of a block
comment without end.
-/

/-- A comment that the text begins with is one of a run. -/
theorem exists_stands_of_behindComment (h : behindComment s = some s') :
    ∃ t : Trivium, t.Stands s' ∧ s = t.text ++ s' := by
  rw [behindComment.eq_def] at h
  split at h
  · next s =>
    obtain rfl := Option.some.inj h
    refine ⟨.line (s.takeWhile (· ≠ '\n')), ⟨fun hmem => ?_, fun c hc => ?_⟩, ?_⟩
    · simpa using List.mem_takeWhile_imp hmem
    · have hhead := List.head?_dropWhile_not (· ≠ '\n') s
      rw [Option.mem_def.mp hc] at hhead
      simpa using hhead
    · simp only [text, List.cons_append, List.takeWhile_append_dropWhile]
  · next s =>
    obtain ⟨body, hbody, rfl⟩ := exists_blockBody h
    exact ⟨.block body, hbody, (block_text_append body s').symm⟩
  · cases h

theorem Stands.dropTrivia (h : t.Stands s) :
    dropTrivia (t.text ++ s) = Scriptlet.dropTrivia s := by
  cases t with
  | blank c => exact dropTrivia_blank h s
  | block body =>
    rw [block_text_append]
    exact dropTrivia_block h s
  | line body =>
    obtain ⟨hbody, hrest⟩ := h
    cases s with
    | nil =>
      have hbehind : behindComment ('/' :: '/' :: body) = some [] := by
        rw [behindComment, List.dropWhile_eq_nil_iff.mpr]
        exact fun c hc => decide_eq_true fun hc' => hbody (hc' ▸ hc)
      rw [text, List.append_nil]
      exact dropTrivia_behind hbehind
    | cons c s =>
      obtain rfl := hrest c rfl
      rw [dropTrivia_blank (by decide)]
      exact dropTrivia_line hbody s

theorem Run.nil (h : Run w r) : Run [] r := by
  induction w with
  | nil => exact h
  | cons t w ih => exact ih h.2

/-- Behind a run nothing is skipped. -/
theorem Run.dropTrivia_nil (h : Run [] r) : dropTrivia r = r := by
  have hblank : r.dropWhile isBlank = r := by
    cases r with
    | nil => rfl
    | cons c r => exact List.dropWhile_cons_of_neg fun hc => h (.blank c) r hc rfl
  have hcomment : behindComment r = none := by
    cases hbehind : behindComment r with
    | none => rfl
    | some s' =>
      obtain ⟨t, ht, hr⟩ := exists_stands_of_behindComment hbehind
      exact absurd hr (h t s' ht)
  rw [dropTrivia_of_no_comment (by rw [hblank]; exact hcomment), hblank]

/-- **A run is what is skipped.** This is the first of the two ideas of white space and comments. -/
theorem Run.dropTrivia (h : Run w r) : dropTrivia (texts w ++ r) = r := by
  induction w with
  | nil => exact h.dropTrivia_nil
  | cons t w ih => rw [texts_cons_append, h.1.dropTrivia, ih h.2]

/-! ## Where the line ends

The second one is the lookahead's. It is followed through the run, one trivium after the other, up
to the first that ends the line.
-/

/-- One in front ends the line, or leaves it to what follows. -/
theorem Stands.endsLine_iff (h : t.Stands s) :
    EndsLine (t.text ++ s) ↔ t.endsLine ∨ EndsLine s := by
  cases t with
  | blank c =>
    by_cases hbreak : c = '\n' ∨ c = '\r'
    · have hfails : inlineTrivium.Fails .token (c :: s) := by
        rcases hbreak with rfl | rfl <;> exact inlineTrivium_fails_cons (by decide) nofun
      have hends : ¬lineEnd.Fails .token (c :: s) := by
        rw [fails_lineEnd_cons fun hc => absurd hbreak (by rw [hc]; decide)]
        tauto
      simp only [text, List.singleton_append, endsLine_of_fails hfails]
      simp [endsLine, hends, hbreak]
    · have hinline : isInlineBlank c := by
        have hc : isBlank c := h
        simp only [isBlank, Bool.or_eq_true, decide_eq_true_eq] at hc
        simp only [isInlineBlank, Bool.or_eq_true, decide_eq_true_eq]
        tauto
      simp only [text, List.singleton_append, endsLine_of_matches (inlineTrivium_blank hinline s)]
      simp [endsLine, hbreak]
  | block body =>
    rw [block_text_append]
    by_cases hbreak : '\n' ∈ body ∨ '\r' ∈ body
    · have hends : ¬lineEnd.Fails .token ('/' :: '*' :: (body ++ '*' :: '/' :: s)) := fun hfails =>
        (fails_lineEnd_iff.mp hfails).1 ['/', '*'] (by decide) _ rfl
      rw [endsLine_of_fails (inlineTrivium_fails_break h hbreak s)]
      simp [endsLine, hends, hbreak]
    · rw [not_or] at hbreak
      rw [endsLine_of_matches (inlineTrivium_comment h hbreak.1 hbreak.2 s)]
      simp [endsLine, hbreak]
  | line body =>
    have hfails : inlineTrivium.Fails .token ('/' :: '/' :: (body ++ s)) :=
      inlineTrivium_fails_cons (by decide) (by simp)
    have hends : ¬lineEnd.Fails .token ('/' :: '/' :: (body ++ s)) := fun hfails =>
      (fails_lineEnd_iff.mp hfails).1 ['/', '/'] (by decide) _ rfl
    simp only [text, List.cons_append, endsLine_of_fails hfails]
    simp [endsLine, hends]

/-- **Where the line ends is a matter of the run**, or of what follows it, where the run has no end
of line in it. -/
theorem Run.endsLine_iff (h : Run w r) :
    EndsLine (texts w ++ r) ↔ w.any endsLine ∨ EndsLine r := by
  induction w with
  | nil => simp [texts]
  | cons t w ih =>
    rw [texts_cons_append, h.1.endsLine_iff, ih h.2, List.any_cons, Bool.or_eq_true, or_assoc]

/-- **Where the line ends behind the run, no expression begins**: there the text ends, or a
comment is left open. -/
theorem fails_expression (h : Run [] r) (hends : EndsLine r) :
    (rule .expression).Fails .skipped r := by
  have hsolid : (rule .expression).solid := by decide +kernel
  cases r with
  | nil => exact fails_of_kind hsolid h.dropTrivia_nil (by decide +kernel)
  | cons c s =>
    have hblank : isBlank c = false := Bool.eq_false_iff.mpr fun hc => h (.blank c) s hc rfl
    by_cases hopen : c = '/' ∧ s.head? = some '*'
    · obtain ⟨rfl, hs⟩ := hopen
      obtain ⟨s, rfl⟩ := List.head?_eq_some_iff.mp hs
      refine fails_of_kind hsolid h.dropTrivia_nil ?_
      rw [kind_of_open_comment]
      decide +kernel
    · -- nothing at all ends the line here
      have hslash : c = '/' → ∀ d ∈ s.head?, d ≠ '/' ∧ d ≠ '*' := by
        rintro rfl d hd
        refine ⟨?_, fun hstar => hopen ⟨rfl, hstar ▸ hd⟩⟩
        rintro rfl
        obtain ⟨s, rfl⟩ := List.head?_eq_some_iff.mp hd
        obtain ⟨t, ht, heq⟩ := exists_stands_of_behindComment (s := '/' :: '/' :: s) rfl
        exact h t _ ht heq
      have hinline : isInlineBlank c = false := Bool.eq_false_iff.mpr fun hc =>
        absurd (isBlank_of_isInlineBlank hc) (Bool.eq_false_iff.mp hblank)
      have htrivium := inlineTrivium_fails_cons hinline fun hc hs => (hslash hc _ hs).2 rfl
      refine absurd ((fails_lineEnd_cons hslash).mpr ⟨?_, ?_⟩)
        ((endsLine_of_fails htrivium).mp hends)
      · rintro rfl
        cases hblank
      · rintro rfl
        cases hblank

end Trivium

/-! ## Where nodes are made

Properties of the places at which matches end and of the nodes they make, with offsets. They are
shown along the expression, from those of its parts.
-/

/-- There is a node if there is one without its offset. -/
theorem Tree.coreAll_eq_nil_iff {ts : List Tree} : Tree.coreAll ts = [] ↔ ts = [] := by
  rw [coreAll_eq, List.map_eq_nil_iff]

namespace Peg

open Outcome

/-- Every match of the expression from `c` leads to a place and to nodes with the property. That
there is a match is not said. -/
def Reaches (p : Peg) (c : Cursor) (Q : Cursor → List Tree → Prop) : Prop :=
  ∀ fuel seen, Tells c Q True True (p.run fuel .outermost c seen)

variable {p q : Peg} {c : Cursor} {Q R : Cursor → List Tree → Prop}

/-- The property can be weakened. -/
theorem Reaches.mono (h : p.Reaches c Q) (hQ : ∀ {c' trees}, Q c' trees → R c' trees) :
    p.Reaches c R :=
  fun fuel seen => (h fuel seen).mono hQ id id

/-- A match leads to where the relation says, with the nodes it says, up to their offsets. -/
theorem reaches_matches (hp : p.startless) (c : Cursor) :
    p.Reaches c fun c' trees => p.Matches .skipped c.rest c'.rest (Tree.coreAll trees) := by
  refine fun fuel seen => (run_tells fuel hp c .outermost seen).mono ?_ (fun _ => trivial)
    fun _ => trivial
  rintro c' trees ⟨core, hcore, hmade⟩
  rw [hmade rfl]
  exact hcore

/-- In a sequence, the second part begins behind what is skipped after the first. -/
theorem Reaches.seq (hp : p.Reaches c Q)
    (hq : ∀ {c₁ c₂ text trees}, c.Spans text c₂ → Q c₁ trees → c₂.rest = dropTrivia c₁.rest →
      q.Reaches c₂ fun c' more => R c' (trees ++ more)) : (p ++ q).Reaches c R := by
  intro fuel seen
  cases fuel with
  | zero => exact tells_exhausted trivial
  | succ fuel =>
    refine tells_andThen (hp fuel seen) id id fun {c₁ text trees} seen hspan hQ => ?_
    have hskip := tells_skipTrivia (run_tells fuel (by decide) c₁) .outermost seen
    refine tells_andThen hskip False.elim (fun _ => trivial) fun {c₂ gap _} seen hgap hrest => ?_
    refine tells_andThen (hq (hspan.trans hgap) hQ hrest fuel seen) id id ?_
    exact fun _ _ hR => tells_matched ⟨[], .refl _⟩ hR

/-- Both alternatives have to lead to the property, since which of them matches is not known. -/
theorem Reaches.choice (hp : p.Reaches c Q) (hq : q.Reaches c Q) : (p <|> q).Reaches c Q := by
  intro fuel seen
  cases fuel with
  | zero => exact tells_exhausted trivial
  | succ fuel => exact tells_orElse (hp fuel seen) fun seen _ => hq fuel seen

/-- Leaving something out has to lead to the property as well. -/
theorem Reaches.optional (hp : p.Reaches c Q) (hnone : Q c []) : (optional p).Reaches c Q := by
  intro fuel seen
  cases fuel with
  | zero => exact tells_exhausted trivial
  | succ fuel =>
    exact tells_orElse (hp fuel seen) fun _ _ => tells_matched ⟨[], .refl c⟩ hnone

/-- A node begins where its rule is matched. -/
theorem Reaches.rule {r : Rule} (hr : r.kind = .plain) (hbody : r.body.Reaches c Q) :
    (rule r).Reaches c fun c' made =>
      ∃ text trees, Q c' trees ∧ made = [⟨r, c.pos, text, trees⟩] := by
  intro fuel seen
  cases fuel with
  | zero => exact tells_exhausted trivial
  | succ fuel =>
    rw [run]
    simp only [hr]
    refine (tells_matchRule (hbody fuel seen)).mono ?_ id id
    rintro c' _ ⟨trees, hQ, rfl⟩
    exact ⟨_, trees, hQ, rfl⟩

/-- What a parse finds is such a match. -/
theorem Reaches.of_parse {r : Rule} {source : List Char} {trees : List Tree}
    (h : (Peg.rule r).Reaches ⟨0, source⟩ Q) (hparse : r.parse source = .ok trees) :
    ∃ c', Q c' trees := by
  rw [Rule.parse] at hparse
  split at hparse
  · next c' made seen hrun =>
    obtain rfl := Except.ok.inj hparse
    exact ⟨c', ((h _ _).matched hrun).2⟩
  · cases hparse

/-! ## The statement

The rule of `return` statements has two alternatives: one that looks ahead for the end of the line
and takes no argument, and one that takes an argument if there is one.
-/

/-- What the rule of `return` statements has in front of the semicolon. -/
def returnHead : Peg :=
  (ahead (rule .returnAtLineEnd) ++ rule .returnKeyword)
    <|> (rule .returnKeyword ++ optional (rule .expression))

/-- The keyword is matched where its word stands. -/
theorem matches_returnKeyword_iff {s s' : List Char} {trees : List Tree} :
    (rule .returnKeyword).Matches .skipped s s' trees ↔
      s.takeWhile isIdentChar = "return".toList ∧ s' = s.dropWhile isIdentChar ∧ trees = [] :=
  matches_keywordRule_iff (k := (.returnKeyword, .returnWord, "return")) (by decide)

section

variable {s : List Char} (hs : ∀ c ∈ s.head?, isIdentChar c = false)
include hs

theorem return_word : ("return".toList ++ s).takeWhile isIdentChar = "return".toList ∧
    s = ("return".toList ++ s).dropWhile isIdentChar :=
  (eq_append_iff_takeWhile (by decide)).mp ⟨rfl, hs⟩

/-- At the end of the line the statement takes no argument. -/
theorem matches_returnHead_atLineEnd (hends : EndsLine s) :
    returnHead.Matches .skipped ("return".toList ++ s) s [] := by
  obtain ⟨htake, hdrop⟩ := return_word hs
  have hline : ∃ s' trees,
      (rule .returnAtLineEnd).Matches .skipped ("return".toList ++ s) s' trees :=
    exists_matches_returnAtLineEnd_iff.mpr ⟨List.mem_singleton.mpr htake, hdrop ▸ hends⟩
  obtain ⟨s', trees, hahead⟩ := hline
  have hkeyword : (rule .returnKeyword).Matches .skipped
      (Spacing.skipped.skip ("return".toList ++ s)) s [] := by
    rw [Spacing.skip, dropTrivia_of_isIdentStart ⟨'r', rfl, by decide⟩]
    exact matches_returnKeyword_iff.mpr ⟨htake, hdrop, rfl⟩
  exact .left (.seq (.ahead hahead) hkeyword)

/-- Within the line it takes the argument that stands behind what is skipped. -/
theorem matches_returnHead_inLine (hends : ¬EndsLine s) {s' : List Char} {trees : List Tree}
    (h : (optional (rule .expression)).Matches .skipped (dropTrivia s) s' trees) :
    returnHead.Matches .skipped ("return".toList ++ s) s' trees := by
  obtain ⟨htake, hdrop⟩ := return_word hs
  have hfails : (rule .returnAtLineEnd).Fails .skipped ("return".toList ++ s) := by
    refine (fails_iff (by decide) rfl).mpr fun s' trees hahead => hends ?_
    have hline := (exists_matches_returnAtLineEnd_iff.mp ⟨s', trees, hahead⟩).2
    rwa [← hdrop] at hline
  refine .right (.first (.ahead hfails)) ?_
  exact .seq (matches_returnKeyword_iff.mpr ⟨htake, hdrop, rfl⟩) h

/-- What the statement takes begins behind what is skipped, at the offset where the run ends. -/
theorem returnHead_reaches {c : Cursor} (hc : c.rest = "return".toList ++ s) {pos : Nat}
    (hpos : ∀ {text c'}, c.Spans text c' → c'.rest = dropTrivia s → c'.pos = pos) :
    returnHead.Reaches c fun _ trees => ∀ t ∈ trees, t.start = pos := by
  have hdrop : s = c.rest.dropWhile isIdentChar := hc ▸ (return_word hs).2
  refine .choice ?_ (.seq (reaches_matches (by decide) c) ?_)
  · refine (reaches_matches (by decide) c).mono fun {c' trees} h => ?_
    obtain ⟨_, none, none', hahead, hkeyword, hnone⟩ := matches_seq_iff.mp h
    obtain ⟨-, -, rfl⟩ := matches_ahead_iff.mp hahead
    obtain ⟨-, -, rfl⟩ := matches_returnKeyword_iff.mp hkeyword
    rw [Tree.coreAll_eq_nil_iff.mp hnone]
    exact List.forall_mem_nil _
  · intro c₁ c₂ text trees hspan hkeyword hskip
    obtain ⟨-, hrest, hnone⟩ := matches_returnKeyword_iff.mp hkeyword
    obtain rfl := Tree.coreAll_eq_nil_iff.mp hnone
    rw [hrest, ← hdrop] at hskip
    have hargument := Reaches.rule (r := .expression) rfl (reaches_matches (by decide) c₂)
    refine .optional (hargument.mono ?_) (List.forall_mem_nil _)
    rintro c' _ ⟨_, inner, -, rfl⟩ t ht
    obtain rfl := List.mem_singleton.mp ht
    exact hpos hspan hskip

end

/-- What is matched of the statement is parsed as one node, with nothing below it but what stands
before the semicolon. The semicolon may be missing, and makes no node. -/
theorem parse_of_returnHead {source s' : List Char} {core : List Tree} {pos : Nat}
    (h : returnHead.Matches .skipped source s' core)
    (hpos : returnHead.Reaches ⟨0, source⟩ fun _ trees => ∀ t ∈ trees, t.start = pos) :
    ∃ t, Rule.returnStatement.parse source = .ok [t] ∧ t.rule = .returnStatement ∧
      Tree.coreAll t.children = core ∧ ∀ e ∈ t.children, e.start = pos := by
  obtain ⟨s'', hsemicolon⟩ : ∃ s'',
      (optional (lit ";")).Matches .skipped (Spacing.skipped.skip s') s'' [] := by
    have hbounded : (lit ";").bounded Rule.rank .skipped := by decide
    rcases matches_or_fails (by decide) hbounded (Spacing.skipped.skip s') with
      ⟨s'', trees, hmatch⟩ | hfails
    · obtain ⟨-, rfl⟩ := matches_word_iff.mp hmatch
      exact ⟨s'', .present hmatch⟩
    · exact ⟨_, .absent hfails⟩
  have hmatch : (rule .returnStatement).Matches .skipped source s''
      (Rule.returnStatement.made .skipped source s'' (core ++ [])) := .rule (.seq h hsemicolon)
  obtain ⟨trees, hparse, hcore⟩ := Rule.parse_of_matches hmatch
  have hreaches : (rule .returnStatement).Reaches ⟨0, source⟩ fun _ made =>
      ∃ text trees, (∀ e ∈ trees, e.start = pos) ∧ made = [⟨.returnStatement, 0, text, trees⟩] := by
    refine .rule rfl (.seq hpos fun _ hstart _ => ?_)
    refine .optional ((reaches_matches (by decide) _).mono fun {c' more} hword => ?_) ?_
    · rw [Tree.coreAll_eq_nil_iff.mp (matches_word_iff.mp hword).2, List.append_nil]
      exact hstart
    · rw [List.append_nil]
      exact hstart
  obtain ⟨-, text, children, hstart, rfl⟩ := hreaches.of_parse hparse
  refine ⟨_, hparse, rfl, ?_, hstart⟩
  injection hcore with hnode
  injection hnode with _ _ _ hchildren
  rw [hchildren, List.append_nil]

end Peg

namespace Trivium

/-- Behind the keyword and a run the word does not go on. -/
theorem Run.head_not_ident {w : List Trivium} {r : List Char} (h : Run w r)
    (hr : w = [] → ∀ c ∈ r.head?, isIdentChar c = false) :
    ∀ c ∈ (texts w ++ r).head?, isIdentChar c = false := by
  cases w with
  | nil => exact hr rfl
  | cons t w =>
    rw [texts_cons_append]
    cases t with
    | blank c =>
      have hc : isBlank c := h.1
      rintro _ ⟨⟩
      simp only [isBlank, Bool.or_eq_true, decide_eq_true_eq] at hc
      rcases hc with rfl | rfl | rfl | rfl | rfl <;> decide
    | block body | line body =>
      rintro _ ⟨⟩
      decide

/-- **The argument of a `return` begins on its line.** Let a run of white space and comments
stand behind the keyword, and `r` behind the run. The text is parsed as one `return` statement.
It has nothing below it if the line ends in the run, at a line break, also inside a comment, or
behind `//`, or if no expression stands at `r`; otherwise it has one node below it, the
expression that begins where `r` does. -/
theorem Run.parse_returnStatement {w : List Trivium} {r : List Char} (hw : Run w r)
    (hr : w = [] → ∀ c ∈ r.head?, isIdentChar c = false) :
    ∃ t, Rule.returnStatement.parse ("return".toList ++ (texts w ++ r)) = .ok [t] ∧
      t.rule = .returnStatement ∧
      ((w.any endsLine ∨ ∃ error, Rule.expression.parse r = .error error) → t.children = []) ∧
      ∀ trees, ¬w.any endsLine → Rule.expression.parse r = .ok trees →
        ∃ e, t.children = [e] ∧ e.rule = .expression ∧
          e.start = utf8Length ("return".toList ++ texts w) ∧ Tree.coreAll trees = [e.core] := by
  have hs := hw.head_not_ident hr
  have hpos : ∀ {text : List Char} {c' : Cursor},
      (⟨0, "return".toList ++ (texts w ++ r)⟩ : Cursor).Spans text c' →
      c'.rest = Scriptlet.dropTrivia (texts w ++ r) →
      c'.pos = utf8Length ("return".toList ++ texts w) := by
    intro text c' hspan hrest
    have hsplit := hspan.rest
    rw [hrest, hw.dropTrivia, ← List.append_assoc, List.append_cancel_right_eq] at hsplit
    rw [hspan.pos, hsplit, Nat.zero_add]
  have hreaches := returnHead_reaches hs rfl hpos
  by_cases hends : EndsLine (texts w ++ r)
  · -- no argument: where the run ends no line, none stands at `r`
    obtain ⟨t, hparse, hrule, hcore, -⟩ :=
      parse_of_returnHead (matches_returnHead_atLineEnd hs hends) hreaches
    have hnone := Tree.coreAll_eq_nil_iff.mp hcore
    refine ⟨t, hparse, hrule, fun _ => hnone, fun trees hline hargument => ?_⟩
    obtain ⟨s', hmatch⟩ := Rule.matches_of_parse hargument
    have hend := (hw.endsLine_iff.mp hends).resolve_left hline
    exact absurd hmatch (fails_expression hw.nil hend).not_matches
  · have hline : ¬w.any endsLine := fun hline => hends (hw.endsLine_iff.mpr (.inl hline))
    have hinLine {s' trees} (h : (optional (rule .expression)).Matches .skipped r s' trees) :=
      parse_of_returnHead (matches_returnHead_inLine hs hends (hw.dropTrivia.symm ▸ h)) hreaches
    have hbounded : (rule .expression).bounded Rule.rank .skipped := rfl
    rcases matches_or_fails (by decide) hbounded r with ⟨s', core, hmatch⟩ | hfails
    · obtain ⟨t, hparse, hrule, hcore, hstart⟩ := hinLine (.present hmatch)
      obtain ⟨inner, -, rfl⟩ := matches_rule_iff.mp hmatch
      obtain ⟨e, he, hnode⟩ := List.map_eq_singleton_iff.mp (Tree.coreAll_eq _ ▸ hcore)
      refine ⟨t, hparse, hrule, ?_, fun trees _ hargument => ?_⟩
      · rintro (hline' | ⟨error, herror⟩)
        · exact absurd hline' hline
        · obtain ⟨trees, hargument, -⟩ := Rule.parse_of_matches hmatch
          cases hargument.symm.trans herror
      · obtain ⟨s'', hmatch'⟩ := Rule.matches_of_parse hargument
        refine ⟨e, he, ?_, hstart e (by simp [he]), ?_⟩
        · obtain ⟨_, _, _, _⟩ := e
          injection hnode
        · rw [hnode]
          exact (hmatch'.unique hmatch).2
    · obtain ⟨t, hparse, hrule, hcore, -⟩ := hinLine (.absent hfails)
      refine ⟨t, hparse, hrule, fun _ => Tree.coreAll_eq_nil_iff.mp hcore, ?_⟩
      intro trees _ hargument
      obtain ⟨s', hmatch⟩ := Rule.matches_of_parse hargument
      exact absurd hmatch hfails.not_matches

/-- A comment with two slashes in it and a byte order mark end no line. -/
theorem parse_returnStatement_inline :
    let w : List Trivium := [.blank ' ', .block "//".toList, .blank '\ufeff']
    let r := "x;".toList
    Run w r ∧ (w = [] → ∀ c ∈ r.head?, isIdentChar c = false) ∧
      ∃ t e, Rule.returnStatement.parse ("return".toList ++ (texts w ++ r)) = .ok [t] ∧
        t.children = [e] ∧ e.rule = .expression ∧ e.start = 16 := by
  intro w r
  have hw : Run w r := by
    have hbody : ¬['*', '/'] <:+: "//".toList := by decide
    refine ⟨rfl, hbody, rfl, fun t rest ht heq => ?_⟩
    cases t with
    | blank c =>
      obtain ⟨rfl, -⟩ := List.cons.inj heq
      cases ht
    | block body | line body => cases (List.cons.inj heq).1
  have hr : w = [] → ∀ c ∈ r.head?, isIdentChar c = false := nofun
  obtain ⟨t, hparse, -, -, hargument⟩ := hw.parse_returnStatement hr
  have hexpression : (Rule.expression.parse r).isOk = true := by decide +kernel
  cases hexpr : Rule.expression.parse r with
  | error _ => rw [hexpr] at hexpression; cases hexpression
  | ok trees =>
    obtain ⟨e, he, hrule, hstart, -⟩ := hargument trees (by decide) hexpr
    exact ⟨hw, hr, t, e, hparse, he, hrule, hstart⟩

end Trivium

end Scriptlet
