import Scriptlet.Proofs.Grammar.Adequacy
import Scriptlet.Proofs.Grammar.Shape

/-!
# Parse trees are well nested

The tree of a script lies over its text: nodes begin and end between characters, children stand in
their parents side by side and in order, and the whole text is one node (`parse_nested`). Readings
know all this but the last, since the offsets in them are counted along. That the text is exhausted
is up to the match.

Offsets count bytes, and the text is UTF-8. An offset is therefore only good if it lies between two
characters, which is what `String.Pos.Raw.IsValid` says; that an offset was counted over a list of
characters makes it so (`isValid_utf8Length`).

Of the nodes themselves it is said which there may be. A rule that is only looked ahead for makes no
node, nor does one that is silent; a token has no children, and its text is not empty and without
white space if it is one of the tokens that are written with visible characters. The last is
computed from the productions (`Peg.visibly`).
-/

namespace Scriptlet

open Peg

/-! ## Offsets

Offsets are counted over lists of characters in the grammar, and over the bytes of a string outside
of it.
-/

/-- The bytes that the matcher counts are those of the string. -/
theorem utf8Length_eq (text : List Char) : utf8Length text = (String.ofList text).utf8ByteSize := by
  induction text with
  | nil => rfl
  | cons c text ih =>
    rw [utf8Length_cons, ih, String.ofList_cons, String.utf8ByteSize_append,
      String.utf8ByteSize_singleton]

/-- The offset behind a beginning of a text lies between two characters, whatever the characters
are. -/
theorem isValid_utf8Length {source : String} {before after : List Char}
    (h : source.toList = before ++ after) :
    (⟨utf8Length before⟩ : String.Pos.Raw).IsValid source := by
  refine String.Pos.Raw.isValid_iff_exists_append.mpr
    ⟨String.ofList before, String.ofList after, ?_, ?_⟩
  · rw [← String.ofList_append, ← h, String.ofList_toList]
  · rw [utf8Length_eq]
    rfl

namespace Tree.StandsIn

variable {t : Tree} {pos : Nat} {text : List Char}

theorem start_le (h : t.StandsIn pos text) : pos ≤ t.start := by
  obtain ⟨before, after, -, hstart⟩ := h
  omega

theorem stop_le (h : t.StandsIn pos text) : t.stop ≤ pos + utf8Length text := by
  obtain ⟨before, after, htext, hstart⟩ := h
  rw [Tree.stop, htext, utf8Length_append, utf8Length_append, hstart]
  omega

end Tree.StandsIn

mutual

/-- **The nodes of a reading stand side by side**, in order. Each of two parts keeps its nodes
within its own text, and the texts follow each other. -/
theorem Peg.Reads.ordered {spacing : Spacing} {p : Peg} {pos : Nat} {text : List Char}
    {trees : List Tree} : p.Reads spacing pos text trees →
      trees.Pairwise fun t t' => t.stop ≤ t'.start
  | .word _ | .one _ | .start | .finish | .never | .absent | .ahead | .notAhead => .nil
  | .rule body => by
    rw [Rule.nodes]
    split
    · exact List.pairwise_singleton _ _
    · exact body.ordered
  | .seq first _ second => by
    refine List.pairwise_append.mpr ⟨first.ordered, second.ordered, fun t ht t' ht' => ?_⟩
    have hstop := (first.standsIn t ht).stop_le
    have hstart := (second.standsIn t' ht').start_le
    omega
  | .left first => first.ordered
  | .right second => second.ordered
  | .times run => run.ordered
  | .present body => body.ordered

/-- The nodes of repeated readings stand side by side, in order. -/
theorem Peg.Repeats.ordered {spacing : Spacing} {p : Peg} {pos : Nat} {text : List Char}
    {trees : List Tree} : p.Repeats spacing pos text trees →
      trees.Pairwise fun t t' => t.stop ≤ t'.start
  | .once body => body.ordered
  | .again run _ body => by
    refine List.pairwise_append.mpr ⟨run.ordered, body.ordered, fun t ht t' ht' => ?_⟩
    have hstop := (run.standsIn t ht).stop_le
    have hstart := (body.standsIn t' ht').start_le
    omega

end

/-! ## Rules without nodes

Some rules are there to be looked ahead for, and some are silent. That neither turns up in a tree is
a fact about which rules the productions use outside of lookaheads, and it is computed.
-/

/-- The rules that are only ever looked ahead for. -/
def Rule.lookedFor : List Rule :=
  [.reservedWord, .returnAtLineEnd, .functionWord, .ifWord, .elseWord, .whileWord, .forWord,
    .returnWord, .throwWord, .breakWord, .continueWord, .newWord]

/-- A node is of a rule that makes nodes. -/
theorem Tree.Fits.kind_cases {t : Tree} (ht : t.Fits) :
    t.rule.kind = .plain ∨ t.rule.kind = .compound ∨ t.rule.kind = .token := by
  obtain ⟨spacing, hvisible, -⟩ := ht
  rw [Rule.visible] at hvisible
  cases hk : t.rule.kind <;> simp [hk] at hvisible ⊢

/-- A token has no children, of whichever kind it is. -/
theorem Tree.Fits.token_children {t : Tree} (ht : t.Fits) (hkind : t.rule.kind = .token) :
    t.children = [] := by
  have hlexical : ∀ r ∈ Rule.all, r.kind = .token → r ∈ Rule.lexical := by decide
  exact ht.children_eq_nil hkind (hlexical _ t.rule.mem_all hkind)

/-- What is only looked for makes no node below another: it is not among the rules of any shape. -/
theorem Tree.Fits.child_not_lookedFor {t : Tree} (ht : t.Fits) :
    ∀ t' ∈ t.children, t'.rule ∉ Rule.lookedFor := by
  have hchildren : ∀ r ∈ Rule.all, ∀ r' ∈ r.childRules, r' ∉ Rule.lookedFor := by decide +kernel
  intro t' ht'
  rcases ht.kind_cases with hk | hk | hk
  · exact hchildren _ t.rule.mem_all _ (ht.mem_childRules (.inl hk) t' ht')
  · exact hchildren _ t.rule.mem_all _ (ht.mem_childRules (.inr hk) t' ht')
  · rw [ht.token_children hk] at ht'
    cases ht'

/-! ## Tokens -/

/-- Whether a character is one of the visible ones of ASCII, and so no white space. -/
def isVisible (c : Char) : Bool := '!' ≤ c && c ≤ '~'

/-- The tokens that are written with visible characters: names, operators, the kinds of variables,
numbers, `true`, `false`, `null` and `this`. The inside of a string is a token too, but may be
anything. -/
def Rule.visibleTokens : List Rule :=
  [.identifier, .identifierName, .assignmentOperator, .logicalOrOperator, .logicalAndOperator,
    .equalityOperator, .relationalOperator, .additiveOperator, .multiplicativeOperator,
    .unaryOperator, .updateOperator, .varKind, .numericLiteral, .booleanLiteral, .nullLiteral,
    .thisExpression]

/-- Those tokens and the rules they are made of. -/
def Rule.visiblyWritten : List Rule :=
  Rule.visibleTokens ++
    [.hexIntegerLiteral, .decimalLiteral, .exponentPart, .identStart, .identChar]

/-- Whether an expression is written with visible characters, if the rules given are. -/
def Peg.visibly (rules : List Rule) : Peg → Bool
  | .word chars => chars.all isVisible
  | .one chars => chars ≠ .any
  | .rule r => rules.contains r
  | .seq p q | .choice p q => p.visibly rules && q.visibly rules
  | .many p | .optional p => p.visibly rules
  | .start | .finish | .ahead _ | .notAhead _ => true

/-- The list is complete, as the productions of its rules stay within it. -/
theorem Rule.visiblyWritten_closed : ∀ r ∈ Rule.visiblyWritten,
    r ∈ Rule.lexical ∧ r.body.visibly Rule.visiblyWritten = true := by
  decide

/-- Every character class but the one of all characters consists of visible ones. -/
theorem isVisible_of_contains {chars : CharClass} (hchars : chars ≠ .any) {c : Char}
    (h : chars.contains c) : isVisible c := by
  suffices hc : 33 ≤ c.toNat ∧ c.toNat ≤ 126 from
    Bool.and_eq_true_iff.mpr ⟨decide_eq_true hc.1, decide_eq_true hc.2⟩
  cases chars with
  | any => exact absurd rfl hchars
  | letter =>
    have := toNat_of_isAlpha h
    omega
  | digit =>
    have : 48 ≤ c.toNat ∧ c.toNat ≤ 57 := Char.isDigit_iff_toNat.mp h
    omega
  | letterOrDigit =>
    rcases Bool.or_eq_true_iff.mp h with h | h
    · have := toNat_of_isAlpha h
      omega
    · have : 48 ≤ c.toNat ∧ c.toNat ≤ 57 := Char.isDigit_iff_toNat.mp h
      omega
  | hexDigit =>
    simp only [CharClass.contains, Bool.or_eq_true, Bool.and_eq_true, decide_eq_true_eq] at h
    rcases h with (h | h) | h
    · have : 48 ≤ c.toNat ∧ c.toNat ≤ 57 := Char.isDigit_iff_toNat.mp h
      omega
    · have : 97 ≤ c.toNat ∧ c.toNat ≤ 102 := h
      omega
    · have : 65 ≤ c.toNat ∧ c.toNat ≤ 70 := h
      omega

mutual

/-- What is written with these rules is written with visible characters. The spacing is that of a
token, so there is nothing between its parts. -/
theorem Peg.Reads.visible {spacing : Spacing} {p : Peg} {pos : Nat} {text : List Char}
    {trees : List Tree} : p.Reads spacing pos text trees → spacing = .token →
      p.visibly Rule.visiblyWritten = true → ∀ c ∈ text, isVisible c
  | .word chars, _, hp => List.all_eq_true.mp hp
  | .one hx, _, hp => by
    intro c hc
    obtain rfl := List.mem_singleton.mp hc
    exact isVisible_of_contains (of_decide_eq_true hp) hx
  | .start, _, _ | .finish, _, _ | .never, _, _ | .absent, _, _ | .ahead, _, _
  | .notAhead, _, _ => nofun
  | .rule (r := r) body, hs, hp => by
    have hr := Rule.visiblyWritten_closed r (List.contains_iff_mem.mp hp)
    exact body.visible (Rule.hidden_of_lexical hr.1 hs).1 hr.2
  | .seq first between second, hs, hp => by
    obtain ⟨hp, hq⟩ := Bool.and_eq_true_iff.mp hp
    have hfirst := first.visible hs hp
    have hsecond := second.visible hs hq
    rw [hs] at between
    obtain ⟨rfl, -⟩ := reads_word_iff.mp between
    intro c hc
    rw [List.append_nil] at hc
    exact (List.mem_append.mp hc).elim (hfirst c) (hsecond c)
  | .left first, hs, hp => first.visible hs (Bool.and_eq_true_iff.mp hp).1
  | .right second, hs, hp => second.visible hs (Bool.and_eq_true_iff.mp hp).2
  | .times run, hs, hp => run.visible hs hp
  | .present body, hs, hp => body.visible hs hp

theorem Peg.Repeats.visible {spacing : Spacing} {p : Peg} {pos : Nat} {text : List Char}
    {trees : List Tree} : p.Repeats spacing pos text trees → spacing = .token →
      p.visibly Rule.visiblyWritten = true → ∀ c ∈ text, isVisible c
  | .once body, hs, hp => body.visible hs hp
  | .again run between body, hs, hp => by
    have hrun := run.visible hs hp
    have hbody := body.visible hs hp
    rw [hs] at between
    obtain ⟨rfl, -⟩ := reads_word_iff.mp between
    intro c hc
    rw [List.append_nil] at hc
    exact (List.mem_append.mp hc).elim (hrun c) (hbody c)

end

/-- The empty word does not count as consuming something. -/
theorem Peg.ne_nil_of_word_consumes {chars : List Char} (h : (Peg.word chars).consumes) :
    chars ≠ [] := by
  rintro rfl
  cases h

/-- What consumes something reads no empty text. For matches this is `Peg.Matches.length_lt`; for
readings it is simpler, as there is nothing behind the text. -/
theorem Peg.Reads.ne_nil {spacing : Spacing} {p : Peg} {pos : Nat} {text : List Char}
    {trees : List Tree} : p.Reads spacing pos text trees → p.consumes → text ≠ []
  | .word _, hp => Peg.ne_nil_of_word_consumes hp
  | .one _, _ => List.cons_ne_nil _ _
  | .rule body, hp => body.ne_nil (Rule.body_consumes hp)
  | .seq first _ second, hp => by
    rcases Bool.or_eq_true_iff.mp hp with hp | hq
    · have hne := List.append_ne_nil_of_left_ne_nil (first.ne_nil hp)
      exact List.append_ne_nil_of_left_ne_nil (hne _) _
    · exact List.append_ne_nil_of_right_ne_nil _ (second.ne_nil hq)
  | .left first, hp => first.ne_nil (Bool.and_eq_true_iff.mp hp).1
  | .right second, hp => second.ne_nil (Bool.and_eq_true_iff.mp hp).2

/-- A token of these kinds is not empty and has no white space in it. -/
theorem Tree.Fits.visible {t : Tree} (ht : t.Fits) (hrule : t.rule ∈ Rule.visibleTokens) :
    t.text ≠ [] ∧ ∀ c ∈ t.text, isVisible c := by
  have htoken : ∀ r ∈ Rule.visibleTokens, r.kind = .token ∧ r.consumes := by decide
  obtain ⟨hkind, hconsumes⟩ := htoken _ hrule
  obtain ⟨spacing, -, body⟩ := ht
  have hclosed := (Rule.visiblyWritten_closed _ (List.mem_append_left _ hrule)).2
  refine ⟨body.ne_nil (Rule.body_consumes hconsumes), body.visible ?_ hclosed⟩
  rw [Rule.inside, hkind]

/-! ## Trees

What is known of single nodes is put together, and carried to every node of the tree.
-/

/-- A node over a text: it begins and ends between characters, and its children stand in it side
by side. It belongs to a rule that makes nodes where it matches and not only where it is looked
for. If it is a token it has no children, and its text is what tokens of its kind are. -/
structure Tree.Nested (source : String) (t : Tree) : Prop where
  start_valid : (⟨t.start⟩ : String.Pos.Raw).IsValid source
  stop_valid : (⟨t.stop⟩ : String.Pos.Raw).IsValid source
  start_le_stop : t.start ≤ t.stop
  stop_le : t.stop ≤ source.utf8ByteSize
  text : t.StandsIn 0 source.toList
  inside : ∀ u ∈ t.children, t.start ≤ u.start ∧ u.stop ≤ t.stop
  ordered : t.children.Pairwise fun u v => u.stop ≤ v.start
  loud : t.rule.kind ≠ .silent ∧ t.rule.kind ≠ .trivia
  matched : t.rule ∉ Rule.lookedFor
  token : t.rule.kind = .token → t.children = []
  visible : t.rule ∈ Rule.visibleTokens → t.text ≠ [] ∧ ∀ c ∈ t.text, isVisible c

/-- A node that is a reading of its rule and stands in the source is well nested: its children stand
in its text, one after the other. -/
theorem Tree.Fits.nested {source : String} {t : Tree} (ht : t.Fits)
    (hstands : t.StandsIn 0 source.toList) (hrule : t.rule ∉ Rule.lookedFor) :
    t.Nested source := by
  obtain ⟨before, after, htext, hstart⟩ := hstands
  rw [Nat.zero_add] at hstart
  have hstop : t.stop = utf8Length (before ++ t.text) := by
    rw [Tree.stop, hstart, utf8Length_append]
  refine ⟨?_, ?_, Nat.le_add_right _ _, ?_, ⟨before, after, htext, by rw [hstart, Nat.zero_add]⟩,
    fun u hu => ?_, ?_, ?_, hrule, ht.token_children, ht.visible⟩
  · rw [hstart]
    exact isValid_utf8Length (htext.trans (List.append_assoc _ _ _))
  · rw [hstop]
    exact isValid_utf8Length htext
  · have hlength := utf8Length_eq source.toList
    rw [String.ofList_toList, htext, utf8Length_append, ← hstop] at hlength
    omega
  · have hu := ht.standsIn u hu
    exact ⟨hu.start_le, hu.stop_le⟩
  · obtain ⟨spacing, -, body⟩ := ht
    exact body.ordered
  · rcases ht.kind_cases with hk | hk | hk <;> rw [hk] <;> decide

/-- Every node below one that stands in the source is well nested as well, since it stands in the
text of its parent and so in the source. -/
theorem Tree.Derived.nested {source : String} {t : Tree} (ht : t.Derived)
    (hstands : t.StandsIn 0 source.toList) (hrule : t.rule ∉ Rule.lookedFor) :
    t.Everywhere (Tree.Nested source) := by
  induction ht with
  | mk here _ ih =>
    refine .mk (here.nested hstands hrule) fun u hu => ih u hu ?_ (here.child_not_lookedFor u hu)
    exact (here.standsIn u hu).trans hstands

/-- A script is all of its text. Behind its statements it has the end of the input, and a match of
that leaves nothing. -/
theorem parseScript_text {source : String} {trees : List Tree}
    (h : parseScript source = .ok trees) :
    ∃ t, trees = [t] ∧ t.rule = .script ∧ t.start = 0 ∧ t.text = source.toList ∧ t.Derived := by
  rw [parseScript, Rule.parse] at h
  split at h
  · next c trees' seen hrun =>
    obtain rfl := Except.ok.inj h
    obtain ⟨text, hspan, hreads⟩ := Peg.run_finds _ _ _ _ _ rfl _ _ _ hrun
    obtain ⟨-, core, hmatch, -⟩ := (Rule.script.run_tells _ _ _ _).matched hrun
    have hrest : c.rest = [] := by
      obtain ⟨_, hbody, -⟩ := matches_rule_iff.mp hmatch
      obtain ⟨_, _, _, -, hend, -⟩ := matches_seq_iff.mp hbody
      obtain ⟨_, hfinish, -⟩ := matches_rule_iff.mp hend
      exact (matches_finish_iff.mp hfinish).2.1
    have hderived := hreads.derived
    obtain ⟨inner, -, rfl⟩ := reads_rule_iff.mp hreads
    refine ⟨⟨.script, 0, text, inner⟩, rfl, rfl, rfl, ?_, hderived _ List.mem_cons_self⟩
    have hsource := hspan.rest
    rw [hrest, List.append_nil] at hsource
    exact hsource.symm
  · cases h

/-- The last child of a script is the end of its text, an empty node at the end of the source. -/
theorem Tree.Fits.script_end {t : Tree} (ht : t.Fits) (hrule : t.rule = .script) :
    ∃ statements e, t.children = statements ++ [e] ∧ e.rule = .endOfInput ∧
      e.start = t.stop ∧ e.stop = t.stop := by
  obtain ⟨rule, start, text, children⟩ := t
  obtain rfl : rule = .script := hrule
  obtain ⟨spacing, hvisible, body⟩ := ht
  have hend : Rule.endOfInput.visible spacing = true := hvisible
  change (Peg.seq _ (Peg.rule .endOfInput)).Reads spacing start text children at body
  cases body with
  | @seq _ _ _ _ front gap _ statements _ _ _ _ last =>
    obtain ⟨inner, hfinish, hlast⟩ := reads_rule_iff.mp last
    cases hfinish
    rw [Rule.nodes, if_pos hend] at hlast
    refine ⟨statements, _, congrArg (statements ++ ·) hlast, rfl, ?_, ?_⟩
    all_goals simp only [Tree.stop, utf8Length_append, utf8Length_nil]; omega

/-- **The parse tree of a script is well nested over its whole text.** It is one node from the first
byte to the last, the end of the input is its last child, and the spans of all nodes lie at
characters of the text, apart from one another and inside of their parents. -/
theorem parse_nested {source : String} {trees : List Tree} (h : parseScript source = .ok trees) :
    ∃ t, trees = [t] ∧ t.rule = .script ∧ t.start = 0 ∧ t.stop = source.utf8ByteSize ∧
      (∃ statements e, t.children = statements ++ [e] ∧ e.rule = .endOfInput ∧
        e.start = source.utf8ByteSize ∧ e.stop = source.utf8ByteSize) ∧
      t.Everywhere (Tree.Nested source) := by
  obtain ⟨t, rfl, hrule, hstart, htext, hderived⟩ := parseScript_text h
  have hstop : t.stop = source.utf8ByteSize := by
    rw [Tree.stop, hstart, htext, utf8Length_eq, String.ofList_toList, Nat.zero_add]
  have hstands : t.StandsIn 0 source.toList := ⟨[], [], by simp [htext], by rw [hstart]; rfl⟩
  refine ⟨t, rfl, hrule, hstart, hstop, ?_, hderived.nested hstands ?_⟩
  · rw [← hstop]
    exact hderived.here.script_end hrule
  · rw [hrule]
    decide

/-- A text with characters of two and three bytes, in a string and in a comment at its end. -/
theorem parse_nested_wide :
    ∃ t, parseScript "s='√2'//é" = .ok [t] ∧ t.rule = .script ∧ t.start = 0 ∧ t.stop = 12 ∧
      (∃ statements e, t.children = statements ++ [e] ∧ e.rule = .endOfInput ∧
        e.start = 12 ∧ e.stop = 12) ∧
      t.Everywhere (Tree.Nested "s='√2'//é") := by
  have hok : (parseScript "s='√2'//é").isOk = true := by decide +kernel
  cases h : parseScript "s='√2'//é" with
  | error e =>
    rw [h] at hok
    cases hok
  | ok trees =>
    obtain ⟨t, rfl, hnested⟩ := parse_nested h
    exact ⟨t, rfl, hnested⟩

end Scriptlet
