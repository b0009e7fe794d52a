import Scriptlet.Proofs.Grammar.Enclosing
import Scriptlet.Proofs.Program.Grouping
import Scriptlet.Proofs.Program.Range

/-!
# Precedence and associativity

The text of operands with operators between them denotes the one ordered grouping of them, and
assignments in front of it are nested to the right around that (`ofSource_chain`). An operand is a
name or an expression in parentheses, of which nothing else needs to be known.

Each level of the grammar takes as many operands of the level above it as it finds operators of its
own. An ordered grouping is followed down its left side in the same way: the operands that belong to
a level are what stands between its operators (`Grouping.Spine`). Behind a grouping there may be
what no level above would take (`Follow`).

So the induction is on the level, from the one that binds most tightly. At each level an ordered
grouping whose operators belong to this level or above is an operand of the next level with
operators and operands behind it, and each of these operands is a grouping for the next level. This
ties the meaning of precedence, which is given without a grammar, to the levels: nothing is said of
the levels in the theorem.

* `Operand`, `Target`, `Chain.text`: what stands in the text, and how it is written.
* `Rule.level`, `Follow`: the levels, and what may stand behind an expression of one.
* `Grouping.Ordered.spine`, `Grouping.Ordered.reads`: the induction on the level.
* `writeAssignments_denotes`: assignments, by induction on the targets.
-/

namespace Scriptlet

open Peg

/-! ## Operands and targets

An operand in parentheses carries its tree, so that the text in it may be any that is parsed and
lowered.
-/

/-- A name other than `undefined`. -/
structure Identifier where
  name : String
  isName : IsName name
  ne_undefined : name ≠ "undefined"

/-- A text in parentheses that denotes an expression: it is parsed as a whole, and lowered. -/
structure Parenthesized where
  text : List Char
  tree : Tree
  expr : Expr
  parse : Rule.parenthesizedExpression.parse text = .ok [tree]
  whole : tree.text = text
  lower : Expr.ofTree tree = .ok expr

/-- An operand of a chain. -/
inductive Operand where
  | identifier (x : Identifier)
  | parenthesized (p : Parenthesized)

/-- What can be written behind the point of an access. Reserved words can, too. -/
structure PropertyName where
  name : String
  head : ∃ c ∈ name.toList.head?, isIdentStart c
  chars : name.toList.all isIdentChar

/-- The targets of assignments. -/
inductive Target where
  | name (x : Identifier)
  | property (x : Identifier) (key : PropertyName)
  | element (x : Identifier) (key : Operand)

/-- The text of an operand. -/
def Operand.text : Operand → List Char
  | .identifier x => x.name.toList
  | .parenthesized p => p.text

/-- What the operand denotes. -/
def Operand.expr : Operand → Expr
  | .identifier x => .name x.name
  | .parenthesized p => p.expr

/-- The text of a target, without spaces in it. -/
def Target.text : Target → List Char
  | .name x => x.name.toList
  | .property x key => x.name.toList ++ '.' :: key.name.toList
  | .element x key => x.name.toList ++ '[' :: (key.text ++ [']'])

/-- What the target denotes. A property behind a point has a text as its key. -/
def Target.expr : Target → Expr
  | .name x => .name x.name
  | .property x key => .member (.name x.name) (.literal (.string key.name))
  | .element x key => .member (.name x.name) key.expr

/-- The text of a chain, with a space on both sides of every operator. -/
def Chain.text (c : Chain Operand) : List Char :=
  c.first.text ++ c.rest.flatMap fun step => ' ' :: (step.1.token.toList ++ ' ' :: step.2.text)

/-- Assignments of a value, with a space on both sides of every operator. -/
def writeAssignments (targets : List Target) (value : List Char) : List Char :=
  targets.foldr (fun target value => target.text ++ ' ' :: '=' :: ' ' :: value) value

/-- The expression that a grouping stands for. -/
def Grouping.expr : Grouping Operand → Expr
  | .operand x => x.expr
  | .node op left right => .binary op left.expr right.expr

theorem Grouping.text_operand (x : Operand) : (Grouping.operand x).chain.text = x.text :=
  List.append_nil _

/-- An operator with two operands is written with its token between their texts. -/
theorem Grouping.text_node (op : BinaryOp) (left right : Grouping Operand) :
    (Grouping.node op left right).chain.text =
      left.chain.text ++ ' ' :: (op.token.toList ++ ' ' :: right.chain.text) := by
  simp [Chain.text, Grouping.chain]

/-! ## Operands where they stand

An operand is matched in front of whatever the chain goes on with. For parentheses this is not
trivial, as the text in them could be read on beyond the closing one.
-/

/-- The node of a rule has the text that the rule matches. -/
theorem Rule.matches_of_parse_node {r : Rule} (hr : r.visible .skipped) {source : List Char}
    {t : Tree} (h : r.parse source = .ok [t]) :
    ∃ s', (rule r).Matches .skipped source s' [t.core] ∧ source = t.text ++ s' := by
  rw [Rule.parse] at h
  split at h
  · next c trees seen hrun =>
    obtain rfl := Except.ok.inj h
    obtain ⟨text, hspan, hreads⟩ := Peg.run_finds _ _ _ _ _ rfl _ _ _ hrun
    obtain ⟨-, core, hcore, hmade⟩ := (r.run_tells _ _ _ _).matched hrun
    obtain ⟨inner, -, hnodes⟩ := reads_rule_iff.mp hreads
    have hnodes : [t] = if r.visible .skipped then [⟨r, 0, text, inner⟩] else inner := hnodes
    rw [if_pos hr] at hnodes
    obtain rfl := (List.cons.inj hnodes).1
    rw [← hmade rfl] at hcore
    exact ⟨c.rest, hcore, hspan.rest⟩
  · cases h

/-- The texts in parentheses are those that the rule matches as a whole. -/
theorem exists_parenthesized_iff {text : List Char} {e : Expr} :
    (∃ p : Parenthesized, p.text = text ∧ p.expr = e) ↔
      Rule.parenthesizedExpression.Denotes text [] e := by
  refine ⟨?_, fun ⟨t, hmatch, ht⟩ => ?_⟩
  · rintro ⟨p, rfl, rfl⟩
    obtain ⟨s', hmatch, htext⟩ := Rule.matches_of_parse_node rfl p.parse
    have hbare := (Rule.parse_derived p.parse _ List.mem_cons_self).bare
    rw [p.whole, List.self_eq_append_right] at htext
    rw [htext] at hmatch
    exact ⟨_, hmatch, hbare.here.expr.ok_iff.mpr p.lower⟩
  · obtain ⟨trees, hparse, hcore⟩ := Rule.parse_of_matches hmatch
    obtain ⟨t', rfl, rfl⟩ := List.map_eq_singleton_iff.mp (Tree.coreAll_eq trees ▸ hcore)
    obtain ⟨s', hmatch', htext⟩ := Rule.matches_of_parse_node rfl hparse
    obtain ⟨rfl, -⟩ := hmatch'.unique hmatch
    have hbare := (Rule.parse_derived hparse _ List.mem_cons_self).bare
    refine ⟨⟨text, t', e, hparse, ?_, hbare.here.expr.ok_iff.mp ht⟩, rfl, rfl⟩
    rw [List.append_nil] at htext
    exact htext.symm

/-- A text in parentheses denotes its expression, whatever stands behind it. It was parsed alone,
and is read alike in front of anything. -/
theorem Parenthesized.denotes (p : Parenthesized) (more : List Char) :
    Rule.parenthesizedExpression.Denotes (p.text ++ more) more p.expr := by
  obtain ⟨t, hmatch, ht⟩ := exists_parenthesized_iff.mp ⟨p, rfl, rfl⟩
  rw [← List.append_nil p.text] at hmatch
  exact ⟨t, hmatch.parenthesized_append more, ht⟩

theorem Parenthesized.at (p : Parenthesized) (more : List Char) :
    At (p.text ++ more) (.fixed ['(']) := by
  obtain ⟨t, hmatch, -⟩ := p.denotes more
  obtain ⟨_, hbody, -⟩ := matches_rule_iff.mp hmatch
  obtain ⟨_, _, _, hinner, -⟩ := matches_seq_iff.mp hbody
  obtain ⟨s, _, _, hopen, -⟩ := matches_seq_iff.mp hinner
  rw [(matches_word_iff.mp hopen).1]
  exact .lone (by decide) s

/-- The kinds of the places where operands stand. -/
def Operand.kinds : List Kind := [.name, .fixed ['(']]

section

variable {z : List Char} (hz : ∀ c ∈ z.head?, isIdentChar c = false)
include hz

/-- An operand begins with a name or a parenthesis. -/
theorem Operand.at (x : Operand) : ∃ k ∈ Operand.kinds, At (x.text ++ z) k := by
  cases x with
  | identifier x => exact ⟨.name, by decide, x.isName.at hz⟩
  | parenthesized p => exact ⟨.fixed ['('], by decide, p.at z⟩

theorem Operand.primary (x : Operand) :
    Rule.primaryExpression.Denotes (x.text ++ z) z x.expr := by
  cases x with
  | identifier x =>
    refine ⟨nameNode x.name, (matches_silent_iff rfl).mpr ?_, ?_⟩
    · exact .picked (x.isName.at hz) (by decide) (x.isName.matches hz)
    · change (.ok (Expr.ofName (nameNode x.name).string) : Except ProgramError Expr) = _
      rw [string_nameNode, Expr.ofName, if_neg x.ne_undefined]
      rfl
  | parenthesized p =>
    obtain ⟨t, hmatch, ht⟩ := p.denotes z
    exact ⟨t, (matches_silent_iff rfl).mpr (.picked (p.at z) (by decide) hmatch), ht⟩

end

/-! ## Levels

The levels are numbered by the precedence of their operators. What is computed here is all that the
proof uses of the grammar: which levels there are, and that each of them stops where it should.
-/

/-- The levels of the grammar that take operators of the language, the one that binds least
tightly first, and the level of their operands. -/
def Rule.level : Nat → Rule
  | 0 => .equalityExpression
  | 1 => .relationalExpression
  | 2 => .additiveExpression
  | _ => .multiplicativeExpression

/-- The operators of a level. -/
def Rule.levelOperator : Nat → Rule
  | 0 => .equalityOperator
  | 1 => .relationalOperator
  | _ => .additiveOperator

/-- The kinds of the places behind an expression of the level `k`: the end of the text or of an
access, or an operator that binds less tightly. -/
def followers (k : Nat) : List Kind :=
  [.finish, .fixed [']']] ++
    ([BinaryOp.add, .subtract, .lessThan, .looseEquals, .strictEquals].filter
      (·.precedence < k)).map fun op => .fixed op.token.toList

/-- Behind an expression of the level `k` there may be `z`: it does not go on with a word, and
behind the trivia stands something that no level from `k` on takes. -/
structure Follow (k : Nat) (z : List Char) : Prop where
  bound : ∀ c ∈ z.head?, isIdentChar c = false
  place : ∃ f ∈ followers k, At (dropTrivia z) f

/-- An operator that binds less tightly than a level is among what may follow an expression of that
level. -/
theorem mem_followers {k : Nat} {op : BinaryOp} (h : op.precedence < k) :
    .fixed op.token.toList ∈ followers k := by
  refine List.mem_append_right _ (List.mem_map.mpr ⟨op, List.mem_filter.mpr ⟨?_, ?_⟩, rfl⟩)
  · cases op <;> decide
  · exact decide_eq_true h

theorem followers_mono {k m : Nat} (h : k ≤ m) {f : Kind} (hf : f ∈ followers k) :
    f ∈ followers m := by
  rcases List.mem_append.mp hf with hf | hf
  · exact List.mem_append_left _ hf
  · obtain ⟨op, hop, rfl⟩ := List.mem_map.mp hf
    exact mem_followers (Nat.lt_of_lt_of_le (of_decide_eq_true (List.mem_filter.mp hop).2) h)

/-- What may follow an expression may follow its last operand, which is of a higher level. -/
theorem Follow.mono {k m : Nat} {z : List Char} (hz : Follow k z) (h : k ≤ m) : Follow m z := by
  obtain ⟨f, hf, hat⟩ := hz.place
  exact ⟨hz.bound, f, followers_mono h hf, hat⟩

theorem BinaryOp.operator_eq {op : BinaryOp} :
    op.operator = Rule.levelOperator op.precedence := by cases op <;> rfl

theorem BinaryOp.precedence_lt (op : BinaryOp) : op.precedence < 3 := by cases op <;> decide

/-- A level is a chain of expressions of the next one, and is lowered as chains are. -/
theorem Rule.level_chain {k : Nat} (hk : k < 3) :
    (level k).body = chain (level (k + 1)) (levelOperator k) ∧ (level k).kind = .plain ∧
      ∀ first steps, Expr.ofTree ⟨level k, 0, [], first :: steps⟩ =
        Expr.ofTree first >>= fun e => Expr.ofChain ⟨level k, 0, [], first :: steps⟩ e steps := by
  obtain rfl | rfl | rfl : k = 0 ∨ k = 1 ∨ k = 2 := by omega
  all_goals exact ⟨rfl, rfl, fun _ _ => rfl⟩

/-- No operator of a level stands behind an expression of it. -/
theorem Rule.level_stops : ∀ k < 3, (rule (levelOperator k) ++ rule (level (k + 1))).solid ∧
    ∀ f ∈ followers k, f ∉ (rule (levelOperator k) ++ rule (level (k + 1))).begins := by
  decide +kernel

/-- Neither calls and accesses nor the operators that change a variable stand behind an operand
or a target. -/
theorem suffix_stops : ∀ f ∈ .fixed ['='] :: followers 3,
    f ∉ Peg.suffix.begins ∧ f ∉ (rule .updateOperator).begins := by
  decide +kernel

/-- An operand is passed on through the levels above those with operators, whatever may follow it
there. -/
theorem Rule.operand_passes : ∀ k ∈ Operand.kinds, ∀ f ∈ followers 3,
    Rule.passesWithin k f .postfixExpression 16 (.level 3) := by
  decide +kernel

/-- A chain is passed on through the levels below those with operators, whatever may follow the
whole of it. -/
theorem Rule.chain_passes : ∀ k ∈ Operand.kinds, ∀ f ∈ followers 0,
    Rule.passesWithin k f (.level 0) 16 .expression ∧
      Rule.passesWithin k f (.level 0) 16 .assignmentExpression := by
  decide +kernel

/-- A target in front of an equals sign is passed on through all levels below the assignment. -/
theorem Rule.target_passes :
    Rule.passesWithin .name (.fixed ['=']) .postfixExpression 16 .conditionalExpression := by
  decide +kernel

/-- An assignment at the end of the text is passed on as an expression. -/
theorem Rule.assignment_passes : ∀ k ∈ .number :: Operand.kinds,
    Rule.passesWithin k .finish .assignmentExpression 16 .expression := by
  decide +kernel

/-! ## Groupings where they stand

The induction. A grouping is read at a level if its text denotes its expression there, in front of
whatever may follow the level.
-/

/-- An expression that no operator changes. What is behind it is skipped. -/
theorem Rule.Denotes.postfixExpression {s u : List Char} {e : Expr} {f : Kind}
    (h : Rule.leftHandSideExpression.Denotes s u e) (hu : At (dropTrivia u) f)
    (hf : f ∈ .fixed ['='] :: followers 3) :
    Rule.postfixExpression.Denotes s (dropTrivia u) e := by
  obtain ⟨t, hmatch, ht⟩ := h
  have hnone : (optional (rule .updateOperator)).Matches .skipped (dropTrivia u) (dropTrivia u)
      [] := .absent (hu.fails (by decide) (suffix_stops f hf).2)
  refine ⟨_, matches_node (r := .postfixExpression) rfl (hmatch.andThen rfl hnone), ?_⟩
  exact (Expr.ofTree_passing (by decide) 0 [] t).trans ht

/-- An operand is an expression that no operator changes. -/
theorem Operand.postfixExpression (x : Operand) {z : List Char}
    (hz : ∀ c ∈ z.head?, isIdentChar c = false) {f : Kind} (hat : At (dropTrivia z) f)
    (hf : f ∈ .fixed ['='] :: followers 3) :
    Rule.postfixExpression.Denotes (x.text ++ z) (dropTrivia z) x.expr := by
  obtain ⟨t, hmatch, ht⟩ := x.primary hz
  have hnone : (many Peg.suffix).Matches .skipped (dropTrivia z) (dropTrivia z) [] :=
    .never (hat.fails (by decide) (suffix_stops f hf).1)
  have hdenotes : Rule.leftHandSideExpression.Denotes (x.text ++ z) (dropTrivia z) x.expr :=
    ⟨_, matches_node rfl (hmatch.andThen rfl hnone),
      (Expr.ofTree_passing (by decide) 0 [] t).trans ht⟩
  rw [← dropTrivia_dropTrivia] at hat ⊢
  exact hdenotes.postfixExpression hat hf

/-- A chain begins with an operand, and stands where one does. -/
theorem Chain.at (c : Chain Operand) {z : List Char} (hz : ∀ c ∈ z.head?, isIdentChar c = false) :
    ∃ k ∈ Operand.kinds, At (c.text ++ z) k := by
  rw [Chain.text, List.append_assoc]
  refine c.first.at ?_
  cases c.rest with
  | nil => exact hz
  | cons step rest =>
    rintro _ ⟨⟩
    decide

namespace Grouping

/-- The operator that is applied last binds tightly enough for the level `k`. -/
def Above (k : Nat) (T : Grouping Operand) : Prop := ∀ o ∈ T.top?, k ≤ o.precedence

/-- The text of the grouping denotes its expression on the level `k`, whatever may follow. -/
def Reads (k : Nat) (T : Grouping Operand) : Prop :=
  ∀ z, Follow k z → (Rule.level k).Denotes (T.chain.text ++ z) (dropTrivia z) T.expr

/-- What a level repeats. -/
def step (k : Nat) : Peg := rule (.levelOperator k) ++ rule (.level (k + 1))

/-- In front of `z`, and of the operators and operands from there to `s'`, the text of the grouping
is an operand of the level `k` with operators and operands behind it, which are folded to the
expression of the grouping. What comes behind the grouping is part of the statement, since the left
operand of an operator has that operator behind it. -/
def Spine (k : Nat) (T : Grouping Operand) (z s' : List Char) (more : List Tree) : Prop :=
  ∃ s₁ first steps, (rule (.level (k + 1))).Matches .skipped (T.chain.text ++ z) s₁ [first] ∧
    dropTrivia s₁ = s₁ ∧ (step k).Iterates .skipped s₁ s' steps ∧
      ∀ self, (Expr.ofTree first >>= fun e => Expr.ofChain self e steps) =
        Expr.ofChain self T.expr more

variable {k : Nat} {T : Grouping Operand} {z s' : List Char} {more : List Tree}

/-- An expression of the next level is one operand. -/
theorem Reads.spine (h : T.Reads (k + 1)) (hz : Follow (k + 1) z)
    (hmore : (step k).Iterates .skipped (dropTrivia z) s' more) : T.Spine k z s' more := by
  obtain ⟨t, hmatch, ht⟩ := h z hz
  refine ⟨_, t, more, hmatch, dropTrivia_dropTrivia z, hmore, fun self => ?_⟩
  rw [ht]
  rfl

/-- An operator and an operand, as one more step of a level. -/
theorem Reads.step {op : BinaryOp} (h : T.Reads (op.precedence + 1))
    (hz : Follow (op.precedence + 1) z)
    (hmore : (Grouping.step op.precedence).Iterates .skipped (dropTrivia z) s' more) :
    ∃ t, (Grouping.step op.precedence).Iterates .skipped
        (op.token.toList ++ ' ' :: (T.chain.text ++ z)) s' (op.node :: t :: more) ∧
      Expr.ofTree t = .ok T.expr := by
  obtain ⟨t, hmatch, ht⟩ := h z hz
  obtain ⟨_, -, hat⟩ := T.chain.at hz.bound
  have hoperator := op.matches_token (.inr rfl) (T.chain.text ++ z)
  rw [BinaryOp.operator_eq] at hoperator
  have hskip : dropTrivia (' ' :: (T.chain.text ++ z)) = T.chain.text ++ z :=
    (dropTrivia_blank (by decide) _).trans hat.skip
  have hstep := hoperator.andThen hskip hmatch
  rw [← (op.at_token (.inr rfl) (T.chain.text ++ z)).skip] at hstep
  exact ⟨t, .step hstep hmore, ht⟩

/-- **A grouping is followed down its left side.** The induction is on the grouping: its left
operand is of the same level or above, and its right operand above. -/
theorem Ordered.spine
    (hreads : ∀ T : Grouping Operand, T.Ordered → T.Above (k + 1) → T.Reads (k + 1))
    (hT : T.Ordered) (htop : T.Above k) (hz : Follow (k + 1) z)
    (hmore : (step k).Iterates .skipped (dropTrivia z) s' more) : T.Spine k z s' more := by
  induction hT generalizing z more with
  | operand x => exact (hreads _ (.operand x) nofun).spine hz hmore
  | @node op left right hleft hright hle hlt ihleft _ =>
    by_cases hop : op.precedence = k
    · subst hop
      obtain ⟨t, hstep, ht⟩ := (hreads right hright hlt).step hz hmore
      have hoperator := op.at_token (.inr rfl) (right.chain.text ++ z)
      have hskip : dropTrivia (' ' :: (op.token.toList ++ ' ' :: (right.chain.text ++ z))) =
          op.token.toList ++ ' ' :: (right.chain.text ++ z) :=
        (dropTrivia_blank (by decide) _).trans hoperator.skip
      have hfollow : Follow (op.precedence + 1)
          (' ' :: (op.token.toList ++ ' ' :: (right.chain.text ++ z))) := by
        refine ⟨?_, _, mem_followers (Nat.lt_succ_self _), hskip.symm ▸ hoperator⟩
        rintro _ ⟨⟩
        rfl
      obtain ⟨s₁, first, steps, hfirst, hs₁, hsteps, hlower⟩ :=
        ihleft hle hfollow (hskip.symm ▸ hstep)
      refine ⟨s₁, first, steps, ?_, hs₁, hsteps, fun self => ?_⟩
      · rw [text_node]
        simpa using hfirst
      · rw [hlower, Expr.ofChain, op.ofTree_node, ht]
        rfl
    · have habove : (Grouping.node op left right).Above (k + 1) := by
        rintro _ ⟨⟩
        exact Nat.lt_of_le_of_ne (htop op rfl) (Ne.symm hop)
      exact (hreads _ (.node hleft hright hle hlt) habove).spine hz hmore

/-- A level that takes operators reads what the next one reads and its own operators between. -/
theorem Ordered.reads_of_next (hk : k < 3)
    (hreads : ∀ T : Grouping Operand, T.Ordered → T.Above (k + 1) → T.Reads (k + 1))
    (hT : T.Ordered) (htop : T.Above k) : T.Reads k := by
  intro z hz
  obtain ⟨f, hf, hat⟩ := hz.place
  obtain ⟨hsolid, hstops⟩ := Rule.level_stops k hk
  have hstop : (step k).Iterates .skipped (dropTrivia z) (dropTrivia z) [] := by
    refine .stop ?_
    rw [Spacing.skip, hat.skip]
    exact hat.fails hsolid (hstops f hf)
  obtain ⟨s₁, first, steps, hfirst, hs₁, hsteps, hlower⟩ :=
    hT.spine hreads htop (hz.mono (Nat.le_succ k)) hstop
  obtain ⟨hbody, hkind, hchain⟩ := Rule.level_chain hk
  have hmatch : (Rule.level k).body.Matches .skipped (T.chain.text ++ z) (dropTrivia z)
      (first :: steps) := by
    rw [hbody]
    exact hfirst.andThen hs₁ (hsteps.many_of_skip hs₁)
  refine ⟨_, matches_node hkind hmatch, ?_⟩
  rw [hchain, hlower, Expr.ofChain]
  rfl

/-- **An ordered grouping is read on the levels of its operators and below.** By induction from the
highest level downwards. -/
theorem Ordered.reads (hk : k ≤ 3) (hT : T.Ordered) (htop : T.Above k) : T.Reads k := by
  induction hk using Nat.decreasingInduction generalizing T with
  | self =>
    cases hT with
    | operand x =>
      intro z hz
      obtain ⟨f, hf, hat⟩ := hz.place
      obtain ⟨b, hb, hbegin⟩ := x.at hz.bound
      have hdenotes := x.postfixExpression hz.bound hat (List.mem_cons_of_mem _ hf)
      rw [text_operand]
      exact hdenotes.of_passesWithin hbegin hat (Rule.operand_passes b hb f hf)
    | @node op _ _ _ _ _ _ => exact absurd (htop op rfl) (Nat.not_le.mpr op.precedence_lt)
  | of_succ k hk ih => exact hT.reads_of_next hk (fun T hT htop => ih hT htop) htop

end Grouping

/-- A chain in front of the end of the text or of an access. -/
theorem Grouping.Ordered.denotes {T : Grouping Operand} (hT : T.Ordered) {z : List Char}
    (hz : Follow 0 z) :
    Rule.expression.Denotes (T.chain.text ++ z) (dropTrivia z) T.expr ∧
      Rule.assignmentExpression.Denotes (T.chain.text ++ z) (dropTrivia z) T.expr := by
  obtain ⟨f, hf, hat⟩ := hz.place
  obtain ⟨k, hk, hbegin⟩ := T.chain.at hz.bound
  have hdenotes := hT.reads (Nat.zero_le 3) (fun _ _ => Nat.zero_le _) z hz
  obtain ⟨hexpression, hassignment⟩ := Rule.chain_passes k hk f hf
  exact ⟨hdenotes.of_passesWithin hbegin hat hexpression,
    hdenotes.of_passesWithin hbegin hat hassignment⟩

/-! ## Assignments

Targets are matched at a level above the operators, and an assignment takes everything behind its
operator as its value.
-/

/-- An operand as the key of an access, between brackets. -/
theorem Operand.key (x : Operand) (z : List Char) :
    dropTrivia (x.text ++ ']' :: z) = x.text ++ ']' :: z ∧
      Rule.expression.Denotes (x.text ++ ']' :: z) (']' :: z) x.expr := by
  have hclose := At.lone (c := ']') (by decide) z
  have hfollow : Follow 0 (']' :: z) := by
    refine ⟨?_, .fixed [']'], by decide, hclose.skip.symm ▸ hclose⟩
    rintro _ ⟨⟩
    rfl
  obtain ⟨k, -, hat⟩ := x.at hfollow.bound
  have hdenotes := ((Grouping.Ordered.operand x).denotes hfollow).1
  rw [hclose.skip, Grouping.text_operand] at hdenotes
  exact ⟨hat.skip, hdenotes⟩

/-- A point and a name are an access. -/
theorem PropertyName.access (key : PropertyName) {z : List Char}
    (hz : ∀ c ∈ z.head?, isIdentChar c = false) (base : Expr) :
    ∃ t, Peg.suffix.Matches .skipped ('.' :: (key.name.toList ++ z)) z [t] ∧
      Expr.ofSuffixes base [t] = .ok (.member base (.literal (.string key.name))) := by
  have hhead : ∃ c ∈ (key.name.toList ++ z).head?, isIdentStart c := by
    obtain ⟨c, hc, hstart⟩ := key.head
    exact ⟨c, List.mem_head?_append_of_mem_head? hc, hstart⟩
  have hname : (rule .identifierName).Matches .skipped (key.name.toList ++ z) z
      [⟨.identifierName, 0, key.name.toList, []⟩] := by
    refine matches_identifierName_iff.mpr
      ⟨hhead, ((eq_append_iff_takeWhile key.chars).mp ⟨rfl, hz⟩).2, ?_⟩
    change _ = [(⟨.identifierName, 0, textBetween (key.name.toList ++ z) z, []⟩ : Tree)]
    rw [textBetween_self_append]
  have haccess : (rule .propertyAccess).Matches .skipped ('.' :: (key.name.toList ++ z)) z
      [⟨.propertyAccess, 0, [], [⟨.identifierName, 0, key.name.toList, []⟩]⟩] :=
    matches_node rfl (Matches.andThen (.word rfl) (dropTrivia_of_isIdentStart hhead) hname)
  have harguments : (rule .arguments).Fails .skipped ('.' :: (key.name.toList ++ z)) :=
    .rule (.first (.first (.word (by rintro _ ⟨⟩))))
  refine ⟨_, .right harguments (.left haccess), ?_⟩
  change (.ok (Expr.member base (.literal (.string (String.ofList key.name.toList)))) :
    Except ProgramError Expr) = _
  rw [String.ofList_toList]

section

variable (u : List Char)

theorem At.equals : At ('=' :: ' ' :: u) (.fixed ['=']) := ⟨dropTrivia_cons rfl (by decide) _, rfl⟩

theorem dropTrivia_equals : dropTrivia (' ' :: '=' :: ' ' :: u) = '=' :: ' ' :: u :=
  (dropTrivia_blank (by decide) _).trans (At.equals u).skip

/-- What a target denotes may be assigned to. -/
theorem Target.isTarget (t : Target) : t.expr.isTarget := by cases t <;> rfl

/-- A target begins with a name, and stands where one does. -/
theorem Target.at (t : Target) : At (t.text ++ ' ' :: '=' :: ' ' :: u) .name := by
  have hname : ∀ (x : Identifier) {c : Char} (more : List Char), isIdentChar c = false →
      At (x.name.toList ++ c :: more) .name := by
    intro x c more hc
    refine x.isName.at ?_
    rintro _ ⟨⟩
    exact hc
  cases t with
  | name x => exact hname x _ rfl
  | property x key | element x key =>
    rw [Target.text, List.append_assoc]
    exact hname x _ rfl

/-- A name with an access behind it, in front of the operator of assignment. -/
theorem Identifier.access (x : Identifier) {c : Char} (hc : c = '.' ∨ c = '[') {s : List Char}
    {t : Tree} {e : Expr}
    (haccess : Peg.suffix.Matches .skipped (c :: s) (' ' :: '=' :: ' ' :: u) [t])
    (hlower : Expr.ofSuffixes (.name x.name) [t] = .ok e) :
    Rule.postfixExpression.Denotes (x.name.toList ++ c :: s) ('=' :: ' ' :: u) e := by
  have hequals := At.equals u
  have hbound : ∀ d ∈ (c :: s).head?, isIdentChar d = false := by
    rintro _ ⟨⟩
    rcases hc with rfl | rfl <;> rfl
  have hskip : dropTrivia (c :: s) = c :: s := by
    rcases hc with rfl | rfl <;> exact dropTrivia_cons (by decide) (by decide) s
  have hend : Peg.suffix.Fails .skipped (dropTrivia (' ' :: '=' :: ' ' :: u)) := by
    rw [dropTrivia_equals]
    exact hequals.fails (by decide) (suffix_stops _ List.mem_cons_self).1
  have hdenotes := ((Operand.identifier x).primary hbound).suffix hskip haccess hlower hend
  rw [← dropTrivia_equals] at hequals ⊢
  exact hdenotes.postfixExpression hequals List.mem_cons_self

/-- **A target is matched in front of the operator of assignment**, as a conditional expression and
up to the operator, and denotes the expression of the target. -/
theorem Target.denotes (t : Target) :
    Rule.conditionalExpression.Denotes (t.text ++ ' ' :: '=' :: ' ' :: u) ('=' :: ' ' :: u)
      t.expr := by
  have hequals := At.equals u
  have hbound : ∀ c ∈ (' ' :: '=' :: ' ' :: u).head?, isIdentChar c = false := by
    rintro _ ⟨⟩
    rfl
  have hpostfix : Rule.postfixExpression.Denotes (t.text ++ ' ' :: '=' :: ' ' :: u)
      ('=' :: ' ' :: u) t.expr := by
    cases t with
    | name x =>
      have hdenotes := (Operand.identifier x).postfixExpression hbound
        ((dropTrivia_equals u).symm ▸ hequals) List.mem_cons_self
      rwa [dropTrivia_equals] at hdenotes
    | property x key =>
      obtain ⟨t, haccess, hlower⟩ := key.access hbound (.name x.name)
      rw [Target.text, List.append_assoc]
      exact x.access u (.inl rfl) haccess hlower
    | element x key =>
      obtain ⟨hskip, hkey⟩ := key.key (' ' :: '=' :: ' ' :: u)
      obtain ⟨t, haccess, hlower⟩ := hkey.elementAccess hskip (.name x.name)
      have hdenotes := x.access u (.inr rfl) haccess hlower
      rw [Target.text, List.append_assoc, List.cons_append, List.append_assoc]
      exact hdenotes
  exact hpostfix.of_passesWithin (t.at u) hequals Rule.target_passes

end

/-- Assignments of a value, nested to the right. -/
def Expr.assignAll (targets : List Target) (value : Expr) : Expr :=
  targets.foldr (fun target value => .assign target.expr value) value

/-- **Assignments denote nested ones**, down to the value, by induction on the targets. -/
theorem writeAssignments_denotes {value : List Char} {e : Expr}
    (hat : ∃ k ∈ Operand.kinds, At value k) (h : Rule.assignmentExpression.Denotes value [] e)
    (targets : List Target) :
    (∃ k ∈ Operand.kinds, At (writeAssignments targets value) k) ∧
      Rule.assignmentExpression.Denotes (writeAssignments targets value) []
        (Expr.assignAll targets e) := by
  induction targets with
  | nil => exact ⟨hat, h⟩
  | cons t targets ih =>
    obtain ⟨⟨k, hk, hrest⟩, hdenotes⟩ := ih
    have hskip : dropTrivia (' ' :: writeAssignments targets value) =
        writeAssignments targets value := (dropTrivia_blank (by decide) _).trans hrest.skip
    rw [← hskip] at hdenotes
    exact ⟨⟨.name, by decide, t.at _⟩, (t.denotes _).assign t.isTarget (.inr rfl) hdenotes⟩

/-! ## Sources

An expression that begins with a name, a number or a parenthesis is a statement, and a statement up
to the end of the text is a program.
-/

/-- An expression up to the end of a text is a program of one statement, if it begins as an operand
or a number does. -/
theorem Program.ofSource_of_at {source : List Char} {e : Expr} {k : Kind}
    (hk : k ∈ .number :: Operand.kinds) (hat : At source k)
    (h : Rule.assignmentExpression.Denotes source [] e) :
    Program.ofSource (String.ofList source) = .ok [.expr e] := by
  have hend : At [] .finish := ⟨dropTrivia_nil, rfl⟩
  obtain ⟨t, hmatch, ht⟩ := h.of_passesWithin hat hend (Rule.assignment_passes k hk)
  have hkinds : ∀ k ∈ .number :: Operand.kinds,
      (k ≠ .fixed ['\x7b'] ∧ k ≠ .fixed "function".toList) ∧
        Rule.statement.body.picks k .expressionStatement := by decide +kernel
  obtain ⟨hfree, hpicks⟩ := hkinds k hk
  have hguard : (notAhead (lit "\x7b" <|> rule .functionWord)).Matches .skipped source source [] :=
    .notAhead (fails_braceOrFunction_iff.mpr (hat.kind.symm ▸ hfree))
  have hnone : (optional (lit ";")).Matches .skipped [] [] [] :=
    .absent (hend.fails (by decide) (by decide))
  have hstatement : (rule .statement).Matches .skipped source []
      [⟨.expressionStatement, 0, [], [t]⟩] := by
    refine (matches_silent_iff rfl).mpr (.picked hat hpicks (matches_node rfl ?_))
    exact (hguard.andThen hat.skip hmatch).andThen hend.skip hnone
  have hiterates : (rule .statement).Iterates .skipped source []
      [⟨.expressionStatement, 0, [], [t]⟩] := by
    rw [← hat.skip] at hstatement
    refine .step hstatement (.stop ?_)
    rw [Spacing.skip, dropTrivia_nil]
    exact hend.refused (by decide)
  have hlower : Stmt.ofTrees false [⟨.expressionStatement, 0, [], [t]⟩] = .ok [.expr e] := by
    have hrule : Rule.expressionStatement ≠ .endOfInput := by decide
    rw [Stmt.ofTrees, if_neg hrule]
    change (Expr.ofTree t >>= fun e => .ok (some (Stmt.expr e))) >>= _ = _
    rw [ht]
    rfl
  rw [← String.toList_ofList (l := source)] at hiterates
  exact Program.ofSource_of_statements hiterates dropTrivia_nil hlower

/-- An expression that is denoted from the beginning of the text to its end, and begins as an
operand does, is a script of its own. -/
theorem Program.ofSource_expr {source : List Char} {e : Expr}
    (hat : ∃ k ∈ Operand.kinds, At source k) (h : Rule.assignmentExpression.Denotes source [] e) :
    Program.ofSource (String.ofList source) = .ok [.expr e] := by
  obtain ⟨k, hk, hat⟩ := hat
  exact Program.ofSource_of_at (List.mem_cons_of_mem _ hk) hat h

/-- **Operators group by precedence, and to the left; assignments group to the right.** A chain of
operands has exactly one ordered grouping. The text of the chain denotes it, and assignments in
front of the chain denote assignments that are nested to the right around it. -/
theorem ofSource_chain (c : Chain Operand) :
    ∃ T : Grouping Operand, T.Ordered ∧ T.chain = c ∧
      (∀ U : Grouping Operand, U.Ordered → U.chain = c → U = T) ∧
      Program.ofSource (String.ofList c.text) = .ok [.expr T.expr] ∧
      ∀ targets, Program.ofSource (String.ofList (writeAssignments targets c.text)) =
        .ok [.expr (Expr.assignAll targets T.expr)] := by
  obtain ⟨T, ⟨hT, rfl⟩, hunique⟩ := Grouping.existsUnique_ordered c
  have hfollow : Follow 0 [] :=
    ⟨nofun, .finish, by decide, dropTrivia_nil.symm ▸ ⟨dropTrivia_nil, rfl⟩⟩
  have hat := T.chain.at hfollow.bound
  have hdenotes := (hT.denotes hfollow).2
  rw [List.append_nil] at hat
  rw [List.append_nil, dropTrivia_nil] at hdenotes
  refine ⟨T, hT, rfl, fun U hU hchain => hunique U ⟨hU, hchain⟩, ?_, fun targets => ?_⟩
  · exact Program.ofSource_expr hat hdenotes
  · obtain ⟨hat, hdenotes⟩ := writeAssignments_denotes hat hdenotes targets
    exact Program.ofSource_expr hat hdenotes

/-- The operators of three levels, an operand in parentheses and an assignment to a property whose
name is reserved. -/
theorem ofSource_chain_mixed :
    Program.ofSource "x.if = a - (b) - c < d + a === c == d" =
      .ok [.expr (.assign (.member (.name "x") (.literal (.string "if")))
        (.binary .looseEquals (.binary .strictEquals (.binary .lessThan
          (.binary .subtract (.binary .subtract (.name "a") (.name "b")) (.name "c"))
          (.binary .add (.name "d") (.name "a"))) (.name "c")) (.name "d")))] := by
  have hb : IsName "b" := ⟨⟨'b', rfl, by decide⟩, by decide, by decide⟩
  have hwritten : (Expr.name "b").Written "b)".toList [')'] :=
    .of_denotes ⟨_, hb.matches (isIdentChar_close []), rfl⟩ (hb.at (isIdentChar_close []))
      (by decide)
  -- the operand in parentheses, with its text and its value
  obtain ⟨p, hp, hvalue⟩ := exists_parenthesized_iff.mpr hwritten.parenthesized
  let a : Operand := .identifier ⟨"a", ⟨⟨'a', rfl, by decide⟩, by decide, by decide⟩, by decide⟩
  let c : Operand := .identifier ⟨"c", ⟨⟨'c', rfl, by decide⟩, by decide, by decide⟩, by decide⟩
  let d : Operand := .identifier ⟨"d", ⟨⟨'d', rfl, by decide⟩, by decide, by decide⟩, by decide⟩
  let difference : Grouping Operand :=
    .node .subtract (.node .subtract (.operand a) (.operand (.parenthesized p))) (.operand c)
  let sum : Grouping Operand := .node .add (.operand d) (.operand a)
  let U : Grouping Operand := .node .looseEquals
    (.node .strictEquals (.node .lessThan difference sum) (.operand c)) (.operand d)
  have hU : U.Ordered := by
    repeat' apply Grouping.Ordered.node
    all_goals first | exact .operand _ | (rintro _ ⟨⟩ <;> decide)
  have htext : U.chain.text = "a - (b) - c < d + a === c == d".toList := by
    simp only [U, difference, sum, Grouping.text_node, Grouping.text_operand,
      Operand.text.eq_2, hp]
    rfl
  have hexpr : U.expr = .binary .looseEquals (.binary .strictEquals (.binary .lessThan
      (.binary .subtract (.binary .subtract (.name "a") p.expr) (.name "c"))
      (.binary .add (.name "d") (.name "a"))) (.name "c")) (.name "d") := rfl
  -- the grouping is the only ordered one, so it is the one that is read
  obtain ⟨T, -, -, hunique, -, hassign⟩ := ofSource_chain U.chain
  obtain rfl := hunique U hU rfl
  let x : Identifier := ⟨"x", ⟨⟨'x', rfl, by decide⟩, by decide, by decide⟩, by decide⟩
  let target : Target := .property x ⟨"if", ⟨'i', rfl, by decide⟩, by decide⟩
  have hsource : writeAssignments [target] "a - (b) - c < d + a === c == d".toList =
      "x.if = a - (b) - c < d + a === c == d".toList := by decide
  have h := hassign [target]
  rw [htext, hsource, String.ofList_toList, hexpr, hvalue] at h
  exact h

end Scriptlet
