import Mathlib.Data.Set.Lattice
import Scriptlet.Proofs.Grammar.Numeral
import Scriptlet.Proofs.Program.Lowering

/-!
# The language within the grammar

The grammar is wider than the language. `Tree.Offends` lists what a node can do that the language
does not have, each with the error that says so, and lowering refuses a script exactly if one of its
nodes offends: `lowering_verdict`. The error is then that of an offending node.

The errors that the nodes of a tree give rise to are collected in `Tree.reasons`, and each of the
lowering functions is shown to give a `Verdict` on the reasons of the trees it goes through: a
result if there are none, and one of them otherwise. That no function overlooks a tree or meets one
it does not expect is up to the shapes of the grammar.

A verdict is kept by the ways in which lowering is put together: one computation after another has
the reasons of both (`Verdict.bind`). What remains for each rule is to see that the trees it goes
through are all of its children, or that it refuses the node for what it is. Both are about the list
of the children, and this list has one of the shapes that were computed from the production.

Whether an assignment has a target is the one offence that is not seen from a node and its children.
A target may stand in parentheses, many levels down, and the code asks the question of the lowered
expression. `Tree.Assignable` asks it of the tree, and `Expr.isTarget_iff` says that the answers are
the same.

* `Tree.Offends`, `Tree.Holds`: what offends, and which nodes a tree has.
* `Tree.reasons`, `Verdict`: the errors of a tree, and what a computation makes of them.
* `Expr.isTarget_iff`: targets, level by level.
* `Tree.Everywhere.judged`: every tree is judged right, by induction on trees.
* `lowering_verdict`: scripts.
-/

namespace Scriptlet

/-! ## Offences

The definitions that the statement is made of. They speak of trees only, and of lowering nowhere.
-/

/-- The constructs of the grammar that the language does not have at all. -/
def Rule.foreign : List Rule :=
  [.whileStatement, .forStatement, .throwStatement, .breakStatement, .continueStatement,
    .objectBindingPattern, .arrayBindingPattern, .restParameter, .defaultParameter,
    .thisExpression, .newExpression, .arrayLiteral, .shorthandProperty]

/-- The operators between two operands, and those of assignments. -/
def Rule.operators : List Rule := .assignmentOperator :: Rule.chainOperators

/-- The operators of the language. -/
def Operator.tokens : List String := ["+", "-", "<", "=", "==", "==="]

/-- The rules whose node may stand for its only child: the levels of expressions, and
parentheses. -/
def Rule.passing : List Rule :=
  [.expression, .assignmentExpression, .conditionalExpression] ++ Rule.chains ++
    [.unaryExpression, .postfixExpression, .leftHandSideExpression, .parenthesizedExpression]

/-- The node is a name other than `undefined` or an access to a property, perhaps in parentheses. An
access is one if the last of its suffixes is, whatever comes before. -/
inductive Tree.Assignable : Tree → Prop
  | name {t : Tree} (hrule : t.rule = .identifier) (hname : t.string ≠ "undefined") : Assignable t
  | access {t first last : Tree} {suffixes : List Tree} (hrule : t.rule = .leftHandSideExpression)
    (hchildren : t.children = first :: (suffixes ++ [last]))
    (hlast : last.rule = .propertyAccess ∨ last.rule = .elementAccess) : Assignable t
  | inside {t only : Tree} (hrule : t.rule ∈ Rule.passing) (hchildren : t.children = [only])
    (h : Assignable only) : Assignable t

/-- `t.Offends inFunction e`: the node is not of the language, for the reason `e`. Whether it stands
inside the body of a function matters for `return` only. Several nodes of a tree may offend, each
for its own reason. -/
inductive Tree.Offends (inFunction : Bool) (t : Tree) : ProgramError → Prop
  | foreign (hrule : t.rule ∈ Rule.foreign) : Offends inFunction t t.unsupported
  | sequence (hrule : t.rule = .expression) (hmany : 2 ≤ t.children.length) :
    Offends inFunction t t.unsupported
  | conditional (hrule : t.rule = .conditionalExpression) (hmany : 1 < t.children.length) :
    Offends inFunction t t.unsupported
  | unary {operator : Tree} (hrule : t.rule = .unaryExpression)
    (hfirst : t.children.head? = some operator) (hoperator : operator.rule = .unaryOperator) :
    Offends inFunction t t.unsupported
  | update {operator : Tree} (hrule : t.rule = .postfixExpression) (hmem : operator ∈ t.children)
    (hoperator : operator.rule = .updateOperator) : Offends inFunction t t.unsupported
  | operator (hrule : t.rule ∈ Rule.operators) (htoken : t.string ∉ Operator.tokens) :
    Offends inFunction t (.unknownOperator t.string)
  | target {target operator : Tree} {value : List Tree} (hrule : t.rule = .assignmentExpression)
    (hchildren : t.children = target :: operator :: value) (htarget : ¬target.Assignable) :
    Offends inFunction t t.unsupported
  | strayReturn (hrule : t.rule = .returnStatement) (houtside : inFunction = false) :
    Offends inFunction t (.returnOutsideFunction t.string)
  | badString (hrule : t.rule = .stringLiteral) (hvalue : ∀ s, stringValue t ≠ .ok s) :
    Offends inFunction t t.invalidLiteral

/-- Whether the second node, a child of the first, is the body of a function. -/
def Tree.isBody (t child : Tree) : Bool :=
  (t.rule = .functionDeclaration ∨ t.rule = .functionExpression) ∧ child.rule = .block

/-- `t.Holds b u b'`: the node `u` is `t` or stands below it; if `b` says whether `t` stands inside
the body of a function, `b'` says so of `u`. The parameters of a function are not inside of its
body. -/
inductive Tree.Holds : Tree → Bool → Tree → Bool → Prop
  | self {t : Tree} {b : Bool} : Holds t b t b
  | child {t child u : Tree} {b b' : Bool} (hchild : child ∈ t.children)
    (h : Holds child (b || t.isBody child) u b') : Holds t b u b'

/-- The rules of functions. -/
def Rule.functions : List Rule := [.functionDeclaration, .functionExpression]

/-- The other rules that are part of the language wherever they stand. Those of tokens among them
are harmless whatever their text. -/
def Rule.harmless : List Rule :=
  [.endOfInput, .script, .block, .emptyStatement, .variableStatement, .varKind,
    .variableDeclarationList, .variableDeclaration, .ifStatement, .formalParameters,
    .expressionStatement] ++ Rule.chains ++
  [.leftHandSideExpression, .arguments, .propertyAccess, .elementAccess,
    .parenthesizedExpression, .objectLiteral, .propertyAssignment, .nullLiteral, .booleanLiteral,
    .numericLiteral, .doubleStringCharacters, .singleStringCharacters, .identifier,
    .identifierName]

/-! ## Reasons

Sets of errors are put together along the tree, and computations along the code. The lemmas on
verdicts relate the two.
-/

/-- The errors that a node itself gives rise to. -/
def Tree.offences (b : Bool) (t : Tree) : Set ProgramError := {e | t.Offends b e}

/-- The errors that the nodes of a tree give rise to. -/
def Tree.reasons (b : Bool) (t : Tree) : Set ProgramError :=
  {e | ∃ u b', t.Holds b u b' ∧ u.Offends b' e}

/-- The errors that the nodes of several trees give rise to. -/
def Tree.reasonsAll (b : Bool) : List Tree → Set ProgramError
  | [] => ∅
  | t :: ts => t.reasons b ∪ reasonsAll b ts

/-- A computation is refused for one of the reasons, if there are any; with no reasons it has a
result. That it is refused for the first of them is not said. -/
def Verdict {α : Type} (reasons : Set ProgramError) : Except ProgramError α → Prop
  | .ok _ => reasons = ∅
  | .error e => e ∈ reasons

namespace Verdict

variable {α β : Type} {R R' : Set ProgramError}

/-- A computation that only returns something is right if there are no reasons. -/
theorem ok {a : α} : Verdict ∅ (.ok a : Except ProgramError α) := rfl

/-- **Verdicts are put together**: the second computation is only run if the first one gives no
reasons, and then its reasons are all there are. -/
theorem bind {x : Except ProgramError α} {f : α → Except ProgramError β} (hx : Verdict R x)
    (hf : ∀ a, x = .ok a → Verdict R' (f a)) : Verdict (R ∪ R') (x >>= f) := by
  cases x with
  | error e => exact .inl hx
  | ok a =>
    obtain rfl : R = ∅ := hx
    rw [Set.empty_union]
    exact hf a rfl

/-- What is done with a result gives no further reasons. -/
theorem map {x : Except ProgramError α} (f : α → β) (hx : Verdict R x) :
    Verdict R (do return f (← x)) := by
  cases x with
  | error e => exact hx
  | ok a => exact hx

/-- If nothing is refused, there is nothing to refuse. -/
theorem exists_ok_iff {x : Except ProgramError α} (hx : Verdict R x) :
    (∃ a, x = .ok a) ↔ R = ∅ := by
  cases x with
  | error e => exact ⟨nofun, fun h => (Set.eq_empty_iff_forall_notMem.mp h e hx).elim⟩
  | ok a => exact ⟨fun _ => hx, fun _ => ⟨a, rfl⟩⟩

end Verdict

namespace Tree

variable {t : Tree} {b : Bool}

/-- Several trees have all the reasons that any of them has. -/
theorem mem_reasonsAll {ts : List Tree} {e : ProgramError} :
    e ∈ reasonsAll b ts ↔ ∃ t ∈ ts, e ∈ t.reasons b := by
  induction ts with
  | nil => exact ⟨nofun, nofun⟩
  | cons t ts ih => simp [reasonsAll, ih]

theorem reasonsAll_singleton : reasonsAll b [t] = t.reasons b := by
  rw [reasonsAll, reasonsAll, Set.union_empty]

/-- The reasons of a tree are those of its node and those of the trees below. -/
theorem mem_reasons {e : ProgramError} :
    e ∈ t.reasons b ↔
      t.Offends b e ∨ ∃ child ∈ t.children, e ∈ child.reasons (b || t.isBody child) := by
  refine ⟨?_, ?_⟩
  · rintro ⟨u, b', hold, hu⟩
    cases hold with
    | self => exact .inl hu
    | child hchild h => exact .inr ⟨_, hchild, u, b', h, hu⟩
  · rintro (h | ⟨child, hchild, u, b', hold, hu⟩)
    · exact ⟨t, b, .self, h⟩
    · exact ⟨u, b', .child hchild hold, hu⟩

/-- The reasons of a node that is no function. The trees below it are inside of functions if it
is. -/
theorem reasons_eq (hrule : t.rule ≠ .functionDeclaration ∧ t.rule ≠ .functionExpression) :
    t.reasons b = t.offences b ∪ reasonsAll b t.children := by
  ext e
  have hbody : ∀ child, (b || t.isBody child) = b := by
    intro child
    simp [isBody, hrule.1, hrule.2]
  rw [mem_reasons, Set.mem_union, mem_reasonsAll]
  simp only [hbody]
  rfl

/-- A node without children gives no reasons but its own. -/
theorem reasons_leaf (hchildren : t.children = []) : t.reasons b = t.offences b := by
  ext e
  rw [mem_reasons, hchildren]
  exact ⟨fun h => h.elim id nofun, .inl⟩

variable {e : ProgramError}

/-- What an offence says about a node of a rule that need not offend. It is a condition that can be
looked up by the rule of the node, while offences are an inductive definition. -/
def Suspicious (b : Bool) (t : Tree) : Prop :=
  match t.rule with
  | .expression => 2 ≤ t.children.length
  | .conditionalExpression => 1 < t.children.length
  | .unaryExpression =>
    ∃ operator, t.children.head? = some operator ∧ operator.rule = .unaryOperator
  | .postfixExpression => ∃ operator ∈ t.children, operator.rule = .updateOperator
  | .assignmentExpression =>
    ∃ target operator value, t.children = target :: operator :: value ∧ ¬target.Assignable
  | .returnStatement => b = false
  | .stringLiteral => ∀ s, stringValue t ≠ .ok s
  | rule => rule ∈ Rule.foreign ∨ rule ∈ Rule.operators ∧ t.string ∉ Operator.tokens

/-- There is no offence without its condition. -/
theorem Offends.suspicious (h : t.Offends b e) : t.Suspicious b := by
  obtain ⟨rule, start, text, children⟩ := t
  cases h with
  | foreign hrule =>
    change rule ∈ Rule.foreign at hrule
    cases rule <;> first | exact .inl hrule | exact absurd hrule (by decide)
  | operator hrule htoken =>
    change rule ∈ Rule.operators at hrule
    cases rule <;> first | exact .inr ⟨hrule, htoken⟩ | exact absurd hrule (by decide)
  | sequence hrule hmany | conditional hrule hmany =>
    subst hrule
    exact hmany
  | unary hrule hfirst hoperator =>
    subst hrule
    exact ⟨_, hfirst, hoperator⟩
  | update hrule hmem hoperator =>
    subst hrule
    exact ⟨_, hmem, hoperator⟩
  | target hrule hchildren htarget =>
    subst hrule
    exact ⟨_, _, _, hchildren, htarget⟩
  | strayReturn hrule houtside =>
    subst hrule
    exact houtside
  | badString hrule hvalue =>
    subst hrule
    exact hvalue

/-- An operator is suspicious for its text only. -/
theorem Suspicious.of_operator (h : t.Suspicious b) (hrule : t.rule ∈ Rule.operators) :
    t.string ∉ Operator.tokens := by
  obtain ⟨rule, start, text, children⟩ := t
  change rule ∈ Rule.operators at hrule
  have hforeign : ∀ r ∈ Rule.operators, r ∉ Rule.foreign := by decide
  cases rule <;> first
    | exact absurd hrule (by decide)
    | exact h.elim (fun h => absurd h (hforeign _ hrule)) fun h => h.2

/-- Without the condition there is no offence. -/
theorem offences_eq_empty (h : ¬t.Suspicious b) : t.offences b = ∅ :=
  Set.eq_empty_iff_forall_notMem.mpr fun _ he => h he.suspicious

/-- A node that is not suspicious gives no reasons but those of the trees below. -/
theorem reasons_of_clean (hrule : t.rule ≠ .functionDeclaration ∧ t.rule ≠ .functionExpression)
    (h : ¬t.Suspicious b) : t.reasons b = reasonsAll b t.children := by
  rw [reasons_eq hrule, offences_eq_empty h, Set.empty_union]

/-- A node of a rule that is always harmless is not suspicious. -/
theorem not_suspicious (hrule : t.rule ∈ Rule.functions ++ Rule.harmless) : ¬t.Suspicious b := by
  obtain ⟨rule, start, text, children⟩ := t
  change rule ∈ Rule.functions ++ Rule.harmless at hrule
  have hharmless : ∀ r ∈ Rule.functions ++ Rule.harmless,
      r ∉ Rule.foreign ∧ r ∉ Rule.operators := by decide
  obtain ⟨hforeign, hoperator⟩ := hharmless rule hrule
  cases rule <;> first
    | exact absurd hrule (by decide)
    | exact fun h => h.elim (absurd · hforeign) fun h => absurd h.1 hoperator

/-- A node of a rule that is always harmless gives no reasons but those of the trees below. -/
theorem reasons_of_harmless (hrule : t.rule ∈ Rule.harmless) :
    t.reasons b = reasonsAll b t.children := by
  have hfunction : ∀ r ∈ Rule.harmless, r ≠ .functionDeclaration ∧ r ≠ .functionExpression := by
    decide
  exact reasons_of_clean (hfunction _ hrule) (not_suspicious (List.mem_append_right _ hrule))

/-- A harmless token gives no reasons: it is not suspicious, and nothing stands below it. -/
theorem Fits.reasons_eq_empty (ht : t.Fits) (rules : List Rule) (hrule : t.rule ∈ rules)
    (hrules : ∀ r ∈ rules, r ∈ Rule.harmless ∧ r.kind = .token ∧ r ∈ Rule.lexical) :
    t.reasons b = ∅ := by
  obtain ⟨hharmless, hkind, hlex⟩ := hrules _ hrule
  rw [reasons_of_harmless hharmless, ht.children_eq_nil hkind hlex, reasonsAll]

/-- A construct that the language does not have is a reason to refuse it. -/
theorem unsupported_mem_reasons (hrule : t.rule ∈ Rule.foreign) : t.unsupported ∈ t.reasons b :=
  mem_reasons.mpr (.inl (.foreign hrule))

end Tree

/-! ## Operators and literals

Tokens that may be refused for their text.
-/

/-- The operators of the language are those whose text is on the list. -/
theorem Operator.ofToken_isSome_iff {text : List Char} :
    (ofToken? text).isSome ↔ String.ofList text ∈ tokens := by
  have htokens : tokens = [['+'], ['-'], ['<'], ['='], ['=', '='], ['=', '=', '=']].map
      String.ofList := by decide
  rw [htokens, List.mem_map, ofToken?]
  simp only [String.ofList_inj, exists_eq_right]
  split_ifs <;> simp_all

/-- An operator is accepted if it is on the list, and otherwise refused as unknown. -/
theorem Operator.ofTree_verdict {t : Tree} {b : Bool} (ht : t.Fits)
    (hrule : t.rule ∈ Rule.operators) : Verdict (t.reasons b) (Operator.ofTree t) := by
  have hkind : ∀ r ∈ Rule.operators, r.kind = .token ∧ r ∈ Rule.lexical := by decide
  obtain ⟨hkind, hlex⟩ := hkind _ hrule
  have hsome : (ofToken? t.text).isSome ↔ t.string ∈ tokens := ofToken_isSome_iff
  rw [Tree.reasons_leaf (ht.children_eq_nil hkind hlex), Operator.ofTree]
  split
  · next op hop =>
    rw [hop] at hsome
    refine Set.eq_empty_iff_forall_notMem.mpr fun e he => ?_
    exact he.suspicious.of_operator hrule (hsome.mp rfl)
  · next hop =>
    rw [hop] at hsome
    exact .operator hrule fun h => absurd (hsome.mpr h) (by decide)

/-- A string is refused if it has no value, by definition. -/
theorem stringValue_verdict {t : Tree} {b : Bool} (ht : t.Fits) (hrule : t.rule = .stringLiteral)
    (hbelow : ∀ t' ∈ t.children, t'.Fits) : Verdict (t.reasons b) (stringValue t) := by
  obtain ⟨rule, start, text, children⟩ := t
  subst hrule
  cases hvalue : stringValue _ with
  | error e =>
    have he : e = (Tree.mk .stringLiteral start text children).invalidLiteral := by
      rw [stringValue] at hvalue
      split at hvalue
      · cases hvalue
      · exact (Except.error.inj hvalue).symm
    subst he
    exact Tree.mem_reasons.mpr (.inl (.badString rfl fun s hs => nomatch hvalue.symm.trans hs))
  | ok s =>
    obtain ⟨chars, rfl, hchars⟩ := ht.shape rfl (.inr rfl)
    have hnone : chars.reasons b = ∅ :=
      (hbelow chars List.mem_cons_self).reasons_eq_empty _ hchars (by decide)
    have hreasons : (Tree.mk .stringLiteral start text [chars]).reasons b =
        Tree.reasonsAll b [chars] := Tree.reasons_of_clean ⟨nofun, nofun⟩ fun h => h s hvalue
    rw [hreasons, Tree.reasonsAll_singleton, hnone]
    exact .ok

/-! ## Targets

First what can be assigned to among trees, and what among expressions.
-/

namespace Tree.Assignable

variable {t only : Tree}

/-- A node that only stands for its child is assignable if the child is. -/
theorem passing_iff {rule : Rule} {start : Nat} {text : List Char} (hrule : rule ∈ Rule.passing) :
    only.Assignable ↔ (Tree.mk rule start text [only]).Assignable := by
  refine ⟨.inside hrule rfl, ?_⟩
  intro h
  cases h with
  | name hrule' =>
    obtain rfl : rule = .identifier := hrule'
    exact absurd hrule (by decide)
  | access _ hchildren _ => simp at hchildren
  | inside _ hchildren h =>
    obtain ⟨rfl, -⟩ := List.cons.inj hchildren
    exact h

/-- Calls and accesses behind an operand are assignable if the last of them is an access. -/
theorem access_iff {first last : Tree} {suffixes : List Tree}
    (hrule : t.rule = .leftHandSideExpression)
    (hchildren : t.children = first :: (suffixes ++ [last])) :
    t.Assignable ↔ last.rule = .propertyAccess ∨ last.rule = .elementAccess := by
  refine ⟨?_, .access hrule hchildren⟩
  intro h
  cases h with
  | name hrule' => exact absurd (hrule.symm.trans hrule') (by decide)
  | access _ hchildren' hlast =>
    rw [hchildren] at hchildren'
    obtain ⟨-, h⟩ := List.cons.inj hchildren'
    obtain ⟨-, h⟩ := List.append_inj' h rfl
    obtain ⟨rfl, -⟩ := List.cons.inj h
    exact hlast
  | inside _ hchildren' _ =>
    rw [hchildren] at hchildren'
    simp at hchildren'

/-- A name is assignable unless it is the one that is written for a value. -/
theorem name_iff (hrule : t.rule = .identifier) : t.Assignable ↔ t.string ≠ "undefined" := by
  refine ⟨?_, .name hrule⟩
  intro h
  cases h with
  | name _ hname => exact hname
  | access hrule' => exact absurd (hrule.symm.trans hrule') (by decide)
  | inside hrule' =>
    rw [hrule] at hrule'
    exact absurd hrule' (by decide)

/-- What is neither a name nor an access nor passed through cannot be assigned to. -/
theorem not_of_rule {rule : Rule} {start : Nat} {text : List Char} {children : List Tree}
    (hrule : rule ≠ .identifier ∧ rule ≠ .leftHandSideExpression)
    (hchildren : rule ∈ Rule.passing → children.length ≠ 1) :
    ¬(Tree.mk rule start text children).Assignable := by
  intro h
  cases h with
  | name hrule' => exact hrule.1 hrule'
  | access hrule' => exact hrule.2 hrule'
  | inside hrule' hchildren' => exact hchildren hrule' (congrArg List.length hchildren')

end Tree.Assignable

/-- What an operator makes is no target. -/
theorem Operator.apply_not_target (op : Operator) (left right : Expr) :
    (op.apply left right).isTarget = false := by
  cases op <;> rfl

/-- What a chain with an operator denotes cannot be assigned to. The chain is folded to the left, so
this is carried along the fold. -/
theorem Expr.ofChain_not_target {self : Tree} {e : Expr} :
    ∀ (steps : List Tree) {left : Expr}, left.isTarget = false ∨ steps ≠ [] →
      Expr.ofChain self left steps = .ok e → e.isTarget = false
  | [], _, hsteps, h => by
    obtain rfl := Except.ok.inj h
    exact hsteps.resolve_right fun hne => hne rfl
  | [operator], _, _, h => by
    obtain ⟨op, -, h⟩ := bind_eq_ok.mp h
    cases h
  | operator :: operand :: steps, left, _, h => by
    obtain ⟨op, -, h⟩ := bind_eq_ok.mp h
    obtain ⟨right, -, h⟩ := bind_eq_ok.mp h
    exact ofChain_not_target steps (.inl (op.apply_not_target left right)) h

/-- What the last of several suffixes makes can be assigned to if it is an access. -/
theorem Expr.ofSuffixes_target {last : Tree} (suffixes : List Tree) {base e : Expr}
    (h : Expr.ofSuffixes base (suffixes ++ [last]) = .ok e) :
    e.isTarget = true ↔ last.rule = .propertyAccess ∨ last.rule = .elementAccess := by
  induction suffixes generalizing base with
  | nil =>
    obtain ⟨rule, start, text, children⟩ := last
    rw [List.nil_append, Expr.ofSuffixes.eq_def] at h
    dsimp only at h
    split at h
    · obtain ⟨args, -, h⟩ := bind_eq_ok.mp h
      obtain rfl := Except.ok.inj h
      simp [Expr.isTarget]
    · split at h
      · cases h
      · obtain rfl := Except.ok.inj h
        simp [Expr.isTarget]
    · split at h
      · cases h
      · obtain ⟨key, -, h⟩ := bind_eq_ok.mp h
        obtain rfl := Except.ok.inj h
        simp [Expr.isTarget]
    · cases h
  | cons t suffixes ih =>
    obtain ⟨rule, start, text, children⟩ := t
    rw [List.cons_append, Expr.ofSuffixes.eq_def] at h
    dsimp only at h
    split at h
    · obtain ⟨args, -, h⟩ := bind_eq_ok.mp h
      exact ih h
    · split at h
      · cases h
      · exact ih h
    · split at h
      · cases h
      · obtain ⟨key, -, h⟩ := bind_eq_ok.mp h
        exact ih h
    · cases h

section

variable {rule : Rule} {start : Nat} {text : List Char} {first : Tree} {below : List Tree}
  {base e : Expr} (hbase : base.isTarget = true ↔ first.Assignable)
include hbase

/-- A chain can be assigned to if it is a single operand that can. -/
theorem Expr.ofChain_target_iff {self : Tree} (hrule : rule ∈ Rule.chains)
    (h : Expr.ofChain self base below = .ok e) :
    e.isTarget = true ↔ (Tree.mk rule start text (first :: below)).Assignable := by
  have hchains : ∀ r ∈ Rule.chains,
      r ∈ Rule.passing ∧ r ≠ .identifier ∧ r ≠ .leftHandSideExpression := by decide
  obtain ⟨hpassing, hother⟩ := hchains rule hrule
  cases below with
  | nil =>
    obtain rfl := Except.ok.inj h
    exact hbase.trans (Tree.Assignable.passing_iff hpassing)
  | cons step steps =>
    rw [Expr.ofChain_not_target _ (.inr (List.cons_ne_nil step steps)) h]
    exact iff_of_false Bool.false_ne_true (Tree.Assignable.not_of_rule hother (by simp))

/-- Calls and accesses can be assigned to if there are none, or an access is the last of them. -/
theorem Expr.ofSuffixes_target_iff (h : Expr.ofSuffixes base below = .ok e) :
    e.isTarget = true ↔
      (Tree.mk .leftHandSideExpression start text (first :: below)).Assignable := by
  obtain rfl | ⟨init, last, rfl⟩ := List.eq_nil_or_concat below
  · obtain rfl := Except.ok.inj h
    exact hbase.trans (Tree.Assignable.passing_iff (by decide))
  · rw [List.concat_eq_append] at h ⊢
    rw [Expr.ofSuffixes_target init h, Tree.Assignable.access_iff rfl rfl]

end

/-! ### Targets, level by level

An expression that lowering makes of a tree can be assigned to exactly if the tree is assignable.
The grammar passes an operand up through a dozen levels before it is a target, so each level says
what it does to the property (`Tree.Targets`), given that the trees below have it. -/

/-- What lowering makes of the tree can be assigned to exactly if the tree says so. -/
def Tree.Targets (t : Tree) : Prop :=
  ∀ e, Expr.ofTree t = .ok e → (e.isTarget = true ↔ t.Assignable)

/-- An expression that is put together as no target is none, whatever it is put together from. -/
theorem Expr.not_target_of_bind {α : Type} {x : Except ProgramError α} {f : α → Expr}
    (hf : ∀ a, (f a).isTarget = false) {e : Expr} (h : (x >>= fun a => .ok (f a)) = .ok e) :
    ¬e.isTarget = true := by
  obtain ⟨a, -, h⟩ := bind_eq_ok.mp h
  obtain rfl := Except.ok.inj h
  rw [hf a]
  exact Bool.false_ne_true

namespace Tree.Targets

variable {rule : Rule} {start : Nat} {text : List Char} {children : List Tree}

/-- Literals, functions and objects cannot be assigned to, and neither can their trees. -/
theorem of_value
    (hrule : rule ∈ [Rule.functionExpression, .objectLiteral, .numericLiteral, .stringLiteral,
      .booleanLiteral, .nullLiteral]) : (Tree.mk rule start text children).Targets := by
  intro e h
  have hrules : ∀ r ∈ [Rule.functionExpression, .objectLiteral, .numericLiteral, .stringLiteral,
      .booleanLiteral, .nullLiteral],
      (r ≠ .identifier ∧ r ≠ .leftHandSideExpression) ∧ r ∉ Rule.passing := by decide
  obtain ⟨hother, hpassing⟩ := hrules rule hrule
  refine iff_of_false ?_ (Tree.Assignable.not_of_rule hother (absurd · hpassing))
  rw [Expr.ofTree.eq_def] at h
  simp only [List.mem_cons, List.not_mem_nil, or_false] at hrule
  rcases hrule with rfl | rfl | rfl | rfl | rfl | rfl
  · dsimp only at h
    split at h
    · exact Expr.not_target_of_bind (fun _ => rfl) h
    · exact Expr.not_target_of_bind (fun _ => rfl) h
    · cases h
  · exact Expr.not_target_of_bind (fun _ => rfl) h
  · exact Expr.not_target_of_bind (fun _ => rfl) h
  · exact Expr.not_target_of_bind (fun _ => rfl) h
  · obtain rfl := Except.ok.inj h
    exact Bool.false_ne_true
  · obtain rfl := Except.ok.inj h
    exact Bool.false_ne_true

/-- A name can be assigned to unless it is the one of the literal `undefined`. -/
theorem name : (Tree.mk .identifier start text children).Targets := by
  intro e h
  rw [Expr.ofTree.eq_def] at h
  dsimp only at h
  obtain rfl := Except.ok.inj h
  rw [Tree.Assignable.name_iff rfl, Expr.ofName]
  split <;> simp_all [Expr.isTarget]

section

variable (hbelow : ∀ t ∈ children, t.Targets)
include hbelow

/-- The levels that lower a single operand only. With more than one, lowering refuses them, and
there is nothing to show. -/
theorem passing (hrule : rule ∈ [Rule.expression, .conditionalExpression, .unaryExpression,
    .postfixExpression]) : (Tree.mk rule start text children).Targets := by
  intro e h
  have hpassing : rule ∈ Rule.passing := by
    have hrules : ∀ r ∈ [Rule.expression, .conditionalExpression, .unaryExpression,
        .postfixExpression], r ∈ Rule.passing := by decide
    exact hrules rule hrule
  simp only [List.mem_cons, List.not_mem_nil, or_false] at hrule
  obtain ⟨only, rfl⟩ : ∃ only, children = [only] := by
    rw [Expr.ofTree.eq_def] at h
    rcases hrule with rfl | rfl | rfl | rfl
    all_goals
      dsimp only at h
      split at h
      · exact ⟨_, rfl⟩
      · cases h
  have heq : Expr.ofTree ⟨rule, start, text, [only]⟩ = Expr.ofTree only := by
    rcases hrule with rfl | rfl | rfl | rfl <;> rfl
  exact (hbelow only List.mem_cons_self _ (heq ▸ h)).trans (Tree.Assignable.passing_iff hpassing)

theorem assignment : (Tree.mk .assignmentExpression start text children).Targets := by
  intro e h
  rw [Expr.ofTree.eq_def] at h
  dsimp only at h
  split at h
  · cases h
  · next only =>
    exact (hbelow only List.mem_cons_self _ h).trans (Tree.Assignable.passing_iff (by decide))
  · obtain ⟨_, _, h⟩ := bind_eq_ok.mp h
    obtain ⟨_, _, h⟩ := bind_eq_ok.mp h
    cases h
  · obtain ⟨target, -, h⟩ := bind_eq_ok.mp h
    obtain ⟨op, -, h⟩ := bind_eq_ok.mp h
    split at h
    · cases h
    · obtain ⟨value, -, h⟩ := bind_eq_ok.mp h
      obtain rfl := Except.ok.inj h
      rw [op.apply_not_target]
      exact iff_of_false Bool.false_ne_true (Tree.Assignable.not_of_rule (by decide) (by simp))

/-- The levels of operators between operands: a chain with an operator is no target, and one without
is its only operand. -/
theorem chain (hrule : rule ∈ Rule.chains) : (Tree.mk rule start text children).Targets := by
  intro e h
  obtain ⟨first, steps, rfl⟩ : ∃ first steps, children = first :: steps := by
    rw [Expr.ofTree.eq_def] at h
    simp only [Rule.chains, List.mem_cons, List.not_mem_nil, or_false] at hrule
    rcases hrule with rfl | rfl | rfl | rfl | rfl | rfl
    all_goals
      dsimp only at h
      split at h
      · cases h
      · exact ⟨_, _, rfl⟩
  have heq : Expr.ofTree ⟨rule, start, text, first :: steps⟩ =
      Expr.ofTree first >>= fun left => Expr.ofChain ⟨rule, start, text, first :: steps⟩ left
        steps := by
    simp only [Rule.chains, List.mem_cons, List.not_mem_nil, or_false] at hrule
    rcases hrule with rfl | rfl | rfl | rfl | rfl | rfl <;> rfl
  rw [heq] at h
  obtain ⟨left, hfirst, h⟩ := bind_eq_ok.mp h
  exact Expr.ofChain_target_iff (hbelow first List.mem_cons_self _ hfirst) hrule h

/-- Calls and accesses, of which the last one counts. -/
theorem suffixes : (Tree.mk .leftHandSideExpression start text children).Targets := by
  intro e h
  rw [Expr.ofTree.eq_def] at h
  dsimp only at h
  split at h
  · cases h
  · next first suffixes =>
    obtain ⟨base, hfirst, h⟩ := bind_eq_ok.mp h
    exact Expr.ofSuffixes_target_iff (hbelow first List.mem_cons_self _ hfirst) h

/-- Parentheses around a target make no difference. -/
theorem parenthesized (ht : (Tree.mk .parenthesizedExpression start text children).Fits) :
    (Tree.mk .parenthesizedExpression start text children).Targets := by
  intro e h
  rw [Expr.ofTree.eq_def] at h
  dsimp only at h
  obtain ⟨only, rfl, -⟩ := ht.shape rfl (.inl rfl)
  exact (hbelow only List.mem_cons_self _ h).trans (Tree.Assignable.passing_iff (by decide))

end

end Tree.Targets

/-- **An expression can be assigned to if its tree says so.** By induction on the tree; each level
keeps the property. -/
theorem Expr.isTarget_iff {t : Tree} (ht : t.Derived) {e : Expr} (h : Expr.ofTree t = .ok e) :
    e.isTarget = true ↔ t.Assignable := by
  suffices htargets : t.Targets from htargets e h
  clear h
  induction ht with
  | @mk t here _ ih =>
    obtain ⟨rule, start, text, children⟩ := t
    cases rule
    case expression | conditionalExpression | unaryExpression | postfixExpression =>
      exact .passing ih (by decide)
    case assignmentExpression => exact .assignment ih
    case logicalOrExpression | logicalAndExpression | equalityExpression | relationalExpression
      | additiveExpression | multiplicativeExpression => exact .chain ih (by decide)
    case leftHandSideExpression => exact .suffixes ih
    case parenthesizedExpression => exact .parenthesized ih here
    case identifier => exact .name
    case functionExpression | objectLiteral | numericLiteral | stringLiteral | booleanLiteral
      | nullLiteral => exact .of_value (by decide)
    -- everything else is no expression
    all_goals
      intro e h
      rw [Expr.ofTree.eq_def] at h
      cases h

/-! ## The guarantee

The induction on trees. Every tree below a node is assumed to be judged right, whether as an
expression or as a statement, and the node is shown to be.
-/

/-- The rules of expressions. -/
def Rule.exprs : List Rule := Rule.passing ++ Rule.primaryExpression.members

/-- A tree is lowered, as an expression or as a statement, unless there are reasons not
to. -/
structure Tree.Judged (t : Tree) : Prop where
  fits : t.Fits
  expr : t.rule ∈ Rule.exprs → ∀ b, Verdict (t.reasons b) (Expr.ofTree t)
  stmt : t.rule ∈ Rule.statement.members → ∀ b, Verdict (t.reasons b) (Stmt.ofTree b t)

section

variable {t : Tree} {b : Bool}

/-- What is known of all nodes below gives the verdict on an expression among them, if its rule is
one of expressions. -/
theorem Tree.Everywhere.expr (h : t.Everywhere Tree.Judged) {rules : List Rule}
    (hrule : t.rule ∈ rules) (hrules : ∀ r ∈ rules, r ∈ Rule.exprs) :
    Verdict (t.reasons b) (Expr.ofTree t) :=
  h.here.expr (hrules _ hrule) b

theorem Tree.Everywhere.stmt (h : t.Everywhere Tree.Judged)
    (hrule : t.rule ∈ Rule.statement.members) : Verdict (t.reasons b) (Stmt.ofTree b t) :=
  h.here.stmt hrule b

end

/-! The functions that go through lists of trees, given the guarantee for every tree they
meet. -/

section

variable {b : Bool}

/-- Several expressions have the reasons of all of them. -/
theorem Expr.ofTrees_verdict (ts : List Tree)
    (h : ∀ t ∈ ts, Verdict (t.reasons b) (Expr.ofTree t)) :
    Verdict (Tree.reasonsAll b ts) (Expr.ofTrees ts) := by
  induction ts with
  | nil => exact .ok
  | cons t ts ih =>
    obtain ⟨ht, hts⟩ := List.forall_mem_cons.mp h
    exact ht.bind fun e _ => (ih hts).map _

/-- A chain that alternates between operators and operands. The steps are given in pairs, as the
shape of the node gives them. -/
theorem Expr.ofChain_verdict {self : Tree} (steps : List (List Tree))
    (h : ∀ step ∈ steps, ∃ operator operand, step = [operator, operand] ∧
      Verdict (operator.reasons b) (Operator.ofTree operator) ∧
      Verdict (operand.reasons b) (Expr.ofTree operand)) (left : Expr) :
    Verdict (Tree.reasonsAll b steps.flatten) (Expr.ofChain self left steps.flatten) := by
  induction steps generalizing left with
  | nil => exact .ok
  | cons step steps ih =>
    obtain ⟨⟨operator, operand, rfl, hoperator, hoperand⟩, hsteps⟩ := List.forall_mem_cons.mp h
    exact hoperator.bind fun op _ => hoperand.bind fun right _ => ih hsteps _

theorem Tree.Everywhere.arguments {t : Tree} (ht : t.Everywhere Tree.Judged)
    (hrule : t.rule = .arguments) : Verdict (t.reasons b) (Expr.ofTrees t.children) := by
  obtain ⟨rule, start, text, children⟩ := t
  subst hrule
  rw [Tree.reasons_of_harmless (by decide : Rule.arguments ∈ Rule.harmless)]
  have hrules := ht.here.fits.mem_childRules (.inl rfl)
  refine Expr.ofTrees_verdict children fun t hmem => ?_
  exact (ht.children t hmem).expr (hrules t hmem) (by decide : ∀ r ∈ Rule.arguments.childRules, _)

/-- Calls and accesses behind an operand have the reasons of what is inside of them. -/
theorem Expr.ofSuffixes_verdict (suffixes : List Tree)
    (h : ∀ t ∈ suffixes, t.Everywhere Tree.Judged)
    (hrule : ∀ t ∈ suffixes, t.rule ∈ [.arguments, .propertyAccess, .elementAccess])
    (base : Expr) : Verdict (Tree.reasonsAll b suffixes) (Expr.ofSuffixes base suffixes) := by
  induction suffixes generalizing base with
  | nil => exact .ok
  | cons t suffixes ih =>
    obtain ⟨ht, hts⟩ := List.forall_mem_cons.mp h
    obtain ⟨hr, hrs⟩ := List.forall_mem_cons.mp hrule
    have ih := ih hts hrs
    obtain ⟨rule, start, text, children⟩ := t
    simp only [List.mem_cons, List.not_mem_nil, or_false] at hr
    obtain rfl | rfl | rfl := hr
    · exact (ht.arguments rfl).bind fun args _ => ih _
    · obtain ⟨name, rfl, hname⟩ := ht.here.fits.shape rfl (.inl rfl)
      have hfits := (ht.children name List.mem_cons_self).here.fits
      rw [Tree.reasonsAll, Tree.reasons_of_harmless (by decide : Rule.propertyAccess ∈ _),
        Tree.reasonsAll_singleton, hfits.reasons_eq_empty _ hname (by decide), Set.empty_union]
      exact ih _
    · obtain ⟨key, rfl, hkey⟩ := ht.here.fits.shape rfl (.inl rfl)
      rw [Tree.reasonsAll, Tree.reasons_of_harmless (by decide : Rule.elementAccess ∈ _),
        Tree.reasonsAll_singleton]
      have hkey := (ht.children key List.mem_cons_self).expr (b := b) hkey (by decide)
      exact hkey.bind fun k _ => ih _

theorem propertyKey_verdict {t : Tree} (ht : t.Everywhere Tree.Judged)
    (hrule : t.rule ∈ Rule.propertyName.members) : Verdict (t.reasons b) (propertyKey t) := by
  obtain ⟨rule, start, text, children⟩ := t
  have hrule : rule ∈ [Rule.stringLiteral, .numericLiteral, .identifierName] := hrule
  simp only [List.mem_cons, List.not_mem_nil, or_false] at hrule
  obtain rfl | rfl | rfl := hrule
  · exact stringValue_verdict ht.here.fits rfl fun t' h => (ht.children t' h).here.fits
  · obtain ⟨x, hx⟩ := ht.here.fits.numericValue rfl
    have hfits := ht.here.fits
    rw [hfits.reasons_eq_empty [.numericLiteral] (by simp) (by decide), propertyKey, hx]
    exact .ok
  · have hfits := ht.here.fits
    rw [hfits.reasons_eq_empty [.identifierName] (by simp) (by decide)]
    exact .ok

/-- The properties of an object have the reasons of their values and keys, and a name alone is
refused. -/
theorem Expr.ofProperties_verdict (properties : List Tree)
    (h : ∀ t ∈ properties, t.Everywhere Tree.Judged)
    (hrule : ∀ t ∈ properties, t.rule ∈ [.propertyAssignment, .shorthandProperty]) :
    Verdict (Tree.reasonsAll b properties) (Expr.ofProperties properties) := by
  induction properties with
  | nil => exact .ok
  | cons t properties ih =>
    obtain ⟨ht, hts⟩ := List.forall_mem_cons.mp h
    obtain ⟨hr, hrs⟩ := List.forall_mem_cons.mp hrule
    have ih := ih hts hrs
    obtain ⟨rule, start, text, children⟩ := t
    simp only [List.mem_cons, List.not_mem_nil, or_false] at hr
    obtain rfl | rfl := hr
    · obtain ⟨_, _, rfl, ⟨name, rfl, hname⟩, ⟨init, rfl, hinit⟩⟩ :=
        ht.here.fits.shape rfl (.inl rfl)
      rw [Tree.reasonsAll, Tree.reasons_of_harmless (by decide : Rule.propertyAssignment ∈ _),
        List.singleton_append, Tree.reasonsAll, Tree.reasonsAll_singleton, Set.union_assoc]
      have hname := propertyKey_verdict (b := b) (ht.children name (by simp)) hname
      have hinit := (ht.children init (by simp)).expr (b := b) hinit (by decide)
      exact hname.bind fun key _ => hinit.bind fun value _ => ih.map _
    · exact .inl (Tree.unsupported_mem_reasons (by decide : Rule.shorthandProperty ∈ _))

/-- What is computed of each tree by itself is refused for one of the reasons of these. -/
theorem mapM_verdict {α : Type} {f : Tree → Except ProgramError α} (ts : List Tree)
    (h : ∀ t ∈ ts, Verdict (t.reasons b) (f t)) : Verdict (Tree.reasonsAll b ts) (ts.mapM f) := by
  induction ts with
  | nil => exact .ok
  | cons t ts ih =>
    obtain ⟨ht, hts⟩ := List.forall_mem_cons.mp h
    rw [List.mapM_cons]
    exact ht.bind fun a _ => (ih hts).map _

theorem parameterNames_verdict {t : Tree} (ht : t.Everywhere Tree.Judged)
    (hrule : t.rule = .formalParameters) : Verdict (t.reasons b) (parameterNames t) := by
  obtain ⟨rule, start, text, params⟩ := t
  subst hrule
  have hrules := ht.here.fits.mem_childRules (.inl rfl)
  have hkinds : ∀ r ∈ Rule.formalParameters.childRules, r ≠ .identifier → r ∈ Rule.foreign := by
    decide
  rw [parameterNames, if_pos rfl, Tree.reasons_of_harmless (by decide : Rule.formalParameters ∈ _)]
  refine mapM_verdict params fun p hp => ?_
  split
  · next hrule =>
    have hfits := (ht.children p hp).here.fits
    rw [hfits.reasons_eq_empty [.identifier] (by simp [hrule]) (by decide)]
    exact .ok
  · next hrule => exact Tree.unsupported_mem_reasons (hkinds _ (hrules p hp) hrule)

/-- The statements of a body. The end of a script is among them, and leaves nothing. -/
theorem Stmt.ofTrees_verdict (ts : List Tree) (h : ∀ t ∈ ts, t.Everywhere Tree.Judged)
    (hrule : ∀ t ∈ ts, t.rule ∈ .endOfInput :: Rule.statement.members) :
    Verdict (Tree.reasonsAll b ts) (Stmt.ofTrees b ts) := by
  induction ts with
  | nil => exact .ok
  | cons t ts ih =>
    obtain ⟨ht, hts⟩ := List.forall_mem_cons.mp h
    obtain ⟨hr, hrs⟩ := List.forall_mem_cons.mp hrule
    rw [Stmt.ofTrees]
    split
    · next hend =>
      obtain ⟨rule, start, text, children⟩ := t
      obtain rfl : rule = .endOfInput := hend
      obtain rfl : children = [] := ht.here.fits.shape rfl (.inl rfl)
      rw [Tree.reasonsAll, Tree.reasons_of_harmless (by decide : Rule.endOfInput ∈ _),
        Tree.reasonsAll, Set.empty_union]
      exact ih hts hrs
    · next hend =>
      have hmem : t.rule ∈ Rule.statement.members := (List.mem_cons.mp hr).resolve_left hend
      exact (ht.stmt hmem).bind fun stmt _ => (ih hts hrs).map _

theorem Stmt.ofBlock_verdict {t : Tree} (ht : t.Fits)
    (hbelow : ∀ t' ∈ t.children, t'.Everywhere Tree.Judged) (hrule : t.rule = .block) :
    Verdict (t.reasons b) (Stmt.ofTrees b t.children) := by
  obtain ⟨rule, start, text, children⟩ := t
  subst hrule
  rw [Tree.reasons_of_harmless (by decide : Rule.block ∈ _)]
  refine Stmt.ofTrees_verdict children hbelow fun t hmem => List.mem_cons_of_mem _ ?_
  exact ht.mem_childRules (.inl rfl) t hmem

/-- What a function is made of. Its body is inside of it, whatever is around. -/
theorem Stmt.ofFunction_verdict {params body : Tree} (hparams : params.Everywhere Tree.Judged)
    (hbody : body.Everywhere Tree.Judged) (hrule : params.rule = .formalParameters)
    (hrule' : body.rule = .block) :
    Verdict (params.reasons b ∪ body.reasons true) (Stmt.ofFunction params body) := by
  obtain ⟨rule, start, text, children⟩ := body
  subst hrule'
  have hblock := Stmt.ofBlock_verdict (b := true) hbody.here.fits hbody.children rfl
  exact (parameterNames_verdict hparams hrule).bind fun names _ => hblock.map _

/-- What a variable is declared with is a name, or else not supported. The patterns that the grammar
has are foreign. -/
theorem Tree.Judged.target {t : Tree} (ht : t.Judged)
    (hrule : t.rule ∈ Rule.bindingTarget.members) :
    t.rule = .identifier ∧ t.reasons b = ∅ ∨
      t.rule ≠ .identifier ∧ t.unsupported ∈ t.reasons b := by
  have hforeign : ∀ r ∈ Rule.bindingTarget.members, r ≠ .identifier → r ∈ Rule.foreign := by decide
  by_cases h : t.rule = .identifier
  · exact .inl ⟨h, ht.fits.reasons_eq_empty [.identifier] (by simp [h]) (by decide)⟩
  · exact .inr ⟨h, Tree.unsupported_mem_reasons (hforeign _ hrule h)⟩

/-- The declarators of a statement, each with its name and its initial value if it has one. -/
theorem Stmt.ofDeclarators_verdict (ts : List Tree) (h : ∀ t ∈ ts, t.Everywhere Tree.Judged)
    (hrule : ∀ t ∈ ts, t.rule = .variableDeclaration) :
    Verdict (Tree.reasonsAll b ts) (Stmt.ofDeclarators ts) := by
  induction ts with
  | nil => exact .ok
  | cons t ts ih =>
    obtain ⟨ht, hts⟩ := List.forall_mem_cons.mp h
    obtain ⟨hr, hrs⟩ := List.forall_mem_cons.mp hrule
    have ih := ih hts hrs
    obtain ⟨rule, start, text, children⟩ := t
    obtain rfl : rule = .variableDeclaration := hr
    rw [Tree.reasonsAll, Tree.reasons_of_harmless (by decide : Rule.variableDeclaration ∈ _)]
    obtain ⟨_, _, rfl, ⟨target, rfl, hmember⟩, (⟨init, rfl, hinit⟩ | rfl)⟩ :=
      ht.here.fits.shape rfl (.inl rfl)
    -- with an initial value
    · rw [List.singleton_append, Tree.reasonsAll, Tree.reasonsAll_singleton]
      have hinit := (ht.children init (by simp)).expr (b := b) hinit (by decide)
      obtain ⟨htarget, hnone⟩ | ⟨htarget, hreason⟩ :=
        (ht.children target (by simp)).here.target (b := b) hmember
      · rw [hnone, Set.empty_union, Stmt.ofDeclarators]
        simp only [htarget, ne_eq, not_true_eq_false, if_false]
        exact hinit.bind fun value _ => ih.map _
      · rw [Stmt.ofDeclarators]
        simp only [htarget, ne_eq, not_false_eq_true, if_true]
        exact .inl (.inl hreason)
    -- without one
    · rw [List.append_nil, Tree.reasonsAll_singleton]
      obtain ⟨htarget, hnone⟩ | ⟨htarget, hreason⟩ :=
        (ht.children target (by simp)).here.target (b := b) hmember
      · rw [hnone, Set.empty_union, Stmt.ofDeclarators]
        simp only [htarget, ne_eq, not_true_eq_false, if_false]
        exact ih.map _
      · rw [Stmt.ofDeclarators]
        simp only [htarget, ne_eq, not_false_eq_true, if_true]
        exact .inl hreason

theorem Tree.Everywhere.declarators {t : Tree} (ht : t.Everywhere Tree.Judged)
    (hrule : t.rule = .variableDeclarationList) :
    Verdict (t.reasons b) (Stmt.ofDeclarators t.children) := by
  obtain ⟨rule, start, text, children⟩ := t
  subst hrule
  have hrules : ∀ r ∈ Rule.variableDeclarationList.childRules, r = .variableDeclaration := by
    decide
  rw [Tree.reasons_of_harmless (by decide : Rule.variableDeclarationList ∈ _)]
  refine Stmt.ofDeclarators_verdict children ht.children fun t hmem => hrules _ ?_
  exact ht.here.fits.mem_childRules (.inl rfl) t hmem

end

/-! A tree itself, given the guarantee for every tree below. -/

section

variable {t : Tree} {b : Bool} (ht : t.Fits) (hbelow : ∀ t' ∈ t.children, t'.Everywhere Tree.Judged)

/-- A node that stands for its only child. -/
theorem Verdict.passing {only : Tree} (hchildren : t.children = [only])
    (hreasons : t.reasons b = Tree.reasonsAll b t.children) (heq : Expr.ofTree t = Expr.ofTree only)
    (honly : Verdict (only.reasons b) (Expr.ofTree only)) :
    Verdict (t.reasons b) (Expr.ofTree t) := by
  rw [hreasons, hchildren, Tree.reasonsAll_singleton, heq]
  exact honly

include ht hbelow

/-- A sequence is refused, and a single expression stands for itself. -/
theorem Expr.ofTree_expression (hrule : t.rule = .expression) :
    Verdict (t.reasons b) (Expr.ofTree t) := by
  obtain ⟨rule, start, text, children⟩ := t
  subst hrule
  obtain ⟨_, rest, rfl, ⟨first, rfl, hfirst⟩, -⟩ := ht.shape rfl (.inl rfl)
  cases rest with
  | nil =>
    have hfirst := (hbelow first (by simp)).expr (b := b) hfirst (by decide)
    refine .passing rfl (Tree.reasons_of_clean ⟨nofun, nofun⟩ ?_) rfl hfirst
    exact Nat.not_le_of_lt (Nat.lt_succ_self 1)
  | cons second rest => exact Tree.mem_reasons.mpr (.inl (.sequence rfl (by simp)))

/-- A conditional expression is refused if there is a condition, and otherwise stands for its only
child. -/
theorem Expr.ofTree_conditional (hrule : t.rule = .conditionalExpression) :
    Verdict (t.reasons b) (Expr.ofTree t) := by
  obtain ⟨rule, start, text, children⟩ := t
  subst hrule
  obtain ⟨_, rest, rfl, ⟨first, rfl, hfirst⟩, hrest⟩ := ht.shape rfl (.inl rfl)
  cases rest with
  | nil =>
    have hfirst := (hbelow first (by simp)).expr (b := b) hfirst (by decide)
    refine .passing rfl (Tree.reasons_of_clean ⟨nofun, nofun⟩ ?_) rfl hfirst
    exact Nat.lt_irrefl 1
  | cons second rest => exact Tree.mem_reasons.mpr (.inl (.conditional rfl (by simp)))

/-- An operator in front of its operand is refused, and a node without one stands for its only
child. -/
theorem Expr.ofTree_unary (hrule : t.rule = .unaryExpression) :
    Verdict (t.reasons b) (Expr.ofTree t) := by
  obtain ⟨rule, start, text, children⟩ := t
  subst hrule
  obtain ⟨_, _, rfl, ⟨operator, rfl, hoperator⟩, ⟨operand, rfl, -⟩⟩ | ⟨only, rfl, honly⟩ :=
    ht.shape rfl (.inl rfl)
  · exact Tree.mem_reasons.mpr (.inl (.unary rfl rfl (List.mem_singleton.mp hoperator)))
  · have hverdict := (hbelow only (by simp)).expr (b := b) honly (by decide)
    refine .passing rfl (Tree.reasons_of_clean ⟨nofun, nofun⟩ ?_) rfl hverdict
    rintro ⟨_, ⟨⟩, hoperator⟩
    rw [hoperator] at honly
    exact absurd honly (by decide)

/-- An operator behind its operand is refused, and a node without one stands for its only child. -/
theorem Expr.ofTree_postfix (hrule : t.rule = .postfixExpression) :
    Verdict (t.reasons b) (Expr.ofTree t) := by
  obtain ⟨rule, start, text, children⟩ := t
  subst hrule
  obtain ⟨_, _, rfl, ⟨only, rfl, honly⟩, (⟨operator, rfl, hoperator⟩ | rfl)⟩ :=
    ht.shape rfl (.inl rfl)
  · exact Tree.mem_reasons.mpr
      (.inl (.update rfl (by simp : operator ∈ _) (List.mem_singleton.mp hoperator)))
  · have hverdict := (hbelow only (by simp)).expr (b := b) honly (by decide)
    refine .passing rfl (Tree.reasons_of_clean ⟨nofun, nofun⟩ ?_) rfl hverdict
    rintro ⟨operator, hmem, hoperator⟩
    obtain rfl : operator = only := by simpa using hmem
    rw [hoperator] at honly
    exact absurd honly (by decide)

/-- Calls and accesses are lowered from left to right. -/
theorem Expr.ofTree_leftHandSide (hrule : t.rule = .leftHandSideExpression) :
    Verdict (t.reasons b) (Expr.ofTree t) := by
  obtain ⟨rule, start, text, children⟩ := t
  subst hrule
  obtain ⟨_, suffixes, rfl, ⟨first, rfl, hfirst⟩, hsuffixes⟩ := ht.shape rfl (.inl rfl)
  have hfirst := (hbelow first (by simp)).expr (b := b) hfirst (by decide)
  rw [Tree.reasons_of_harmless (by decide : Rule.leftHandSideExpression ∈ _),
    List.singleton_append, Tree.reasonsAll]
  refine hfirst.bind fun base _ => Expr.ofSuffixes_verdict suffixes ?_ ?_ base
  · exact fun t hmem => hbelow t (by simp [hmem])
  · exact Shape.Fits.mem_rules hsuffixes

/-- Parentheses stand for what is inside. -/
theorem Expr.ofTree_parenthesized (hrule : t.rule = .parenthesizedExpression) :
    Verdict (t.reasons b) (Expr.ofTree t) := by
  obtain ⟨rule, start, text, children⟩ := t
  subst hrule
  obtain ⟨only, rfl, honly⟩ := ht.shape rfl (.inl rfl)
  have honly := (hbelow only (by simp)).expr (b := b) honly (by decide)
  exact .passing rfl (Tree.reasons_of_harmless (by decide : Rule.parenthesizedExpression ∈ _)) rfl
    honly

/-- An assignment is refused if its operator is not the simple one or if its target is none. -/
theorem Expr.ofTree_assignment (hrule : t.rule = .assignmentExpression) :
    Verdict (t.reasons b) (Expr.ofTree t) := by
  obtain ⟨rule, start, text, children⟩ := t
  subst hrule
  obtain ⟨_, _, rfl, ⟨target, rfl, htarget⟩,
    (⟨_, _, rfl, ⟨operator, rfl, hoperator⟩, ⟨value, rfl, hvalue⟩⟩ | rfl)⟩ :=
    ht.shape rfl (.inl rfl)
  · have hderived : target.Derived := (hbelow target (by simp)).induct fun _ h _ => h.fits
    have htarget := (hbelow target (by simp)).expr (b := b) htarget (by decide)
    have hmem : operator.rule ∈ Rule.operators := by
      rw [List.mem_singleton.mp hoperator]
      decide
    have hoperator := Operator.ofTree_verdict (b := b) (hbelow operator (by simp)).here.fits hmem
    have hvalue := (hbelow value (by simp)).expr (b := b) hvalue (by decide)
    have hreasons := Tree.reasons_eq (b := b)
      (t := ⟨.assignmentExpression, start, text, [target, operator, value]⟩)
      ⟨by simp, by simp⟩
    generalize hoffences : Tree.offences b _ = offences at hreasons
    -- the target is looked at before its node is found at fault
    have horder : offences ∪ Tree.reasonsAll b [target, operator, value] =
        target.reasons b ∪ (operator.reasons b ∪ (offences ∪ value.reasons b)) := by
      simp only [Tree.reasonsAll, Set.union_empty]
      rw [Set.union_left_comm, Set.union_left_comm offences]
    change Verdict (Tree.reasons b ⟨_, start, text, [target, operator, value]⟩) _
    rw [hreasons, horder]
    refine htarget.bind fun left hleft => hoperator.bind fun op _ => ?_
    have hiff := Expr.isTarget_iff hderived hleft
    cases hassignable : left.isTarget with
    | true =>
      have hnone : offences = ∅ := by
        subst hoffences
        refine Tree.offences_eq_empty ?_
        rintro ⟨target', _, _, hchildren, htarget'⟩
        obtain ⟨rfl, -⟩ := List.cons.inj hchildren
        exact htarget' (hiff.mp hassignable)
      rw [hnone, Set.empty_union]
      exact hvalue.map _
    | false =>
      refine .inl ?_
      subst hoffences
      exact .target rfl rfl fun h => absurd (hassignable.symm.trans (hiff.mpr h)) (by decide)
  · have hverdict := (hbelow target (by simp)).expr (b := b) htarget (by decide)
    refine .passing rfl (Tree.reasons_of_clean ⟨by simp, by simp⟩ ?_) rfl hverdict
    rintro ⟨_, _, _, hchildren, -⟩
    simp at hchildren

omit ht hbelow in
/-- The children of a chain are an operand, and then operators with their operands. -/
theorem Rule.shape_of_mem_chains {r : Rule} (hr : r ∈ Rule.chains) :
    ∃ operand operator, r.shape? = some (.append (.node [operand])
        (.star (.append (.node [operator]) (.node [operand])))) ∧
      operand ∈ Rule.exprs ∧ operator ∈ Rule.operators := by
  simp only [Rule.chains, List.mem_cons, List.not_mem_nil, or_false] at hr
  rcases hr with rfl | rfl | rfl | rfl | rfl | rfl <;>
    exact ⟨_, _, rfl, by decide, by decide⟩

/-- A chain has the reasons of its operands and of its operators, in the order in which they
stand. -/
theorem Expr.ofTree_chain (hrule : t.rule ∈ Rule.chains) :
    Verdict (t.reasons b) (Expr.ofTree t) := by
  obtain ⟨operand, operator, hshape, hoperand, hoperator⟩ := Rule.shape_of_mem_chains hrule
  have hkind : ∀ r ∈ Rule.chains, r.kind = .plain ∧ r ∈ Rule.harmless := by decide
  obtain ⟨hkind, hharmless⟩ := hkind _ hrule
  obtain ⟨_, _, hchildren, ⟨first, rfl, hfirst⟩, ⟨steps, rfl, hsteps⟩⟩ :=
    ht.shape hshape (.inl hkind)
  have heq : Expr.ofTree t =
      Expr.ofTree first >>= fun left => Expr.ofChain t left steps.flatten := by
    obtain ⟨rule, start, text, children⟩ := t
    obtain rfl : children = _ := hchildren
    simp only [Rule.chains, List.mem_cons, List.not_mem_nil, or_false] at hrule
    rcases hrule with rfl | rfl | rfl | rfl | rfl | rfl <;> rfl
  have hmem : ∀ t', t' ∈ first :: steps.flatten → t'.Everywhere Tree.Judged := by
    rw [hchildren] at hbelow
    exact hbelow
  obtain ⟨hfirst', hmem⟩ := List.forall_mem_cons.mp hmem
  rw [Tree.reasons_of_harmless hharmless, hchildren, List.singleton_append, Tree.reasonsAll, heq]
  have hfirst := hfirst'.expr (b := b) hfirst (by simp [hoperand])
  refine hfirst.bind fun left _ => Expr.ofChain_verdict steps ?_ left
  intro step hstep
  obtain ⟨_, _, rfl, ⟨o, rfl, ho⟩, ⟨u, rfl, hu⟩⟩ := hsteps step hstep
  have ho' := hmem o (List.mem_flatten.mpr ⟨_, hstep, by simp⟩)
  have hu' := hmem u (List.mem_flatten.mpr ⟨_, hstep, by simp⟩)
  refine ⟨o, u, rfl, Operator.ofTree_verdict ho'.here.fits ?_, hu'.expr hu (by simp [hoperand])⟩
  rw [List.mem_singleton.mp ho]
  exact hoperator

omit ht hbelow in
/-- The reasons of a function are those of its parameters and those of its body, which is
inside of it. -/
theorem Tree.reasons_function {rule : Rule} (start : Nat) (text : List Char) {front : List Tree}
    {params body : Tree} (hrule : rule ∈ Rule.functions)
    (hfront : ∀ t ∈ front, t.Fits ∧ t.rule = .identifier)
    (hparams : params.rule = .formalParameters) (hbody : body.rule = .block) :
    (Tree.mk rule start text (front ++ [params, body])).reasons b =
      params.reasons b ∪ body.reasons true := by
  have hclean : ∀ e, ¬(Tree.mk rule start text (front ++ [params, body])).Offends b e := by
    exact fun e he => Tree.not_suspicious (List.mem_append_left _ hrule) he.suspicious
  have hname : ∀ t ∈ front, ∀ b, t.reasons b = ∅ := by
    intro t hmem b
    obtain ⟨hfits, hrule⟩ := hfront t hmem
    exact hfits.reasons_eq_empty [.identifier] (by simp [hrule]) (by decide)
  have hbody' : (Tree.mk rule start text (front ++ [params, body])).isBody body = true := by
    simpa [Tree.isBody, hbody, Rule.functions] using hrule
  have hparams' : (Tree.mk rule start text (front ++ [params, body])).isBody params = false := by
    simp [Tree.isBody, hparams]
  ext e
  rw [Tree.mem_reasons, Set.mem_union]
  refine ⟨?_, ?_⟩
  · rintro (h | ⟨child, hchild, he⟩)
    · exact absurd h (hclean e)
    · simp only [List.mem_append, List.mem_cons, List.not_mem_nil, or_false] at hchild
      rcases hchild with hchild | rfl | rfl
      · rw [hname child hchild] at he
        exact he.elim
      · rw [hparams', Bool.or_false] at he
        exact .inl he
      · rw [hbody', Bool.or_true] at he
        exact .inr he
  · rintro (he | he)
    · exact .inr ⟨params, by simp, by rwa [hparams', Bool.or_false]⟩
    · exact .inr ⟨body, by simp, by rwa [hbody', Bool.or_true]⟩

/-- A function is refused for the reasons of its parameters and of its body, in which a `return` may
stand. -/
theorem Expr.ofTree_function (hrule : t.rule = .functionExpression) :
    Verdict (t.reasons b) (Expr.ofTree t) := by
  obtain ⟨rule, start, text, children⟩ := t
  subst hrule
  obtain ⟨front, _, rfl, hfront, _, _, rfl, ⟨params, rfl, hparams⟩, ⟨body, rfl, hbody⟩⟩ :=
    ht.shape rfl (.inl rfl)
  have hparams' := hbelow params (by simp)
  have hbody' := hbelow body (by simp)
  have hfunction := Stmt.ofFunction_verdict (b := b) hparams' hbody' (List.mem_singleton.mp hparams)
    (List.mem_singleton.mp hbody)
  have hfits : ∀ t ∈ front, t.Fits ∧ t.rule = .identifier := by
    intro t hmem
    refine ⟨(hbelow t (by simp [hmem])).here.fits, ?_⟩
    exact List.mem_singleton.mp (Shape.Fits.mem_rules hfront t hmem)
  have hreasons := Tree.reasons_function (b := b) start text
    (by decide : Rule.functionExpression ∈ _) hfits
    (List.mem_singleton.mp hparams) (List.mem_singleton.mp hbody)
  rw [List.singleton_append, hreasons]
  obtain ⟨name, rfl, -⟩ | rfl := hfront
  · exact hfunction.map _
  · exact hfunction.map _

/-- An object is refused for the reasons of its properties. -/
theorem Expr.ofTree_object (hrule : t.rule = .objectLiteral) :
    Verdict (t.reasons b) (Expr.ofTree t) := by
  obtain ⟨rule, start, text, children⟩ := t
  subst hrule
  have hrules : ∀ r ∈ Rule.objectLiteral.childRules,
      r ∈ [.propertyAssignment, .shorthandProperty] := by decide
  have hchildren := ht.mem_childRules (.inl rfl)
  rw [Tree.reasons_of_harmless (by decide : Rule.objectLiteral ∈ _)]
  exact (Expr.ofProperties_verdict children hbelow fun t h => hrules _ (hchildren t h)).map _

/-- **Expressions are lowered unless there are reasons not to.** Every rule of an expression is one
of those above. -/
theorem Expr.ofTree_verdict (hrule : t.rule ∈ Rule.exprs) :
    Verdict (t.reasons b) (Expr.ofTree t) := by
  have hleaf : t.rule ∈ [.nullLiteral, .booleanLiteral, .numericLiteral, .identifier] →
      t.reasons b = ∅ := fun h => ht.reasons_eq_empty _ h (by decide)
  have hforeign : t.rule ∈ Rule.foreign → t.unsupported ∈ t.reasons b :=
    Tree.unsupported_mem_reasons
  have hnumber : t.rule = .numericLiteral → ∃ x, numericValue t = .ok x := ht.numericValue
  have hstring : t.rule = .stringLiteral → Verdict (t.reasons b) (stringValue t) := fun h =>
    stringValue_verdict ht h fun t' h => (hbelow t' h).here.fits
  obtain ⟨rule, start, text, children⟩ := t
  change rule ∈ Rule.exprs at hrule
  cases rule
  case expression => exact Expr.ofTree_expression ht hbelow rfl
  case assignmentExpression => exact Expr.ofTree_assignment ht hbelow rfl
  case conditionalExpression => exact Expr.ofTree_conditional ht hbelow rfl
  case logicalOrExpression | logicalAndExpression | equalityExpression | relationalExpression
    | additiveExpression | multiplicativeExpression =>
    exact Expr.ofTree_chain ht hbelow (by simp [Rule.chains])
  case unaryExpression => exact Expr.ofTree_unary ht hbelow rfl
  case postfixExpression => exact Expr.ofTree_postfix ht hbelow rfl
  case leftHandSideExpression => exact Expr.ofTree_leftHandSide ht hbelow rfl
  case parenthesizedExpression => exact Expr.ofTree_parenthesized ht hbelow rfl
  case functionExpression => exact Expr.ofTree_function ht hbelow rfl
  case objectLiteral => exact Expr.ofTree_object ht hbelow rfl
  case stringLiteral => exact (hstring rfl).map _
  case numericLiteral =>
    obtain ⟨x, hx⟩ := hnumber rfl
    rw [hleaf (by simp), Expr.ofTree, hx]
    exact .ok
  case nullLiteral | booleanLiteral | identifier =>
    rw [hleaf (by simp)]
    exact .ok
  case thisExpression | newExpression | arrayLiteral => exact hforeign (by simp [Rule.foreign])
  all_goals exact absurd hrule (by decide)

theorem Stmt.ofTree_variable (hrule : t.rule = .variableStatement) :
    Verdict (t.reasons b) (Stmt.ofTree b t) := by
  obtain ⟨rule, start, text, children⟩ := t
  subst hrule
  obtain ⟨_, _, rfl, ⟨kind, rfl, hkind⟩, ⟨list, rfl, hlist⟩⟩ := ht.shape rfl (.inl rfl)
  have hnone := (hbelow kind (by simp)).here.fits.reasons_eq_empty (b := b) _ hkind (by decide)
  have hverdict := (hbelow list (by simp)).declarators (b := b) (List.mem_singleton.mp hlist)
  rw [Tree.reasons_of_harmless (by decide : Rule.variableStatement ∈ _), List.singleton_append,
    Tree.reasonsAll, Tree.reasonsAll_singleton, hnone, Set.empty_union]
  obtain ⟨rule, _, _, _⟩ := kind
  obtain rfl := List.mem_singleton.mp hkind
  obtain ⟨rule, _, _, declarators⟩ := list
  obtain rfl := List.mem_singleton.mp hlist
  exact (hverdict.map _).map _

/-- The declaration of a function is refused for the same reasons as the function. -/
theorem Stmt.ofTree_function (hrule : t.rule = .functionDeclaration) :
    Verdict (t.reasons b) (Stmt.ofTree b t) := by
  obtain ⟨rule, start, text, children⟩ := t
  subst hrule
  obtain ⟨_, _, rfl, ⟨name, rfl, hname⟩, _, _, rfl, ⟨params, rfl, hparams⟩, ⟨body, rfl, hbody⟩⟩ :=
    ht.shape rfl (.inl rfl)
  have hname := List.mem_singleton.mp hname
  have hparams := List.mem_singleton.mp hparams
  have hbody := List.mem_singleton.mp hbody
  have hfunction := Stmt.ofFunction_verdict (b := b) (hbelow params (by simp))
    (hbelow body (by simp)) hparams hbody
  have hfits : ∀ t ∈ [name], t.Fits ∧ t.rule = .identifier := by
    rintro t ⟨⟩
    · exact ⟨(hbelow name (by simp)).here.fits, hname⟩
    · contradiction
  have hreasons := Tree.reasons_function (b := b) start text
    (by decide : Rule.functionDeclaration ∈ _) hfits hparams hbody
  change Verdict (Tree.reasons b ⟨_, start, text, [name] ++ [params, body]⟩) _
  rw [hreasons]
  change Verdict _ (Stmt.ofTree b ⟨_, start, text, [name, params, body]⟩)
  rw [Stmt.ofTree, if_neg (not_not_intro hname)]
  exact hfunction.map _

/-- A conditional is refused for the reasons of its parts, with an alternative or without. -/
theorem Stmt.ofTree_if (hrule : t.rule = .ifStatement) :
    Verdict (t.reasons b) (Stmt.ofTree b t) := by
  obtain ⟨rule, start, text, children⟩ := t
  subst hrule
  obtain ⟨_, _, rfl, ⟨test, rfl, htest⟩, _, _, rfl, ⟨consequent, rfl, hconsequent⟩,
    (⟨alternate, rfl, halternate⟩ | rfl)⟩ := ht.shape rfl (.inl rfl)
  · have htest := (hbelow test (by simp)).expr (b := b) htest (by decide)
    have hconsequent := (hbelow consequent (by simp)).stmt (b := b) hconsequent
    have halternate := (hbelow alternate (by simp)).stmt (b := b) halternate
    have horder : Tree.reasonsAll b [test, consequent, alternate] =
        alternate.reasons b ∪ (test.reasons b ∪ consequent.reasons b) := by
      simp only [Tree.reasonsAll, Set.union_empty]
      rw [← Set.union_assoc, Set.union_comm]
    rw [Tree.reasons_of_harmless (by decide : Rule.ifStatement ∈ _)]
    change Verdict (Tree.reasonsAll b [test, consequent, alternate]) _
    rw [horder]
    exact halternate.bind fun _ _ => htest.bind fun _ _ => hconsequent.map _
  · have htest := (hbelow test (by simp)).expr (b := b) htest (by decide)
    have hconsequent := (hbelow consequent (by simp)).stmt (b := b) hconsequent
    rw [Tree.reasons_of_harmless (by decide : Rule.ifStatement ∈ _), List.append_nil,
      List.singleton_append, Tree.reasonsAll, Tree.reasonsAll_singleton]
    exact htest.bind fun _ _ => hconsequent.map _

/-- A `return` is refused outside of functions, and inside of them for the reasons of its value. -/
theorem Stmt.ofTree_return (hrule : t.rule = .returnStatement) :
    Verdict (t.reasons b) (Stmt.ofTree b t) := by
  obtain ⟨rule, start, text, children⟩ := t
  subst hrule
  cases b with
  | false => exact Tree.mem_reasons.mpr (.inl (.strayReturn rfl rfl))
  | true =>
    have hreasons : (Tree.mk .returnStatement start text children).reasons true =
        Tree.reasonsAll true children := Tree.reasons_of_clean ⟨nofun, nofun⟩ nofun
    rw [hreasons]
    obtain rfl | ⟨value, rfl, hvalue⟩ | rfl := ht.shape rfl (.inl rfl)
    · exact .ok
    · rw [Tree.reasonsAll_singleton]
      exact ((hbelow value (by simp)).expr hvalue (by decide)).map _
    · exact .ok

/-- An expression as a statement is refused for the reasons of the expression. -/
theorem Stmt.ofTree_expression (hrule : t.rule = .expressionStatement) :
    Verdict (t.reasons b) (Stmt.ofTree b t) := by
  obtain ⟨rule, start, text, children⟩ := t
  subst hrule
  obtain ⟨e, rfl, he⟩ := ht.shape rfl (.inl rfl)
  rw [Tree.reasons_of_harmless (by decide : Rule.expressionStatement ∈ _),
    Tree.reasonsAll_singleton]
  exact ((hbelow e (by simp)).expr he (by decide)).map _

/-- **Statements are lowered unless there are reasons not to.** The other statements of the grammar
are foreign, and refused. -/
theorem Stmt.ofTree_verdict (hrule : t.rule ∈ Rule.statement.members) :
    Verdict (t.reasons b) (Stmt.ofTree b t) := by
  have hforeign : t.rule ∈ Rule.foreign → t.unsupported ∈ t.reasons b :=
    Tree.unsupported_mem_reasons
  obtain ⟨rule, start, text, children⟩ := t
  change rule ∈ Rule.statement.members at hrule
  cases rule
  case functionDeclaration => exact Stmt.ofTree_function ht hbelow rfl
  case block => exact (Stmt.ofBlock_verdict ht hbelow rfl).map _
  case ifStatement => exact Stmt.ofTree_if ht hbelow rfl
  case returnStatement => exact Stmt.ofTree_return ht hbelow rfl
  case variableStatement => exact Stmt.ofTree_variable ht hbelow rfl
  case expressionStatement => exact Stmt.ofTree_expression ht hbelow rfl
  case emptyStatement =>
    obtain rfl : children = [] := ht.shape rfl (.inl rfl)
    rw [Tree.reasons_of_harmless (by decide : Rule.emptyStatement ∈ _)]
    exact .ok
  case whileStatement | forStatement | throwStatement | breakStatement | continueStatement =>
    exact hforeign (by simp [Rule.foreign])
  all_goals exact absurd hrule (by decide)

end

/-- **A derived tree is lowered unless there are reasons not to**, and so are the trees
below it. -/
theorem Tree.Everywhere.judged {t : Tree} (ht : t.Derived) : t.Everywhere Tree.Judged :=
  ht.induct fun _ here below =>
    ⟨here, fun h _ => Expr.ofTree_verdict here below h, fun h _ => Stmt.ofTree_verdict here below h⟩

/-! ## Scripts

The tree of a script is derived, and its text is the source.
-/

/-- What a tree holds stands where the tree does. -/
theorem Tree.Holds.standsIn {t u : Tree} {b b' : Bool} {text : List Char} (h : t.Holds b u b')
    (ht : t.Derived) (htext : t.StandsIn 0 text) : u.StandsIn 0 text := by
  induction h with
  | self => exact htext
  | child hchild _ ih => exact ih (ht.children _ hchild) ((ht.here.standsIn _ hchild).trans htext)

/-- A script parses to one tree. -/
theorem parseScript_eq_singleton {source : String} {trees : List Tree}
    (h : parseScript source = .ok trees) :
    ∃ t, trees = [t] ∧ t.rule = .script ∧ t.Derived ∧ t.StandsIn 0 source.toList := by
  obtain ⟨text, rest, hsource, hreads⟩ := Rule.parse_reads h
  have hderived := hreads.derived
  have hstands := hreads.standsIn
  obtain ⟨inner, -, rfl⟩ := Peg.reads_rule_iff.mp hreads
  refine ⟨⟨.script, 0, text, inner⟩, rfl, rfl, hderived _ List.mem_cons_self, ?_⟩
  rw [hsource]
  exact (hstands _ List.mem_cons_self).append_right rest

/-- A script is lowered unless there are reasons not to. -/
theorem Program.ofTrees_verdict {t : Tree} (ht : t.Derived) (hrule : t.rule = .script) :
    Verdict (t.reasons false) (Program.ofTrees [t]) := by
  obtain ⟨rule, start, text, children⟩ := t
  subst hrule
  have hrules : ∀ r ∈ Rule.script.childRules, r ∈ .endOfInput :: Rule.statement.members := by decide
  have hchildren := ht.here.mem_childRules (.inl rfl)
  have hverdict := Stmt.ofTrees_verdict (b := false) children ht.judged.children fun t h =>
    hrules _ (hchildren t h)
  rw [Tree.reasons_of_harmless (by decide : Rule.script ∈ _)]
  exact hverdict.map _

/-- **Lowering accepts exactly the language.** A text that the grammar accepts is a program
if and only if none of its nodes offends, and the error it is refused with is that of an
offending node, with the rule and the text of the node. -/
theorem lowering_verdict {source : String} {trees : List Tree}
    (h : parseScript source = .ok trees) :
    ((∃ p, Program.ofSource source = .ok p) ↔
      ∀ t ∈ trees, ∀ u inFunction, t.Holds false u inFunction → ∀ e, ¬u.Offends inFunction e) ∧
    ∀ e, Program.ofSource source = .error e →
      ∃ t ∈ trees, ∃ u inFunction, t.Holds false u inFunction ∧ u.Offends inFunction e ∧
        u.StandsIn 0 source.toList := by
  obtain ⟨t, rfl, hrule, hderived, hstands⟩ := parseScript_eq_singleton h
  have hsource : Program.ofSource source = Program.ofTrees [t] := by
    delta Program.ofSource
    rw [h]
  have hverdict := Program.ofTrees_verdict hderived hrule
  rw [hsource]
  refine ⟨?_, ?_⟩
  · rw [hverdict.exists_ok_iff, Set.eq_empty_iff_forall_notMem]
    refine ⟨fun hnone t' ht' u b hu e he => ?_, fun hnone e ⟨u, b, hu, he⟩ => ?_⟩
    · obtain rfl := List.mem_singleton.mp ht'
      exact hnone e ⟨u, b, hu, he⟩
    · exact hnone t List.mem_cons_self u b hu e he
  · intro e he
    rw [he] at hverdict
    obtain ⟨u, b, hu, hoffends⟩ := hverdict
    exact ⟨t, List.mem_cons_self, u, b, hu, hoffends, hu.standsIn hderived hstands⟩

/-- A script with a `return` outside of functions and an assignment to a call is refused for
one of the two. -/
theorem lowering_verdict_stray_return :
    ∃ trees e, parseScript "if(a)return;f()=1" = .ok trees ∧
      Program.ofSource "if(a)return;f()=1" = .error e ∧
      ∃ t ∈ trees, ∃ u inFunction, t.Holds false u inFunction ∧ u.Offends inFunction e ∧
        u.StandsIn 0 "if(a)return;f()=1".toList := by
  obtain ⟨trees, htrees⟩ : ∃ trees, parseScript "if(a)return;f()=1" = .ok trees :=
    exists_ok (by decide +kernel)
  have herror : (Program.ofSource "if(a)return;f()=1").isOk = false := by decide +kernel
  cases he : Program.ofSource "if(a)return;f()=1" with
  | ok p =>
    rw [he] at herror
    cases herror
  | error e => exact ⟨trees, e, htrees, rfl, (lowering_verdict htrees).2 e he⟩

end Scriptlet
