import Scriptlet.Proofs.Grammar.Reading
import Scriptlet.Proofs.Program.Shape

/-!
# The programs that texts denote

What every node makes by itself holds everywhere in the program (`Tree.Everywhere.lowers`). A
program that a text denotes assigns to names and members only and returns only inside functions:
`Program.ofSource_proper`. The second is checked as the tree is lowered. The first is checked for
the one rule that is written for assignments; that no other level of operators makes one is up to
the grammar, whose operators at these levels are never a lone `=`.

Lowering is one recursion over trees with a case for every rule. To show that its results have some
property everywhere, it would have to be followed through all of these cases for each property anew.
Instead it is followed once, for a property that holds of what single nodes make: the constructors
of `Expr.AtomOf` and `Stmt.MadeOf` list what these are, with the results for the trees below as
premises. What a property has to satisfy besides is in `Expr.Common`.

* `Tree.Fits.noAssign`: no operator of a chain assigns.
* `Expr.AtomOf`, `Stmt.MadeOf`: what the nodes make by themselves.
* `Tree.Lowers`, `Tree.Everywhere.lowers`: what holds of the parts holds everywhere.
* `Program.ofSource_proper`: targets and returns, for programs from source texts.
-/

namespace Scriptlet

/-- A computation that may be refused is accepted if each of its steps is. Almost every proof about
lowering begins by taking a computation apart with it. -/
theorem bind_eq_ok {ε α β : Type} {x : Except ε α} {f : α → Except ε β} {b : β} :
    x >>= f = .ok b ↔ ∃ a, x = .ok a ∧ f a = .ok b := by
  cases x with
  | error e => exact ⟨nofun, fun ⟨_, h, _⟩ => nomatch h⟩
  | ok a =>
    refine ⟨fun h => ⟨a, rfl, h⟩, ?_⟩
    rintro ⟨_, ⟨⟩, h⟩
    exact h

theorem exists_ok {ε α : Type} {x : Except ε α} (h : x.isOk = true) : ∃ a, x = .ok a := by
  cases x with
  | ok a => exact ⟨a, rfl⟩
  | error e => cases h

/-- What holds at the start of a fold and is kept by its accepted steps holds at its end. Chains,
suffixes and lists of parameters are folded. -/
theorem foldlM_keeps {ε α β : Type} {P : β → Prop} {f : β → α → Except ε β} (l : List α)
    (hf : ∀ b a b', a ∈ l → P b → f b a = .ok b' → P b') {b r : β} (hb : P b)
    (h : l.foldlM f b = .ok r) : P r := by
  induction l generalizing b with
  | nil =>
    obtain rfl := Except.ok.inj h
    exact hb
  | cons a l ih =>
    rw [List.foldlM_cons] at h
    obtain ⟨b', hb', h⟩ := bind_eq_ok.mp h
    refine ih (fun b a b' ha => hf b a b' (List.mem_cons_of_mem _ ha)) ?_ h
    exact hf b a b' List.mem_cons_self hb hb'

/-! ## Chains of operators

Operators are lowered by their text, and a text that is a lone equals sign is lowered to an
assignment. At the levels that are chains no such text can occur, since the operators there are
other words; this is read off the productions.
-/

/-- The operators of the levels that are written as chains. -/
def Rule.chainOperators : List Rule :=
  [.logicalOrOperator, .logicalAndOperator, .equalityOperator, .relationalOperator,
    .additiveOperator, .multiplicativeOperator]

/-- The operators of chains are tokens, and none of them is a lone `=`. -/
theorem Rule.words_of_mem_chainOperators : ∀ r ∈ Rule.chainOperators,
    r.kind = .token ∧ r.body.words?.any (!·.contains ['=']) = true := by
  decide

/-- The text of an operator in a chain is not a lone `=`, which is none of the words of these rules.
-/
theorem Tree.Fits.text_ne_assign {t : Tree} (ht : t.Fits) (hrule : t.rule ∈ Rule.chainOperators) :
    t.text ≠ ['='] := by
  intro htext
  obtain ⟨spacing, -, body⟩ := ht
  obtain ⟨hkind, hany⟩ := Rule.words_of_mem_chainOperators t.rule hrule
  obtain ⟨words, hwords, hnot⟩ := (Option.any_eq_true _ _).mp hany
  rw [Rule.inside, hkind, htext] at body
  have hmem : ['='] ∈ words := body.mem_words hwords
  rw [List.contains_iff_mem.mpr hmem] at hnot
  cases hnot

/-- Operators and operands in turn, the operators never a lone `=`. -/
def Tree.NoAssign : List Tree → Prop
  | operator :: _ :: steps => operator.text ≠ ['='] ∧ NoAssign steps
  | [] => True
  | [_] => False

/-- Operators and operands in turn, and then some more of them. -/
theorem Tree.NoAssign.append {xs ys : List Tree} (hx : NoAssign xs) (hy : NoAssign ys) :
    NoAssign (xs ++ ys) := by
  fun_induction NoAssign xs with
  | case1 operator operand steps ih => exact ⟨hx.1, ih hx.2⟩
  | case2 => exact hy
  | case3 => exact hx.elim

section

variable {operand operator : Rule} {spacing : Spacing} {pos : Nat} {text : List Char}
  {trees : List Tree}

/-- What an operator and the operand behind it make: one node each. -/
theorem Peg.Reads.noAssign (hoperator : operator ∈ Rule.chainOperators)
    (hvisible : operator.visible spacing) (hoperand : operand.visible spacing)
    (h : (Peg.rule operator ++ Peg.rule operand).Reads spacing pos text trees) :
    Tree.NoAssign trees := by
  cases h with
  | seq first between second =>
    have hderived := first.derived
    obtain ⟨inner, -, rfl⟩ := Peg.reads_rule_iff.mp first
    obtain ⟨inner', -, rfl⟩ := Peg.reads_rule_iff.mp second
    rw [Rule.nodes, if_pos hvisible] at hderived ⊢
    rw [Rule.nodes, if_pos hoperand]
    exact ⟨(hderived _ List.mem_cons_self).here.text_ne_assign hoperator, trivial⟩

theorem Peg.Repeats.noAssign (hoperator : operator ∈ Rule.chainOperators)
    (hvisible : operator.visible spacing) (hoperand : operand.visible spacing) {p : Peg}
    (hp : p = rule operator ++ rule operand) {text : List Char} {trees : List Tree} :
    p.Repeats spacing pos text trees → Tree.NoAssign trees
  | .once body => Reads.noAssign hoperator hvisible hoperand (hp ▸ body)
  | .again run _ body =>
    (run.noAssign hoperator hvisible hoperand hp).append
      (Reads.noAssign hoperator hvisible hoperand (hp ▸ body))

/-- A chain is an operand and then operators with their operands. -/
theorem Rule.noAssign_of_chain (hoperator : operator ∈ Rule.chainOperators)
    (hvisible : operator.visible spacing) (hoperand : operand.visible spacing)
    (h : (chain operand operator).Reads spacing pos text trees) :
    Tree.NoAssign trees.tail := by
  cases h with
  | seq first between second =>
    obtain ⟨inner, -, rfl⟩ := Peg.reads_rule_iff.mp first
    rw [Rule.nodes, if_pos hoperand, List.singleton_append, List.tail_cons]
    cases second with
    | never => trivial
    | times run => exact run.noAssign hoperator hvisible hoperand rfl

end

/-- The levels that are written as chains. -/
def Rule.chains : List Rule :=
  [.logicalOrExpression, .logicalAndExpression, .equalityExpression, .relationalExpression,
    .additiveExpression, .multiplicativeExpression]

/-- Each of the levels is a chain, of the operands of the next level. -/
theorem Rule.body_of_mem_chains {r : Rule} (hr : r ∈ Rule.chains) :
    r.kind = .plain ∧ ∃ operand operator, r.body = chain operand operator ∧
      operand.kind = .plain ∧ operator.kind = .token ∧ operator ∈ Rule.chainOperators := by
  simp only [Rule.chains, List.mem_cons, List.not_mem_nil, or_false] at hr
  rcases hr with rfl | rfl | rfl | rfl | rfl | rfl <;>
    exact ⟨rfl, _, _, rfl, rfl, rfl, by decide⟩

/-- The children of a chain are operands and operators in turn, and no operator of them assigns. -/
theorem Tree.Fits.noAssign {t : Tree} (ht : t.Fits) (hrule : t.rule ∈ Rule.chains) :
    NoAssign t.children.tail := by
  obtain ⟨spacing, hvisible, body⟩ := ht
  obtain ⟨hr, operand, operator, hbody, hoperand, hoperator, hmem⟩ := Rule.body_of_mem_chains hrule
  rw [hbody, Rule.inside, hr] at body
  rw [Rule.visible, hr] at hvisible
  refine Rule.noAssign_of_chain hmem ?_ ?_ body
  · rw [Rule.visible, hoperator]
    exact hvisible
  · rw [Rule.visible, hoperand]
    exact hvisible

/-! ## Lowering -/

/-- Only a lone `=` is lowered to an assignment. -/
theorem Operator.text_of_assign {t : Tree} (h : Operator.ofTree t = .ok .assign) :
    t.text = ['='] := by
  rw [Operator.ofTree] at h
  split at h
  · next op hop =>
    obtain rfl := Except.ok.inj h
    grind [Operator.ofToken?]
  · cases h

/-- The rules of the nodes that make an expression by themselves, and not of an operand that
they pass on or of several operands. -/
def Rule.atoms : List Rule :=
  [.functionExpression, .objectLiteral, .identifier, .numericLiteral, .stringLiteral,
    .booleanLiteral, .nullLiteral]

/-- What an atom makes. One constructor for each way in which lowering a node makes an expression of
its own, with the results for its parts. -/
inductive Expr.AtomOf : Tree → Expr → Prop
  | named {start : Nat} {text : List Char} {name params body : Tree} {names : List String}
    {stmts : List Stmt} (h : Stmt.ofFunction params body = .ok (names, stmts)) :
    AtomOf ⟨.functionExpression, start, text, [name, params, body]⟩
      (.function (some name.string) names stmts)
  | nameless {start : Nat} {text : List Char} {params body : Tree} {names : List String}
    {stmts : List Stmt} (h : Stmt.ofFunction params body = .ok (names, stmts)) :
    AtomOf ⟨.functionExpression, start, text, [params, body]⟩ (.function none names stmts)
  | object {start : Nat} {text : List Char} {children : List Tree}
    {properties : List (String × Expr)} (h : Expr.ofProperties children = .ok properties) :
    AtomOf ⟨.objectLiteral, start, text, children⟩ (.object properties)
  | name {t : Tree} (hrule : t.rule = .identifier) : AtomOf t (Expr.ofName t.string)
  | number {t : Tree} {x : Float} (hrule : t.rule = .numericLiteral)
    (h : numericValue t = .ok x) : AtomOf t (.literal (.number x))
  | string {t : Tree} (s : String) : AtomOf t (.literal (.string s))
  | boolean {t : Tree} (b : Bool) : AtomOf t (.literal (.boolean b))
  | null {t : Tree} : AtomOf t (.literal .null)

/-- Lowering an atom is one of these ways. -/
theorem Expr.atomOf {t : Tree} {e : Expr} (hrule : t.rule ∈ Rule.atoms)
    (h : Expr.ofTree t = .ok e) : Expr.AtomOf t e := by
  obtain ⟨rule, start, text, children⟩ := t
  rw [Expr.ofTree.eq_def] at h
  simp only [Rule.atoms, List.mem_cons, List.not_mem_nil, or_false] at hrule
  rcases hrule with rfl | rfl | rfl | rfl | rfl | rfl | rfl
  · dsimp only at h
    split at h
    · obtain ⟨⟨names, stmts⟩, hfunction, h⟩ := bind_eq_ok.mp h
      obtain rfl := Except.ok.inj h
      exact .named hfunction
    · obtain ⟨⟨names, stmts⟩, hfunction, h⟩ := bind_eq_ok.mp h
      obtain rfl := Except.ok.inj h
      exact .nameless hfunction
    · cases h
  · obtain ⟨properties, hproperties, h⟩ := bind_eq_ok.mp h
    obtain rfl := Except.ok.inj h
    exact .object hproperties
  · obtain rfl := Except.ok.inj h
    exact .name rfl
  · obtain ⟨x, hx, h⟩ := bind_eq_ok.mp h
    obtain rfl := Except.ok.inj h
    exact .number rfl hx
  · obtain ⟨s, -, h⟩ := bind_eq_ok.mp h
    obtain rfl := Except.ok.inj h
    exact .string s
  · obtain rfl := Except.ok.inj h
    exact .boolean _
  · obtain rfl := Except.ok.inj h
    exact .null

/-- What a node makes of those below it, if it leaves a statement. The rules that leave none are not
among the constructors. -/
inductive Stmt.MadeOf (inFunction : Bool) : Tree → Stmt → Prop
  | function {start : Nat} {text : List Char} {name params body : Tree} {names : List String}
    {stmts : List Stmt} (hname : name.rule = .identifier)
    (h : Stmt.ofFunction params body = .ok (names, stmts)) :
    MadeOf inFunction ⟨.functionDeclaration, start, text, [name, params, body]⟩
      (.function name.string names stmts)
  | block {start : Nat} {text : List Char} {children : List Tree} {body : List Stmt}
    (h : Stmt.ofTrees inFunction children = .ok body) :
    MadeOf inFunction ⟨.block, start, text, children⟩ (.block body)
  | cond {start : Nat} {text : List Char} {test consequent : Tree} {e : Expr} {c : Option Stmt}
    (htest : Expr.ofTree test = .ok e) (hthen : Stmt.ofTree inFunction consequent = .ok c) :
    MadeOf inFunction ⟨.ifStatement, start, text, [test, consequent]⟩
      (.cond e (Stmt.orEmpty c) none)
  | condElse {start : Nat} {text : List Char} {test consequent alternate : Tree} {e : Expr}
    {c a : Option Stmt} (htest : Expr.ofTree test = .ok e)
    (hthen : Stmt.ofTree inFunction consequent = .ok c)
    (helse : Stmt.ofTree inFunction alternate = .ok a) :
    MadeOf inFunction ⟨.ifStatement, start, text, [test, consequent, alternate]⟩
      (.cond e (Stmt.orEmpty c) (some (Stmt.orEmpty a)))
  | ret {start : Nat} {text : List Char} (hin : inFunction = true) :
    MadeOf inFunction ⟨.returnStatement, start, text, []⟩ (.ret none)
  | retValue {start : Nat} {text : List Char} {value : Tree} {rest : List Tree} {e : Expr}
    (hin : inFunction = true) (h : Expr.ofTree value = .ok e) :
    MadeOf inFunction ⟨.returnStatement, start, text, value :: rest⟩ (.ret (some e))
  | vars {start : Nat} {text : List Char} {children : List Tree} {declarations : List Stmt}
    (h : Stmt.ofDeclarations children = .ok declarations) :
    MadeOf inFunction ⟨.variableStatement, start, text, children⟩ (.block declarations)
  | expr {start : Nat} {text : List Char} {t : Tree} {rest : List Tree} {e : Expr}
    (h : Expr.ofTree t = .ok e) :
    MadeOf inFunction ⟨.expressionStatement, start, text, t :: rest⟩ (.expr e)

/-- Lowering a statement is one of these ways. -/
theorem Stmt.madeOf {inFunction : Bool} {t : Tree} {s : Stmt}
    (h : Stmt.ofTree inFunction t = .ok (some s)) : Stmt.MadeOf inFunction t s := by
  obtain ⟨rule, start, text, children⟩ := t
  rw [Stmt.ofTree.eq_def] at h
  dsimp only at h
  split at h
  case h_1 =>
    split at h
    · split at h
      · cases h
      · next hname =>
        obtain ⟨⟨names, stmts⟩, hfunction, h⟩ := bind_eq_ok.mp h
        obtain rfl := Option.some.inj (Except.ok.inj h)
        exact .function (Decidable.of_not_not hname) hfunction
    · cases h
  case h_2 =>
    obtain ⟨body, hbody, h⟩ := bind_eq_ok.mp h
    obtain rfl := Option.some.inj (Except.ok.inj h)
    exact .block hbody
  case h_3 =>
    split at h
    · obtain ⟨e, htest, h⟩ := bind_eq_ok.mp h
      obtain ⟨c, hthen, h⟩ := bind_eq_ok.mp h
      obtain rfl := Option.some.inj (Except.ok.inj h)
      exact .cond htest hthen
    · obtain ⟨a, helse, h⟩ := bind_eq_ok.mp h
      obtain ⟨e, htest, h⟩ := bind_eq_ok.mp h
      obtain ⟨c, hthen, h⟩ := bind_eq_ok.mp h
      obtain rfl := Option.some.inj (Except.ok.inj h)
      exact .condElse htest hthen helse
    · cases h
  -- a `return`, which is refused outside of functions
  case h_4 =>
    split at h
    · next hin =>
      split at h
      · obtain rfl := Option.some.inj (Except.ok.inj h)
        exact .ret hin
      · obtain ⟨e, hvalue, h⟩ := bind_eq_ok.mp h
        obtain rfl := Option.some.inj (Except.ok.inj h)
        exact .retValue hin hvalue
    · cases h
  case h_5 =>
    obtain ⟨declarations, hdeclarations, h⟩ := bind_eq_ok.mp h
    obtain rfl := Option.some.inj (Except.ok.inj h)
    exact .vars hdeclarations
  case h_6 =>
    split at h
    · cases h
    · obtain ⟨e, he, h⟩ := bind_eq_ok.mp h
      obtain rfl := Option.some.inj (Except.ok.inj h)
      exact .expr he
  case h_7 => cases Except.ok.inj h
  case h_8 => cases h

/-- The property holds of what operators and suffixes make of any operands, and of what stands in
the program without a node of its own: keys, and the initial values that are not written. -/
structure Expr.Common (P : Expr → Prop) : Prop where
  key : ∀ s, P (.literal (.string s))
  undefined : P (.literal .undefined)
  member : ∀ base key, P (.member base key)
  call : ∀ callee args, P (.call callee args)
  binary : ∀ op left right, P (.binary op left right)
  assign : ∀ {target} value, target.isTarget → P (.assign target value)

/-- What the node makes by itself has the properties, and so has a variable of its name. This is
what is asked of every node for the properties to hold everywhere. -/
structure Tree.Makes (P : Expr → Prop) (Q : Stmt → Prop) (t : Tree) : Prop where
  expr : ∀ {e : Expr}, t.rule ∈ Rule.atoms → Expr.ofTree t = .ok e → P e
  stmt : ∀ {inFunction : Bool} {s : Stmt}, Stmt.ofTree inFunction t = .ok (some s) → Q s
  var : ∀ init, t.rule = .identifier → Q (.var t.string init)

/-- What the node is lowered to, as an expression or as a statement, has the properties
everywhere. -/
structure Tree.Lowers (P : Expr → Prop) (Q : Stmt → Prop) (t : Tree) : Prop where
  makes : t.Makes P Q
  expr : ∀ {e : Expr}, Expr.ofTree t = .ok e → e.Everywhere P Q
  stmt : ∀ {inFunction : Bool} {stmt : Option Stmt}, Stmt.ofTree inFunction t = .ok stmt →
    Stmt.EverywhereAll P Q stmt.toList

/-- A branch that leaves no statement becomes an empty block. -/
theorem Stmt.everywhere_orEmpty {P : Expr → Prop} {Q : Stmt → Prop} {stmt : Option Stmt}
    (hempty : Q (.block [])) (h : Stmt.EverywhereAll P Q stmt.toList) :
    (Stmt.orEmpty stmt).Everywhere P Q := by
  cases stmt with
  | none => exact ⟨hempty, trivial⟩
  | some stmt => exact h.1

/-- The name `undefined` is a value and not a name, but either way one expression. -/
theorem Expr.everywhere_ofName {P : Expr → Prop} {Q : Stmt → Prop} {name : String}
    (h : P (Expr.ofName name)) : (Expr.ofName name).Everywhere P Q := by
  by_cases hname : name = "undefined"
  · rw [Expr.ofName, if_pos hname] at h ⊢
    exact h
  · rw [Expr.ofName, if_neg hname] at h ⊢
    exact h

section

variable {P : Expr → Prop} {Q : Stmt → Prop}

/-- What an operator makes of operands with the properties has them too, if it does not assign or
assigns to a target. -/
theorem Operator.apply_everywhere (hP : Expr.Common P) {op : Operator} {left right : Expr}
    (hop : op = .assign → left.isTarget) (hleft : left.Everywhere P Q)
    (hright : right.Everywhere P Q) : (op.apply left right).Everywhere P Q := by
  cases op with
  | binary b => exact ⟨hP.binary _ _ _, hleft, hright⟩
  | assign => exact ⟨hP.assign _ (hop rfl), hleft, hright⟩

/-! The functions that go through lists of trees, given the guarantee for every tree
they meet. -/

/-- Several expressions have the properties everywhere if the trees they are lowered from guarantee
them. -/
theorem Expr.ofTrees_everywhere (ts : List Tree) {es : List Expr}
    (hts : ∀ t ∈ ts, t.Everywhere (Tree.Lowers P Q)) (h : Expr.ofTrees ts = .ok es) :
    Expr.EverywhereAll P Q es := by
  induction ts generalizing es with
  | nil =>
    rw [Expr.ofTrees] at h
    obtain rfl := Except.ok.inj h
    trivial
  | cons t ts ih =>
    rw [List.forall_mem_cons] at hts
    rw [Expr.ofTrees] at h
    obtain ⟨e, he, h⟩ := bind_eq_ok.mp h
    obtain ⟨es', hes, h⟩ := bind_eq_ok.mp h
    obtain rfl := Except.ok.inj h
    exact ⟨hts.1.here.expr he, ih hts.2 hes⟩

/-- A chain folds to the left, and none of its operators assigns. -/
theorem Expr.ofChain_everywhere (hP : Expr.Common P) {self : Tree} (steps : List Tree)
    {left e : Expr} (hts : ∀ t ∈ steps, t.Everywhere (Tree.Lowers P Q))
    (hno : Tree.NoAssign steps) (hleft : left.Everywhere P Q)
    (h : Expr.ofChain self left steps = .ok e) : e.Everywhere P Q := by
  fun_induction Tree.NoAssign steps generalizing left with
  | case1 operator operand steps ih =>
    rw [List.forall_mem_cons, List.forall_mem_cons] at hts
    obtain ⟨-, hoperand, hts⟩ := hts
    rw [Expr.ofChain] at h
    obtain ⟨op, hop, h⟩ := bind_eq_ok.mp h
    obtain ⟨right, hright, h⟩ := bind_eq_ok.mp h
    have hassign : op = .assign → left.isTarget := by
      rintro rfl
      exact absurd (Operator.text_of_assign hop) hno.1
    exact ih hts hno.2
      (Operator.apply_everywhere hP hassign hleft (hoperand.here.expr hright)) h
  | case2 =>
    rw [Expr.ofChain] at h
    obtain rfl := Except.ok.inj h
    exact hleft
  | case3 => exact hno.elim

/-- Calls and accesses keep what holds of their base and of what is inside of them. -/
theorem Expr.ofSuffixes_everywhere (hP : Expr.Common P) (suffixes : List Tree) {base e : Expr}
    (hts : ∀ t ∈ suffixes, t.Everywhere (Tree.Lowers P Q)) (hbase : base.Everywhere P Q)
    (h : Expr.ofSuffixes base suffixes = .ok e) : e.Everywhere P Q := by
  induction suffixes generalizing base with
  | nil =>
    rw [Expr.ofSuffixes] at h
    obtain rfl := Except.ok.inj h
    exact hbase
  | cons t suffixes ih =>
    obtain ⟨rule, start, text, children⟩ := t
    obtain ⟨ht, htail⟩ := List.forall_mem_cons.mp hts
    have hbelow := ht.children
    rw [Expr.ofSuffixes.eq_def] at h
    dsimp only at h hbelow
    split at h
    · obtain ⟨args, hargs, h⟩ := bind_eq_ok.mp h
      refine ih htail ?_ h
      exact ⟨hP.call _ _, hbase, Expr.ofTrees_everywhere children hbelow hargs⟩
    · split at h
      · cases h
      · refine ih htail ?_ h
        exact ⟨hP.member _ _, hbase, hP.key _⟩
    · split at h
      · cases h
      · next key _ =>
        obtain ⟨k, hk, h⟩ := bind_eq_ok.mp h
        refine ih htail ?_ h
        exact ⟨hP.member _ _, hbase, (hbelow key List.mem_cons_self).here.expr hk⟩
    · cases h

/-- The values of properties have what their trees guarantee; keys are no expressions of their
own. -/
theorem Expr.ofProperties_everywhere (ts : List Tree) {properties : List (String × Expr)}
    (hts : ∀ t ∈ ts, t.Everywhere (Tree.Lowers P Q)) (h : Expr.ofProperties ts = .ok properties) :
    Expr.EverywhereProperties P Q properties := by
  induction ts generalizing properties with
  | nil =>
    rw [Expr.ofProperties] at h
    obtain rfl := Except.ok.inj h
    trivial
  | cons t ts ih =>
    obtain ⟨rule, start, text, children⟩ := t
    obtain ⟨ht, htail⟩ := List.forall_mem_cons.mp hts
    have hbelow := ht.children
    rw [Expr.ofProperties.eq_def] at h
    dsimp only at h hbelow
    split at h
    · cases h
    · split at h
      · cases h
      · cases h
      · next name init _ =>
        obtain ⟨key, -, h⟩ := bind_eq_ok.mp h
        obtain ⟨value, hvalue, h⟩ := bind_eq_ok.mp h
        obtain ⟨rest, hrest, h⟩ := bind_eq_ok.mp h
        obtain rfl := Except.ok.inj h
        exact ⟨(hbelow init (by simp)).here.expr hvalue, ih htail hrest⟩

/-- The statements of a body have what their trees guarantee, inside of functions or outside. -/
theorem Stmt.ofTrees_everywhere {inFunction : Bool} (ts : List Tree) {ss : List Stmt}
    (hts : ∀ t ∈ ts, t.Everywhere (Tree.Lowers P Q)) (h : Stmt.ofTrees inFunction ts = .ok ss) :
    Stmt.EverywhereAll P Q ss := by
  induction ts generalizing ss with
  | nil =>
    rw [Stmt.ofTrees] at h
    obtain rfl := Except.ok.inj h
    trivial
  | cons t ts ih =>
    obtain ⟨ht, htail⟩ := List.forall_mem_cons.mp hts
    rw [Stmt.ofTrees] at h
    split at h
    · exact ih htail h
    · obtain ⟨stmt, hstmt, h⟩ := bind_eq_ok.mp h
      obtain ⟨stmts, hstmts, h⟩ := bind_eq_ok.mp h
      obtain rfl := Except.ok.inj h
      exact Stmt.everywhereAll_append (ht.here.stmt hstmt) (ih htail hstmts)

/-- The body of a function has what its tree guarantees. -/
theorem Stmt.ofFunction_everywhere {params t : Tree} {names : List String} {body : List Stmt}
    (ht : t.Everywhere (Tree.Lowers P Q)) (h : Stmt.ofFunction params t = .ok (names, body)) :
    Stmt.EverywhereAll P Q body := by
  obtain ⟨rule, start, text, children⟩ := t
  rw [Stmt.ofFunction.eq_def] at h
  dsimp only at h
  split at h
  · cases h
  · obtain ⟨names', -, h⟩ := bind_eq_ok.mp h
    obtain ⟨body', hbody, h⟩ := bind_eq_ok.mp h
    obtain ⟨rfl, rfl⟩ := Prod.mk.inj (Except.ok.inj h)
    exact Stmt.ofTrees_everywhere children ht.children hbody

/-- Declarators make declarations with initial values of which the same holds. -/
theorem Stmt.ofDeclarators_everywhere (hP : Expr.Common P) (ts : List Tree) {ss : List Stmt}
    (hts : ∀ t ∈ ts, t.Everywhere (Tree.Lowers P Q)) (h : Stmt.ofDeclarators ts = .ok ss) :
    Stmt.EverywhereAll P Q ss := by
  induction ts generalizing ss with
  | nil =>
    rw [Stmt.ofDeclarators] at h
    obtain rfl := Except.ok.inj h
    trivial
  | cons t ts ih =>
    obtain ⟨rule, start, text, children⟩ := t
    obtain ⟨ht, htail⟩ := List.forall_mem_cons.mp hts
    have hbelow := ht.children
    rw [Stmt.ofDeclarators.eq_def] at h
    dsimp only at h hbelow
    split at h
    · cases h
    · next target =>
      split at h
      · cases h
      · next htarget =>
        obtain ⟨rest, hrest, h⟩ := bind_eq_ok.mp h
        obtain rfl := Except.ok.inj h
        have hvar := fun init =>
          (hbelow target (by simp)).here.makes.var init (Decidable.of_not_not htarget)
        exact ⟨⟨hvar _, hP.undefined⟩, ih htail hrest⟩
    · next target init _ =>
      split at h
      · cases h
      · next htarget =>
        obtain ⟨value, hvalue, h⟩ := bind_eq_ok.mp h
        obtain ⟨rest, hrest, h⟩ := bind_eq_ok.mp h
        obtain rfl := Except.ok.inj h
        have hvar :=
          (hbelow target (by simp)).here.makes.var value (Decidable.of_not_not htarget)
        exact ⟨⟨hvar, (hbelow init (by simp)).here.expr hvalue⟩, ih htail hrest⟩

theorem Stmt.ofDeclarations_everywhere (hP : Expr.Common P) (ts : List Tree) {ss : List Stmt}
    (hts : ∀ t ∈ ts, t.Everywhere (Tree.Lowers P Q)) (h : Stmt.ofDeclarations ts = .ok ss) :
    Stmt.EverywhereAll P Q ss := by
  induction ts generalizing ss with
  | nil =>
    rw [Stmt.ofDeclarations] at h
    obtain rfl := Except.ok.inj h
    trivial
  | cons t ts ih =>
    obtain ⟨rule, start, text, children⟩ := t
    obtain ⟨ht, htail⟩ := List.forall_mem_cons.mp hts
    rw [Stmt.ofDeclarations.eq_def] at h
    dsimp only at h
    split at h
    · exact ih htail h
    · obtain ⟨first, hfirst, h⟩ := bind_eq_ok.mp h
      obtain ⟨rest, hrest, h⟩ := bind_eq_ok.mp h
      obtain rfl := Except.ok.inj h
      exact Stmt.everywhereAll_append
        (Stmt.ofDeclarators_everywhere hP children ht.children hfirst) (ih htail hrest)
    · cases h

/-! A tree itself, given the guarantee for every tree below. -/

/-- A node that makes an expression. Levels pass on what stands in them, atoms have the property by
assumption, and what is left is put together from its children. -/
theorem Expr.ofTree_everywhere (hP : Expr.Common P) {t : Tree} {e : Expr} (ht : t.Fits)
    (hmakes : t.Makes P Q) (hbelow : ∀ t' ∈ t.children, t'.Everywhere (Tree.Lowers P Q))
    (h : Expr.ofTree t = .ok e) : e.Everywhere P Q := by
  by_cases hatom : t.rule ∈ Rule.atoms
  · have hself := hmakes.expr hatom h
    cases Expr.atomOf hatom h with
    | @named _ _ _ _ body _ _ hfunction | @nameless _ _ _ body _ _ hfunction =>
      exact ⟨hself, Stmt.ofFunction_everywhere (hbelow body (by simp)) hfunction⟩
    | object hproperties => exact ⟨hself, Expr.ofProperties_everywhere _ hbelow hproperties⟩
    | name _ => exact Expr.everywhere_ofName hself
    | number _ _ | string _ | boolean _ | null => exact hself
  obtain ⟨rule, start, text, children⟩ := t
  rw [Expr.ofTree.eq_def] at h
  dsimp only at h hbelow
  split at h
  -- the levels that pass an operand through
  case h_1 | h_2 | h_3 | h_4 =>
    split at h
    · next only => exact (hbelow only List.mem_cons_self).here.expr h
    · cases h
  -- assignments, whose target is checked
  case h_5 =>
    split at h
    · cases h
    · next only => exact (hbelow only List.mem_cons_self).here.expr h
    · obtain ⟨_, _, h⟩ := bind_eq_ok.mp h
      obtain ⟨_, _, h⟩ := bind_eq_ok.mp h
      cases h
    · next left operator right tail =>
      obtain ⟨target, hleft, h⟩ := bind_eq_ok.mp h
      obtain ⟨op, -, h⟩ := bind_eq_ok.mp h
      split at h
      · cases h
      · next htarget =>
        obtain ⟨value, hright, h⟩ := bind_eq_ok.mp h
        obtain rfl := Except.ok.inj h
        rw [Bool.not_eq_true', Bool.not_eq_false] at htarget
        exact Operator.apply_everywhere hP (fun _ => htarget)
          ((hbelow left (by simp)).here.expr hleft) ((hbelow right (by simp)).here.expr hright)
  -- chains, whose operators do not assign
  case h_6 | h_7 | h_8 | h_9 | h_10 | h_11 =>
    split at h
    · cases h
    · next first steps =>
      obtain ⟨left, hfirst, h⟩ := bind_eq_ok.mp h
      obtain ⟨hleft, hsteps⟩ := List.forall_mem_cons.mp hbelow
      exact Expr.ofChain_everywhere hP steps hsteps (ht.noAssign (by simp [Rule.chains]))
        (hleft.here.expr hfirst) h
  case h_12 =>
    split at h
    · cases h
    · next first suffixes =>
      obtain ⟨base, hfirst, h⟩ := bind_eq_ok.mp h
      obtain ⟨hbase, hsuffixes⟩ := List.forall_mem_cons.mp hbelow
      exact Expr.ofSuffixes_everywhere hP suffixes hsuffixes (hbase.here.expr hfirst) h
  case h_13 =>
    split at h
    · cases h
    · next inner _ => exact (hbelow inner List.mem_cons_self).here.expr h
  case h_14 | h_15 | h_16 | h_17 | h_18 | h_19 | h_20 =>
    simp [Rule.atoms] at hatom
  case h_21 => cases h

theorem Stmt.ofTree_everywhere (hP : Expr.Common P) (hempty : Q (.block [])) {inFunction : Bool}
    {t : Tree} {stmt : Option Stmt} (hmakes : t.Makes P Q)
    (hbelow : ∀ t' ∈ t.children, t'.Everywhere (Tree.Lowers P Q))
    (h : Stmt.ofTree inFunction t = .ok stmt) : Stmt.EverywhereAll P Q stmt.toList := by
  cases stmt with
  | none => trivial
  | some s =>
    have hself := hmakes.stmt h
    refine ⟨?_, trivial⟩
    cases Stmt.madeOf h with
    | @function _ _ _ _ body _ _ _ hfunction =>
      exact ⟨hself, Stmt.ofFunction_everywhere (hbelow body (by simp)) hfunction⟩
    | block hbody => exact ⟨hself, Stmt.ofTrees_everywhere _ hbelow hbody⟩
    | @cond _ _ test consequent _ _ htest hthen =>
      have htest := (hbelow test (by simp)).here.expr htest
      have hthen := (hbelow consequent (by simp)).here.stmt hthen
      exact ⟨hself, htest, Stmt.everywhere_orEmpty hempty hthen⟩
    | @condElse _ _ test consequent alternate _ _ _ htest hthen helse =>
      have htest := (hbelow test (by simp)).here.expr htest
      have hthen := (hbelow consequent (by simp)).here.stmt hthen
      have helse := (hbelow alternate (by simp)).here.stmt helse
      exact ⟨hself, htest, Stmt.everywhere_orEmpty hempty hthen,
        Stmt.everywhere_orEmpty hempty helse⟩
    | ret _ => exact hself
    | retValue _ he => exact ⟨hself, (hbelow _ List.mem_cons_self).here.expr he⟩
    | vars hdecl => exact ⟨hself, Stmt.ofDeclarations_everywhere hP _ hbelow hdecl⟩
    | expr he => exact ⟨hself, (hbelow _ List.mem_cons_self).here.expr he⟩

/-- **What every node makes by itself holds everywhere** in what the nodes of a derived tree are
lowered to. The induction is on the tree. -/
theorem Tree.Everywhere.lowers (hP : Expr.Common P) (hempty : Q (.block [])) {t : Tree}
    (ht : t.Everywhere fun t => t.Fits ∧ t.Makes P Q) : t.Everywhere (Tree.Lowers P Q) :=
  ht.induct fun _ here below =>
    ⟨here.2, Expr.ofTree_everywhere hP here.1 here.2 below,
      Stmt.ofTree_everywhere hP hempty here.2 below⟩

end

/-! ## Targets

The first use: that assignments go to names and members.
-/

/-- An assignment is only made of a target, and nothing else is asked. -/
theorem Expr.common_hasTarget : Expr.Common Expr.HasTarget where
  key := fun _ => trivial
  undefined := trivial
  member := fun _ _ => trivial
  call := fun _ _ => trivial
  binary := fun _ _ _ => trivial
  assign := fun _ h => h

/-- No node but those of operators makes an assignment. -/
theorem Tree.makes_hasTarget (t : Tree) : t.Makes Expr.HasTarget fun _ => True where
  stmt := fun _ => trivial
  var := fun _ _ => trivial
  expr := fun hrule h => by
    cases Expr.atomOf hrule h with
    | name _ =>
      rw [Expr.ofName]
      split <;> trivial
    | named _ | nameless _ | object _ | number _ _ | string _ | boolean _ | null => trivial

/-! ## Returns

The second property does not pass into functions and is shown by a smaller induction of its own,
along the statements.
-/

theorem Stmt.returnless_orEmpty {stmt : Option Stmt} (h : Stmt.ReturnlessAll stmt.toList) :
    (Stmt.orEmpty stmt).Returnless := by
  cases stmt with
  | none => trivial
  | some stmt => exact h.1

/-- The statement of the tree has no `return` but inside functions, if it is not inside one. -/
def Tree.LowersReturnless (t : Tree) : Prop :=
  ∀ {stmt : Option Stmt}, Stmt.ofTree false t = .ok stmt → Stmt.ReturnlessAll stmt.toList

/-- The statements of a body, given the statement for each. -/
theorem Stmt.ofTrees_returnless (ts : List Tree) {ss : List Stmt}
    (hts : ∀ t ∈ ts, t.Everywhere Tree.LowersReturnless) (h : Stmt.ofTrees false ts = .ok ss) :
    Stmt.ReturnlessAll ss := by
  induction ts generalizing ss with
  | nil =>
    rw [Stmt.ofTrees] at h
    obtain rfl := Except.ok.inj h
    trivial
  | cons t ts ih =>
    obtain ⟨ht, htail⟩ := List.forall_mem_cons.mp hts
    rw [Stmt.ofTrees] at h
    split at h
    · exact ih htail h
    · obtain ⟨stmt, hstmt, h⟩ := bind_eq_ok.mp h
      obtain ⟨stmts, hstmts, h⟩ := bind_eq_ok.mp h
      obtain rfl := Except.ok.inj h
      exact Stmt.returnlessAll_append (ht.here hstmt) (ih htail hstmts)

/-- Every declarator makes the declaration of one variable. -/
theorem Stmt.ofDeclarators_isVar (ts : List Tree) {ss : List Stmt}
    (h : Stmt.ofDeclarators ts = .ok ss) : ss.length = ts.length ∧ ∀ s ∈ ss, s.isVar := by
  induction ts generalizing ss with
  | nil =>
    rw [Stmt.ofDeclarators] at h
    obtain rfl := Except.ok.inj h
    exact ⟨rfl, nofun⟩
  | cons t ts ih =>
    obtain ⟨rule, start, text, children⟩ := t
    have hcons : ∀ {name : String} {init : Expr} {rest : List Stmt},
        Stmt.ofDeclarators ts = .ok rest →
          (Stmt.var name init :: rest).length = ts.length + 1 ∧
            ∀ s ∈ Stmt.var name init :: rest, s.isVar := by
      intro name init rest hrest
      obtain ⟨hlength, hvars⟩ := ih hrest
      exact ⟨congrArg (· + 1) hlength, List.forall_mem_cons.mpr ⟨rfl, hvars⟩⟩
    rw [Stmt.ofDeclarators.eq_def] at h
    dsimp only at h
    split at h
    · cases h
    · split at h
      · cases h
      · obtain ⟨rest, hrest, h⟩ := bind_eq_ok.mp h
        obtain rfl := Except.ok.inj h
        exact hcons hrest
    · split at h
      · cases h
      · obtain ⟨value, -, h⟩ := bind_eq_ok.mp h
        obtain ⟨rest, hrest, h⟩ := bind_eq_ok.mp h
        obtain rfl := Except.ok.inj h
        exact hcons hrest

/-- A variable's statement is lowered to such declarations and nothing else. -/
theorem Stmt.ofDeclarations_isVar (ts : List Tree) {ss : List Stmt}
    (h : Stmt.ofDeclarations ts = .ok ss) : ∀ s ∈ ss, s.isVar := by
  induction ts generalizing ss with
  | nil =>
    rw [Stmt.ofDeclarations] at h
    obtain rfl := Except.ok.inj h
    exact nofun
  | cons t ts ih =>
    obtain ⟨rule, start, text, children⟩ := t
    rw [Stmt.ofDeclarations.eq_def] at h
    dsimp only at h
    split at h
    · exact ih h
    · obtain ⟨first, hfirst, h⟩ := bind_eq_ok.mp h
      obtain ⟨rest, hrest, h⟩ := bind_eq_ok.mp h
      obtain rfl := Except.ok.inj h
      exact List.forall_mem_append.mpr ⟨(Stmt.ofDeclarators_isVar children hfirst).2, ih hrest⟩
    · cases h

/-- Outside of functions a `return` is refused, so a statement that was not refused has none. -/
theorem Stmt.ofTree_returnless {t : Tree}
    (hbelow : ∀ t' ∈ t.children, t'.Everywhere Tree.LowersReturnless) : t.LowersReturnless := by
  intro stmt h
  cases stmt with
  | none => trivial
  | some s =>
    refine ⟨?_, trivial⟩
    cases Stmt.madeOf h with
    | function _ _ | expr _ => trivial
    | block hbody => exact Stmt.ofTrees_returnless _ hbelow hbody
    | @cond _ _ _ consequent _ _ _ hthen =>
      exact Stmt.returnless_orEmpty ((hbelow consequent (by simp)).here hthen)
    | @condElse _ _ _ consequent alternate _ _ _ _ hthen helse =>
      exact ⟨Stmt.returnless_orEmpty ((hbelow consequent (by simp)).here hthen),
        Stmt.returnless_orEmpty ((hbelow alternate (by simp)).here helse)⟩
    | ret hin | retValue hin _ => cases hin
    | vars hdecl => exact Stmt.returnlessAll_of_isVar (Stmt.ofDeclarations_isVar _ hdecl)

/-! ## Programs -/

/-- What lowering guarantees of statements. -/
structure Stmt.Proper (inFunction : Bool) (ss : List Stmt) : Prop where
  targets : Stmt.WellTargetedAll ss
  returns : inFunction = false → Stmt.ReturnlessAll ss

/-- A program from derived trees has both. -/
theorem Program.ofTrees_proper {trees : List Tree} {p : Program}
    (ht : ∀ t ∈ trees, t.Derived) (h : Program.ofTrees trees = .ok p) : Stmt.Proper false p := by
  rw [Program.ofTrees] at h
  have hnil : Stmt.Proper false [] := ⟨trivial, fun _ => trivial⟩
  refine foldlM_keeps trees ?_ hnil h
  intro program t program' hmem hprogram hstep
  split at hstep
  · have hmakes := (ht t hmem).induct (Q := fun t => t.Fits ∧ t.Makes Expr.HasTarget fun _ => True)
      fun t here _ => ⟨here, t.makes_hasTarget⟩
    have hlowers := Tree.Everywhere.lowers Expr.common_hasTarget trivial hmakes
    have hreturnless := (ht t hmem).induct fun _ _ => Stmt.ofTree_returnless
    exact ⟨Stmt.ofTrees_everywhere t.children hlowers.children hstep,
      fun _ => Stmt.ofTrees_returnless t.children hreturnless.children hstep⟩
  · obtain rfl := Except.ok.inj hstep
    exact hprogram
  · cases hstep

/-- **The program of a source text is proper**: it assigns to names and members only
and returns only inside functions. -/
theorem Program.ofSource_proper {source : String} {p : Program}
    (h : Program.ofSource source = .ok p) : Stmt.Proper false p := by
  -- not by its equation, which takes long to prove
  delta Program.ofSource at h
  split at h
  · next trees htrees => exact Program.ofTrees_proper (Rule.parse_derived htrees) h
  · cases h

end Scriptlet
