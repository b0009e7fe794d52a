import Scriptlet.Proofs.Grammar.Matching
import Scriptlet.Proofs.Program.Supported

/-!
# Lowering bare trees

Lowering looks at the rules of nodes and at the texts of tokens; what it reads elsewhere, the text
of a whole statement for instance, it reads for its errors only. A derived tree and its bare form
are therefore lowered to the same program, or both refused (`Tree.Everywhere.bare`). The errors may
differ in the texts they quote, so what is compared is the result alone (`Agree`).

This is the bridge between matches and programs. A match makes bare trees, which do not change when
a text is respaced or extended; parsing makes full ones, and lowering is defined on those.

The proof is an induction on the tree along with its shape: which children a node has is known from
the grammar (`Tree.Fits`), and it has to be, because the result of lowering a node of some
unexpected shape could depend on its text. One lemma for each of the lowering functions, given the
statement for the trees below.
-/

namespace Scriptlet

/-- The computations have the same result, or both none. The errors are not compared. -/
def Agree {α : Type} (x y : Except ProgramError α) : Prop := x.toOption = y.toOption

namespace Agree

variable {α β : Type} {x y : Except ProgramError α}

theorem refl (x : Except ProgramError α) : Agree x x := rfl

theorem error {e e' : ProgramError} : Agree (.error e : Except ProgramError α) (.error e') :=
  rfl

/-- Computations that agree go on to agree if what comes behind them does, for every result. -/
theorem bind {f g : α → Except ProgramError β} (hx : Agree x y) (hf : ∀ a, Agree (f a) (g a)) :
    Agree (x >>= f) (y >>= g) := by
  cases x with
  | error e =>
    cases y with
    | error e' => exact error
    | ok b => cases hx
  | ok a =>
    cases y with
    | error e' => cases hx
    | ok b =>
      obtain rfl := Option.some.inj hx
      exact hf a

theorem map (f : α → β) (hx : Agree x y) : Agree (f <$> x) (f <$> y) :=
  hx.bind fun _ => refl _

/-- If two computations agree, each result of one is a result of the other. -/
theorem ok_iff (h : Agree x y) {a : α} : x = .ok a ↔ y = .ok a := by
  have hok : ∀ z : Except ProgramError α, z = .ok a ↔ z.toOption = some a := by
    intro z
    cases z with
    | error e => exact iff_of_false nofun nofun
    | ok b => exact ⟨fun h => h ▸ rfl, fun h => congrArg _ (Option.some.inj h)⟩
  rw [hok, hok, h]

end Agree

namespace Tree

@[simp] theorem core_rule (t : Tree) : t.core.rule = t.rule := by
  obtain ⟨rule, start, text, children⟩ := t
  rfl

@[simp] theorem core_children (t : Tree) : t.core.children = coreAll t.children := by
  obtain ⟨rule, start, text, children⟩ := t
  rfl

/-- The text of a token is part of its bare form, since it is what the token means. -/
theorem core_text {t : Tree} (ht : t.rule.kind = .token) : t.core.text = t.text := by
  obtain ⟨rule, start, text, children⟩ := t
  exact if_pos ht

theorem core_string {t : Tree} (ht : t.rule.kind = .token) : t.core.string = t.string :=
  congrArg String.ofList (core_text ht)

/-- A node of one of several rules that are all tokens is a token. -/
theorem token_of_mem {t : Tree} {rules : List Rule} (ht : t.rule ∈ rules)
    (hrules : ∀ r ∈ rules, r.kind = .token) : t.rule.kind = .token :=
  hrules _ ht

end Tree

/-- A tree is lowered as its bare form is, whether as an expression or as a statement. That the tree
fits the grammar is carried along, as what is said of its parents depends on it. -/
structure Tree.Bare (t : Tree) : Prop where
  fits : t.Fits
  expr : Agree (Expr.ofTree t.core) (Expr.ofTree t)
  stmt : ∀ b, Agree (Stmt.ofTree b t.core) (Stmt.ofTree b t)

/-! ## Tokens

Operators, literals and names are lowered by their text, and bare tokens have it.
-/

theorem Operator.ofTree_core {t : Tree} (ht : t.rule.kind = .token) :
    Agree (Operator.ofTree t.core) (Operator.ofTree t) := by
  rw [Operator.ofTree, Operator.ofTree, Tree.core_text ht]
  cases Operator.ofToken? t.text with
  | none => exact .error
  | some op => exact .refl _

theorem numericValue_core {t : Tree} (ht : t.rule.kind = .token) :
    Agree (numericValue t.core) (numericValue t) := by
  rw [numericValue, numericValue, Tree.core_text ht]
  cases numericLiteral? t.text with
  | none => exact .error
  | some x => exact .refl _

/-- A string literal is not a token: its node has a child for what is between the quotes, and that
one is. -/
theorem stringValue_core {t : Tree} (ht : t.Fits) (hrule : t.rule = .stringLiteral) :
    Agree (stringValue t.core) (stringValue t) := by
  obtain ⟨rule, start, text, children⟩ := t
  subst hrule
  obtain ⟨chars, rfl, hchars⟩ := ht.shape rfl (.inr rfl)
  have htext : chars.core.text = chars.text :=
    Tree.core_text (Tree.token_of_mem hchars (by decide))
  rw [stringValue, stringValue, Tree.core, Tree.coreAll, List.head?_cons, List.head?_cons,
    Option.map_some, Option.map_some, htext, Option.getD_some]
  cases unescape chars.text with
  | none => exact .error
  | some x => exact .refl _

/-- The key of a property is a name, a number or a string. -/
theorem propertyKey_core {t : Tree} (ht : t.Fits) : Agree (propertyKey t.core) (propertyKey t) := by
  rw [propertyKey, propertyKey, Tree.core_rule]
  split
  · next hrule =>
    rw [Tree.core_string (hrule ▸ rfl)]
    exact .refl _
  · next hrule => exact stringValue_core ht hrule
  · next hrule => exact (numericValue_core (hrule ▸ rfl)).map _
  · exact .error

/-- Parameters are read off the rules and texts of names. -/
theorem parameterNames_core (t : Tree) : Agree (parameterNames t.core) (parameterNames t) := by
  rw [parameterNames, parameterNames, Tree.core_rule, Tree.core_children]
  split
  · generalize t.children = params
    induction params with
    | nil => exact .refl _
    | cons p params ih =>
      rw [Tree.coreAll, List.mapM_cons, List.mapM_cons]
      refine Agree.bind ?_ fun _ => ih.map _
      rw [Tree.core_rule]
      split
      · next hrule =>
        rw [Tree.core_string (hrule ▸ rfl)]
        exact .refl _
      · exact .error
  · exact .error

/-! ## Lists of trees

The functions that go through the children of a node, given that the children agree with their bare
forms.
-/

section

variable {ts : List Tree} (h : ∀ t ∈ ts, t.Everywhere Tree.Bare)
include h

theorem Expr.ofTrees_core : Agree (Expr.ofTrees (Tree.coreAll ts)) (Expr.ofTrees ts) := by
  induction ts with
  | nil => exact .refl _
  | cons t ts ih =>
    obtain ⟨ht, hts⟩ := List.forall_mem_cons.mp h
    exact ht.here.expr.bind fun e => (ih hts).map _

/-- Calls and accesses behind an operand. The name of a property is read as a text, so it has to be
a token. -/
theorem Expr.ofSuffixes_core (hrule : ∀ t ∈ ts, t.rule = .propertyAccess →
      ∀ t' ∈ t.children, t'.rule.kind = .token) (base : Expr) :
    Agree (Expr.ofSuffixes base (Tree.coreAll ts)) (Expr.ofSuffixes base ts) := by
  induction ts generalizing base with
  | nil => exact .refl _
  | cons t ts ih =>
    obtain ⟨ht, hts⟩ := List.forall_mem_cons.mp h
    obtain ⟨hr, hrs⟩ := List.forall_mem_cons.mp hrule
    have ih := ih hts hrs
    obtain ⟨rule, start, text, children⟩ := t
    rw [Tree.coreAll, Tree.core, Expr.ofSuffixes.eq_def, Expr.ofSuffixes.eq_def base (_ :: ts)]
    dsimp only
    split
    · exact (Expr.ofTrees_core ht.children).bind fun args => ih _
    · cases children with
      | nil => exact .error
      | cons name rest =>
        rw [Tree.coreAll]
        dsimp only
        rw [Tree.core_string (hr rfl name List.mem_cons_self)]
        exact ih _
    · cases children with
      | nil => exact .error
      | cons key rest => exact (ht.children key List.mem_cons_self).here.expr.bind fun k => ih _
    · exact .error

/-- The properties of an object, of which each has its key and its value. -/
theorem Expr.ofProperties_core :
    Agree (Expr.ofProperties (Tree.coreAll ts)) (Expr.ofProperties ts) := by
  induction ts with
  | nil => exact .refl _
  | cons t ts ih =>
    obtain ⟨ht, hts⟩ := List.forall_mem_cons.mp h
    obtain ⟨rule, start, text, children⟩ := t
    rw [Tree.coreAll, Tree.core, Expr.ofProperties.eq_def, Expr.ofProperties.eq_def (_ :: ts)]
    dsimp only
    split
    · exact .error
    · obtain _ | ⟨key, _ | ⟨init, _⟩⟩ := children
      · exact .error
      · exact .error
      · have hkey := propertyKey_core (ht.children key (by simp)).here.fits
        have hinit := (ht.children init (by simp)).here.expr
        exact hkey.bind fun key => hinit.bind fun value => (ih hts).map _

/-- The statements of a body; a statement that leaves nothing leaves nothing in both. -/
theorem Stmt.ofTrees_core (b : Bool) :
    Agree (Stmt.ofTrees b (Tree.coreAll ts)) (Stmt.ofTrees b ts) := by
  induction ts with
  | nil => exact .refl _
  | cons t ts ih =>
    obtain ⟨ht, hts⟩ := List.forall_mem_cons.mp h
    rw [Tree.coreAll, Stmt.ofTrees, Stmt.ofTrees, Tree.core_rule]
    split
    · exact ih hts
    · exact (ht.here.stmt b).bind fun stmt => (ih hts).map _

theorem Stmt.ofDeclarators_core :
    Agree (Stmt.ofDeclarators (Tree.coreAll ts)) (Stmt.ofDeclarators ts) := by
  induction ts with
  | nil => exact .refl _
  | cons t ts ih =>
    obtain ⟨ht, hts⟩ := List.forall_mem_cons.mp h
    obtain ⟨rule, start, text, children⟩ := t
    rw [Tree.coreAll, Tree.core]
    obtain _ | ⟨target, _ | ⟨init, rest⟩⟩ := children
    · exact .error
    · simp only [Tree.coreAll, Stmt.ofDeclarators, Tree.core_rule]
      split
      · exact .error
      · next hrule =>
        rw [Tree.core_string (not_not.mp hrule ▸ rfl)]
        exact (ih hts).map _
    · simp only [Tree.coreAll, Stmt.ofDeclarators, Tree.core_rule]
      split
      · exact .error
      · next hrule =>
        rw [Tree.core_string (not_not.mp hrule ▸ rfl)]
        exact (ht.children init (by simp)).here.expr.bind fun value => (ih hts).map _

theorem Stmt.ofDeclarations_core :
    Agree (Stmt.ofDeclarations (Tree.coreAll ts)) (Stmt.ofDeclarations ts) := by
  induction ts with
  | nil => exact .refl _
  | cons t ts ih =>
    obtain ⟨ht, hts⟩ := List.forall_mem_cons.mp h
    obtain ⟨rule, start, text, children⟩ := t
    rw [Tree.coreAll, Tree.core, Stmt.ofDeclarations.eq_def, Stmt.ofDeclarations.eq_def (_ :: ts)]
    dsimp only
    split
    · exact ih hts
    · exact (Stmt.ofDeclarators_core ht.children).bind fun first => (ih hts).map _
    · exact .error

end

/-- A chain in which the operators are tokens. The tree of the whole chain is passed along for
errors only, so that it may be any other. -/
theorem Expr.ofChain_core (steps : List (List Tree))
    (h : ∀ step ∈ steps, ∃ operator operand, step = [operator, operand] ∧
      operator.rule.kind = .token ∧ operand.Bare) (self self' : Tree) (left : Expr) :
    Agree (Expr.ofChain self' left (Tree.coreAll steps.flatten))
      (Expr.ofChain self left steps.flatten) := by
  induction steps generalizing left with
  | nil => exact .refl _
  | cons step steps ih =>
    obtain ⟨⟨operator, operand, rfl, hoperator, hoperand⟩, hsteps⟩ := List.forall_mem_cons.mp h
    exact (Operator.ofTree_core hoperator).bind fun op =>
      hoperand.expr.bind fun right => ih hsteps _

theorem Stmt.ofFunction_core (params : Tree) {body : Tree} (hbody : body.Everywhere Tree.Bare) :
    Agree (Stmt.ofFunction params.core body.core) (Stmt.ofFunction params body) := by
  obtain ⟨rule, start, text, children⟩ := body
  rw [Tree.core, Stmt.ofFunction, Stmt.ofFunction]
  dsimp only
  split
  · exact .error
  · exact (parameterNames_core params).bind fun names =>
      (Stmt.ofTrees_core hbody.children true).map _

/-! ## Trees

The statement for a node, given that it fits the grammar and given the statement for the trees
below.
-/

section

variable {t : Tree} (ht : t.Fits) (hbelow : ∀ t' ∈ t.children, t'.Everywhere Tree.Bare)
include ht hbelow

/-- The levels of operators between operands, which are lowered alike. -/
theorem Expr.ofTree_chain_core (hrule : t.rule ∈ Rule.chains) :
    Agree (Expr.ofTree t.core) (Expr.ofTree t) := by
  obtain ⟨operand, operator, hshape, -, hoperator⟩ := Rule.shape_of_mem_chains hrule
  have hkind : ∀ r ∈ Rule.chains, r.kind = .plain := by decide
  have htoken : ∀ r ∈ Rule.operators, r.kind = .token := by decide
  obtain ⟨_, _, hchildren, ⟨first, rfl, -⟩, ⟨steps, rfl, hsteps⟩⟩ :=
    ht.shape hshape (.inl (hkind _ hrule))
  have hmem : ∀ t' ∈ first :: steps.flatten, t'.Everywhere Tree.Bare := by
    rw [hchildren] at hbelow
    exact hbelow
  have heq : ∀ {t : Tree} {first : Tree} {steps : List Tree}, t.rule ∈ Rule.chains →
      t.children = first :: steps →
        Expr.ofTree t = Expr.ofTree first >>= fun left => Expr.ofChain t left steps := by
    rintro ⟨rule, start, text, children⟩ first steps hrule rfl
    simp only [Rule.chains, List.mem_cons, List.not_mem_nil, or_false] at hrule
    rcases hrule with rfl | rfl | rfl | rfl | rfl | rfl <;> rfl
  rw [heq hrule hchildren, heq (t := t.core) (by rwa [Tree.core_rule])
    (by rw [Tree.core_children, hchildren]; rfl)]
  obtain ⟨hfirst, hmem⟩ := List.forall_mem_cons.mp hmem
  refine hfirst.here.expr.bind fun left => Expr.ofChain_core steps (fun step hstep => ?_) _ _ left
  obtain ⟨_, _, rfl, ⟨o, rfl, ho⟩, ⟨u, rfl, -⟩⟩ := hsteps step hstep
  refine ⟨o, u, rfl, ?_, (hmem u (List.mem_flatten.mpr ⟨_, hstep, by simp⟩)).here⟩
  rw [List.mem_singleton.mp ho]
  exact htoken _ hoperator

/-- The cases are those of lowering; each ends in one of the functions above. -/
theorem Expr.ofTree_core : Agree (Expr.ofTree t.core) (Expr.ofTree t) := by
  have hchain := fun hrule => Expr.ofTree_chain_core ht hbelow hrule
  obtain ⟨rule, start, text, children⟩ := t
  cases rule
  case expression | conditionalExpression | unaryExpression | postfixExpression =>
    obtain _ | ⟨only, _ | ⟨_, _⟩⟩ := children
    · exact .error
    · exact (hbelow only List.mem_cons_self).here.expr
    · exact .error
  case assignmentExpression =>
    obtain ⟨_, _, rfl, ⟨target, rfl, -⟩,
      (⟨_, _, rfl, ⟨operator, rfl, hoperator⟩, ⟨value, rfl, -⟩⟩ | rfl)⟩ := ht.shape rfl (.inl rfl)
    · have htarget := (hbelow target (by simp)).here.expr
      have hvalue := (hbelow value (by simp)).here.expr
      -- operators are read by their texts, and leaving out trivia does not touch the text of a
      -- token
      have hop := Operator.ofTree_core (Tree.token_of_mem hoperator (by decide))
      refine htarget.bind fun left => hop.bind fun op => ?_
      cases left.isTarget with
      | true => exact hvalue.map _
      | false => exact .error
    · exact (hbelow target (by simp)).here.expr
  case logicalOrExpression | logicalAndExpression | equalityExpression | relationalExpression
    | additiveExpression | multiplicativeExpression => exact hchain (by simp [Rule.chains])
  case leftHandSideExpression =>
    obtain ⟨_, suffixes, rfl, ⟨first, rfl, -⟩, -⟩ := ht.shape rfl (.inl rfl)
    obtain ⟨hfirst, hsuffixes⟩ := List.forall_mem_cons.mp hbelow
    refine hfirst.here.expr.bind fun base => Expr.ofSuffixes_core hsuffixes ?_ base
    intro t hmem hrule t' ht'
    -- nor that of the name behind a point
    have hrules : ∀ r ∈ Rule.propertyAccess.childRules, r.kind = .token := by decide
    have hchild := (hsuffixes t hmem).here.fits.mem_childRules (hrule ▸ .inl rfl) t' ht'
    rw [hrule] at hchild
    exact hrules _ hchild
  case parenthesizedExpression =>
    cases children with
    | nil => exact .error
    | cons inner _ => exact (hbelow inner List.mem_cons_self).here.expr
  case functionExpression =>
    obtain ⟨front, _, rfl, hfront, _, _, rfl, ⟨params, rfl, -⟩, ⟨body, rfl, -⟩⟩ :=
      ht.shape rfl (.inl rfl)
    have hfunction := Stmt.ofFunction_core params (hbelow body (by simp))
    obtain ⟨name, rfl, hname⟩ | rfl := hfront
    · have hstring := Tree.core_string (Tree.token_of_mem hname (by decide))
      refine hfunction.bind fun function => ?_
      rw [hstring]
      exact .refl _
    · exact hfunction.map _
  case objectLiteral => exact (Expr.ofProperties_core hbelow).map _
  case numericLiteral => exact (numericValue_core (t := ⟨.numericLiteral, _, _, _⟩) rfl).map _
  case stringLiteral => exact (stringValue_core ht rfl).map _
  case identifier | booleanLiteral | nullLiteral => exact .refl _
  all_goals exact .error

theorem Stmt.ofTree_core (b : Bool) : Agree (Stmt.ofTree b t.core) (Stmt.ofTree b t) := by
  obtain ⟨rule, start, text, children⟩ := t
  cases rule
  case functionDeclaration =>
    obtain _ | ⟨name, _ | ⟨params, _ | ⟨body, _ | ⟨_, _⟩⟩⟩⟩ := children
    case cons.cons.cons.nil =>
      simp only [Tree.core, Tree.coreAll, Stmt.ofTree, Tree.core_rule]
      split
      · exact .error
      · next hrule =>
        rw [Tree.core_string (not_not.mp hrule ▸ rfl)]
        exact (Stmt.ofFunction_core params (hbelow body (by simp))).map _
    all_goals exact .error
  case block => exact (Stmt.ofTrees_core hbelow b).map _
  case ifStatement =>
    obtain _ | ⟨test, _ | ⟨consequent, _ | ⟨alternate, _ | ⟨_, _⟩⟩⟩⟩ := children
    case cons.cons.nil =>
      exact (hbelow test (by simp)).here.expr.bind fun test =>
        ((hbelow consequent (by simp)).here.stmt b).map _
    case cons.cons.cons.nil =>
      exact ((hbelow alternate (by simp)).here.stmt b).bind fun alternate =>
        (hbelow test (by simp)).here.expr.bind fun test =>
          ((hbelow consequent (by simp)).here.stmt b).map _
    all_goals exact .error
  case returnStatement =>
    cases b with
    | false => exact .error
    | true =>
      cases children with
      | nil => exact .refl _
      | cons value _ => exact (hbelow value List.mem_cons_self).here.expr.map _
  case variableStatement => exact (Stmt.ofDeclarations_core hbelow).map _
  case expressionStatement =>
    cases children with
    | nil => exact .error
    | cons e _ => exact (hbelow e List.mem_cons_self).here.expr.map _
  case emptyStatement => exact .refl _
  all_goals exact .error

end

/-- **A derived tree is lowered as its bare form is**, and so are the trees below it. -/
theorem Tree.Everywhere.bare {t : Tree} (ht : t.Derived) : t.Everywhere Tree.Bare :=
  ht.induct fun _ here below =>
    ⟨here, Expr.ofTree_core here below, Stmt.ofTree_core here below⟩

end Scriptlet
