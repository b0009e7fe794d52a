import Scriptlet.Proofs.Grammar.Literal
import Scriptlet.Proofs.Program.Source

/-!
# Writable programs

Not every program is what some text denotes. Names and numbers have to be written, variables are
declared by statements of their own that become blocks, and an `else` goes to the nearest `if`
before it. `Program.Writable` says what follows from this for a program, and the program of a source
text is writable (`Program.ofSource_writable`).

The conditions are on single expressions and statements, and hold everywhere in a program. Most of
them are seen from the node by itself. One is not: whether a conditional with an alternative may
have a conditional without one at the end of its consequent depends on what the match could have
done and did not do. A match takes an `else` where there is one, so the inner conditional would have
taken it (`Tree.Found.not_endsOpen`); this is why nodes are known to come from a match here, and not
only from a reading (`Tree.Sound`).
-/

namespace Scriptlet

open Peg

/-! ## Names and numbers

What a text can have in it. Any string can be written, but not every name and not every number.
-/

/-- The names that can be written: ASCII letters, digits, `_` and `$`, not beginning with a
digit, and no reserved word. -/
structure IsName (name : String) : Prop where
  head : ∃ c ∈ name.toList.head?, isIdentStart c
  chars : name.toList.all isIdentChar
  free : name.toList ∉ reservedWords

/-- The text is a number literal as a whole, and denotes the number. -/
structure NumberText (text : List Char) (x : Float) : Prop where
  literal : ∃ trees, (rule .numericLiteral).Matches .skipped text [] trees
  value : numericLiteral? text = some x

/-- The numbers that can be written: those that some literal denotes, and so no negative ones. -/
def IsNumber (x : Float) : Prop := ∃ text, NumberText text x

/-! ## Programs

What the conditions on a program are.
-/

/-- The statement ends in a conditional without alternative, to which an `else` behind it would
go. -/
def Stmt.endsOpen : Stmt → Bool
  | .cond _ _ none => true
  | .cond _ _ (some alternate) => alternate.endsOpen
  | _ => false

/-- What is asked of an expression, apart from the expressions and statements inside. The name
`undefined` is written for the value, so it is no name. -/
def Expr.Legible : Expr → Prop
  | .literal (.number x) => IsNumber x
  | .name n => IsName n ∧ n ≠ "undefined"
  | .function own params body =>
    (∀ n ∈ own, IsName n) ∧ (∀ n ∈ params, IsName n) ∧ ∀ s ∈ body, s.isVar = false
  | .assign target _ => target.isTarget
  | _ => True

/-- What is asked of a statement, apart from the expressions and statements inside. Variables
are declared in blocks of nothing else. -/
def Stmt.Legible : Stmt → Prop
  | .function name params body =>
    IsName name ∧ (∀ n ∈ params, IsName n) ∧ ∀ s ∈ body, s.isVar = false
  | .var name _ => IsName name
  | .cond _ consequent none => consequent.isVar = false
  | .cond _ consequent (some alternate) =>
    consequent.isVar = false ∧ alternate.isVar = false ∧ consequent.endsOpen = false
  | .block body => (body ≠ [] ∧ ∀ s ∈ body, s.isVar) ∨ ∀ s ∈ body, s.isVar = false
  | .ret _ | .expr _ => True

/-- What can be written in a program. Outside of functions there is no `return`, and no variable is
declared but in a block. -/
structure Program.Writable (p : Program) : Prop where
  legible : Stmt.EverywhereAll Expr.Legible Stmt.Legible p
  returns : Stmt.ReturnlessAll p
  vars : ∀ s ∈ p, s.isVar = false

/-! ## Nodes

What is known of a node: that it is a reading of its rule and that a match made it.
-/

/-- The node is a reading of its rule, and its bare form was made by a match. -/
structure Tree.Sound (t : Tree) : Prop where
  fits : t.Fits
  found : t.core.Found

/-- Both are known of every node of a parse. -/
theorem Tree.Everywhere.sound {t : Tree} (ht : t.Derived) (hfound : t.core.Everywhere Tree.Found) :
    t.Everywhere Tree.Sound := by
  induction ht with
  | @mk t here _ ih =>
    refine .mk ⟨here, hfound.here⟩ fun t' ht' => ih t' ht' (hfound.children _ ?_)
    rw [core_children, coreAll_eq]
    exact List.mem_map_of_mem ht'

/-- What holds everywhere below a node holds so of every node below it. -/
theorem Tree.Everywhere.hereditary {P : Tree → Prop} {t : Tree} (h : t.Everywhere P) :
    t.Everywhere (Tree.Everywhere P) := by
  induction h with
  | mk here below ih => exact .mk (.mk here below) ih

/-- An identifier is a name: its text was matched by the rule of identifiers. -/
theorem Tree.Sound.isName {t : Tree} (ht : t.Sound) (hrule : t.rule = .identifier) :
    IsName t.string := by
  obtain ⟨rule, start, text, children⟩ := t
  obtain rfl : rule = .identifier := hrule
  obtain ⟨spacing, s, s', -, hbody, htext⟩ := ht.found
  obtain ⟨⟨c, hc, hstart⟩, hfree, rfl, -⟩ := matches_identifier_iff.mp (.rule hbody)
  have htext : text = s.takeWhile isIdentChar := by
    refine (htext rfl).trans ?_
    have hsplit := textBetween_self_append (s.takeWhile isIdentChar) (s.dropWhile isIdentChar)
    rwa [List.takeWhile_append_dropWhile] at hsplit
  have hstring : (Tree.mk .identifier start text children).string.toList =
      s.takeWhile isIdentChar := by
    rw [Tree.string, String.toList_ofList, htext]
  refine ⟨?_, ?_, ?_⟩
  · obtain ⟨u, rfl⟩ := List.head?_eq_some_iff.mp hc
    rw [hstring, List.takeWhile_cons_of_pos (isIdentChar_of_isIdentStart hstart)]
    exact ⟨c, rfl, hstart⟩
  · rw [hstring]
    exact List.all_takeWhile
  · rwa [hstring]

/-- A number literal denotes a number that can be written. -/
theorem Tree.Sound.isNumber {t : Tree} (ht : t.Sound) (hrule : t.rule = .numericLiteral) {x : Float}
    (hx : numericValue t = .ok x) : IsNumber x := by
  obtain ⟨rule, start, text, children⟩ := t
  obtain rfl : rule = .numericLiteral := hrule
  obtain ⟨spacing, -, hbody⟩ := ht.fits
  have hspells : (Peg.rule .numericLiteral).Spells text := ⟨start, _, .rule hbody⟩
  refine ⟨text, (Numeral.of_spells hspells).matches, ?_⟩
  rw [numericValue] at hx
  split at hx
  · next x' hx' => exact hx'.trans (congrArg some (Except.ok.inj hx))
  · cases hx

/-! ## The nearest `if`

How a conditional is matched, and why its consequent cannot be open.
-/

namespace Peg

/-- The rules of a choice between rules. -/
def rules : Peg → List Rule
  | .rule r => [r]
  | .choice p q => p.rules ++ q.rules
  | _ => []

/-- Whether the expression is a choice between rules. -/
def isRules : Peg → Bool
  | .rule _ => true
  | .choice p q => p.isRules && q.isRules
  | _ => false

variable {spacing : Spacing} {s s' : List Char} {trees : List Tree}

/-- A choice between rules matches one of them. -/
theorem Matches.mem_rules {p : Peg} (hp : p.isRules) (h : p.Matches spacing s s' trees) :
    ∃ r ∈ p.rules, (Peg.rule r).Matches spacing s s' trees := by
  induction p with
  | rule r => exact ⟨r, List.mem_singleton_self r, h⟩
  | choice p q ihp ihq =>
    obtain ⟨hp, hq⟩ := Bool.and_eq_true_iff.mp hp
    rcases matches_choice_iff.mp h with h | ⟨-, h⟩
    · obtain ⟨r, hr, h⟩ := ihp hp h
      exact ⟨r, List.mem_append_left _ hr, h⟩
    · obtain ⟨r, hr, h⟩ := ihq hq h
      exact ⟨r, List.mem_append_right _ hr, h⟩
  | word _ | one _ | start | finish | seq _ _ _ _ | many _ _ | optional _ _ | ahead _ _
  | notAhead _ _ => cases hp

theorem matches_plain_iff {r : Rule} (hr : r.kind = .plain) (hs : spacing ≠ .token) :
    (rule r).Matches spacing s s' trees ↔
      ∃ inner, r.body.Matches spacing s s' inner ∧ trees = [⟨r, 0, [], inner⟩] := by
  have hmade : ∀ inner, r.made spacing s s' inner = [⟨r, 0, [], inner⟩] := by
    intro inner
    simp [Rule.made, Rule.visible, hr, hs]
  have hinside : r.inside spacing = spacing := by rw [Rule.inside, hr]
  rw [matches_rule_iff, hinside]
  simp only [hmade]

/-- A statement makes one node, which is of one of the rules of statements. -/
theorem Matches.of_statement (hs : spacing ≠ .token)
    (h : (Peg.rule .statement).Matches spacing s s' trees) :
    ∃ r inner, r.body.Matches spacing s s' inner ∧ trees = [⟨r, 0, [], inner⟩] := by
  obtain ⟨_, hbody, rfl⟩ := matches_rule_iff.mp h
  obtain ⟨r, hr, hrule⟩ := hbody.mem_rules rfl
  have hplain : ∀ r ∈ Rule.statement.body.rules, r.kind = .plain := by decide
  obtain ⟨inner, hinner, hnode⟩ := (matches_plain_iff (hplain r hr) hs).mp hrule
  exact ⟨r, inner, hinner, hnode⟩

theorem Matches.of_ifStatement (hs : spacing ≠ .token)
    (h : Rule.ifStatement.body.Matches spacing s s' trees) :
    ∃ s₁ s₂ test consequent rest, (Peg.rule .statement).Matches spacing s₁ s₂ [consequent] ∧
      (Peg.optional (Peg.rule .elseKeyword ++ Peg.rule .statement)).Matches spacing
        (spacing.skip s₂) s' rest ∧ trees = test :: consequent :: rest := by
  obtain ⟨s₂, _, rest, hupToThen, helse, rfl⟩ := matches_seq_iff.mp h
  obtain ⟨_, _, _, hupToClose, hthen, rfl⟩ := matches_seq_iff.mp hupToThen
  obtain ⟨_, _, _, hupToTest, hclose, rfl⟩ := matches_seq_iff.mp hupToClose
  obtain ⟨_, _, _, hupToOpen, htest, rfl⟩ := matches_seq_iff.mp hupToTest
  obtain ⟨_, _, _, hif, hopen, rfl⟩ := matches_seq_iff.mp hupToOpen
  obtain ⟨_, hkeyword, rfl⟩ := matches_rule_iff.mp hif
  obtain ⟨_, _, _, hword, hlit, rfl⟩ := matches_seq_iff.mp hkeyword
  obtain ⟨-, -, rfl⟩ := matches_ahead_iff.mp hword
  obtain ⟨-, rfl⟩ := matches_word_iff.mp hlit
  obtain ⟨-, rfl⟩ := matches_word_iff.mp hopen
  obtain ⟨-, rfl⟩ := matches_word_iff.mp hclose
  obtain ⟨test, -, rfl⟩ := (matches_plain_iff rfl hs).mp htest
  obtain ⟨r, consequent, -, rfl⟩ := hthen.of_statement hs
  exact ⟨_, s₂, _, _, rest, hthen, helse, rfl⟩

theorem Matches.of_else (hs : spacing ≠ .token)
    (h : (Peg.rule .elseKeyword ++ Peg.rule .statement).Matches spacing s s' trees) :
    ∃ s₁ alternate, (Peg.rule .statement).Matches spacing s₁ s' [alternate] ∧
      trees = [alternate] := by
  obtain ⟨_, _, _, helse, hstatement, rfl⟩ := matches_seq_iff.mp h
  obtain ⟨_, hkeyword, rfl⟩ := matches_rule_iff.mp helse
  obtain ⟨_, _, _, hword, hlit, rfl⟩ := matches_seq_iff.mp hkeyword
  obtain ⟨-, -, rfl⟩ := matches_ahead_iff.mp hword
  obtain ⟨-, rfl⟩ := matches_word_iff.mp hlit
  obtain ⟨r, alternate, -, rfl⟩ := hstatement.of_statement hs
  exact ⟨_, _, hstatement, rfl⟩

end Peg

/-- The node ends in a conditional without alternative. On the way there are alternatives of
conditionals only: no other statement ends with a statement of its own. -/
inductive Tree.EndsOpen : Tree → Prop
  | bare {start : Nat} {text : List Char} {test consequent : Tree} :
    EndsOpen ⟨.ifStatement, start, text, [test, consequent]⟩
  | chained {start : Nat} {text : List Char} {test consequent alternate : Tree}
    (h : EndsOpen alternate) : EndsOpen ⟨.ifStatement, start, text, [test, consequent, alternate]⟩

namespace Tree.EndsOpen

/-- The bare node ends so too. -/
theorem core {t : Tree} (h : t.EndsOpen) : t.core.EndsOpen := by
  induction h with
  | bare => exact .bare
  | chained _ ih => exact .chained ih

/-- No `else` stands behind a conditional without alternative: it would have been taken for
its alternative. -/
theorem fails_else {t : Tree} (h : t.EndsOpen) {spacing : Spacing} (hs : spacing ≠ .token)
    {s s' : List Char} (hmatch : (Peg.rule .statement).Matches spacing s s' [t]) :
    (Peg.rule .elseKeyword ++ Peg.rule .statement).Fails spacing (spacing.skip s') := by
  have hskip : ∀ u, spacing.skip (spacing.skip u) = spacing.skip u := by
    cases spacing with
    | skipped => exact dropTrivia_dropTrivia
    | compound | token => exact fun _ => rfl
  induction h generalizing s s' with
  | bare =>
    obtain ⟨r, inner, hbody, hnode⟩ := hmatch.of_statement hs
    obtain ⟨rfl, -, -, rfl⟩ := Tree.mk.inj (List.cons.inj hnode).1
    obtain ⟨s₁, s₂, _, _, rest, -, helse, htrees⟩ := hbody.of_ifStatement hs
    obtain ⟨-, -, rfl⟩ : _ ∧ _ ∧ rest = [] := by simpa using htrees.symm
    rcases matches_optional_iff.mp helse with ⟨hfails, rfl, -⟩ | helse
    · rwa [hskip]
    · obtain ⟨_, _, -, hnil⟩ := helse.of_else hs
      cases hnil
  | @chained _ _ _ _ alternate _ ih =>
    obtain ⟨r, inner, hbody, hnode⟩ := hmatch.of_statement hs
    obtain ⟨rfl, -, -, rfl⟩ := Tree.mk.inj (List.cons.inj hnode).1
    obtain ⟨s₁, s₂, _, _, rest, -, helse, htrees⟩ := hbody.of_ifStatement hs
    obtain ⟨-, -, rfl⟩ : _ ∧ _ ∧ rest = [alternate] := by simpa using htrees.symm
    rcases matches_optional_iff.mp helse with ⟨-, -, hnil⟩ | helse
    · cases hnil
    · obtain ⟨s₃, alternate', halternate, hnode⟩ := helse.of_else hs
      obtain rfl : alternate = alternate' := (List.cons.inj hnode).1
      exact ih halternate

end Tree.EndsOpen

/-- **An `else` goes to the nearest `if`**: in a conditional with an alternative, the consequent
does not end in one without. Where the consequent ends, an `else` would have failed. -/
theorem Tree.Found.not_endsOpen {start : Nat} {text : List Char}
    {test consequent alternate : Tree}
    (h : (Tree.mk .ifStatement start text [test, consequent, alternate]).Found) :
    ¬consequent.EndsOpen := by
  intro hopen
  obtain ⟨spacing, s, s', hvisible, hbody, -⟩ := h
  have hs : spacing ≠ .token := by simpa [Rule.visible, Rule.kind] using hvisible
  obtain ⟨s₁, s₂, test', consequent', rest, hthen, helse, htrees⟩ := hbody.of_ifStatement hs
  obtain ⟨-, rfl, rfl⟩ : _ ∧ consequent' = consequent ∧ rest = [alternate] := by
    simpa using htrees.symm
  rcases matches_optional_iff.mp helse with ⟨-, -, hnil⟩ | helse
  · cases hnil
  · exact (hopen.fails_else hs hthen).not_matches helse

/-! ## What the nodes make

Each condition, for the node that makes the expression or the statement.
-/

/-- A node is not lowered to the declaration of a variable: where variables are declared, there
is a block around them. -/
theorem Stmt.isVar_ofTree {b : Bool} {t : Tree} {s : Stmt} (h : Stmt.ofTree b t = .ok (some s)) :
    s.isVar = false := by
  cases Stmt.madeOf h <;> rfl

theorem Stmt.isVar_orEmpty {b : Bool} {t : Tree} {stmt : Option Stmt}
    (h : Stmt.ofTree b t = .ok stmt) : (Stmt.orEmpty stmt).isVar = false := by
  cases stmt with
  | none => rfl
  | some s => exact Stmt.isVar_ofTree h

/-- There is no declaration of a variable among the statements of a body. -/
theorem Stmt.isVar_ofTrees {b : Bool} (ts : List Tree) {ss : List Stmt}
    (h : Stmt.ofTrees b ts = .ok ss) : ∀ s ∈ ss, s.isVar = false := by
  induction ts generalizing ss with
  | nil =>
    rw [Stmt.ofTrees] at h
    obtain rfl := Except.ok.inj h
    exact List.forall_mem_nil _
  | cons t ts ih =>
    rw [Stmt.ofTrees] at h
    split at h
    · exact ih h
    · obtain ⟨stmt, hstmt, h⟩ := bind_eq_ok.mp h
      obtain ⟨stmts, hstmts, h⟩ := bind_eq_ok.mp h
      obtain rfl := Except.ok.inj h
      refine List.forall_mem_append.mpr ⟨fun s hs => ?_, ih hstmts⟩
      rw [Option.mem_toList.mp hs] at hstmt
      exact Stmt.isVar_ofTree hstmt

/-- A statement that ends in a conditional without alternative comes from a node that does. -/
theorem Stmt.endsOpen_ofTree {b : Bool} {t : Tree} {s : Stmt} (h : Stmt.ofTree b t = .ok (some s))
    (hopen : s.endsOpen) : t.EndsOpen := by
  fun_induction Stmt.endsOpen s generalizing t with
  | case1 test consequent =>
    cases Stmt.madeOf h with
    | cond _ _ => exact .bare
  | case2 test consequent alternate ih =>
    cases Stmt.madeOf h with
    | @condElse _ _ _ _ _ _ _ a _ _ helse =>
      cases a with
      | none => cases hopen
      | some alternate => exact .chained (ih helse hopen)
  | case3 => cases hopen

theorem Stmt.endsOpen_orEmpty {b : Bool} {t : Tree} {stmt : Option Stmt}
    (h : Stmt.ofTree b t = .ok stmt) (hopen : (Stmt.orEmpty stmt).endsOpen) : t.EndsOpen := by
  cases stmt with
  | none => cases hopen
  | some s => exact Stmt.endsOpen_ofTree h hopen

theorem parameterNames_isName {t : Tree} (ht : ∀ p ∈ t.children, p.Sound) {names : List String}
    (h : parameterNames t = .ok names) : ∀ n ∈ names, IsName n := by
  rw [parameterNames] at h
  split at h
  · generalize t.children = params at h ht
    induction params generalizing names with
    | nil =>
      obtain rfl := Except.ok.inj h
      exact List.forall_mem_nil _
    | cons p params ih =>
      obtain ⟨hp, hparams⟩ := List.forall_mem_cons.mp ht
      rw [List.mapM_cons] at h
      obtain ⟨name, hname, h⟩ := bind_eq_ok.mp h
      obtain ⟨rest, hrest, h⟩ := bind_eq_ok.mp h
      obtain rfl := Except.ok.inj h
      refine List.forall_mem_cons.mpr ⟨?_, ih hrest hparams⟩
      split at hname
      · next hrule =>
        obtain rfl := Except.ok.inj hname
        exact hp.isName hrule
      · cases hname
  · cases h

/-- The parameters of a function are names, and its body declares variables in blocks only. -/
theorem Stmt.ofFunction_legible {params body : Tree} (hparams : params.Everywhere Tree.Sound)
    {names : List String} {stmts : List Stmt}
    (h : Stmt.ofFunction params body = .ok (names, stmts)) :
    (∀ n ∈ names, IsName n) ∧ ∀ s ∈ stmts, s.isVar = false := by
  obtain ⟨rule, start, text, children⟩ := body
  rw [Stmt.ofFunction.eq_def] at h
  dsimp only at h
  split at h
  · cases h
  · obtain ⟨names', hnames, h⟩ := bind_eq_ok.mp h
    obtain ⟨stmts', hstmts, h⟩ := bind_eq_ok.mp h
    obtain ⟨rfl, rfl⟩ := Prod.mk.inj (Except.ok.inj h)
    exact ⟨parameterNames_isName (fun p hp => (hparams.children p hp).here) hnames,
      Stmt.isVar_ofTrees children hstmts⟩

/-- A variable statement declares at least one variable. -/
theorem Stmt.ofDeclarations_ne_nil {t : Tree} (ht : t.Everywhere Tree.Sound)
    (hrule : t.rule = .variableStatement) {declarations : List Stmt}
    (h : Stmt.ofDeclarations t.children = .ok declarations) : declarations ≠ [] := by
  have hbelow := ht.children
  have hfits := ht.here.fits
  obtain ⟨rule, start, text, children⟩ := t
  subst hrule
  obtain ⟨_, _, rfl, ⟨kind, rfl, hkind⟩, ⟨list, rfl, hlist⟩⟩ := hfits.shape rfl (.inl rfl)
  have hlistFits := (hbelow list (by simp)).here.fits
  obtain ⟨rule, _, _, _⟩ := kind
  obtain rfl := List.mem_singleton.mp hkind
  obtain ⟨rule, _, _, declarators⟩ := list
  obtain rfl := List.mem_singleton.mp hlist
  obtain ⟨_, rest, rfl, ⟨first, rfl, -⟩, -⟩ := hlistFits.shape rfl (.inl rfl)
  obtain ⟨vars, hvars, h⟩ := bind_eq_ok.mp h
  obtain ⟨none, -, h⟩ := bind_eq_ok.mp h
  obtain rfl := Except.ok.inj h
  have hlength := (Stmt.ofDeclarators_isVar _ hvars).1
  rintro hnil
  obtain ⟨rfl, -⟩ := List.append_eq_nil_iff.mp hnil
  cases hlength

/-- What operators and suffixes make is legible if assignments have targets, and so are keys. -/
theorem Expr.common_legible : Expr.Common Expr.Legible where
  key := fun _ => trivial
  undefined := trivial
  member := fun _ _ => trivial
  call := fun _ _ => trivial
  binary := fun _ _ _ => trivial
  assign := fun _ h => h

/-- **What a node makes can be written.** Of the conditions of `Expr.Legible` and `Stmt.Legible`
each is shown for the node that makes the piece of program it is about. -/
theorem Tree.Everywhere.makes_legible {t : Tree} (ht : t.Everywhere Tree.Sound) :
    t.Makes Expr.Legible Stmt.Legible where
  var := fun _ hrule => ht.here.isName hrule
  expr := fun hrule h => by
    have hbelow := ht.children
    cases Expr.atomOf hrule h with
    | @named _ _ name params _ _ _ hfunction =>
      -- the grammar puts nothing but a name there
      have hname : name.rule = .identifier := by
        obtain ⟨front, _, hchildren, hfront, _, _, rfl, ⟨_, rfl, -⟩, ⟨_, rfl, -⟩⟩ :=
          ht.here.fits.shape rfl (.inl rfl)
        obtain ⟨own, rfl, hown⟩ | rfl := hfront
        · obtain ⟨rfl, -⟩ := List.cons.inj hchildren
          exact List.mem_singleton.mp hown
        · cases hchildren
      refine ⟨?_, Stmt.ofFunction_legible (hbelow params (by simp)) hfunction⟩
      rintro _ ⟨⟩
      exact (hbelow name (by simp)).here.isName hname
    | @nameless _ _ params _ _ _ hfunction =>
      exact ⟨nofun, Stmt.ofFunction_legible (hbelow params (by simp)) hfunction⟩
    | name hname =>
      rw [Expr.ofName]
      split
      · trivial
      · next hne => exact ⟨ht.here.isName hname, hne⟩
    | number hnumber hx => exact ht.here.isNumber hnumber hx
    | object _ | string _ | boolean _ | null => trivial
  stmt := fun h => by
    have hbelow := ht.children
    cases Stmt.madeOf h with
    | @function _ _ name params _ _ _ hname hfunction =>
      exact ⟨(hbelow name (by simp)).here.isName hname,
        Stmt.ofFunction_legible (hbelow params (by simp)) hfunction⟩
    | block hbody => exact .inr (Stmt.isVar_ofTrees _ hbody)
    | cond _ hthen => exact Stmt.isVar_orEmpty hthen
    | condElse _ hthen helse =>
      refine ⟨Stmt.isVar_orEmpty hthen, Stmt.isVar_orEmpty helse, ?_⟩
      -- an alternative belongs to the nearest conditional, so the consequent cannot be waiting for
      -- one
      by_contra hopen
      rw [Bool.not_eq_false] at hopen
      exact ht.here.found.not_endsOpen (Stmt.endsOpen_orEmpty hthen hopen).core
    | vars hdecl =>
      exact .inl ⟨Stmt.ofDeclarations_ne_nil ht rfl hdecl, Stmt.ofDeclarations_isVar _ hdecl⟩
    | ret _ | retValue _ _ | expr _ => trivial

/-! ## Programs -/

/-- **The program of a source text is writable.** What every node makes can be written, so it holds
everywhere. -/
theorem Program.ofSource_writable {source : String} {p : Program}
    (h : Program.ofSource source = .ok p) : p.Writable := by
  obtain ⟨trees, hparse, hlower⟩ := Program.ofSource_eq_ok_iff.mp h
  obtain ⟨t, rfl, hrule, hderived, -⟩ := parseScript_eq_singleton hparse
  obtain ⟨s', hmatch⟩ := Rule.matches_of_parse hparse
  have hsound := Tree.Everywhere.sound hderived (hmatch.found _ (by simp [Tree.coreAll]))
  have hmakes : t.Everywhere fun t => t.Fits ∧ t.Makes Expr.Legible Stmt.Legible :=
    hsound.hereditary.induct fun _ here _ => ⟨here.here.fits, here.makes_legible⟩
  have hlowers := hmakes.lowers Expr.common_legible (.inr (by decide))
  rw [Program.ofTrees_script hrule] at hlower
  exact ⟨Stmt.ofTrees_everywhere t.children hlowers.children hlower,
    (Program.ofSource_proper h).returns rfl, Stmt.isVar_ofTrees t.children hlower⟩

end Scriptlet
