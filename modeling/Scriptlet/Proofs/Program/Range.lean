import Scriptlet.Proofs.Program.Writing

/-!
# The programs that texts denote

The text of a writable program denotes it (`Program.ofSource_text`): its statements match one by
one, and each is lowered to the statement that was written. Together with
`Program.ofSource_writable`, the programs that texts denote are the writable ones
(`ofSource_range`).

There is one lemma for each kind of statement, `Stmt.Readable.expr`, `Stmt.Readable.ret` and so on,
which says that the statement is read back if its parts are. Each of them has to name what may stand
behind the statement: anything, but for a conditional without alternative, where it must not be an
`else`. The induction over programs (`Stmt.readable`) only puts these lemmas together, and has the
conditions of being writable at hand where they are needed.
-/

namespace Scriptlet

open Peg

/-! ## Statements

How a statement is found among the alternatives: by the kind of the place where it begins, which
differs for all of them.
-/

/-- The statements of the language, each with the kind of the place where it stands. -/
def Rule.statements : List (Kind × Rule) :=
  [(.fixed "function".toList, .functionDeclaration), (.fixed "if".toList, .ifStatement),
    (.fixed "return".toList, .returnStatement), (.fixed "var".toList, .variableStatement),
    (.fixed ['\x7b'], .block), (.fixed ['('], .expressionStatement)]

/-- The rule of statements comes to the rule that the kind picks. -/
theorem Rule.statements_picked : ∀ p ∈ Rule.statements, Rule.statement.body.picks p.1 p.2 := by
  decide +kernel

/-- A statement is matched by the rule for statements if it is matched by the rule that its first
token picks. -/
theorem Peg.matches_statement {k : Kind} {r : Rule} (hr : (k, r) ∈ Rule.statements)
    {s s' : List Char} (hs : At s k) {trees : List Tree}
    (h : (rule r).Matches .skipped s s' trees) : (rule .statement).Matches .skipped s s' trees :=
  (matches_silent_iff rfl).mpr (.picked hs (Rule.statements_picked _ hr) h)

/-- The statement is matched where it is written, and lowered to itself. What is behind it must not
be an `else` that it would take. -/
structure Stmt.Readable (numeral : Float → List Char) (inFunction : Bool) (s : Stmt) : Prop where
  start : ∀ more, ∃ k ≠ .fixed "else".toList, At (s.write numeral more) k
  node : ∀ {more}, dropTrivia more = more → (s.endsOpen → kind more ≠ .fixed "else".toList) →
    ∃ t, (rule .statement).Matches .skipped (s.write numeral more) more [t] ∧
      Stmt.ofTree inFunction t = .ok (some s)

/-- The statement declares a variable that can be read. -/
def Stmt.Declared (numeral : Float → List Char) (s : Stmt) : Prop :=
  ∃ name init, s = .var name init ∧ IsName name ∧ init.Readable numeral

section

variable {numeral : Float → List Char} {b : Bool}

/-- A statement that begins with a token of its own and is a node of its rule: this is the form of
the lemmas below. -/
theorem Stmt.Readable.of_node {s : Stmt} {k : Kind} {r : Rule} (hr : (k, r) ∈ Rule.statements)
    (hat : ∀ more, At (s.write numeral more) k)
    (h : ∀ {more}, dropTrivia more = more → (s.endsOpen → kind more ≠ .fixed "else".toList) →
      ∃ t, (rule r).Matches .skipped (s.write numeral more) more [t] ∧
        Stmt.ofTree b t = .ok (some s)) : s.Readable numeral b where
  start := fun more => by
    have hall : ∀ p ∈ Rule.statements, p.1 ≠ .fixed "else".toList := by decide
    exact ⟨k, hall _ hr, hat more⟩
  node := fun hskip helse => by
    obtain ⟨t, hmatch, ht⟩ := h hskip helse
    exact ⟨t, matches_statement hr (hat _) hmatch, ht⟩

/-- The semicolon that ends a statement. It may be missing in the grammar, but it is always
written. -/
theorem Peg.matches_semicolon {p : Peg} {s u more : List Char} {trees : List Tree}
    (h : p.Matches .skipped s u trees) (hu : dropTrivia u = ';' :: more) :
    (p ++ optional (lit ";")).Matches .skipped s more trees := by
  have hsemicolon : (optional (lit ";")).Matches .skipped (';' :: more) more [] :=
    .present (.word rfl)
  have hmatch := h.andThen hu hsemicolon
  rwa [List.append_nil] at hmatch

theorem Stmt.Readable.expr {e : Expr} (he : e.Readable numeral) :
    (Stmt.expr e).Readable numeral b := by
  refine .of_node (r := .expressionStatement) (by decide) (fun _ => .lone (by decide) _) ?_
  intro more _ _
  have hopen := At.lone (c := '(') (by decide) (e.write numeral (')' :: ';' :: more))
  have hsemicolon := At.lone (c := ';') (by decide) more
  obtain ⟨t, hmatch, ht⟩ := (he (';' :: more)).operand hsemicolon (r := .expression) (by decide)
  have hguard : (notAhead (lit "\x7b" <|> rule .functionWord)).Matches .skipped
      ('(' :: e.write numeral (')' :: ';' :: more)) ('(' :: e.write numeral (')' :: ';' :: more))
      [] := by
    refine .notAhead (fails_braceOrFunction_iff.mpr ?_)
    rw [hopen.kind]
    decide
  refine ⟨_, matches_node (r := .expressionStatement) rfl
    (matches_semicolon (hguard.andThen hopen.skip hmatch) hsemicolon.skip), ?_⟩
  change (Expr.ofTree t >>= fun e => .ok (some (Stmt.expr e))) = _
  rw [ht]
  rfl

/-! ## Returns

Behind a `return` that is written, its line goes on, with a parenthesis or the semicolon.
-/

/-- A `return` that something stands behind is not at the end of its line. -/
theorem fails_returnAtLineEnd {c : Char} (hc : c ∈ [';', '(']) (s : List Char) :
    (rule .returnAtLineEnd).Fails .skipped ("return".toList ++ c :: s) := by
  have hall : ∀ c ∈ [';', '('], isIdentChar c = false ∧ isInlineBlank c = false ∧ c ≠ '/' ∧
      c ≠ '\n' ∧ c ≠ '\r' := List.all_iff_forall_prop.mp (by decide)
  obtain ⟨hident, hblank, hslash, hfeed, hreturn⟩ := hall c hc
  have hline : ¬EndsLine (c :: s) := by
    rw [endsLine_of_fails (inlineTrivium_fails_cons hblank fun h => absurd h hslash), not_not,
      fails_lineEnd_cons fun h => absurd h hslash]
    exact ⟨hfeed, hreturn⟩
  have hbound : ∀ x ∈ (c :: s).head?, isIdentChar x = false := by
    rintro _ ⟨⟩
    exact hident
  obtain ⟨-, -, hdrop⟩ := At.reserved (w := "return".toList) (by decide) hbound
  have hbody : Rule.returnAtLineEnd.body.bounded Rule.rank .token := by decide
  refine .rule ((fails_iff (by decide) hbody).mpr fun s' trees h => hline ?_)
  have hmatch : (rule .returnAtLineEnd).Matches .skipped
      ("return".toList ++ c :: s) s' _ := .rule h
  have hends := (exists_matches_returnAtLineEnd_iff.mp ⟨s', _, hmatch⟩).2
  rwa [hdrop] at hends

/-- A `return` in front of something on its line. -/
theorem matches_return {c : Char} (hc : c ∈ [';', '(']) {s u more : List Char} {trees : List Tree}
    (h : (optional (rule .expression)).Matches .skipped (c :: s) u trees)
    (hu : dropTrivia u = ';' :: more) :
    At ("return".toList ++ c :: s) (.fixed "return".toList) ∧
      (rule .returnStatement).Matches .skipped ("return".toList ++ c :: s) more
        [⟨.returnStatement, 0, [], trees⟩] := by
  have hall : ∀ c ∈ [';', '('], isIdentChar c = false ∧ isBlank c = false ∧ c ≠ '/' :=
    List.all_iff_forall_prop.mp (by decide)
  obtain ⟨hident, hblank, hslash⟩ := hall c hc
  have hbound : ∀ x ∈ (c :: s).head?, isIdentChar x = false := by
    rintro _ ⟨⟩
    exact hident
  have hkeyword : (rule .returnKeyword).Matches .skipped ("return".toList ++ c :: s) (c :: s) [] :=
    matches_keywordRule (k := (.returnKeyword, .returnWord, "return")) (by decide) hbound
  have hvalue : (rule .returnKeyword ++ optional (rule .expression)).Matches .skipped
      ("return".toList ++ c :: s) u trees :=
    hkeyword.andThen (dropTrivia_cons hblank hslash s) h
  exact ⟨(At.reserved (by decide) hbound).1,
    matches_node rfl (matches_semicolon
      (.right (.first (.ahead (fails_returnAtLineEnd hc s))) hvalue) hu)⟩

/-- A `return` without a value is read back inside of functions. -/
theorem Stmt.Readable.ret : (Stmt.ret none).Readable numeral true := by
  have hreturn : ∀ more, At ("return".toList ++ ';' :: more) (.fixed "return".toList) ∧
      (rule .returnStatement).Matches .skipped ("return".toList ++ ';' :: more) more
        [⟨.returnStatement, 0, [], []⟩] := by
    intro more
    have hsemicolon := At.lone (c := ';') (by decide) more
    exact matches_return (by decide) (.absent (hsemicolon.refused (by decide))) hsemicolon.skip
  exact .of_node (r := .returnStatement) (by decide) (fun more => (hreturn more).1)
    fun _ _ => ⟨_, (hreturn _).2, rfl⟩

/-- A `return` with a value is read back inside of functions, if the value is: the space behind the
word keeps the expression on its line. -/
theorem Stmt.Readable.retValue {e : Expr} (he : e.Readable numeral) :
    (Stmt.ret (some e)).Readable numeral true := by
  have hreturn : ∀ more, ∃ t, Expr.ofTree t = .ok e ∧
      At ((Stmt.ret (some e)).write numeral more) (.fixed "return".toList) ∧
      (rule .returnStatement).Matches .skipped ((Stmt.ret (some e)).write numeral more) more
        [⟨.returnStatement, 0, [], [t]⟩] := by
    intro more
    have hsemicolon := At.lone (c := ';') (by decide) more
    obtain ⟨t, hmatch, ht⟩ := (he (';' :: more)).operand hsemicolon (r := .expression) (by decide)
    exact ⟨t, ht, matches_return (by decide) (.present hmatch) hsemicolon.skip⟩
  refine .of_node (k := .fixed "return".toList) (r := .returnStatement) (by decide)
    (fun more => ?_) ?_
  · obtain ⟨t, -, hat, -⟩ := hreturn more
    exact hat
  · intro more _ _
    obtain ⟨t, ht, -, hmatch⟩ := hreturn more
    refine ⟨_, hmatch, ?_⟩
    change (Expr.ofTree t >>= fun e => .ok (some (Stmt.ret (some e)))) = _
    rw [ht]
    rfl

/-! ## Blocks and functions

Bodies are repetitions of statements up to a brace.
-/

theorem Stmt.ofTrees_cons {t : Tree} {s : Stmt} {trees : List Tree} {ss : List Stmt}
    (ht : Stmt.ofTree b t = .ok (some s)) (h : Stmt.ofTrees b trees = .ok ss) :
    Stmt.ofTrees b (t :: trees) = .ok (s :: ss) := by
  have hrule : t.rule ≠ .endOfInput := by cases Stmt.madeOf ht <;> exact nofun
  rw [Stmt.ofTrees, if_neg hrule, ht, h]
  rfl

/-- Statements are matched one by one, up to a place where none begins. No statement begins with
`else`, so each is in front of something it would not take. -/
theorem Stmt.writeAll_iterates {body : List Stmt} (h : ∀ s ∈ body, s.Readable numeral b)
    {tail : List Char} {k : Kind} (htail : At tail k) (hk : (rule .statement, k) ∈ refusals) :
    (∃ k ≠ .fixed "else".toList, At (Stmt.writeAll numeral body tail) k) ∧
      ∃ trees, (rule .statement).Iterates .skipped (Stmt.writeAll numeral body tail) tail trees ∧
        Stmt.ofTrees b trees = .ok body := by
  induction body with
  | nil =>
    have helse : ∀ r ∈ refusals, r.2 ≠ .fixed "else".toList := by decide
    refine ⟨⟨k, helse _ hk, htail⟩, [], .stop ?_, rfl⟩
    have hskip : Spacing.skipped.skip tail = tail := htail.skip
    rw [Stmt.writeAll, hskip]
    exact htail.refused hk
  | cons s body ih =>
    obtain ⟨hs, hbody⟩ := List.forall_mem_cons.mp h
    obtain ⟨⟨k', hk', hrest⟩, trees, hiterates, hlower⟩ := ih hbody
    obtain ⟨t, hmatch, ht⟩ := hs.node hrest.skip fun _ => hrest.kind ▸ hk'
    obtain ⟨k'', hk'', hat⟩ := hs.start (Stmt.writeAll numeral body tail)
    refine ⟨⟨k'', hk'', hat⟩, t :: trees, ?_, Stmt.ofTrees_cons ht hlower⟩
    have hskip : Spacing.skipped.skip (s.write numeral (Stmt.writeAll numeral body tail)) =
        s.write numeral (Stmt.writeAll numeral body tail) := hat.skip
    exact .step (hskip.symm ▸ hmatch) hiterates

/-- A block is matched as a body in braces. -/
theorem matches_block {body : List Stmt} (h : ∀ s ∈ body, s.Readable numeral b)
    (more : List Char) :
    ∃ trees, (rule .block).Matches .skipped
        ('\x7b' :: Stmt.writeAll numeral body ('\x7d' :: more)) more [⟨.block, 0, [], trees⟩] ∧
      Stmt.ofTrees b trees = .ok body := by
  have hbrace := At.lone (c := '\x7d') (by decide) more
  obtain ⟨⟨k, -, hat⟩, trees, hiterates, hlower⟩ := Stmt.writeAll_iterates h hbrace (by decide)
  exact ⟨trees, matches_node rfl
    (matches_enclosed hat.skip (hiterates.many_of_skip hat.skip) hbrace.skip), hlower⟩

/-- A block is read back as a body in braces, unless it declares variables, which is written in
another way. -/
theorem Stmt.Readable.block {body : List Stmt} (hvars : ∀ s ∈ body, s.isVar = false)
    (h : ∀ s ∈ body, s.Readable numeral b) : (Stmt.block body).Readable numeral b := by
  have hwrite : ∀ more, (Stmt.block body).write numeral more =
      '\x7b' :: Stmt.writeAll numeral body ('\x7d' :: more) := by
    intro more
    have hfirst : body.head?.any Stmt.isVar = false := by
      cases body with
      | nil => rfl
      | cons s body => exact hvars s List.mem_cons_self
    change (if body.head?.any Stmt.isVar then _ else _) = _
    rw [hfirst]
    rfl
  refine .of_node (k := .fixed ['\x7b']) (r := .block) (by decide) (fun more => ?_) ?_
  · rw [hwrite]
    exact .lone (by decide) _
  · intro more _ _
    obtain ⟨trees, hmatch, hlower⟩ := matches_block h more
    rw [hwrite]
    refine ⟨_, hmatch, ?_⟩
    change (Stmt.ofTrees b trees >>= fun body => .ok (some (Stmt.block body))) = _
    rw [hlower]
    rfl

/-- The parameters and the body of a function in front of `more`. -/
def writeFunction (numeral : Float → List Char) (params : List String) (body : List Stmt)
    (more : List Char) : List Char :=
  '(' :: writeNames params (')' :: '\x7b' :: Stmt.writeAll numeral body ('\x7d' :: more))

/-- What a function is made of, apart from its name. A declaration and an expression have it in
common. -/
theorem matches_function {params : List String} (hparams : ∀ n ∈ params, IsName n)
    {body : List Stmt} (hbody : ∀ s ∈ body, s.Readable numeral true) {p : Peg} {s : List Char}
    {more : List Char} {trees : List Tree}
    (h : p.Matches .skipped s (writeFunction numeral params body more) trees) :
    ∃ params' body', (p ++ rule .formalParameters ++ rule .block).Matches .skipped s more
        (trees ++ [params', body']) ∧ Stmt.ofFunction params' body' = .ok (params, body) := by
  obtain ⟨trees', hblock, hlower⟩ := matches_block hbody more
  have hparameters := matches_parameters hparams
    ('\x7b' :: Stmt.writeAll numeral body ('\x7d' :: more))
  refine ⟨⟨.formalParameters, 0, [], params.map nameNode⟩, ⟨.block, 0, [], trees'⟩, ?_, ?_⟩
  · have hmatch := (h.andThen (At.lone (by decide) _).skip hparameters).andThen
      (At.lone (by decide) _).skip hblock
    rw [List.append_assoc] at hmatch
    exact hmatch
  · rw [Stmt.ofFunction.eq_def]
    simp only [parameterNames_nodes, hlower]
    rfl

/-- The word in front of the name or the parameters of a function. -/
theorem matches_functionWord (s : List Char) :
    At ("function".toList ++ ' ' :: s) (.fixed "function".toList) ∧
      (rule .functionKeyword).Matches .skipped ("function".toList ++ ' ' :: s) (' ' :: s) [] := by
  have hbound : ∀ c ∈ (' ' :: s).head?, isIdentChar c = false := by
    rintro _ ⟨⟩
    rfl
  exact ⟨(At.reserved (by decide) hbound).1,
    matches_keywordRule (k := (.functionKeyword, .functionWord, "function")) (by decide) hbound⟩

variable (numeral) in
theorem At.parameters (params : List String) (body : List Stmt) (more : List Char) :
    At (writeFunction numeral params body more) (.fixed ['(']) := .lone (by decide) _

variable (numeral) in
theorem isIdentChar_parameters (params : List String) (body : List Stmt) (more : List Char) :
    ∀ c ∈ (writeFunction numeral params body more).head?, isIdentChar c = false := by
  rintro _ ⟨⟩
  rfl

/-- The declaration of a function is read back if its body is, and its names are names. -/
theorem Stmt.Readable.function {name : String} (hname : IsName name) {params : List String}
    (hparams : ∀ n ∈ params, IsName n) {body : List Stmt}
    (hbody : ∀ s ∈ body, s.Readable numeral true) :
    (Stmt.function name params body).Readable numeral b := by
  have hword := fun more => matches_functionWord
    (name.toList ++ writeFunction numeral params body more)
  refine .of_node (k := .fixed "function".toList) (r := .functionDeclaration) (by decide)
    (fun more => (hword more).1) ?_
  intro more _ _
  have hskip := (dropTrivia_blank (c := ' ') rfl _).trans
    (hname.at (isIdentChar_parameters numeral params body more)).skip
  have hfront := (hword more).2.andThen hskip
    (hname.matches (isIdentChar_parameters numeral params body more))
  obtain ⟨params', body', hmatch, hlower⟩ := matches_function hparams hbody hfront
  refine ⟨_, matches_node (r := .functionDeclaration) rfl hmatch, ?_⟩
  change (Stmt.ofFunction params' body' >>= fun parts =>
    .ok (some (Stmt.function (nameNode name).string parts.1 parts.2))) = _
  rw [hlower, string_nameNode]
  rfl

/-- A function as an expression is read back if its body is, with a name of its own or without. -/
theorem Expr.Readable.function {own : Option String} (hown : ∀ n ∈ own, IsName n)
    {params : List String} (hparams : ∀ n ∈ params, IsName n) {body : List Stmt}
    (hbody : ∀ s ∈ body, s.Readable numeral true) :
    (Expr.function own params body).Readable numeral := by
  intro more
  have hparameters := At.parameters numeral params body (')' :: more)
  cases own with
  | none =>
    obtain ⟨hat, hword⟩ := matches_functionWord (writeFunction numeral params body (')' :: more))
    have hfront : (rule .functionKeyword ++ optional (rule .identifier)).Matches .skipped
        ("function".toList ++ ' ' :: writeFunction numeral params body (')' :: more))
        (writeFunction numeral params body (')' :: more)) [] :=
      hword.andThen ((dropTrivia_blank (c := ' ') rfl _).trans hparameters.skip)
        (.absent (hparameters.fails (by decide) (by decide)))
    obtain ⟨params', body', hmatch, hlower⟩ := matches_function hparams hbody hfront
    refine .of_denotes (x := .functionExpression) ⟨_, matches_node rfl hmatch, ?_⟩ hat (by decide)
    change (Stmt.ofFunction params' body' >>= fun parts =>
      .ok (Expr.function none parts.1 parts.2)) = _
    rw [hlower]
    rfl
  | some name =>
    have hname := hown name rfl
    obtain ⟨hat, hword⟩ := matches_functionWord
      (name.toList ++ writeFunction numeral params body (')' :: more))
    have hskip := (dropTrivia_blank (c := ' ') rfl _).trans
      (hname.at (isIdentChar_parameters numeral params body (')' :: more))).skip
    have hfront : (rule .functionKeyword ++ optional (rule .identifier)).Matches .skipped
        ("function".toList ++ ' ' :: (name.toList ++
          writeFunction numeral params body (')' :: more)))
        (writeFunction numeral params body (')' :: more)) [nameNode name] :=
      hword.andThen hskip
        (.present (hname.matches (isIdentChar_parameters numeral params body (')' :: more))))
    obtain ⟨params', body', hmatch, hlower⟩ := matches_function hparams hbody hfront
    refine .of_denotes (x := .functionExpression) ⟨_, matches_node rfl hmatch, ?_⟩ hat (by decide)
    change (Stmt.ofFunction params' body' >>= fun parts =>
      .ok (Expr.function (some (nameNode name).string) parts.1 parts.2)) = _
    rw [hlower, string_nameNode]
    rfl

/-! ## Conditionals

The test is in parentheses; the consequent and the alternative are statements.
-/

/-- The test of a conditional, in front of its consequent. -/
theorem matches_test {test : Expr} (htest : test.Readable numeral) {s : List Char} {k : Kind}
    (hs : At s k) :
    ∃ t, Expr.ofTree t = .ok test ∧ ∀ {s' trees},
      (rule .statement).Matches .skipped s s' trees →
        (rule .ifKeyword ++ lit "(" ++ rule .expression ++ lit ")" ++ rule .statement).Matches
          .skipped ("if".toList ++ '(' :: test.write numeral (')' :: s)) s' (t :: trees) := by
  have hbound : ∀ c ∈ ('(' :: test.write numeral (')' :: s)).head?, isIdentChar c = false := by
    rintro _ ⟨⟩
    rfl
  obtain ⟨t, hmatch, ht⟩ := (htest s).denotes
  have hword : (rule .ifKeyword).Matches .skipped
      ("if".toList ++ '(' :: test.write numeral (')' :: s))
      ('(' :: test.write numeral (')' :: s)) [] :=
    matches_keywordRule (k := (.ifKeyword, .ifWord, "if")) (by decide) hbound
  have hopen : (rule .ifKeyword ++ lit "(").Matches .skipped
      ("if".toList ++ '(' :: test.write numeral (')' :: s)) (test.write numeral (')' :: s)) [] :=
    hword.andThen (At.lone (by decide) _).skip (.word rfl)
  have hclose := (hopen.andThen (htest s).skip hmatch).andThen (At.lone (by decide) s).skip
    (q := lit ")") (.word rfl)
  exact ⟨t, ht, fun hstatement => hclose.andThen hs.skip hstatement⟩

theorem at_if (s : List Char) : At ("if".toList ++ '(' :: s) (.fixed "if".toList) := by
  refine (At.reserved (by decide) ?_).1
  rintro _ ⟨⟩
  rfl

/-- A conditional without alternative is read back in front of anything but an `else`, which it
would take. -/
theorem Stmt.Readable.cond {test : Expr} (htest : test.Readable numeral) {consequent : Stmt}
    (hthen : consequent.Readable numeral b) :
    (Stmt.cond test consequent none).Readable numeral b := by
  refine .of_node (k := .fixed "if".toList) (r := .ifStatement) (by decide) (fun _ => at_if _) ?_
  intro more hskip helse
  obtain ⟨k, -, hat⟩ := hthen.start more
  obtain ⟨c, hconsequent, hc⟩ := hthen.node hskip fun _ => helse rfl
  obtain ⟨t, ht, hfront⟩ := matches_test htest hat
  have hbegins : (rule .elseKeyword ++ rule .statement).solid ∧
      (rule .elseKeyword ++ rule .statement).begins = [.fixed "else".toList] := by
    decide +kernel
  have habsent : (optional (rule .elseKeyword ++ rule .statement)).Matches .skipped more more [] :=
    .absent (fails_of_kind hbegins.1 hskip (by simpa [hbegins.2] using helse rfl))
  refine ⟨_, matches_node (r := .ifStatement) rfl ((hfront hconsequent).andThen hskip habsent), ?_⟩
  change (Expr.ofTree t >>= fun test => Stmt.ofTree b c >>= fun consequent =>
    .ok (some (Stmt.cond test (Stmt.orEmpty consequent) none))) = _
  rw [ht, hc]
  rfl

/-- A conditional with an alternative is read back if its consequent does not take the `else`. -/
theorem Stmt.Readable.condElse {test : Expr} (htest : test.Readable numeral)
    {consequent alternate : Stmt} (hthen : consequent.Readable numeral b)
    (hclosed : consequent.endsOpen = false) (halternate : alternate.Readable numeral b) :
    (Stmt.cond test consequent (some alternate)).Readable numeral b := by
  refine .of_node (k := .fixed "if".toList) (r := .ifStatement) (by decide) (fun _ => at_if _) ?_
  intro more hskip helse
  obtain ⟨k, -, hat⟩ := halternate.start more
  obtain ⟨a, hmatch, ha⟩ := halternate.node hskip helse
  have hbound : ∀ c ∈ (' ' :: alternate.write numeral more).head?, isIdentChar c = false := by
    rintro _ ⟨⟩
    rfl
  have hword : (rule .elseKeyword).Matches .skipped
      ("else".toList ++ ' ' :: alternate.write numeral more)
      (' ' :: alternate.write numeral more) [] :=
    matches_keywordRule (k := (.elseKeyword, .elseWord, "else")) (by decide) hbound
  have hpresent : (optional (rule .elseKeyword ++ rule .statement)).Matches .skipped
      ("else".toList ++ ' ' :: alternate.write numeral more) more [a] :=
    .present (hword.andThen ((dropTrivia_blank (c := ' ') rfl _).trans hat.skip) hmatch)
  have hbehind := (At.reserved (w := "else".toList) (by decide) hbound).1
  obtain ⟨k', -, hat'⟩ := hthen.start ("else".toList ++ ' ' :: alternate.write numeral more)
  obtain ⟨c, hconsequent, hc⟩ := hthen.node hbehind.skip fun hopen => by
    rw [hclosed] at hopen
    cases hopen
  obtain ⟨t, ht, hfront⟩ := matches_test htest hat'
  refine ⟨_, matches_node (r := .ifStatement) rfl
    ((hfront hconsequent).andThen hbehind.skip hpresent), ?_⟩
  change (Stmt.ofTree b a >>= fun alternate => Expr.ofTree t >>= fun test =>
    Stmt.ofTree b c >>= fun consequent =>
      .ok (some (Stmt.cond test (Stmt.orEmpty consequent) (some (Stmt.orEmpty alternate))))) = _
  rw [ha, ht, hc]
  rfl

/-! ## Variables

A block of declarations is written as a statement that declares variables.
-/

theorem Stmt.writeVars_eq (lead : List Char) (ss : List Stmt) (more : List Char) :
    Stmt.writeVars numeral lead ss more = separated (Stmt.write numeral) lead ss more := by
  induction ss generalizing lead with
  | nil => rfl
  | cons s ss ih =>
    rw [Stmt.writeVars, separated, ih]

/-- The node is that of the declaration. -/
def IsDeclarator (s : Stmt) (t : Tree) : Prop :=
  ∃ name init value, s = .var name init ∧
    t = ⟨.variableDeclaration, 0, [], [nameNode name, value]⟩ ∧ Expr.ofTree value = .ok init

/-- The declarators of several declarations are lowered to these, one by one. -/
theorem Stmt.ofDeclarators_of_forall₂ {ss : List Stmt} {trees : List Tree}
    (h : List.Forall₂ IsDeclarator ss trees) : Stmt.ofDeclarators trees = .ok ss := by
  induction h with
  | nil => rfl
  | cons hs _ ih =>
    obtain ⟨name, init, value, rfl, rfl, hvalue⟩ := hs
    have hname : ¬(nameNode name).rule ≠ .identifier := not_not.mpr rfl
    rw [Stmt.ofDeclarators.eq_def]
    simp only [if_neg hname, hvalue, ih, string_nameNode]
    rfl

/-- A declaration is matched as the declarator that it is written as. -/
theorem Stmt.Declared.matches {s : Stmt} (h : s.Declared numeral) {u : List Char} {c : Char}
    (hc : c ∈ [',', ';']) (hu : At u (.fixed [c])) :
    dropTrivia (s.write numeral u) = s.write numeral u ∧
      ∃ t, (rule .variableDeclaration).Matches .skipped (s.write numeral u) u [t] ∧
        IsDeclarator s t := by
  obtain ⟨name, init, rfl, hname, hinit⟩ := h
  have hbound : ∀ x ∈ ('=' :: '(' :: init.write numeral (')' :: u)).head?,
      isIdentChar x = false := by
    rintro _ ⟨⟩
    rfl
  have hall : ∀ c ∈ [',', ';'], c ∈ [',', ')', '\x7d', ';'] :=
    List.all_iff_forall_prop.mp (by decide)
  obtain ⟨value, hmatch, hvalue⟩ := (hinit u).item (hall c hc) hu
  have hat := hname.at hbound
  have htarget : (rule .bindingTarget).Matches .skipped
      (name.toList ++ '=' :: '(' :: init.write numeral (')' :: u))
      ('=' :: '(' :: init.write numeral (')' :: u)) [nameNode name] :=
    (matches_silent_iff rfl).mpr (.picked hat (by decide) (hname.matches hbound))
  have hequals : (lit "=" ++ rule .assignmentExpression).Matches .skipped
      ('=' :: '(' :: init.write numeral (')' :: u)) u [value] :=
    .andThen (.word rfl) (At.lone (by decide) _).skip hmatch
  exact ⟨hat.skip, _, matches_node (r := .variableDeclaration) rfl
    (htarget.andThen (dropTrivia_cons (by decide) (by decide) _) (.present hequals)),
    name, init, value, rfl, rfl, hvalue⟩

/-- A block of declarations is read back as the block that it is. -/
theorem Stmt.Readable.vars {body : List Stmt} (hne : body ≠ []) (hvars : ∀ s ∈ body, s.isVar)
    (h : ∀ s ∈ body, s.Declared numeral) : (Stmt.block body).Readable numeral b := by
  have hwrite : ∀ more, (Stmt.block body).write numeral more =
      "var".toList ++ ' ' :: Stmt.writeVars numeral [] body (';' :: more) := by
    intro more
    have hfirst : body.head?.any Stmt.isVar = true := by
      obtain ⟨s, body, rfl⟩ := List.exists_cons_of_ne_nil hne
      exact hvars s List.mem_cons_self
    change (if body.head?.any Stmt.isVar then _ else _) = _
    rw [hfirst]
    rfl
  have hbound : ∀ s : List Char, ∀ c ∈ (' ' :: s).head?, isIdentChar c = false := by
    rintro s _ ⟨⟩
    rfl
  have hword := fun s : List Char => matches_wholeWord (r := .varKind)
    (p := lit "var" <|> lit "let" <|> lit "const") rfl rfl rfl (by decide) (w := "var".toList)
    (by decide) (by decide) (hbound s)
  refine .of_node (k := .fixed "var".toList) (r := .variableStatement) (by decide)
    (fun more => ?_) ?_
  · rw [hwrite]
    exact (hword _).1
  · intro more _ _
    obtain ⟨hskip, trees, hmatch, htrees⟩ := separated_matches (by decide)
      (fun s hs => (h s hs).matches) hne more
    rw [hwrite, Stmt.writeVars_eq]
    have hlist : (rule .variableDeclarationList).Matches .skipped
        (separated (Stmt.write numeral) [] body (';' :: more)) (';' :: more)
        [⟨.variableDeclarationList, 0, [], trees⟩] := matches_node rfl hmatch
    refine ⟨_, matches_node (r := .variableStatement) rfl (matches_semicolon
      ((hword _).2.andThen ((dropTrivia_blank (c := ' ') rfl _).trans hskip) hlist)
      (At.lone (by decide) more).skip), ?_⟩
    change (Stmt.ofDeclarators trees >>= fun first => (Except.ok []) >>= fun rest =>
      (Except.ok (first ++ rest)) : Except ProgramError (List Stmt)) >>=
        (fun body => .ok (some (Stmt.block body))) = _
    rw [Stmt.ofDeclarators_of_forall₂ htrees]
    exact congrArg (fun body => Except.ok (some (Stmt.block body))) (List.append_nil body)

/-- A name is read back, unless it is taken for the value `undefined`. -/
theorem Expr.Readable.name {n : String} (hn : IsName n) (hne : n ≠ "undefined") :
    (Expr.name n).Readable numeral := by
  intro more
  refine .of_denotes ⟨_, hn.matches (isIdentChar_close _), ?_⟩ (hn.at (isIdentChar_close _))
    (by decide)
  change Except.ok (Expr.ofName (nameNode n).string) = _
  rw [string_nameNode, Expr.ofName, if_neg hne]

end

/-! ## Programs

The induction over programs, along the constructors.
-/

/-- Every number that can be written has a numeral. -/
abbrev WritesNumbers (numeral : Float → List Char) : Prop :=
  ∀ x, IsNumber x → NumberText (numeral x) x

/-- There is a way to write numbers: for each number that can be written, some text denotes it. -/
theorem exists_writesNumbers : ∃ numeral, WritesNumbers numeral := by
  have hnumeral : ∀ x, ∃ text, IsNumber x → NumberText text x := by
    intro x
    by_cases hx : IsNumber x
    · exact ⟨hx.choose, fun _ => hx.choose_spec⟩
    · exact ⟨[], fun h => absurd h hx⟩
  choose numeral hnumeral using hnumeral
  exact ⟨numeral, hnumeral⟩

section

variable {numeral : Float → List Char}

mutual

/-- **What is legible is read back**, for expressions. By induction on the expression, with one
lemma for each way to write one; an operand is written in parentheses, so that no precedence has to
be looked at. -/
theorem Expr.readable (hn : WritesNumbers numeral) :
    ∀ e : Expr, e.Everywhere Expr.Legible Stmt.Legible → e.Readable numeral
  | .literal _, h => fun more => Literal.write_written hn h more
  | .object properties, h => .object (Expr.readable_properties hn properties h.2)
  | .name _, h => .name h.1 h.2
  | .member base key, h => fun _ =>
    .member (Expr.readable hn base h.2.1 _) (Expr.readable hn key h.2.2 _)
  | .function _ _ body, h => .function h.1.1 h.1.2.1 fun s hs =>
    Stmt.readable_all (b := true) hn body h.2 nofun s hs (h.1.2.2 s hs)
  | .call callee args, h =>
    .call (Expr.readable hn callee h.2.1) (Expr.readable_all hn args h.2.2)
  | .binary op left right, h => fun _ =>
    .binary op (Expr.readable hn left h.2.1 _) (Expr.readable hn right h.2.2 _)
  | .assign target value, h => fun _ =>
    .assign h.1 (Expr.readable hn target h.2.1 _) (Expr.readable hn value h.2.2 _)

/-- What is legible is read back, for several expressions. -/
theorem Expr.readable_all (hn : WritesNumbers numeral) :
    ∀ es : List Expr, Expr.EverywhereAll Expr.Legible Stmt.Legible es →
      ∀ e ∈ es, e.Readable numeral
  | [], _ => nofun
  | e :: es, h =>
    List.forall_mem_cons.mpr ⟨Expr.readable hn e h.1, Expr.readable_all hn es h.2⟩

/-- What is legible is read back, for properties. -/
theorem Expr.readable_properties (hn : WritesNumbers numeral) :
    ∀ properties : List (String × Expr),
      Expr.EverywhereProperties Expr.Legible Stmt.Legible properties →
        ∀ property ∈ properties, property.2.Readable numeral
  | [], _ => nofun
  | (_, e) :: properties, h =>
    List.forall_mem_cons.mpr ⟨Expr.readable hn e h.1, Expr.readable_properties hn properties h.2⟩

/-- What is legible is read back, for statements. Outside of functions they must not return;
the declaration of a variable is not read on its own. -/
theorem Stmt.readable {b : Bool} (hn : WritesNumbers numeral) :
    ∀ s : Stmt, s.Everywhere Expr.Legible Stmt.Legible → (b = false → s.Returnless) →
      s.isVar = false → s.Readable numeral b
  | .function _ _ body, h, _, _ => .function h.1.1 h.1.2.1 fun s hs =>
    Stmt.readable_all (b := true) hn body h.2 nofun s hs (h.1.2.2 s hs)
  | .cond test consequent none, h, hret, _ =>
    .cond (Expr.readable hn test h.2.1) (Stmt.readable hn consequent h.2.2 hret h.1)
  | .cond test consequent (some alternate), h, hret, _ =>
    .condElse (Expr.readable hn test h.2.1)
      (Stmt.readable hn consequent h.2.2.1 (fun hb => (hret hb).1) h.1.1) h.1.2.2
      (Stmt.readable hn alternate h.2.2.2 (fun hb => (hret hb).2) h.1.2.1)
  | .ret value, h, hret, _ => by
    cases b with
    | false => exact (hret rfl).elim
    | true =>
      cases value with
      | none => exact .ret
      | some value => exact .retValue (Expr.readable hn value h.2)
  | .block body, h, hret, _ => by
    rcases h.1 with ⟨hne, hvars⟩ | hvars
    · exact .vars hne hvars fun s hs => Stmt.declared_all hn body h.2 s hs (hvars s hs)
    · exact .block hvars fun s hs => Stmt.readable_all hn body h.2 hret s hs (hvars s hs)
  | .expr e, h, _, _ => .expr (Expr.readable hn e h.2)

/-- What is legible is read back, for several statements. -/
theorem Stmt.readable_all {b : Bool} (hn : WritesNumbers numeral) :
    ∀ ss : List Stmt, Stmt.EverywhereAll Expr.Legible Stmt.Legible ss →
      (b = false → Stmt.ReturnlessAll ss) → ∀ s ∈ ss, s.isVar = false → s.Readable numeral b
  | [], _, _ => nofun
  | s :: ss, h, hret => List.forall_mem_cons.mpr ⟨Stmt.readable hn s h.1 fun hb => (hret hb).1,
      Stmt.readable_all hn ss h.2 fun hb => (hret hb).2⟩

/-- Declarations that are legible are read back, among others. -/
theorem Stmt.declared_all (hn : WritesNumbers numeral) :
    ∀ ss : List Stmt, Stmt.EverywhereAll Expr.Legible Stmt.Legible ss →
      ∀ s ∈ ss, s.isVar → s.Declared numeral
  | [], _ => nofun
  | .var name init :: ss, h => List.forall_mem_cons.mpr
      ⟨fun _ => ⟨name, init, rfl, h.1.1, Expr.readable hn init h.1.2⟩,
        Stmt.declared_all hn ss h.2⟩
  | .function _ _ _ :: ss, h | .cond _ _ _ :: ss, h | .ret _ :: ss, h | .block _ :: ss, h
  | .expr _ :: ss, h => List.forall_mem_cons.mpr ⟨nofun, Stmt.declared_all hn ss h.2⟩

end

/-- **The text of a writable program denotes it.** Its statements are read back one by one, and the
end of the last one is the end of the text. -/
theorem Program.ofSource_text (hn : WritesNumbers numeral) {p : Program} (hp : p.Writable) :
    Program.ofSource (p.text numeral) = .ok p := by
  have hend : At [] .finish := ⟨dropTrivia_nil, rfl⟩
  have hreadable : ∀ s ∈ p, s.Readable numeral false := fun s hs =>
    Stmt.readable_all hn p hp.legible (fun _ => hp.returns) s hs (hp.vars s hs)
  obtain ⟨-, trees, hiterates, hlower⟩ := Stmt.writeAll_iterates hreadable hend (by decide)
  refine Program.ofSource_of_statements ?_ dropTrivia_nil hlower
  rw [Program.text, String.toList_ofList]
  exact hiterates

end

/-- **The programs that texts denote are the writable ones.** Every writable program is denoted
by its text, in which every operand stands in parentheses, whatever numerals the numbers are
written with. -/
theorem ofSource_range (p : Program) :
    ((∃ source, Program.ofSource source = .ok p) ↔ p.Writable) ∧
      ∀ numeral : Float → List Char, WritesNumbers numeral → p.Writable →
        Program.ofSource (p.text numeral) = .ok p := by
  refine ⟨⟨fun ⟨_, h⟩ => Program.ofSource_writable h, fun hp => ?_⟩,
    fun _ hn hp => Program.ofSource_text hn hp⟩
  obtain ⟨numeral, hn⟩ := exists_writesNumbers
  exact ⟨p.text numeral, Program.ofSource_text hn hp⟩

/-- An `else` can be written behind a conditional without alternative if there is a block
between the two, and variables if they stand in a block of nothing else. -/
theorem ofSource_range_else :
    let inner : Stmt := .cond (.name "b") (.block []) none
    let vars : Stmt := .block [.var "c" (.literal (.string "\"\n")), .var "d" (.name "c")]
    let p : Program := [.cond (.name "a") (.block [inner]) (some vars)]
    p.Writable ∧ ∃ numeral, WritesNumbers numeral ∧ Program.ofSource (p.text numeral) = .ok p := by
  intro inner vars p
  have hname : ∀ c ∈ ['a', 'b', 'c', 'd'], IsName (String.ofList [c]) := by
    intro c hc
    have hall : ∀ c ∈ ['a', 'b', 'c', 'd'],
        isIdentStart c ∧ isIdentChar c ∧ [c] ∉ reservedWords :=
      List.all_iff_forall_prop.mp (by decide)
    obtain ⟨hstart, hchar, hfree⟩ := hall c hc
    have htoList : (String.ofList [c]).toList = [c] := String.toList_ofList
    refine ⟨⟨c, ?_, hstart⟩, ?_, ?_⟩
    · rw [htoList]
      rfl
    · rw [htoList, List.all_cons, hchar]
      rfl
    · rwa [htoList]
  have ha := hname 'a' (by decide)
  have hb := hname 'b' (by decide)
  have hc := hname 'c' (by decide)
  have hd := hname 'd' (by decide)
  have hp : p.Writable := by
    refine ⟨⟨⟨⟨rfl, rfl, rfl⟩, ⟨ha, by decide⟩, ?_, ?_⟩, trivial⟩,
      ⟨⟨⟨trivial, trivial⟩, ?_⟩, trivial⟩, by decide⟩
    · exact ⟨.inr (by decide), ⟨rfl, ⟨hb, by decide⟩, .inr nofun, trivial⟩, trivial⟩
    · exact ⟨.inl ⟨nofun, by decide⟩, ⟨hc, trivial⟩, ⟨hd, hc, by decide⟩, trivial⟩
    · exact ⟨trivial, trivial, trivial⟩
  obtain ⟨numeral, hn⟩ := exists_writesNumbers
  exact ⟨hp, numeral, hn, (ofSource_range p).2 numeral hn hp⟩

end Scriptlet
