import Mathlib.Data.List.Forall2
import Scriptlet.Proofs.Grammar.LineEnd
import Scriptlet.Proofs.Grammar.Settled
import Scriptlet.Proofs.Program.Passing
import Scriptlet.Proofs.Program.Writable

/-!
# Writing programs

Every writable program has a text: every operand is written in parentheses, every key in quotes and
every statement with its end (`Program.text`), given a way to write numbers. Here its expressions
are matched and lowered to themselves where they are written: each operand (`Expr.Written.operand`),
literal (`Literal.write_written`) and list of operands (`separated_matches`).

The text need not be a nice one, but a simple one to reason about. With parentheses around every
operand the levels of precedence play no part. Writing takes what stands behind as an argument: the
text of an expression in front of `more` is what a match in front of `more` is about, and no
appending has to be moved around. The equations of writing are thus the shapes of the texts that the
matches begin with.

* `Expr.write`, `Stmt.write`, `Program.text`: the text.
* `Expr.Written`: the expression stands in the text, up to a place.
* `Expr.Readable`: where the expression is written, it is read back.
* `Literal.write_written`, `Expr.Readable.call`, `Expr.Readable.object`: one lemma for each kind of
  expression, given its parts.
-/

namespace Scriptlet

open Peg

/-! ## Texts

The functions that write, one case for each constructor. Numbers are written by a function that is
given, since nothing here depends on how they are written.
-/

/-- Elements in front of `more`, with commas between them and `lead` before the first. -/
def separated {α : Type} (write : α → List Char → List Char) (lead : List Char) :
    List α → List Char → List Char
  | [], more => more
  | x :: xs, more => lead ++ write x (separated write [','] xs more)

/-- Names, with commas between them. -/
def writeNames : List String → List Char → List Char := separated (fun n => (n.toList ++ ·)) []

section

variable (numeral : Float → List Char)

/-- A literal in front of `more`. -/
def Literal.write : Literal → List Char → List Char
  | .number x, more => numeral x ++ more
  | .string s, more => '"' :: (escape s.toList ++ '"' :: more)
  | .boolean b, more => (if b then "true" else "false").toList ++ more
  | .undefined, more => "undefined".toList ++ more
  | .null, more => "null".toList ++ more

mutual

/-- An expression in front of `more`, with its operands in parentheses. What is written by itself,
such as a name, is a whole expression only if it is in parentheses or ends there. -/
def Expr.write : Expr → List Char → List Char
  | .literal value, more => value.write numeral more
  | .object properties, more => '\x7b' :: Expr.writeProperties [] properties ('\x7d' :: more)
  | .name n, more => n.toList ++ more
  | .member base key, more =>
    '(' :: base.write (')' :: '[' :: '(' :: key.write (')' :: ']' :: more))
  | .function name params body, more =>
    "function".toList ++ ' ' :: ((name.getD "").toList ++
      '(' :: writeNames params (')' :: '\x7b' :: Stmt.writeAll body ('\x7d' :: more)))
  | .call callee args, more =>
    '(' :: callee.write (')' :: '(' :: Expr.writeAll [] args (')' :: more))
  | .binary op left right, more =>
    '(' :: left.write (')' :: (op.token.toList ++ '(' :: right.write (')' :: more)))
  | .assign target value, more =>
    '(' :: target.write (')' :: '=' :: '(' :: value.write (')' :: more))

/-- Expressions in parentheses, with commas between them and `lead` before the first. -/
def Expr.writeAll (lead : List Char) : List Expr → List Char → List Char
  | [], more => more
  | e :: es, more => lead ++ '(' :: e.write (')' :: Expr.writeAll [','] es more)

/-- Properties, with commas between them and `lead` before the first. -/
def Expr.writeProperties (lead : List Char) : List (String × Expr) → List Char → List Char
  | [], more => more
  | (key, e) :: properties, more =>
    lead ++ '"' :: (escape key.toList ++
      '"' :: ':' :: '(' :: e.write (')' :: Expr.writeProperties [','] properties more))

/-- A statement in front of `more`. The declaration of a variable is written as it stands among
others, and a block of declarations as one statement with all of them. -/
def Stmt.write : Stmt → List Char → List Char
  | .function name params body, more =>
    "function".toList ++ ' ' :: (name.toList ++
      '(' :: writeNames params (')' :: '\x7b' :: Stmt.writeAll body ('\x7d' :: more)))
  | .var name init, more => name.toList ++ '=' :: '(' :: init.write (')' :: more)
  | .cond test consequent none, more =>
    "if".toList ++ '(' :: test.write (')' :: consequent.write more)
  | .cond test consequent (some alternate), more =>
    "if".toList ++ '(' :: test.write (')' ::
      consequent.write ("else".toList ++ ' ' :: alternate.write more))
  | .ret none, more => "return".toList ++ ';' :: more
  | .ret (some value), more => "return".toList ++ '(' :: value.write (')' :: ';' :: more)
  | .block body, more =>
    if body.head?.any Stmt.isVar then "var".toList ++ ' ' :: Stmt.writeVars [] body (';' :: more)
    else '\x7b' :: Stmt.writeAll body ('\x7d' :: more)
  | .expr e, more => '(' :: e.write (')' :: ';' :: more)

/-- Statements one behind the other. -/
def Stmt.writeAll : List Stmt → List Char → List Char
  | [], more => more
  | s :: ss, more => s.write (Stmt.writeAll ss more)

/-- Declarations, with commas between them and `lead` before the first. -/
def Stmt.writeVars (lead : List Char) : List Stmt → List Char → List Char
  | [], more => more
  | s :: ss, more => lead ++ s.write (Stmt.writeVars [','] ss more)

end

/-- The text of a program: its statements one behind the other. -/
def Program.text (p : Program) : String := String.ofList (Stmt.writeAll numeral p [])

end

/-! ## Names

A name stands where it is written if what is behind it does not make it longer.
-/

/-- The node of a plain rule. -/
theorem Peg.matches_node {r : Rule} (hr : r.kind = .plain) {s s' : List Char} {trees : List Tree}
    (h : r.body.Matches .skipped s s' trees) :
    (rule r).Matches .skipped s s' [⟨r, 0, [], trees⟩] :=
  (matches_plain_iff hr (by decide)).mpr ⟨trees, h, rfl⟩

/-- The node of a name, in its bare form. -/
def nameNode (n : String) : Tree := ⟨.identifier, 0, n.toList, []⟩

@[simp] theorem string_nameNode (n : String) : (nameNode n).string = n := String.ofList_toList

section

variable {n : String} (hn : IsName n) {s : List Char} (hs : ∀ c ∈ s.head?, isIdentChar c = false)
include hn hs

theorem IsName.split : (n.toList ++ s).takeWhile isIdentChar = n.toList ∧
    s = (n.toList ++ s).dropWhile isIdentChar :=
  (eq_append_iff_takeWhile hn.chars).mp ⟨rfl, hs⟩

omit hs in
theorem IsName.head_append (s : List Char) : ∃ c ∈ (n.toList ++ s).head?, isIdentStart c := by
  obtain ⟨c, hc, hstart⟩ := hn.head
  exact ⟨c, List.mem_head?_append_of_mem_head? hc, hstart⟩

/-- A text that begins with a name is a place of the kind of names. -/
theorem IsName.at : At (n.toList ++ s) .name := by
  refine ⟨dropTrivia_of_isIdentStart (hn.head_append s), kind_of_name (hn.head_append s) ?_⟩
  rw [(hn.split hs).1]
  exact hn.free

/-- A name is matched as one, since it is no reserved word and is not the beginning of a longer
word. -/
theorem IsName.matches : (rule .identifier).Matches .skipped (n.toList ++ s) s [nameNode n] := by
  refine matches_identifier_iff.mpr ⟨hn.head_append s, ?_, (hn.split hs).2, ?_⟩
  · rw [(hn.split hs).1]
    exact hn.free
  · change _ = [(⟨.identifier, 0, textBetween (n.toList ++ s) s, []⟩ : Tree)]
    rw [textBetween_self_append, nameNode]

end

/-! ## Operands

In parentheses, an expression is an operand of whatever level. The passages from a primary
expression up to the level that is needed were computed before (`Rule.passages`).
-/

namespace BinaryOp

/-- The node of an operator, in its bare form. -/
def node (op : BinaryOp) : Tree := ⟨op.operator, 0, op.token.toList, []⟩

/-- The node of an operator is lowered to the operator. -/
theorem ofTree_node (op : BinaryOp) : Operator.ofTree op.node = .ok (.binary op) := by
  cases op <;> rfl

section

variable {c : Char} (hc : c = '(' ∨ c = ' ') (s : List Char)
include hc

theorem at_token (op : BinaryOp) : At (op.token.toList ++ c :: s) (.fixed op.token.toList) := by
  rcases hc with rfl | rfl <;> cases op <;> exact ⟨dropTrivia_cons rfl (by decide) _, rfl⟩

/-- An operator is matched where it is written, in front of a parenthesis or a space: no longer
operator can be meant there. -/
theorem matches_token (op : BinaryOp) :
    (rule op.operator).Matches .skipped (op.token.toList ++ c :: s) (c :: s) [op.node] := by
  have hmade : op.operator.made .skipped (op.token.toList ++ c :: s) (c :: s) [] =
      [op.node] := by
    have hkind : op.operator.kind = .token := by cases op <;> rfl
    simp [Rule.made, Rule.visible, hkind, textBetween_self_append, node]
  have hne : ∀ x ∈ ['+', '-', '=', '<'], ∀ s', c :: s ≠ x :: s' := by
    rintro x hx s' ⟨⟩
    rcases hc with rfl | rfl <;> exact absurd hx (by decide)
  refine (matches_token_iff (by cases op <;> rfl)).mpr ⟨[], ?_, hmade.symm⟩
  cases op with
  | add =>
    exact .left (.seq (.word rfl)
      (.notAhead (.both (.word (hne '+' (by decide))) (.word (hne '=' (by decide))))))
  | subtract =>
    exact .right (.first (.word (by rintro _ ⟨⟩))) (.seq (.word rfl)
      (.notAhead (.both (.word (hne '-' (by decide))) (.word (hne '=' (by decide))))))
  | lessThan =>
    refine .right (.word fun s' h => hne '=' (by decide) s' (List.cons.inj h).2)
      (.right (.word (by rintro _ ⟨⟩)) (.left (.seq (.word rfl) ?_)))
    exact .notAhead (.word (hne '<' (by decide)))
  | looseEquals =>
    refine .right (.word fun s' h => ?_) (.right (.word (by rintro _ ⟨⟩)) (.left (.word rfl)))
    exact hne '=' (by decide) s' (List.cons.inj (List.cons.inj h).2).2
  | strictEquals => exact .left (.word rfl)

end

end BinaryOp

/-- Calls and accesses. -/
def Peg.suffix : Peg := rule .arguments <|> rule .propertyAccess <|> rule .elementAccess

/-- A call or an access, with none behind it, is an expression on the left of an assignment. -/
theorem Rule.Denotes.suffix {base e : Expr} {s u s' : List Char}
    (h : Rule.primaryExpression.Denotes s u base) (hu : dropTrivia u = u) {t : Tree}
    (hsuffix : Peg.suffix.Matches .skipped u s' [t])
    (hlower : Expr.ofSuffixes base [t] = .ok e)
    (hend : Peg.suffix.Fails .skipped (dropTrivia s')) :
    Rule.leftHandSideExpression.Denotes s s' e := by
  obtain ⟨first, hfirst, hbase⟩ := h
  have hmatch : (rule .leftHandSideExpression).Matches .skipped s s'
      [⟨.leftHandSideExpression, 0, [], [first, t]⟩] :=
    matches_node rfl (hfirst.andThen hu (.times hsuffix (.stop hend)))
  refine ⟨_, hmatch, ?_⟩
  change (Expr.ofTree first >>= fun base => Expr.ofSuffixes base [t]) = .ok e
  rw [hbase]
  exact hlower

/-- An access to a property whose key is computed. -/
theorem Rule.Denotes.elementAccess {key : Expr} {s s' : List Char} (hs : dropTrivia s = s)
    (h : Rule.expression.Denotes s (']' :: s') key) (base : Expr) :
    ∃ t, Peg.suffix.Matches .skipped ('[' :: s) s' [t] ∧
      Expr.ofSuffixes base [t] = .ok (.member base key) := by
  obtain ⟨t, hmatch, ht⟩ := h
  have hclose := At.lone (c := ']') (by decide) s'
  have haccess : (rule .elementAccess).Matches .skipped ('[' :: s) s'
      [⟨.elementAccess, 0, [], [t]⟩] :=
    matches_node rfl (matches_enclosed hs hmatch hclose.skip)
  refine ⟨_, .picked (At.lone (by decide) s) (by decide) haccess, ?_⟩
  rw [Expr.ofSuffixes.eq_def]
  simp only [ht]
  rfl

/-- A target and a value with the operator of assignment between them. -/
theorem Rule.Denotes.assign {target value : Expr} (htarget : target.isTarget) {c : Char}
    (hc : c = '(' ∨ c = ' ') {s u s' : List Char}
    (hleft : Rule.conditionalExpression.Denotes s ('=' :: c :: u) target)
    (hright : Rule.assignmentExpression.Denotes (dropTrivia (c :: u)) s' value) :
    Rule.assignmentExpression.Denotes s s' (.assign target value) := by
  obtain ⟨t, hfirst, ht⟩ := hleft
  obtain ⟨t', hsecond, ht'⟩ := hright
  have hoperator : (rule .assignmentOperator).Matches .skipped ('=' :: c :: u) (c :: u)
      [⟨.assignmentOperator, 0, ['='], []⟩] := by
    refine (matches_token_iff rfl).mpr ⟨[], .left (.seq (.word rfl) (.notAhead (.word ?_))), ?_⟩
    · rcases hc with rfl | rfl <;> rintro _ ⟨⟩
    · change _ = [(⟨_, 0, textBetween (['='] ++ c :: u) (c :: u), []⟩ : Tree)]
      rw [textBetween_self_append]
  have hmatch : (rule .assignmentExpression).Matches .skipped s s'
      [⟨.assignmentExpression, 0, [], [t, ⟨.assignmentOperator, 0, ['='], []⟩, t']⟩] :=
    matches_node rfl (hfirst.andThen (dropTrivia_cons rfl (by decide) _)
      (.present (hoperator.andThen rfl hsecond)))
  refine ⟨_, hmatch, ?_⟩
  rw [Expr.ofTree.eq_def]
  simp only [ht, ht']
  change (if (!target.isTarget) = true then _ else _) = _
  rw [htarget]
  rfl

/-- The text between the places denotes the expression, and nothing is skipped before it. -/
structure Expr.Written (e : Expr) (s s' : List Char) : Prop where
  skip : dropTrivia s = s
  denotes : Rule.expression.Denotes s s' e

namespace Expr.Written

variable {e base key left right target value : Expr} {s u more : List Char}

/-- What some rule denotes is written if there is a passage from the rule up to expressions. -/
theorem of_denotes {x : Rule} {k : Kind} (h : x.Denotes s (')' :: more) e) (hs : At s k)
    (hr : (k, .fixed [')'], x, .expression) ∈ Rule.passages) : e.Written s (')' :: more) :=
  ⟨hs.skip, h.lift hs (.lone (by decide) more) hr⟩

/-- What is written can be put in parentheses, which is how operands are written everywhere. -/
theorem parenthesized (h : e.Written s (')' :: more)) :
    Rule.parenthesizedExpression.Denotes ('(' :: s) more e := by
  obtain ⟨t, hmatch, ht⟩ := h.denotes
  have hinner : (lit "(" ++ rule .expression ++ lit ")").Matches .skipped ('(' :: s) more [t] :=
    matches_enclosed h.skip hmatch (At.lone (by decide) more).skip
  refine ⟨_, matches_node (r := .parenthesizedExpression) rfl hinner, ?_⟩
  exact (Expr.ofTree_passing (by decide) 0 [] t).trans ht

/-- An expression in parentheses is an operand of any level, given the passage. -/
theorem operand (h : e.Written s (')' :: u)) {f : Kind} (hu : At u f) {r : Rule}
    (hr : (.fixed ['('], f, .parenthesizedExpression, r) ∈ Rule.passages) :
    r.Denotes ('(' :: s) u e :=
  h.parenthesized.lift (.lone (by decide) s) hu hr

theorem suffix (h : base.Written s (')' :: u)) {f : Kind} (hu : At u f)
    (hf : (.fixed ['('], f, .parenthesizedExpression, .primaryExpression) ∈ Rule.passages)
    {t : Tree} (hsuffix : Peg.suffix.Matches .skipped u (')' :: more) [t])
    (hlower : Expr.ofSuffixes base [t] = .ok e) : e.Written ('(' :: s) (')' :: more) := by
  have hclose := At.lone (c := ')') (by decide) more
  have hend : Peg.suffix.Fails .skipped (dropTrivia (')' :: more)) := by
    rw [hclose.skip]
    exact hclose.fails (by decide) (by decide)
  have hdenotes := (h.operand hu hf).suffix hu.skip hsuffix hlower hend
  exact .of_denotes hdenotes (.lone (by decide) s) (by decide)

/-- An access whose key is computed is written with base and key in parentheses. -/
theorem member (hbase : base.Written s (')' :: '[' :: '(' :: u))
    (hkey : key.Written u (')' :: ']' :: ')' :: more)) :
    (Expr.member base key).Written ('(' :: s) (')' :: more) := by
  have hclose := At.lone (c := ']') (by decide) (')' :: more)
  obtain ⟨t, haccess, hlower⟩ := (hkey.operand hclose (r := .expression) (by decide)).elementAccess
    (At.lone (by decide) u).skip base
  exact hbase.suffix (.lone (by decide) ('(' :: u)) (by decide) haccess hlower

theorem binary (op : BinaryOp) (hleft : left.Written s (')' :: (op.token.toList ++ '(' :: u)))
    (hright : right.Written u (')' :: ')' :: more)) :
    (Expr.binary op left right).Written ('(' :: s) (')' :: more) := by
  have hop := op.at_token (.inl rfl) u
  have hclose := At.lone (c := ')') (by decide) more
  obtain ⟨t, hfirst, ht⟩ := hleft.operand hop (r := op.operand) (by cases op <;> decide)
  obtain ⟨t', hsecond, ht'⟩ := hright.operand hclose (r := op.operand) (by cases op <;> decide)
  have hstep : (rule op.operator ++ rule op.operand).Matches .skipped
      (op.token.toList ++ '(' :: u) (')' :: more) [op.node, t'] :=
    (op.matches_token (.inl rfl) u).andThen (At.lone (by decide) u).skip hsecond
  have hmany : (many (rule op.operator ++ rule op.operand)).Matches .skipped
      (op.token.toList ++ '(' :: u) (')' :: more) [op.node, t'] := by
    refine .times hstep (.stop ?_)
    rw [Spacing.skip, hclose.skip]
    cases op <;> exact .first (hclose.fails (by decide) (by decide))
  have hbody : op.level.body = Rule.chain op.operand op.operator := by cases op <;> rfl
  have hmatch : (rule op.level).Matches .skipped ('(' :: s) (')' :: more)
      [⟨op.level, 0, [], [t, op.node, t']⟩] := by
    refine matches_node (by cases op <;> rfl) ?_
    rw [hbody]
    exact hfirst.andThen hop.skip hmany
  refine .of_denotes ⟨_, hmatch, ?_⟩ (.lone (by decide) s) (by cases op <;> decide)
  have hlower : Expr.ofTree ⟨op.level, 0, [], [t, op.node, t']⟩ =
      Expr.ofTree t >>= fun left => Operator.ofTree op.node >>= fun o =>
        Expr.ofTree t' >>= fun right => .ok (o.apply left right) := by
    cases op <;> rfl
  rw [hlower, ht, op.ofTree_node, ht']
  rfl

/-- An assignment is written with both sides in parentheses; the left one is a target even so. -/
theorem assign (htarget : target.isTarget) (hleft : target.Written s (')' :: '=' :: '(' :: u))
    (hright : value.Written u (')' :: ')' :: more)) :
    (Expr.assign target value).Written ('(' :: s) (')' :: more) := by
  have hequals : At ('=' :: '(' :: u) (.fixed ['=']) := ⟨dropTrivia_cons rfl (by decide) _, rfl⟩
  have hclose := At.lone (c := ')') (by decide) more
  have hvalue := hright.operand hclose (r := .assignmentExpression) (by decide)
  rw [← (At.lone (c := '(') (by decide) u).skip] at hvalue
  have hdenotes := (hleft.operand hequals (r := .conditionalExpression) (by decide)).assign
    htarget (.inl rfl) hvalue
  exact .of_denotes hdenotes (.lone (by decide) s) (by decide)

end Expr.Written

/-! ## Literals

A literal is written in front of a closing parenthesis, which ends it.
-/

/-- A token that is a whole word in front of something else. -/
theorem Peg.matches_wholeWord {r : Rule} (hr : r.kind = .token) {p : Peg}
    (hbody : r.body = p ++ notAhead (rule .identChar)) (hp : p.isWords)
    (hfree : p.texts.Pairwise fun a b => ¬a <+: b ∧ ¬b <+: a) {w : List Char} (hw : w ∈ p.texts)
    (hreserved : ∀ w ∈ p.texts, w ∈ reservedWords) {s : List Char}
    (hs : ∀ c ∈ s.head?, isIdentChar c = false) :
    At (w ++ s) (.fixed w) ∧ (rule r).Matches .skipped (w ++ s) s [⟨r, 0, w, []⟩] := by
  have hchars : ∀ w ∈ reservedWords, w.all isIdentChar := by decide
  obtain ⟨hat, htake, hdrop⟩ := At.reserved (hreserved w hw) hs
  have hmatch : r.body.Matches .token (w ++ s) s [] := by
    rw [hbody]
    refine (matches_wholeWords_iff hp hfree fun w hw => hchars w (hreserved w hw)).mpr ?_
    exact ⟨htake.symm ▸ hw, hdrop.symm, rfl⟩
  have hmade : r.made .skipped (w ++ s) s [] = [⟨r, 0, w, []⟩] := by
    simp [Rule.made, Rule.visible, hr, textBetween_self_append]
  exact ⟨hat, (matches_token_iff hr).mpr ⟨[], hmatch, hmade.symm⟩⟩

/-- What stands before a closing parenthesis does not go on as a word. -/
theorem isIdentChar_close (more : List Char) :
    ∀ c ∈ (')' :: more).head?, isIdentChar c = false := by
  rintro _ ⟨⟩
  rfl

/-- The text of a number, up to its end or to something that does not go on with it. It was matched
alone, and is spared by what stands behind. -/
theorem NumberText.stands {text : List Char} {x : Float} (h : NumberText text x) {z : List Char}
    (hz : ∀ c ∈ z.head?, c = ')' ∨ c = ':') : At (text ++ z) .number ∧
      ∃ inner, (rule .numericLiteral).Matches .skipped (text ++ z) z
        [⟨.numericLiteral, 0, text, inner⟩] := by
  obtain ⟨trees, hliteral⟩ := h.literal
  obtain ⟨inner, hinner, -⟩ := (matches_token_iff rfl).mp hliteral
  have hbody : Rule.numericLiteral.body.Matches .token (text ++ z) z inner := by
    cases z with
    | nil => rwa [List.append_nil]
    | cons c more =>
      rcases hz c rfl with rfl | rfl <;> exact hinner.append (by decide) more nofun (by decide)
  have hmatch : (rule .numericLiteral).Matches .skipped (text ++ z) z
      [⟨.numericLiteral, 0, text, inner⟩] := by
    refine (matches_token_iff rfl).mpr ⟨inner, hbody, ?_⟩
    change _ = [(⟨_, 0, textBetween (text ++ z) z, inner⟩ : Tree)]
    rw [textBetween_self_append]
  refine ⟨⟨?_, kind_of_number hmatch.numericLiteral_head⟩, inner, hmatch⟩
  rcases hmatch.numericLiteral_head with ⟨c, hc, hdigit⟩ | ⟨c, u, hs, -⟩
  · obtain ⟨u, hs⟩ := List.head?_eq_some_iff.mp hc
    rw [hs]
    exact dropTrivia_of_isDigit hdigit u
  · rw [hs]
    exact dropTrivia_cons (by decide) (by decide) _

theorem NumberText.denotes {text : List Char} {x : Float} (h : NumberText text x) {z : List Char}
    (hz : ∀ c ∈ z.head?, c = ')' ∨ c = ':') : At (text ++ z) .number ∧
      Rule.numericLiteral.Denotes (text ++ z) z (.literal (.number x)) := by
  obtain ⟨hat, inner, hmatch⟩ := h.stands hz
  refine ⟨hat, _, hmatch, ?_⟩
  change (numericValue _ >>= fun x => .ok (Expr.literal (.number x))) = _
  rw [numericValue, h.value]
  rfl

section

variable {numeral : Float → List Char} (hnumeral : ∀ x, IsNumber x → NumberText (numeral x) x)
include hnumeral

/-- A literal in front of a closing parenthesis. The cases are the kinds of literals; a boolean,
`null` and `undefined` are words. -/
theorem Literal.write_written {value : Literal} (hvalue : (Expr.literal value).Legible)
    (more : List Char) :
    (Expr.literal value).Written (value.write numeral (')' :: more)) (')' :: more) := by
  cases value with
  | number x =>
    obtain ⟨hat, hdenotes⟩ := (hnumeral x hvalue).denotes (z := ')' :: more) fun _ hc =>
      .inl (Option.some.inj hc).symm
    exact .of_denotes hdenotes hat (by decide)
  | string s =>
    have hat : At ('"' :: (escape s.toList ++ '"' :: ')' :: more)) .string :=
      ⟨dropTrivia_cons (by decide) (by decide) _, rfl⟩
    refine .of_denotes ⟨_, matches_escape s.toList (')' :: more), ?_⟩ hat (by decide)
    change (stringValue (stringNode s.toList) >>= fun s => .ok (Expr.literal (.string s))) = _
    rw [stringValue_stringNode]
    rfl
  | boolean b =>
    have hmatch := fun {w : List Char} hw => matches_wholeWord (r := .booleanLiteral) (w := w) rfl
      (p := lit "true" <|> lit "false") rfl rfl (by decide) hw (by decide)
      (isIdentChar_close more)
    cases b with
    | true =>
      obtain ⟨hat, hmatch⟩ := hmatch (w := "true".toList) (by decide)
      exact .of_denotes ⟨_, hmatch, rfl⟩ hat (by decide)
    | false =>
      obtain ⟨hat, hmatch⟩ := hmatch (w := "false".toList) (by decide)
      exact .of_denotes ⟨_, hmatch, rfl⟩ hat (by decide)
  | undefined =>
    have hname : IsName "undefined" := ⟨⟨'u', rfl, by decide⟩, by decide, by decide⟩
    exact .of_denotes ⟨_, hname.matches (isIdentChar_close _), rfl⟩
      (hname.at (isIdentChar_close _)) (by decide)
  | null =>
    obtain ⟨hat, hmatch⟩ := matches_wholeWord (r := .nullLiteral) rfl (p := lit "null") rfl rfl
      (by decide) (w := "null".toList) (by decide) (by decide) (isIdentChar_close more)
    exact .of_denotes ⟨_, hmatch, rfl⟩ hat (by decide)

end

/-! ## Lists of operands

Arguments, properties, parameters and declarations are lists with commas. They are matched one by
one with one lemma, given how one element is matched in front of a comma or of what closes the list.
-/

/-- An expression in parentheses, as an element of a list: behind it stands a comma or the end of
the list. -/
theorem Expr.Written.item {e : Expr} {s u : List Char} (h : e.Written s (')' :: u)) {c : Char}
    (hc : c ∈ [',', ')', '\x7d', ';']) (hu : At u (.fixed [c])) :
    Rule.assignmentExpression.Denotes ('(' :: s) u e := by
  have hall : ∀ c ∈ [',', ')', '\x7d', ';'],
      (.fixed ['('], .fixed [c], .parenthesizedExpression, .assignmentExpression) ∈
        Rule.passages :=
    List.all_iff_forall_prop.mp (by decide)
  exact h.operand hu (hall c hc)

/-- In the text, the expression is written in front of a closing parenthesis. This is what the
induction over programs shows of every expression. -/
def Expr.Readable (numeral : Float → List Char) (e : Expr) : Prop :=
  ∀ more, e.Written (e.write numeral (')' :: more)) (')' :: more)

section

variable {α : Type} {write : α → List Char → List Char} {close : Char}
  (hclose : close ∈ [')', '\x7d', ';'])
include hclose

/-- What closes the list is a token by itself. -/
theorem At.closing (more : List Char) : At (close :: more) (.fixed [close]) := by
  have hall : ∀ c ∈ [')', '\x7d', ';'],
      c ∈ ['(', ')', '[', ']', '\x7b', '\x7d', ',', ';', ':'] :=
    List.all_iff_forall_prop.mp (by decide)
  exact .lone (hall close hclose) more

variable (write) in
/-- Behind an element stands a comma or what closes the list. -/
theorem at_separated (xs : List α) (more : List Char) :
    ∃ c ∈ [',', close], At (separated write [','] xs (close :: more)) (.fixed [c]) := by
  cases xs with
  | nil => exact ⟨close, by simp, .closing hclose more⟩
  | cons x xs => exact ⟨',', by simp, .lone (by decide) _⟩

variable {p : Peg} {R : α → Tree → Prop} {xs : List α}
  (h : ∀ x ∈ xs, ∀ {u : List Char} {c : Char}, c ∈ [',', close] → At u (.fixed [c]) →
    dropTrivia (write x u) = write x u ∧ ∃ t, p.Matches .skipped (write x u) u [t] ∧ R x t)
include h

/-- The elements behind the first one are matched, each with the comma in front of it. -/
theorem separated_iterates (more : List Char) :
    ∃ trees, (lit "," ++ p).Iterates .skipped (separated write [','] xs (close :: more))
      (close :: more) trees ∧ List.Forall₂ R xs trees := by
  induction xs with
  | nil =>
    have hcomma : close ≠ ',' := by
      rintro rfl
      revert hclose
      decide
    refine ⟨[], .stop (.first (.word fun s' hs => hcomma ?_)), .nil⟩
    rw [separated, Spacing.skip, (At.closing hclose more).skip] at hs
    exact (List.cons.inj hs).1
  | cons x xs ih =>
    obtain ⟨hx, hxs⟩ := List.forall_mem_cons.mp h
    obtain ⟨trees, hrest, hR⟩ := ih hxs
    obtain ⟨c, hc, hat⟩ := at_separated write hclose xs more
    obtain ⟨hskip, t, hitem, ht⟩ := hx hc hat
    have hstep : (lit "," ++ p).Matches .skipped
        (separated write [','] (x :: xs) (close :: more)) (separated write [','] xs (close :: more))
        [t] := .andThen (.word rfl) hskip hitem
    have hcomma : Spacing.skipped.skip (separated write [','] (x :: xs) (close :: more)) =
        separated write [','] (x :: xs) (close :: more) := (At.lone (by decide) _).skip
    exact ⟨t :: trees, .step (hcomma.symm ▸ hstep) hrest, .cons ht hR⟩

/-- **Elements with commas between them are matched one by one.** The nodes are related to the
elements by whatever relates a node to its element. -/
theorem separated_matches (hne : xs ≠ []) (more : List Char) :
    dropTrivia (separated write [] xs (close :: more)) = separated write [] xs (close :: more) ∧
      ∃ trees, (commaSeparated p).Matches .skipped (separated write [] xs (close :: more))
        (close :: more) trees ∧ List.Forall₂ R xs trees := by
  obtain ⟨x, xs, rfl⟩ := List.exists_cons_of_ne_nil hne
  obtain ⟨hx, hxs⟩ := List.forall_mem_cons.mp h
  obtain ⟨trees, hrest, hR⟩ := separated_iterates hclose hxs more
  obtain ⟨c, hc, hat⟩ := at_separated write hclose xs more
  obtain ⟨hskip, t, hitem, ht⟩ := hx hc hat
  exact ⟨hskip, t :: trees, matches_commaSeparated hitem hat.skip hrest, .cons ht hR⟩

/-- Elements with commas between them are also matched where there may be none: an empty list is
left out, since what closes it begins no element. -/
theorem separated_optional (hrefused : (commaSeparated p, .fixed [close]) ∈ refusals)
    (more : List Char) :
    dropTrivia (separated write [] xs (close :: more)) = separated write [] xs (close :: more) ∧
      ∃ trees, (optional (commaSeparated p)).Matches .skipped
        (separated write [] xs (close :: more)) (close :: more) trees ∧
          List.Forall₂ R xs trees := by
  by_cases hne : xs = []
  · subst hne
    have hat := At.closing hclose more
    exact ⟨hat.skip, [], .absent (hat.refused hrefused), .nil⟩
  · obtain ⟨hskip, trees, hmatch, hR⟩ := separated_matches hclose h hne more
    exact ⟨hskip, trees, .present hmatch, hR⟩

end

/-! ## Calls and objects

Lists of arguments and of properties, as instances of the above.
-/

section

variable {numeral : Float → List Char}

theorem Expr.writeAll_eq (lead : List Char) (es : List Expr) (more : List Char) :
    Expr.writeAll numeral lead es more =
      separated (fun e more => '(' :: e.write numeral (')' :: more)) lead es more := by
  induction es generalizing lead with
  | nil => rfl
  | cons e es ih =>
    rw [Expr.writeAll, separated, ih]

/-- Arguments are lowered one by one to the expressions that they are the nodes of. -/
theorem Expr.ofTrees_of_forall₂ {es : List Expr} {trees : List Tree}
    (h : List.Forall₂ (fun e t => Expr.ofTree t = .ok e) es trees) :
    Expr.ofTrees trees = .ok es := by
  induction h with
  | nil => rfl
  | cons he _ ih =>
    rw [Expr.ofTrees, he, ih]
    rfl

theorem Expr.Readable.all {args : List Expr} (hargs : ∀ e ∈ args, e.Readable numeral)
    (more : List Char) :
    dropTrivia (Expr.writeAll numeral [] args (')' :: more)) =
        Expr.writeAll numeral [] args (')' :: more) ∧
      ∃ trees, (optional (commaSeparated (rule .assignmentExpression))).Matches .skipped
        (Expr.writeAll numeral [] args (')' :: more)) (')' :: more) trees ∧
        Expr.ofTrees trees = .ok args := by
  rw [Expr.writeAll_eq]
  have hitem : ∀ e ∈ args, ∀ {u : List Char} {c : Char}, c ∈ [',', ')'] → At u (.fixed [c]) →
      dropTrivia ('(' :: e.write numeral (')' :: u)) = '(' :: e.write numeral (')' :: u) ∧
        ∃ t, (rule .assignmentExpression).Matches .skipped ('(' :: e.write numeral (')' :: u)) u
          [t] ∧ Expr.ofTree t = .ok e := by
    intro e he u c hc hu
    have hall : ∀ c ∈ [',', ')'], c ∈ [',', ')', '\x7d', ';'] :=
      List.all_iff_forall_prop.mp (by decide)
    exact ⟨(At.lone (by decide) _).skip, (hargs e he u).item (hall c hc) hu⟩
  obtain ⟨hskip, trees, hmatch, htrees⟩ := separated_optional (by decide) hitem (by decide) more
  exact ⟨hskip, trees, hmatch, Expr.ofTrees_of_forall₂ htrees⟩

/-- A call is read back if what is called and its arguments are. -/
theorem Expr.Readable.call {callee : Expr} {args : List Expr} (hcallee : callee.Readable numeral)
    (hargs : ∀ e ∈ args, e.Readable numeral) : (Expr.call callee args).Readable numeral := by
  intro more
  obtain ⟨hskip, trees, hmatch, hlower⟩ := Expr.Readable.all hargs (')' :: more)
  have hopen := At.lone (c := '(') (by decide)
    (Expr.writeAll numeral [] args (')' :: ')' :: more))
  have harguments : (rule .arguments).Matches .skipped
      ('(' :: Expr.writeAll numeral [] args (')' :: ')' :: more)) (')' :: more)
      [⟨.arguments, 0, [], trees⟩] :=
    matches_node rfl (matches_enclosed hskip hmatch (At.lone (by decide) _).skip)
  refine (hcallee _).suffix hopen (by decide) (.left harguments) ?_
  rw [Expr.ofSuffixes.eq_def]
  simp only [hlower]
  rfl

/-- A property in front of `more`. -/
def writeProperty (numeral : Float → List Char) (property : String × Expr) (more : List Char) :
    List Char :=
  '"' :: (escape property.1.toList ++ '"' :: ':' :: '(' :: property.2.write numeral (')' :: more))

theorem Expr.writeProperties_eq (lead : List Char) (properties : List (String × Expr))
    (more : List Char) :
    Expr.writeProperties numeral lead properties more =
      separated (writeProperty numeral) lead properties more := by
  induction properties generalizing lead with
  | nil => rfl
  | cons property properties ih =>
    rw [Expr.writeProperties, separated, ih]
    rfl

/-- The node of a property has its key as a string and its value. -/
def IsProperty (property : String × Expr) (t : Tree) : Prop :=
  ∃ value, t = ⟨.propertyAssignment, 0, [], [stringNode property.1.toList, value]⟩ ∧
    Expr.ofTree value = .ok property.2

/-- Properties are lowered one by one to those that they are the nodes of. -/
theorem Expr.ofProperties_of_forall₂ {properties : List (String × Expr)} {trees : List Tree}
    (h : List.Forall₂ IsProperty properties trees) :
    Expr.ofProperties trees = .ok properties := by
  induction h with
  | nil => rfl
  | @cons property _ _ _ hproperty _ ih =>
    obtain ⟨value, rfl, hvalue⟩ := hproperty
    have hkey : propertyKey (stringNode property.1.toList) = .ok property.1 :=
      stringValue_stringNode property.1
    rw [Expr.ofProperties.eq_def]
    simp only [hkey, hvalue, ih]
    rfl

/-- A property is read back if its value is, with its key written as a string whatever it is. -/
theorem Expr.Readable.property {property : String × Expr} (h : property.2.Readable numeral)
    {u : List Char} {c : Char} (hc : c ∈ [',', '\x7d']) (hu : At u (.fixed [c])) :
    dropTrivia (writeProperty numeral property u) = writeProperty numeral property u ∧
      ∃ t, (rule .propertyDefinition).Matches .skipped (writeProperty numeral property u) u [t] ∧
        IsProperty property t := by
  have hall : ∀ c ∈ [',', '\x7d'], c ∈ [',', ')', '\x7d', ';'] :=
    List.all_iff_forall_prop.mp (by decide)
  obtain ⟨value, hmatch, hvalue⟩ := (h u).item (hall c hc) hu
  have hname : (rule .propertyName).Matches .skipped (writeProperty numeral property u)
      (':' :: '(' :: property.2.write numeral (')' :: u)) [stringNode property.1.toList] :=
    (matches_silent_iff rfl).mpr (.left (matches_escape _ _))
  have hassignment : (rule .propertyAssignment).Matches .skipped (writeProperty numeral property u)
      u [⟨.propertyAssignment, 0, [], [stringNode property.1.toList, value]⟩] :=
    matches_node rfl (.andThen (.andThen hname (At.lone (by decide) _).skip (.word rfl))
      (At.lone (by decide) _).skip hmatch)
  refine ⟨dropTrivia_cons (by decide) (by decide) _, _, ?_, value, rfl, hvalue⟩
  exact (matches_silent_iff rfl).mpr (.left hassignment)

/-- An object is read back if its properties are. -/
theorem Expr.Readable.object {properties : List (String × Expr)}
    (h : ∀ property ∈ properties, property.2.Readable numeral) :
    (Expr.object properties).Readable numeral := by
  intro more
  have hbrace := fun s => At.lone (c := '\x7d') (by decide) s
  have hproperties : dropTrivia (Expr.writeProperties numeral [] properties
        ('\x7d' :: ')' :: more)) =
        Expr.writeProperties numeral [] properties ('\x7d' :: ')' :: more) ∧
      ∃ trees, (optional (commaSeparated (rule .propertyDefinition) ++ optional (lit ","))).Matches
        .skipped (Expr.writeProperties numeral [] properties ('\x7d' :: ')' :: more))
        ('\x7d' :: ')' :: more) trees ∧ Expr.ofProperties trees = .ok properties := by
    rw [Expr.writeProperties_eq]
    by_cases hne : properties = []
    · subst hne
      exact ⟨(hbrace _).skip, [], .absent ((hbrace _).refused (by decide)), rfl⟩
    · obtain ⟨hskip, trees, hmatch, htrees⟩ := separated_matches (by decide)
        (fun property hmem => (h property hmem).property) hne (')' :: more)
      have hcomma : (optional (lit ",")).Matches .skipped ('\x7d' :: ')' :: more)
          ('\x7d' :: ')' :: more) [] := .absent (.word nofun)
      have hlist := hmatch.andThen (hbrace _).skip hcomma
      rw [List.append_nil] at hlist
      exact ⟨hskip, trees, .present hlist, Expr.ofProperties_of_forall₂ htrees⟩
  obtain ⟨hskip, trees, hmatch, hlower⟩ := hproperties
  have hobject : (rule .objectLiteral).Matches .skipped
      ('\x7b' :: Expr.writeProperties numeral [] properties ('\x7d' :: ')' :: more))
      (')' :: more) [⟨.objectLiteral, 0, [], trees⟩] :=
    matches_node rfl (matches_enclosed hskip hmatch (hbrace _).skip)
  refine .of_denotes ⟨_, hobject, ?_⟩ (.lone (by decide) _) (by decide)
  change (Expr.ofProperties trees >>= fun properties => .ok (Expr.object properties)) = _
  rw [hlower]
  rfl

end

/-! ## Functions

Parameters are a list of names.
-/

/-- The text at a place of a character that stands alone. -/
theorem At.exists_cons {u : List Char} {c : Char} (h : At u (.fixed [c])) : ∃ v, u = c :: v := by
  rcases of_kind_eq_fixed h.kind with ⟨-, v, hv⟩ | ⟨hreserved, -⟩
  · exact ⟨v, hv.symm⟩
  · have hlong : ∀ w ∈ reservedWords, w.length ≠ 1 := by decide
    exact absurd rfl (hlong _ hreserved)

theorem IsName.matches_parameter {n : String} (hn : IsName n) {u : List Char} {c : Char}
    (hc : c ∈ [',', ')']) (hu : At u (.fixed [c])) :
    (rule .formalParameter).Matches .skipped (n.toList ++ u) u [nameNode n] := by
  have hall : ∀ c ∈ [',', ')'], isIdentChar c = false ∧ c ≠ '=' :=
    List.all_iff_forall_prop.mp (by decide)
  obtain ⟨v, rfl⟩ := hu.exists_cons
  have hbound : ∀ x ∈ (c :: v).head?, isIdentChar x = false := by
    rintro _ ⟨⟩
    exact (hall c hc).1
  have hat := hn.at hbound
  have hname := hn.matches hbound
  have hequals : (lit "=").Fails .skipped (Spacing.skipped.skip (c :: v)) := by
    rw [Spacing.skip, hu.skip]
    exact .word fun s' hs => (hall c hc).2 (List.cons.inj hs).1
  refine (matches_silent_iff rfl).mpr (.right (hat.fails (by decide) (by decide)) ?_)
  refine .right (.rule (.first (.second hname hequals))) ?_
  exact .picked hat (by decide) hname

theorem parameterNames_nodes (params : List String) :
    parameterNames ⟨.formalParameters, 0, [], params.map nameNode⟩ = .ok params := by
  rw [parameterNames, if_pos rfl]
  induction params with
  | nil => rfl
  | cons n params ih =>
    have hname : (nameNode n).rule = .identifier := rfl
    rw [List.map_cons, List.mapM_cons, if_pos hname, string_nameNode, ih]
    rfl

theorem matches_parameters {params : List String} (h : ∀ n ∈ params, IsName n)
    (more : List Char) :
    (rule .formalParameters).Matches .skipped ('(' :: writeNames params (')' :: more)) more
      [⟨.formalParameters, 0, [], params.map nameNode⟩] := by
  have hitem : ∀ n ∈ params, ∀ {u : List Char} {c : Char}, c ∈ [',', ')'] → At u (.fixed [c]) →
      dropTrivia (n.toList ++ u) = n.toList ++ u ∧
        ∃ t, (rule .formalParameter).Matches .skipped (n.toList ++ u) u [t] ∧ nameNode n = t := by
    intro n hn u c hc hu
    exact ⟨dropTrivia_of_isIdentStart ((h n hn).head_append u), _,
      (h n hn).matches_parameter hc hu, rfl⟩
  obtain ⟨hskip, trees, hmatch, htrees⟩ := separated_optional (by decide) hitem (by decide) more
  obtain rfl : params.map nameNode = trees := by
    rw [← List.forall₂_eq_eq_eq, List.forall₂_map_left_iff]
    exact htrees
  exact matches_node rfl (matches_enclosed hskip hmatch (At.lone (by decide) more).skip)

end Scriptlet
