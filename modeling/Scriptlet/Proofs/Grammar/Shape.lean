import Scriptlet.Proofs.Grammar.Reading

/-!
# The shapes of nodes

Which nodes may stand below a node is a matter of the production of its rule: the rules of the
children, read from left to right, form a word of a regular language. `Rule.shape?` computes the
expression of that language from the production, with the silent rules written out, and
`Tree.Fits.shape` says that the children of every reading belong to it. Tokens have no children at
all (`Tree.Fits.children_eq_nil`).

Shapes are what lowering is reasoned about with. It goes by the rules of the children, and a proof
about it has to know that the first child of a variable's statement is its kind, say, and that
declarators follow. Such facts are computed, by evaluating the shape of the rule, and not proved
from the production each time: a change to the grammar changes what is computed, but no proof about
shapes.

* `Shape`, `Shape.Fits`: regular expressions over rules and the lists of nodes they describe.
* `Rule.shape?`, `Tree.Fits.shape`: the shape of a rule; the children of a derived node fit it.
* `Rule.lexical`, `Peg.Reads.eq_nil_of_lexical`: inside of a token no node is made.
-/

namespace Scriptlet

/-- A regular expression over the rules of nodes. A node carries a list of rules since alternatives
between single nodes are by far the most common ones. -/
inductive Shape where
  /-- no node -/
  | none
  /-- one node of one of the rules -/
  | node (rules : List Rule)
  | append (first second : Shape)
  | either (left right : Shape)
  | star (body : Shape)
deriving DecidableEq

namespace Shape

/-- The nodes belong to the language of the shape. -/
def Fits : Shape → List Tree → Prop
  | .none, ts => ts = []
  | .node rules, ts => ∃ t, ts = [t] ∧ t.rule ∈ rules
  | .append first second, ts => ∃ xs ys, ts = xs ++ ys ∧ first.Fits xs ∧ second.Fits ys
  | .either left right, ts => left.Fits ts ∨ right.Fits ts
  | .star body, ts => ∃ tss : List (List Tree), ts = tss.flatten ∧ ∀ xs ∈ tss, body.Fits xs

/-! Shapes are put together so that the common ones come out simple. -/

/-- One shape after the other. Sequences are kept to the right and empty shapes are dropped, so that
the shape of a production lists its nodes. -/
def andThen : Shape → Shape → Shape
  | .none, second => second
  | .append a b, second => .append a (b.andThen second)
  | first, .none => first
  | first, second => .append first second

/-- One shape or the other; two single nodes become one node of either's rules. -/
def orElse : Shape → Shape → Shape
  | .none, .none => .none
  | .node rules, .node rules' => .node (rules ++ rules')
  | left, right => .either left right

/-- One shape any number of times; without nodes, repetition makes no difference. -/
def repeated : Shape → Shape
  | .none => .none
  | body => .star body

/-- The simplified sequence fits what the sequence fits. -/
theorem fits_andThen {a b : Shape} {xs ys : List Tree} (hx : a.Fits xs) (hy : b.Fits ys) :
    (a.andThen b).Fits (xs ++ ys) := by
  have happend : (a.append b).Fits (xs ++ ys) := ⟨xs, ys, rfl, hx, hy⟩
  induction a generalizing xs with
  | none =>
    obtain rfl : xs = [] := hx
    exact hy
  | append a a' _ ih =>
    obtain ⟨us, vs, rfl, hu, hv⟩ := hx
    refine ⟨us, vs ++ ys, List.append_assoc us vs ys, hu, ?_⟩
    exact ih hv ⟨vs, ys, rfl, hv, hy⟩
  | node _ | either _ _ _ _ | star _ _ =>
    cases b with
    | none =>
      obtain rfl : ys = [] := hy
      rw [List.append_nil]
      exact hx
    | node _ | append _ _ | either _ _ | star _ => exact happend

/-- The simplified choice fits what the choice fits. -/
theorem fits_orElse {a b : Shape} {ts : List Tree} (h : a.Fits ts ∨ b.Fits ts) :
    (a.orElse b).Fits ts := by
  have heither : (a.either b).Fits ts := h
  cases a with
  | none =>
    cases b with
    | none => exact h.elim (fun h => h) fun h => h
    | node _ | append _ _ | either _ _ | star _ => exact heither
  | node rules =>
    cases b with
    | node rules' =>
      obtain ⟨t, rfl, ht⟩ | ⟨t, rfl, ht⟩ := h
      · exact ⟨t, rfl, List.mem_append_left _ ht⟩
      · exact ⟨t, rfl, List.mem_append_right _ ht⟩
    | none | append _ _ | either _ _ | star _ => exact heither
  | append _ _ | either _ _ | star _ => exact heither

/-- The simplified repetition fits what the repetition fits. -/
theorem fits_repeated {a : Shape} {tss : List (List Tree)} (h : ∀ xs ∈ tss, a.Fits xs) :
    a.repeated.Fits tss.flatten := by
  have hstar : a.star.Fits tss.flatten := ⟨tss, rfl, h⟩
  cases a with
  | none =>
    refine List.flatten_eq_nil_iff.mpr fun xs hxs => ?_
    exact h xs hxs
  | node _ | append _ _ | either _ _ | star _ => exact hstar

/-- A single node, as most uses have it. -/
theorem fits_node {rules : List Rule} {ts : List Tree} :
    (node rules).Fits ts ↔ ∃ t, ts = [t] ∧ t.rule ∈ rules := .rfl

/-- The rules of the nodes of a shape, in whatever place. -/
def rules : Shape → List Rule
  | .none => []
  | .node rules => rules
  | .append a b | .either a b => a.rules ++ b.rules
  | .star body => body.rules

/-- Nodes that fit a shape are of its rules. -/
theorem Fits.mem_rules {shape : Shape} {ts : List Tree} (h : shape.Fits ts) :
    ∀ t ∈ ts, t.rule ∈ shape.rules := by
  induction shape generalizing ts with
  | none =>
    obtain rfl : ts = [] := h
    exact List.forall_mem_nil _
  | node rules =>
    obtain ⟨t, rfl, ht⟩ := h
    intro t' ht'
    obtain rfl := List.mem_singleton.mp ht'
    exact ht
  | append a b iha ihb =>
    obtain ⟨xs, ys, rfl, hx, hy⟩ := h
    intro t ht
    rcases List.mem_append.mp ht with ht | ht
    · exact List.mem_append_left _ (iha hx t ht)
    · exact List.mem_append_right _ (ihb hy t ht)
  | either a b iha ihb =>
    intro t ht
    rcases h with h | h
    · exact List.mem_append_left _ (iha h t ht)
    · exact List.mem_append_right _ (ihb h t ht)
  | star body ih =>
    obtain ⟨tss, rfl, h⟩ := h
    intro t ht
    obtain ⟨xs, hxs, ht⟩ := List.mem_flatten.mp ht
    exact ih (h xs hxs) t ht

end Shape

/-! ## Shapes of productions

The shape of an expression is computed along the expression. A silent rule makes no node of its own,
so its shape is that of its body, and has to be computed in turn; rules that make nodes end the
computation, which is why it needs little depth.
-/

/-- The shape of what an expression makes, given the shapes of silent rules. Trivia are between the
parts of expressions and never among them, so no shape is given for them. -/
def Peg.shapeWith (silent : Rule → Option Shape) : Peg → Option Shape
  | .word _ | .one _ | .start | .finish | .ahead _ | .notAhead _ => some .none
  | .rule r =>
    match r.kind with
    | .plain | .token | .compound => some (.node [r])
    | .silent => silent r
    | .trivia => none
  | .seq p q => do return (← p.shapeWith silent).andThen (← q.shapeWith silent)
  | .choice p q => do return (← p.shapeWith silent).orElse (← q.shapeWith silent)
  | .many p => do return (← p.shapeWith silent).repeated
  | .optional p => do return (← p.shapeWith silent).orElse .none

/-- The shape of what the production of a rule makes, with silent rules written out to a depth. The
depth makes it a recursion; where it is too small, there is no shape. -/
def Rule.shapeWithin : Nat → Rule → Option Shape
  | 0, _ => none
  | depth + 1, r => r.body.shapeWith (shapeWithin depth)

/-- The shape of the children of a node. Silent rules are nested two deep at most. -/
def Rule.shape? (r : Rule) : Option Shape := r.shapeWithin 3

/-- The rules of the node that a silent rule makes, if it makes one node. The statements and the
primary expressions are given by such rules. -/
def Rule.members (r : Rule) : List Rule :=
  match r.shape? with
  | some (.node rules) => rules
  | _ => []

namespace Peg

/-- The shapes given for silent rules are those of what they make. -/
def ShapesRight (spacing : Spacing) (silent : Rule → Option Shape) : Prop :=
  ∀ {r : Rule} {shape : Shape} {pos : Nat} {text : List Char} {trees : List Tree},
    silent r = some shape → r.body.Reads spacing pos text trees → shape.Fits trees

/-- What repeated readings make comes in portions, each of which fits the shape of what is
repeated. -/
theorem Repeats.fits {spacing : Spacing} {p : Peg} {shape : Shape} {pos : Nat}
    {text : List Char} {trees : List Tree} :
    p.Repeats spacing pos text trees →
      (∀ {pos text trees}, p.Reads spacing pos text trees → shape.Fits trees) →
        ∃ tss : List (List Tree), trees = tss.flatten ∧ ∀ xs ∈ tss, shape.Fits xs
  | .once body, hp => by
    refine ⟨[trees], by simp, fun ys hys => ?_⟩
    obtain rfl := List.mem_singleton.mp hys
    exact hp body
  | @Repeats.again _ _ _ _ _ _ _ _ xs run _ body, hp => by
    obtain ⟨tss, rfl, htss⟩ := run.fits hp
    refine ⟨tss ++ [xs], by simp, fun ys hys => ?_⟩
    rcases List.mem_append.mp hys with hys | hys
    · exact htss ys hys
    · obtain rfl := List.mem_singleton.mp hys
      exact hp body

/-- **What a reading makes fits the shape of the expression**, by induction on the expression. It is
said outside of tokens, where the rules make their nodes. -/
theorem Reads.fits {spacing : Spacing} (hspacing : spacing ≠ .token)
    {silent : Rule → Option Shape} (hsilent : ShapesRight spacing silent) {p : Peg}
    {shape : Shape} (hp : p.shapeWith silent = some shape) {pos : Nat} {text : List Char}
    {trees : List Tree} (h : p.Reads spacing pos text trees) : shape.Fits trees := by
  induction p generalizing shape pos text trees with
  | word _ | one _ | start | finish | ahead _ _ | notAhead _ _ =>
    obtain rfl := Option.some.inj hp
    cases h
    rfl
  | rule r =>
    obtain ⟨inner, hbody, rfl⟩ := reads_rule_iff.mp h
    rw [shapeWith] at hp
    rw [Rule.nodes, Rule.visible]
    rw [Rule.inside] at hbody
    -- a rule is one node, or none and then what its production makes
    cases hk : r.kind with
    | plain | token | compound =>
      simp only [hk] at hp
      obtain rfl := Option.some.inj hp
      simp [hspacing, Shape.fits_node]
    | silent =>
      simp only [hk] at hp hbody
      exact hsilent hp hbody
    | trivia =>
      simp only [hk] at hp
      cases hp
  | seq p q ihp ihq =>
    obtain ⟨a, ha, hp⟩ := Option.bind_eq_some_iff.mp hp
    obtain ⟨b, hb, hp⟩ := Option.bind_eq_some_iff.mp hp
    obtain rfl := Option.some.inj hp
    cases h with
    | seq first _ second => exact Shape.fits_andThen (ihp ha first) (ihq hb second)
  | choice p q ihp ihq =>
    obtain ⟨a, ha, hp⟩ := Option.bind_eq_some_iff.mp hp
    obtain ⟨b, hb, hp⟩ := Option.bind_eq_some_iff.mp hp
    obtain rfl := Option.some.inj hp
    cases h with
    | left first => exact Shape.fits_orElse (.inl (ihp ha first))
    | right second => exact Shape.fits_orElse (.inr (ihq hb second))
  | many p ih =>
    obtain ⟨a, ha, hp⟩ := Option.bind_eq_some_iff.mp hp
    obtain rfl := Option.some.inj hp
    cases h with
    | never => exact @Shape.fits_repeated a [] (List.forall_mem_nil _)
    | times run =>
      obtain ⟨tss, rfl, htss⟩ := run.fits (ih ha)
      exact Shape.fits_repeated htss
  | optional p ih =>
    obtain ⟨a, ha, hp⟩ := Option.bind_eq_some_iff.mp hp
    obtain rfl := Option.some.inj hp
    cases h with
    | absent => exact Shape.fits_orElse (.inr rfl)
    | present body => exact Shape.fits_orElse (.inl (ih ha body))

end Peg

/-- The shapes that were computed are right, by induction on the depth. -/
theorem Rule.shapeWithin_right {spacing : Spacing} (hspacing : spacing ≠ .token) (depth : Nat) :
    Peg.ShapesRight spacing (Rule.shapeWithin depth) := by
  induction depth with
  | zero => exact fun h => nomatch h
  | succ depth ih => exact fun hr h => h.fits hspacing ih hr

/-- **The children of a node fit the shape of its rule.** To use it, the shape is computed (`rfl`)
and its parts are taken off one after the other. -/
theorem Tree.Fits.shape {t : Tree} (ht : t.Fits) {shape : Shape}
    (hshape : t.rule.shape? = some shape) (hkind : t.rule.kind = .plain ∨ t.rule.kind = .compound) :
    shape.Fits t.children := by
  obtain ⟨spacing, hvisible, hbody⟩ := ht
  have hinside : t.rule.inside spacing ≠ .token := by
    rcases hkind with hk | hk
    · simpa [Rule.inside, Rule.visible, hk] using hvisible
    · simp [Rule.inside, hk]
  exact hbody.fits hinside (Rule.shapeWithin_right hinside 2) hshape

/-- The rules of the nodes that may stand below a node, if order and number do not matter. -/
def Rule.childRules (r : Rule) : List Rule := (r.shape?.map Shape.rules).getD []

/-- Every rule that is not a token has a shape: no silent rules are nested deeper than the depth
allows. -/
theorem Rule.shape_isSome (r : Rule) (hkind : r.kind = .plain ∨ r.kind = .compound) :
    r.shape?.isSome := by
  revert hkind
  cases r <;> decide

/-- Every child of a node is of one of those rules. -/
theorem Tree.Fits.mem_childRules {t : Tree} (ht : t.Fits)
    (hkind : t.rule.kind = .plain ∨ t.rule.kind = .compound) :
    ∀ t' ∈ t.children, t'.rule ∈ t.rule.childRules := by
  obtain ⟨shape, hshape⟩ := Option.isSome_iff_exists.mp (t.rule.shape_isSome hkind)
  rw [Rule.childRules, hshape]
  exact (ht.shape hshape hkind).mem_rules

/-! ## Tokens

A token is written with rules too, but these make no nodes in it. Which rules may occur inside of a
token is a list that is closed under what the productions use.
-/

/-- The rules that tokens are made of. No trivia is skipped in them, and no node made. -/
def Rule.lexical : List Rule :=
  [.endOfInput, .varKind, .assignmentOperator, .logicalOrOperator, .logicalAndOperator,
    .equalityOperator, .relationalOperator, .additiveOperator, .multiplicativeOperator,
    .unaryOperator, .updateOperator, .thisExpression, .nullLiteral, .booleanLiteral,
    .numericLiteral, .hexIntegerLiteral, .decimalLiteral, .exponentPart, .doubleStringCharacters,
    .singleStringCharacters, .identifier, .identifierName, .identStart, .identChar, .reservedWord,
    .returnAtLineEnd, .inlineBlockComment, .functionWord, .ifWord, .elseWord, .whileWord, .forWord,
    .returnWord, .throwWord, .breakWord, .continueWord, .newWord, .whitespace, .comment]

/-- Whether all rules that an expression uses outside of lookaheads are among those
given. -/
def Peg.uses (rules : List Rule) : Peg → Bool
  | .word _ | .one _ | .start | .finish | .ahead _ | .notAhead _ => true
  | .rule r => rules.contains r
  | .seq p q | .choice p q => p.uses rules && q.uses rules
  | .many p | .optional p => p.uses rules

/-- The list is complete: the production of each of these rules uses only rules among them. None is
of the kind that makes nodes even inside of tokens. -/
theorem Rule.lexical_closed : ∀ r ∈ Rule.lexical,
    r.kind ≠ .compound ∧ r.body.uses Rule.lexical = true := by
  decide

/-- In a token, these rules are without a node and inside of them there is the token still. -/
theorem Rule.hidden_of_lexical {r : Rule} (hr : r ∈ Rule.lexical) {spacing : Spacing}
    (hspacing : spacing = .token) : r.inside spacing = .token ∧ r.visible spacing = false := by
  have hkind := (Rule.lexical_closed r hr).1
  rw [Rule.inside, Rule.visible, hspacing]
  cases hk : r.kind with
  | compound => exact absurd hk hkind
  | plain | silent | token | trivia => exact ⟨rfl, rfl⟩

mutual

/-- Inside a token no nodes are made, as every rule there is one of the list. -/
theorem Peg.Reads.eq_nil_of_lexical {spacing : Spacing} {p : Peg} {pos : Nat} {text : List Char}
    {trees : List Tree} : p.Reads spacing pos text trees → spacing = .token →
      p.uses Rule.lexical = true → trees = []
  | .word _, _, _ | .one _, _, _ | .start, _, _ | .finish, _, _ | .never, _, _ | .absent, _, _
  | .ahead, _, _ | .notAhead, _, _ => rfl
  | .rule (r := r) body, hs, hp => by
    have hr : r ∈ Rule.lexical := List.contains_iff_mem.mp hp
    obtain ⟨hinside, hvisible⟩ := Rule.hidden_of_lexical hr hs
    rw [Rule.nodes, hvisible]
    exact body.eq_nil_of_lexical hinside (Rule.lexical_closed r hr).2
  | .seq first _ second, hs, hp => by
    obtain ⟨hp, hq⟩ := Bool.and_eq_true_iff.mp hp
    rw [first.eq_nil_of_lexical hs hp, second.eq_nil_of_lexical hs hq, List.append_nil]
  | .left first, hs, hp => first.eq_nil_of_lexical hs (Bool.and_eq_true_iff.mp hp).1
  | .right second, hs, hp => second.eq_nil_of_lexical hs (Bool.and_eq_true_iff.mp hp).2
  | .times run, hs, hp => run.eq_nil_of_lexical hs hp
  | .present body, hs, hp => body.eq_nil_of_lexical hs hp

/-- Inside a token no nodes are made, however often something is repeated. -/
theorem Peg.Repeats.eq_nil_of_lexical {spacing : Spacing} {p : Peg} {pos : Nat}
    {text : List Char} {trees : List Tree} : p.Repeats spacing pos text trees →
      spacing = .token → p.uses Rule.lexical = true → trees = []
  | .once body, hs, hp => body.eq_nil_of_lexical hs hp
  | .again run _ body, hs, hp => by
    rw [run.eq_nil_of_lexical hs hp, body.eq_nil_of_lexical hs hp, List.append_nil]

end

/-- **A token has no children.** The rules inside of it make no nodes, and its text is all there is
to it. -/
theorem Tree.Fits.children_eq_nil {t : Tree} (ht : t.Fits) (hkind : t.rule.kind = .token)
    (hlex : t.rule ∈ Rule.lexical) : t.children = [] := by
  obtain ⟨spacing, -, hbody⟩ := ht
  rw [Rule.inside, hkind] at hbody
  exact hbody.eq_nil_of_lexical rfl (Rule.lexical_closed t.rule hlex).2

end Scriptlet
