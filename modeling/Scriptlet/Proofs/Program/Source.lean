import Scriptlet.Proofs.Grammar.Second
import Scriptlet.Proofs.Program.Bare

/-!
# Sources

What it takes for a text to be a program, without the parser: its statements match one after the
other up to its end, and their bare nodes are lowered (`Program.exists_statements` and
`Program.ofSource_of_statements`). The nodes of a program are plain.

This is where parsing and lowering meet. Statements about scripts are proved with matches of
statements and with bare nodes from here on: a match can be respaced, extended and put together with
another one, while a parse tree has offsets and texts that change with every character. The two
theorems lead from programs to matches and back.

That the nodes are plain follows from the reasons for which lowering refuses a tree. A node of a
rule that the language does not have would have been a reason.
-/

namespace Scriptlet

open Peg

/-! ## Scripts

A script is a repetition of statements with trivia around them.
-/

namespace Peg

variable {p : Peg} {s s' : List Char} {trees : List Tree}

/-- What matches repeatedly behind trivia is repeated behind it. The two ways to say that something
is repeated differ in whether the first match has trivia before it, and scripts that are put
together need the second one. -/
theorem Matches.iterates (h : (Peg.many p).Matches .skipped (dropTrivia s) s' trees) :
    ∃ z, p.Iterates .skipped s z trees ∧ dropTrivia z = dropTrivia s' := by
  rcases matches_many_iff.mp h with ⟨hfails, rfl, rfl⟩ | ⟨s₁, _, _, hfirst, hmore, rfl⟩
  · exact ⟨s, .stop hfails, (dropTrivia_dropTrivia s).symm⟩
  · exact ⟨s', .step hfirst hmore, rfl⟩

/-- Matches one after the other are a match of the repetition, up to the trivia at the end. -/
theorem Iterates.many (h : p.Iterates .skipped s s' trees) :
    ∃ z, (Peg.many p).Matches .skipped (dropTrivia s) z trees ∧ dropTrivia z = dropTrivia s' := by
  rcases iterates_iff.mp h with ⟨hfails, rfl, rfl⟩ | ⟨s₁, _, _, hfirst, hmore, rfl⟩
  · exact ⟨dropTrivia s', .never hfails, dropTrivia_dropTrivia s'⟩
  · exact ⟨s', .times hfirst hmore, rfl⟩

/-- The node at the end of a script, in its bare form. -/
def endNode : Tree := ⟨.endOfInput, 0, [], []⟩

/-- A script is statements up to the end of the text, with only trivia behind the last one. -/
theorem exists_matches_script_iff :
    (∃ s', (rule .script).Matches .skipped s s' trees) ↔
      ∃ z statements, (rule .statement).Iterates .skipped s z statements ∧ dropTrivia z = [] ∧
        trees = [⟨.script, 0, [], statements ++ [endNode]⟩] := by
  refine ⟨fun ⟨s', h⟩ => ?_, ?_⟩
  · obtain ⟨inner, hinner, rfl⟩ := matches_rule_iff.mp h
    obtain ⟨s₂, _, _, hstatements, hend, rfl⟩ := matches_seq_iff.mp hinner
    obtain ⟨s₁, _, _, hstart, hmany, rfl⟩ := matches_seq_iff.mp hstatements
    cases hstart
    obtain ⟨z, hiterates, hz⟩ := Matches.iterates hmany
    obtain ⟨_, hfinish, rfl⟩ := matches_rule_iff.mp hend
    obtain ⟨hnil, -, rfl⟩ := matches_finish_iff.mp hfinish
    exact ⟨z, _, hiterates, hz.trans hnil, rfl⟩
  · rintro ⟨z, statements, hiterates, hz, rfl⟩
    obtain ⟨s₂, hmany, hs₂⟩ := hiterates.many
    have hend : (rule .endOfInput).Matches .skipped (dropTrivia s₂) [] [endNode] := by
      rw [hs₂, hz]
      exact .rule (r := .endOfInput) .finish
    exact ⟨[], .rule (r := .script) (.seq (.seq .start hmany) hend)⟩

end Peg

/-! ## Plain trees

A node that lowering refuses is refused wherever it is, unless something else is refused before it.
-/

namespace Tree

variable {t : Tree} {b : Bool}

/-- Operators before or behind a single operand are not below a node that gives no reason to refuse
it. Where such an operator stands, the node around it is the reason. -/
theorem Fits.child_ne_operator (ht : t.Fits) (hnone : ∀ e, ¬t.Offends b e) {child : Tree}
    (hchild : child ∈ t.children) : child.rule ∉ [.unaryOperator, .updateOperator] := by
  have hparents : ∀ r ∈ Rule.all, (.unaryOperator ∈ r.childRules → r = .unaryExpression) ∧
      (.updateOperator ∈ r.childRules → r = .postfixExpression) := by decide
  have hmem : child.rule ∈ t.rule.childRules := by
    have hkinds : ∀ r ∈ Rule.all, r.kind = .token → r ∈ Rule.lexical := by decide
    by_cases hkind : t.rule.kind = .plain ∨ t.rule.kind = .compound
    · exact ht.mem_childRules hkind child hchild
    · obtain ⟨spacing, hvisible, -⟩ := id ht
      have htoken : t.rule.kind = .token := by
        rw [Rule.visible] at hvisible
        split at hvisible <;> simp_all
      rw [ht.children_eq_nil htoken (hkinds _ t.rule.mem_all htoken)] at hchild
      cases hchild
  obtain ⟨hunary, hupdate⟩ := hparents _ t.rule.mem_all
  simp only [List.mem_cons, List.not_mem_nil, or_false, not_or]
  refine ⟨fun hrule => ?_, fun hrule => ?_⟩
  · obtain ⟨rule, start, text, children⟩ := t
    obtain rfl := hunary (hrule ▸ hmem)
    obtain ⟨_, _, rfl, ⟨operator, rfl, hoperator⟩, -⟩ | ⟨only, rfl, honly⟩ :=
      ht.shape rfl (.inl rfl)
    · exact hnone _ (.unary rfl rfl (List.mem_singleton.mp hoperator))
    · rw [List.mem_singleton.mp hchild] at hrule
      rw [hrule] at honly
      exact absurd honly (by decide)
  · exact hnone _ (.update (hupdate (hrule ▸ hmem)) hchild hrule)

/-- **A tree that there is no reason to refuse is plain.** By induction on the tree, where each node
is known by its rule. -/
theorem Everywhere.plain (ht : t.Derived) (hrule : t.rule ∉ [.unaryOperator, .updateOperator])
    (hnone : t.reasons b = ∅) : t.Plain := by
  induction ht generalizing b with
  | @mk t here below ih =>
    have hnone := Set.eq_empty_iff_forall_notMem.mp hnone
    have hself : ∀ e, ¬t.Offends b e := fun e he => hnone e (mem_reasons.mpr (.inl he))
    refine .mk ⟨?_, fun hrule => ?_⟩ fun child hchild => ?_
    · refine decide_eq_true fun hmem => ?_
      rcases List.mem_append.mp hmem with hforeign | hoperator
      · exact hself _ (.foreign hforeign)
      · simp only [List.mem_cons, List.not_mem_nil, or_false] at hrule hoperator
        have hmul : t.rule = .multiplicativeOperator := by tauto
        -- none of the operators of this level is one of the language
        obtain ⟨spacing, -, body⟩ := id here
        rw [hmul] at body
        have hwords : ∀ w ∈ (Rule.multiplicativeOperator.body.words?).getD [],
            String.ofList w ∉ Operator.tokens := by decide
        refine hself _ (.operator (hmul ▸ by decide) (hwords _ ?_))
        exact body.mem_words rfl
    · obtain ⟨rule, start, text, children⟩ := t
      obtain rfl : rule = .expression := hrule
      obtain ⟨_, rest, rfl, ⟨first, rfl, -⟩, -⟩ := here.shape rfl (.inl rfl)
      cases rest with
      | nil => rfl
      | cons second rest => exact absurd (.sequence rfl (by simp)) (hself _)
    · refine ih child hchild (b := b || t.isBody child) (here.child_ne_operator hself hchild) ?_
      exact Set.eq_empty_iff_forall_notMem.mpr fun e he =>
        hnone e (mem_reasons.mpr (.inr ⟨child, hchild, he⟩))

/-- The bare form of a plain tree is plain, as it has the same rules. -/
theorem Plain.core (h : t.Plain) : t.core.Plain := by
  induction h with
  | @mk t here _ ih =>
    refine .mk ⟨?_, fun hrule => ?_⟩ fun child hchild => ?_
    · rw [core_rule]
      exact here.1
    · rw [core_children, coreAll_eq, List.length_map]
      rw [core_rule] at hrule
      exact here.2 hrule
    · rw [core_children, coreAll_eq] at hchild
      obtain ⟨t', ht', rfl⟩ := List.mem_map.mp hchild
      exact ih t' ht'

end Tree

/-! ## Programs

From a program to the match of its statements, and from such a match to the program.
-/

/-- Statements one after the other are lowered one after the other. -/
theorem Stmt.ofTrees_append {b : Bool} {ts ts' : List Tree} {ss ss' : List Stmt}
    (h : Stmt.ofTrees b ts = .ok ss) (h' : Stmt.ofTrees b ts' = .ok ss') :
    Stmt.ofTrees b (ts ++ ts') = .ok (ss ++ ss') := by
  induction ts generalizing ss with
  | nil =>
    obtain rfl := Except.ok.inj h
    exact h'
  | cons t ts ih =>
    rw [List.cons_append, Stmt.ofTrees]
    rw [Stmt.ofTrees] at h
    split at h
    · next hend =>
      rw [if_pos hend]
      exact ih h
    · next hend =>
      rw [if_neg hend]
      obtain ⟨stmt, hstmt, h⟩ := bind_eq_ok.mp h
      obtain ⟨stmts, hstmts, h⟩ := bind_eq_ok.mp h
      obtain rfl := Except.ok.inj h
      rw [hstmt, ih hstmts, List.append_assoc]
      rfl

/-- The node at the end leaves no statement. -/
theorem Stmt.ofTrees_end (ts : List Tree) :
    Stmt.ofTrees false (ts ++ [endNode]) = Stmt.ofTrees false ts := by
  induction ts with
  | nil => rfl
  | cons t ts ih => rw [List.cons_append, Stmt.ofTrees, Stmt.ofTrees, ih]

/-- The program of a script is what its statements are lowered to. -/
theorem Program.ofTrees_script {t : Tree} (hrule : t.rule = .script) {p : Program} :
    Program.ofTrees [t] = .ok p ↔ Stmt.ofTrees false t.children = .ok p := by
  rw [Program.ofTrees, List.foldlM_cons, hrule]
  cases Stmt.ofTrees false t.children <;> rfl

/-- A source text is a program if it is parsed and lowered. -/
theorem Program.ofSource_eq_ok_iff {source : String} {p : Program} :
    Program.ofSource source = .ok p ↔
      ∃ trees, parseScript source = .ok trees ∧ Program.ofTrees trees = .ok p := by
  -- not by its equation, which takes long to prove
  delta Program.ofSource
  cases parseScript source with
  | error e => exact iff_of_false nofun nofun
  | ok trees => exact ⟨fun h => ⟨trees, rfl, h⟩, fun ⟨_, htrees, h⟩ => Except.ok.inj htrees ▸ h⟩

/-- **The statements of a program match up to its end**, their nodes are plain and are lowered
to the program. -/
theorem Program.exists_statements {source : String} {p : Program}
    (h : Program.ofSource source = .ok p) :
    ∃ z statements, (rule .statement).Iterates .skipped source.toList z statements ∧
      dropTrivia z = [] ∧ (∀ t ∈ statements, t.Plain) ∧ Stmt.ofTrees false statements = .ok p := by
  obtain ⟨trees, hparse, hlower⟩ := Program.ofSource_eq_ok_iff.mp h
  obtain ⟨t, rfl, hrule, hderived, -⟩ := parseScript_eq_singleton hparse
  obtain ⟨s', hmatch⟩ := Rule.matches_of_parse hparse
  obtain ⟨z, statements, hiterates, hz, hcore⟩ := exists_matches_script_iff.mp ⟨s', hmatch⟩
  have hchildren : Tree.coreAll t.children = statements ++ [endNode] := by
    rw [← Tree.core_children, (List.cons.inj hcore).1]
  have hnone : t.reasons false = ∅ := by
    have hverdict := Program.ofTrees_verdict hderived hrule
    rwa [hlower] at hverdict
  have hplain := (hderived.plain (by rw [hrule]; decide) hnone).core.children
  rw [Tree.core_children, hchildren] at hplain
  refine ⟨z, statements, hiterates, hz, (List.forall_mem_append.mp hplain).1, ?_⟩
  rw [Program.ofTrees_script hrule, ← (Stmt.ofTrees_core hderived.bare.children false).ok_iff,
    hchildren] at hlower
  exact (Stmt.ofTrees_end statements).symm.trans hlower

/-- **A text is a program if its statements match up to its end** and their bare nodes are
lowered to it. -/
theorem Program.ofSource_of_statements {source : String} {p : Program} {z : List Char}
    {statements : List Tree}
    (h : (rule .statement).Iterates .skipped source.toList z statements) (hz : dropTrivia z = [])
    (hlower : Stmt.ofTrees false statements = .ok p) : Program.ofSource source = .ok p := by
  obtain ⟨s', hmatch⟩ := exists_matches_script_iff.mpr ⟨z, statements, h, hz, rfl⟩
  obtain ⟨trees, hparse, hcore⟩ := Rule.parse_of_matches hmatch
  obtain ⟨t, rfl, hrule, hderived, -⟩ := parseScript_eq_singleton hparse
  have hchildren : Tree.coreAll t.children = statements ++ [endNode] := by
    rw [← Tree.core_children, (List.cons.inj hcore).1]
  refine Program.ofSource_eq_ok_iff.mpr ⟨[t], hparse, ?_⟩
  rw [Program.ofTrees_script hrule, ← (Stmt.ofTrees_core hderived.bare.children false).ok_iff,
    hchildren, Stmt.ofTrees_end]
  exact hlower

end Scriptlet
