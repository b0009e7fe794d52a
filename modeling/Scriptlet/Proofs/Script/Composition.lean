import Scriptlet.Proofs.Eval.Plain
import Scriptlet.Proofs.Grammar.Settled
import Scriptlet.Proofs.Program.Source
import Scriptlet.Script

/-!
# Scripts compose

Two scripts with a lone semicolon on a line between them are one script, which does what the two do
one after the other. That its text is accepted and means what the two mean is the matter of
`Peg.Matches.carried`: no choice that was made in the first script is made otherwise with the second
behind it. The semicolon is either an empty statement or the end of the last statement, and the
second script begins behind it.

Without the semicolon the first script could go on into the second: `if(a)b` and `(c)` would be read
as a call. With it, every match of a statement in the first text is carried over to the joined one,
and only the last statement may end differently, by taking the semicolon. `Peg.Iterates.join` is the
induction over the statements. The runs are put together in `Program.run_append`, which needs that a
script has no `return` outside of functions: the statements of the second script are reached.
-/

namespace Scriptlet

open Peg

/-! ## The texts

The semicolon is skipped over or read as a statement, and what comes behind it is read as it was on
its own.
-/

namespace Peg

/-- The node of an empty statement. -/
def emptyNode : Tree := ⟨.emptyStatement, 0, [], []⟩

/-- A semicolon where a statement begins is a statement. -/
theorem matches_empty (s : List Char) :
    (rule .statement).Matches .skipped (';' :: s) s [emptyNode] := by
  have hskip : dropTrivia (';' :: s) = ';' :: s := dropTrivia_cons rfl (by decide) s
  have hfails : ∀ {p : Peg}, p.solid → .fixed [';'] ∉ p.begins → p.Fails .skipped (';' :: s) :=
    fun hp hkind => fails_of_kind hp hskip (by rwa [kind_semicolon])
  refine .rule (r := .statement) (.right ?_ (.right ?_ (.left ?_)))
  · exact hfails (by decide) (by decide)
  · exact hfails (by decide) (by decide)
  · exact .rule (r := .emptyStatement) (.word rfl)

/-- What is repeated does not depend on the trivia before it. -/
theorem Iterates.of_dropTrivia {p : Peg} {s z t : List Char} {trees : List Tree}
    (h : p.Iterates .skipped s z trees) (ht : dropTrivia t = dropTrivia s) :
    ∃ z', p.Iterates .skipped t z' trees ∧ dropTrivia z' = dropTrivia z := by
  rcases iterates_iff.mp h with ⟨hfails, rfl, rfl⟩ | ⟨s₁, _, _, hfirst, hmore, rfl⟩
  · refine ⟨t, .stop ?_, ht⟩
    rwa [Spacing.skip, ht]
  · refine ⟨z, .step ?_ hmore, rfl⟩
    rwa [Spacing.skip, ht]

/-- Where statements up to the end of a text begin, a script begins. -/
theorem Iterates.scriptBegins {s z : List Char} {trees : List Tree}
    (h : (Peg.rule .statement).Iterates .skipped s z trees) (hz : dropTrivia z = [])
    (htrees : ∀ t ∈ trees, t.Plain) : kind (dropTrivia s) ∈ scriptBegins := by
  rcases iterates_iff.mp h with ⟨-, rfl, -⟩ | ⟨s₁, _, _, hfirst, -, rfl⟩
  · rw [hz]
    exact List.mem_cons_self
  · have hstands : (Peg.rule .statement).StandsPlain (dropTrivia s) :=
      ⟨_, _, hfirst, (List.forall_mem_append.mp htrees).1⟩
    refine List.mem_cons_of_mem _ ?_
    exact (hstands.kind_mem (by decide) (dropTrivia_dropTrivia s)).1

/-- Where statements end, a semicolon and a text behind it are read as an empty statement and
that text. -/
theorem Iterates.behind_semicolon {z t more z₂ : List Char} {trees₂ : List Tree}
    (hmore : (Peg.rule .statement).Iterates .skipped more z₂ trees₂) (hz : dropTrivia z = [])
    (ht : Extends more z t) :
    ∃ z', (Peg.rule .statement).Iterates .skipped t z' (emptyNode :: trees₂) ∧
      dropTrivia z' = dropTrivia z₂ := by
  have hplace := ht.dropTrivia_eq (by rw [hz]; decide)
  rw [hz, extended, if_pos rfl] at hplace
  obtain ⟨z', hiterates, hz'⟩ := hmore.of_dropTrivia (dropTrivia_newline more)
  have hempty := matches_empty ('\n' :: more)
  rw [← hplace] at hempty
  exact ⟨z', .step hempty hiterates, hz'⟩

/-- A statement before others is read as before. If it took the semicolon, it was the last. -/
theorem Matches.carried_statement {s s₁ z t more : List Char} {trees trees' : List Tree}
    (hmore : kind (dropTrivia more) ∈ scriptBegins)
    (body : (Peg.rule .statement).Matches .skipped (dropTrivia s) s₁ trees)
    (following : (Peg.rule .statement).Iterates .skipped s₁ z trees') (hz : dropTrivia z = [])
    (htrees : ∀ t ∈ trees, t.Plain) (htrees' : ∀ t ∈ trees', t.Plain) (ht : Extends more s t) :
    ∃ t₁, (Peg.rule .statement).Matches .skipped (dropTrivia t) t₁ trees ∧
      (Extends more s₁ t₁ ∨ trees' = [] ∧ dropTrivia t₁ = dropTrivia more) := by
  have hskip := dropTrivia_dropTrivia s
  have hstands : (Peg.rule .statement).StandsPlain (dropTrivia s) := ⟨_, _, body, htrees⟩
  have hplace := ht.dropTrivia_eq (hstands.kind_mem (by decide) hskip).2
  -- behind the statement stands another one or the end of the text
  have hfollow : OneStands [Peg.rule .statement, Peg.finish] (dropTrivia s₁) := by
    refine following.oneStands htrees' ⟨Peg.finish, List.mem_singleton_self _, [], [], ?_,
      List.forall_mem_nil _⟩
    rw [hz]
    exact .finish
  obtain ⟨t₁, hmatch, hcarried⟩ := body.carried hmore rfl (by decide) hskip htrees hfollow
  rw [← hplace] at hmatch
  refine ⟨t₁, hmatch, hcarried.imp_right ?_⟩
  rintro ⟨-, hs₁, ht₁⟩
  refine ⟨?_, ht₁⟩
  rcases iterates_iff.mp following with ⟨-, -, h⟩ | ⟨_, _, _, hagain, -, -⟩
  · exact h
  · rw [Spacing.skip, hs₁] at hagain
    exact absurd (hagain.length_lt (by decide)) (Nat.not_lt_zero _)

/-- The statements of two texts with a semicolon between them, which may be a statement of its
own. -/
theorem Iterates.join {spacing : Spacing} {p : Peg} {s z t more z₂ : List Char}
    {trees trees₂ : List Tree} (hz₂ : dropTrivia z₂ = []) (hplain₂ : ∀ t ∈ trees₂, t.Plain)
    (hmore : (Peg.rule .statement).Iterates .skipped more z₂ trees₂) :
    p.Iterates spacing s z trees → p = Peg.rule .statement → spacing = .skipped →
      dropTrivia z = [] → (∀ t ∈ trees, t.Plain) → Extends more s t →
        ∃ z' between, (Peg.rule .statement).Iterates .skipped t z' (trees ++ (between ++ trees₂)) ∧
          dropTrivia z' = [] ∧ (between = [] ∨ between = [emptyNode])
  | .stop _, _, _, hz, _, ht => by
    obtain ⟨z', hiterates, hz'⟩ := hmore.behind_semicolon hz ht
    exact ⟨z', [emptyNode], hiterates, hz'.trans hz₂, .inr rfl⟩
  | .step body following, hp, hs, hz, htrees, ht => by
    obtain ⟨htrees, htrees'⟩ := List.forall_mem_append.mp htrees
    have hbody := body
    have hfollowing := following
    rw [hp, hs] at hbody hfollowing
    obtain ⟨t₁, hmatch, hextends | ⟨rfl, ht₁⟩⟩ := hbody.carried_statement
      (hmore.scriptBegins hz₂ hplain₂) hfollowing hz htrees htrees' ht
    · obtain ⟨z', between, hiterates, hz', hbetween⟩ :=
        Iterates.join hz₂ hplain₂ hmore following hp hs hz htrees' hextends
      refine ⟨z', between, ?_, hz', hbetween⟩
      rw [List.append_assoc]
      exact .step hmatch hiterates
    · obtain ⟨z', hiterates, hz'⟩ := hmore.of_dropTrivia ht₁
      refine ⟨z', [], ?_, hz'.trans hz₂, .inl rfl⟩
      rw [List.append_nil, List.nil_append]
      exact .step hmatch hiterates

end Peg

/-! ## The runs

Statements are run one after the other, so the programs are.
-/

/-- A program that does not return goes on to the statements behind it. -/
theorem Program.exec_append (host : Host Id) (scope : ScopeId) {p : Program}
    (hp : Stmt.ReturnlessAll p) (q : Program) (last : Completion) (s : Store) :
    Program.exec host scope last (p ++ q) s =
      Program.exec host scope (Program.exec host scope last p s).1 q
        (Program.exec host scope last p s).2 := by
  induction p generalizing last s with
  | nil => rfl
  | cons stmt p ih =>
    obtain ⟨v, hv⟩ := Stmt.exec_normal host scope stmt s hp.1
    rw [List.cons_append, Program.exec, Program.exec, bind_apply, bind_apply, hv]
    exact ih hp.2 (.normal v) _

/-- The run of a program and one behind it. Its value is that of the second, unless that has no
statements. -/
theorem Program.run_append {p : Program} (hp : Stmt.ReturnlessAll p) (q : Program)
    (scope : ScopeId) (s : Store) :
    (p ++ q).run scope s =
      let (v, s') := p.run scope s
      if q.isEmpty then (v, s') else q.run scope s' := by
  simp only [Program.run_eq, Program.exec_append Host.top scope hp]
  cases q with
  | nil => rfl
  | cons stmt q => rfl

/-- **Scripts compose.** Two accepted texts with a lone semicolon between them are an accepted
text: its statements are those of the first and then those of the second. In every scope of
every store it leaves the store that the second leaves behind the first. -/
theorem scripts_compose {source₁ source₂ : String} {p₁ p₂ : Program}
    (h₁ : Program.ofSource source₁ = .ok p₁) (h₂ : Program.ofSource source₂ = .ok p₂) :
    Program.ofSource (source₁ ++ "\n;\n" ++ source₂) = .ok (p₁ ++ p₂) ∧
    ∀ (scope : ScopeId) (s : Store),
      let (v₁, s₁) := p₁.run scope s
      let (v₂, s₂) := p₂.run scope s₁
      (p₁ ++ p₂).run scope s = (if p₂.isEmpty then v₁ else v₂, s₂) := by
  refine ⟨?_, fun scope s => ?_⟩
  · obtain ⟨z₁, trees₁, hiterates₁, hz₁, hplain₁, hlower₁⟩ := Program.exists_statements h₁
    obtain ⟨z₂, trees₂, hiterates₂, hz₂, hplain₂, hlower₂⟩ := Program.exists_statements h₂
    obtain ⟨z, between, hiterates, hz, hbetween⟩ := Iterates.join hz₂ hplain₂ hiterates₂ hiterates₁
      rfl rfl hz₁ hplain₁ (.behind source₁.toList)
    have hsource : (source₁ ++ "\n;\n" ++ source₂).toList =
        source₁.toList ++ '\n' :: ';' :: '\n' :: source₂.toList := by
      rw [String.toList_append, String.toList_append, List.append_assoc]
      rfl
    have hlower : Stmt.ofTrees false (between ++ trees₂) = .ok p₂ := by
      rcases hbetween with rfl | rfl
      · exact hlower₂
      · have hempty : Stmt.ofTrees false [emptyNode] = .ok [] := rfl
        exact Stmt.ofTrees_append hempty hlower₂
    rw [← hsource] at hiterates
    exact Program.ofSource_of_statements hiterates hz (Stmt.ofTrees_append hlower₁ hlower)
  · dsimp only
    rw [Program.run_append ((Program.ofSource_proper h₁).returns rfl)]
    cases p₂ with
    | nil =>
      rw [Program.run_eq []]
      rfl
    | cons stmt p₂ => rfl

/-- A script whose last statement has no semicolon and could go on, and one that begins with
what could go on with it. -/
theorem scripts_compose_open_end :
    ∃ p₁ p₂, Program.ofSource "if(a)b" = .ok p₁ ∧ Program.ofSource "(c)" = .ok p₂ ∧
      Program.ofSource ("if(a)b" ++ "\n;\n" ++ "(c)") = .ok (p₁ ++ p₂) ∧
      (p₁ ++ p₂).run Store.globalScope .initial =
        (if p₂.isEmpty then (p₁.run Store.globalScope .initial).1
          else (p₂.run Store.globalScope (p₁.run Store.globalScope .initial).2).1,
          (p₂.run Store.globalScope (p₁.run Store.globalScope .initial).2).2) := by
  obtain ⟨p₁, h₁⟩ : ∃ p, Program.ofSource "if(a)b" = .ok p := exists_ok (by decide +kernel)
  obtain ⟨p₂, h₂⟩ : ∃ p, Program.ofSource "(c)" = .ok p := exists_ok (by decide +kernel)
  obtain ⟨haccepted, hrun⟩ := scripts_compose h₁ h₂
  exact ⟨p₁, p₂, h₁, h₂, haccepted, hrun Store.globalScope .initial⟩

end Scriptlet
