import Scriptlet.Eval.Simulation
import Scriptlet.Proofs.Eval.Discipline
import Scriptlet.Proofs.Eval.Plain
import Scriptlet.Proofs.Program.Lowering
import Scriptlet.Script

/-!
# Scripts run without faults

Two things can go wrong in a program and cannot go wrong in a script: that a statement outside of
all functions returns, which ends the program early, and that something is assigned to neither a
name nor a member. The first is a matter of the program alone. The second is one of all code that
the run may come to, and so also of the closures that earlier scripts left in the store: that their
bodies are well-targeted is a discipline (`targeting`). To say that a run never comes to a bad
assignment, it is compared with the run that is stopped by one (`Host.strict`).

* `Program.exec_strict`: a well-targeted program in a store with well-targeted closures is not
  stopped, does what the plain run does, and leaves such a store again.
* `Store.Scripted` are the stores that scripts leave behind, and `Store.Scripted.wellTargeted` goes
  by induction on how many were run.
* `scripts_faultless` has both halves for every script, and programs that are no scripts for which
  each of them fails.
-/

namespace Scriptlet

/-! ## Runs that a bad assignment stops

The same evaluator in `Option`, where a bad assignment is `none`. As long as it is not stopped it
does what the plain one does.
-/

/-- A bad assignment stops everything. -/
def Faults.strict : Faults Option where
  refusedCall := return .tooDeep
  badTarget := fun _ => none

/-- The surroundings at the start of a program that a bad assignment stops. -/
def Host.strict : Host Option := ⟨callWithin .strict callLimit, Faults.strict.badTarget⟩

/-- A computation that may be stopped is related to a plain one if it has the same
result unless it is stopped. -/
def MonadRelation.unlessStopped : MonadRelation Option Id where
  Rel x y := ∀ a, x = some a → y = a
  rel_pure _ _ h := Option.some.inj h
  rel_bind {_ _ x y f g} hx hf b h := by
    obtain ⟨a, ha, hb⟩ := Option.bind_eq_some_iff.mp h
    rw [hx a ha]
    exact hf a b hb

/-- Up to a bad assignment, strict surroundings do what plain ones do. -/
theorem Host.strict_related : Host.strict.Related .unlessStopped (Host.top : Host Id) := by
  have hbad : MonadRelation.unlessStopped.OnStore Faults.strict.badTarget
      (Faults.asValues : Faults Id).badTarget := fun _ _ h => nomatch h
  exact ⟨callWithin_related ⟨MonadRelation.onStore_pure _, hbad⟩ callLimit, hbad⟩

/-! ## Well-targeted stores

The only place where code waits in a store is the body of a closure, and no operation but making a
closure puts any there.
-/

/-- If the cell is a closure, its body is well-targeted. -/
def Cell.WellTargeted : Cell → Prop
  | .closure f => Stmt.WellTargetedAll f.body
  | .scope _ | .object _ => True

/-- The bodies of all closures are well-targeted. -/
def Store.WellTargeted (s : Store) : Prop := ∀ ℓ c, s.cell? ℓ = some c → c.WellTargeted

namespace Store.WellTargeted

variable {s s' : Store} {ℓ : Loc}

/-- A new cell keeps the store well-targeted if it is so itself. -/
theorem alloc {c : Cell} (hs : s.WellTargeted) (h : s.Allocates ℓ c s') (hc : c.WellTargeted) :
    s'.WellTargeted := by
  intro ℓ' c' hc'
  rw [h.cell?] at hc'
  split at hc'
  · obtain rfl := Option.some.inj hc'
    exact hc
  · exact hs ℓ' c' hc'

/-- A write changes bindings or properties and no code. -/
theorem write {name : String} {v : Value} (hs : s.WellTargeted) (h : s.Writes ℓ name v s') :
    s'.WellTargeted := by
  intro ℓ' c' hc'
  rw [h.cell?] at hc'
  split at hc'
  · obtain ⟨c, hc, rfl⟩ := Option.map_eq_some_iff.mp hc'
    have h := hs ℓ' c hc
    cases c with
    | closure f => exact h
    | scope _ | object _ => trivial
  · exact hs ℓ' c' hc'

end Store.WellTargeted

open Store

/-- Well-targeted code leaves well-targeted closures. -/
def targeting : Discipline where
  Inv := Store.WellTargeted
  Scope _ _ := True
  Val _ _ := True
  strict := True
  scope_mono _ _ := trivial
  val_mono _ _ := trivial
  val_of_loc?_none _ := trivial
  lookup _ _ _ := trivial
  resolve _ _ _ := trivial
  getProperty _ _ _ := trivial
  newObject {s} hs := ⟨hs.alloc (newObject_allocates s) trivial, trivial⟩
  newClosure {s scope} name params body hs _ hbody :=
    ⟨hs.alloc (newClosure_allocates s name params body scope) (hbody trivial), trivial⟩
  newScope {s _ closure} hs _ hclosure :=
    ⟨hs.alloc (newScope_allocates s closure.scope) trivial, trivial,
      fun _ => hs _ _ (cell?_closure hclosure)⟩
  bind {s id} name v hs _ _ := hs.write (bind_writes s id name v)
  setProperty {s base} key v hs _ _ := by
    cases hloc : base.loc? with
    | none =>
      rw [setProperty_of_loc?_none s key v hloc]
      exact hs
    | some ℓ => exact hs.write (setProperty_writes s key v hloc)

/-- Strict surroundings keep to well-targeted code, which they never stop. -/
theorem Host.strict_obeys : Host.strict.Obeys targeting .unstopped :=
  callWithin_keeps ⟨fun hs => Discipline.keeps_pure hs trivial, fun h => absurd trivial h⟩ callLimit

/-- **Well-targeted programs are not stopped**: the run that a bad target would stop has the result
and the store of the plain run. The closures that it leaves are well-targeted again. -/
theorem Program.exec_strict {p : Program} {s : Store} (hp : Stmt.WellTargetedAll p)
    (hs : s.WellTargeted) (scope : ScopeId) (last : Completion) :
    Program.exec Host.strict scope last p s =
        some ((Program.exec Host.top scope last p : Eval Id Completion) s) ∧
      ((Program.exec Host.top scope last p : Eval Id Completion) s).2.WellTargeted := by
  have hkeeps : targeting.Keeps .unstopped s (Program.exec Host.strict scope last p)
      fun s c => targeting.Val s c.value :=
    Program.exec_keeps Host.strict_obeys p (fun _ => hp) hs trivial trivial
  obtain ⟨r, hr, -, hs', -⟩ := hkeeps
  have heq := Program.exec_related Host.strict_related scope last p s r hr
  rw [heq]
  exact ⟨hr, hs'⟩

/-! ## Scripts

A script is accepted by the lowering, which refuses bad targets and a `return` outside of all
functions.
-/

/-- The stores that scripts leave behind, each run in the global scope after those
before it. -/
inductive Store.Scripted : Store → Prop
  | initial : Scripted .initial
  | run {s : Store} {source : String} {p : Program} (before : Scripted s)
    (accepted : Program.ofSource source = .ok p) : Scripted (p.run globalScope s).2

/-- The store that scripts begin with has no closures. -/
theorem Store.wellTargeted_initial : Store.initial.WellTargeted := by
  intro ℓ c hc
  cases ℓ with
  | scope id =>
    obtain ⟨scope, -, rfl⟩ := Option.map_eq_some_iff.mp hc
    trivial
  | object id | closure id => simp [cell?, initial] at hc

/-- Scripts leave well-targeted closures only. -/
theorem Store.Scripted.wellTargeted {s : Store} (hs : s.Scripted) : s.WellTargeted := by
  induction hs with
  | initial => exact wellTargeted_initial
  | run _ accepted ih =>
    rw [Program.run_eq]
    exact (Program.exec_strict (Program.ofSource_proper accepted).targets ih _ _).2

/-- From a store, the program runs in the global scope without faults. -/
structure Program.Faultless (p : Program) (s : Store) : Prop where
  /-- every statement completes normally -/
  normal : ∀ c ∈ (p.completions (Host.top : Host Id) globalScope s).1, ∃ v, c = .normal v
  /-- no statement is left out: the program does what all of them do, and its value is
  that of the last -/
  whole : let (cs, s') := p.completions (Host.top : Host Id) globalScope s
    p.run globalScope s = ((cs.getLast?.getD (.normal .undefined)).value, s')
  /-- no step of the run, however deep, assigns to anything but a name or a member -/
  targeted : Program.exec Host.strict globalScope (.normal .undefined) p s =
    some ((Program.exec Host.top globalScope (.normal .undefined) p : Eval Id Completion) s)

/-- **Scripts run without faults**, whichever scripts ran before them. Both faults do
happen to programs that are no scripts. -/
theorem scripts_faultless :
    (∀ {s : Store} {source : String} {p : Program}, s.Scripted →
      Program.ofSource source = .ok p → p.Faultless s) ∧
    (∃ (p : Program) (v : Value),
      ((Program.exec Host.top globalScope (.normal .undefined) p : Eval Id Completion)
        .initial).1 = .returned v) ∧
    (∃ p : Program,
      Program.exec Host.strict globalScope (.normal .undefined) p .initial = none) := by
  refine ⟨?_, ?_, ?_⟩
  · intro s source p hs hp
    obtain ⟨htargets, hreturns⟩ := Program.ofSource_proper hp
    obtain ⟨hnormal, hexec⟩ :=
      Program.exec_returnless Host.top globalScope (hreturns rfl) (.normal .undefined) s
    refine ⟨hnormal, ?_, (Program.exec_strict htargets hs.wellTargeted _ _).1⟩
    rw [Program.run_eq, hexec]
    rfl
  · exact ⟨[.ret none], .undefined, rfl⟩
  · exact ⟨[.expr (.assign (.literal .null) (.literal .null))], rfl⟩

/-- A function that an earlier script left behind, with a `return` and an assignment
in it, is called without a fault. -/
theorem faultless_after_declaration :
    ∃ p q, Program.ofSource "function f(){return x=null}" = .ok p ∧
      Program.ofSource "f()" = .ok q ∧ q.Faultless (p.run globalScope .initial).2 := by
  obtain ⟨p, hp⟩ : ∃ p, Program.ofSource "function f(){return x=null}" = .ok p :=
    exists_ok (by decide +kernel)
  obtain ⟨q, hq⟩ : ∃ q, Program.ofSource "f()" = .ok q := exists_ok (by decide +kernel)
  exact ⟨p, q, hp, hq, scripts_faultless.1 (.run .initial hp) hq⟩

end Scriptlet
