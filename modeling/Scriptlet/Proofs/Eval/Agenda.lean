import Mathlib.Logic.Relation
import Scriptlet.Proofs.Eval.Plain

/-!
# The agenda of a call

In the evaluator a `return` is a completion that blocks and branches hand outwards until the call
takes it. Seen from the call there is no nesting at all: there is an agenda of statements still to
run, beginning with the body. A block is replaced by its statements, an `if` by the branch taken,
and a `return` drops the agenda. `Agenda.step` is that machine.

* `Agenda.runs_stmt` is the simulation: a statement with anything pending behind it leads the
  machine to where its completion says, on to what is pending or to a stop. It goes by recursion on
  the statement, since the machine flattens exactly what the evaluator recurses into.
* `Agenda.haltsAt_body` is the case with nothing pending, which is the body of a call.
* `Agenda.call_eq_stopped` puts the two together: a call gives what its agenda stops with, and stops
  nowhere else.

The machine runs the evaluator for expressions, and so for the calls inside them. A `return` in a
function that is called from the body therefore belongs to an agenda of its own, and cannot touch
this one.
-/

namespace Scriptlet

/-- What a call has still to do. -/
inductive Agenda where
  /-- statements, the next one first -/
  | pending (stmts : List Stmt) (s : Store)
  /-- nothing: the call has its value -/
  | stopped (v : Value) (s : Store)

namespace Agenda

/-- One step; none once the call has its value. -/
def step (host : Host Id) (scope : ScopeId) : Agenda → Option Agenda
  | .stopped _ _ => none
  | .pending [] s => some (.stopped .undefined s)
  | .pending (.block body :: rest) s => some (.pending (body ++ rest) s)
  | .pending (.cond test consequent alternate :: rest) s =>
    let r := (test.eval host scope : Eval Id Value) s
    some (.pending ((if r.1.truthy then [consequent] else alternate.toList) ++ rest) r.2)
  | .pending (.ret none :: _) s => some (.stopped .undefined s)
  | .pending (.ret (some e) :: _) s =>
    let r := (e.eval host scope : Eval Id Value) s
    some (.stopped r.1 r.2)
  | .pending (stmt :: rest) s =>
    some (.pending rest ((stmt.exec host scope : Eval Id Completion) s).2)

variable (host : Host Id) (scope : ScopeId)

/-- One step as a relation. -/
abbrev Next (a b : Agenda) : Prop := a.step host scope = some b

/-- Any number of steps. -/
abbrev Steps : Agenda → Agenda → Prop := Relation.ReflTransGen (Next host scope)

/-- A run that comes to an end: finitely many steps, and then none. -/
def HaltsAt (a b : Agenda) : Prop := a.Steps host scope b ∧ b.step host scope = none

/-- Where a completion leaves the agenda: with what is pending, or stopped. -/
def after (rest : List Stmt) : Completion × Store → Agenda
  | (.normal _, s) => .pending rest s
  | (.returned v, s) => .stopped v s

variable {host scope}

/-- A statement that completes normally leaves the agenda with what is pending behind it. -/
theorem after_of_normal {rest : List Stmt} {r : Completion × Store} {v : Value}
    (h : r.1 = .normal v) : after rest r = .pending rest r.2 := by
  obtain ⟨c, s⟩ := r
  obtain rfl : c = .normal v := h
  rfl

/-! ## Runs

The machine is deterministic, so all that has to be shown of a run is that it comes to an end; which
end that is does not depend on how it was reached.
-/

/-- There is one step at most, so a run passes through every state it can come to
before the end. -/
theorem Steps.through {a b c : Agenda} (hab : a.Steps host scope b)
    (hac : a.HaltsAt host scope c) : b.HaltsAt host scope c := by
  obtain ⟨hsteps, hend⟩ := hac
  refine ⟨?_, hend⟩
  induction hab with
  | refl => exact hsteps
  | tail _ hnext ih =>
    rcases ih.cases_head with rfl | ⟨d, hd, hrest⟩
    · cases hend.symm.trans hnext
    · obtain rfl := Option.some.inj (hd.symm.trans hnext)
      exact hrest

theorem HaltsAt.unique {a b c : Agenda} (hb : a.HaltsAt host scope b)
    (hc : a.HaltsAt host scope c) : b = c := by
  obtain ⟨hsteps, hend⟩ := hb.1.through hc
  rcases hsteps.cases_head with rfl | ⟨d, hd, -⟩
  · rfl
  · cases hb.2.symm.trans hd

mutual

/-- **A statement and what is pending behind it.** The machine comes to where the
completion of the statement leaves it, whatever is pending. -/
theorem runs_stmt : ∀ (stmt : Stmt) (rest : List Stmt) (s : Store),
    (pending (stmt :: rest) s).Steps host scope (after rest (stmt.exec host scope s))
  | .function _ _ _, _, _ | .var _ _, _, _ | .expr _, _, _ => .single rfl
  | .ret none, _, _ | .ret (some _), _, _ => .single rfl
  | .block body, rest, s => .head rfl (runs_stmts body rest s)
  | .cond test consequent none, rest, s => by
    refine .head rfl ?_
    rw [Stmt.exec, bind_apply]
    split
    · exact runs_stmt consequent rest _
    · exact .refl
  | .cond test consequent (some alternate), rest, s => by
    refine .head rfl ?_
    rw [Stmt.exec, bind_apply]
    split
    · exact runs_stmt consequent rest _
    · exact runs_stmt alternate rest _

theorem runs_stmts : ∀ (stmts rest : List Stmt) (s : Store),
    (pending (stmts ++ rest) s).Steps host scope (after rest (Stmt.execAll host scope stmts s))
  | [], _, _ => .refl
  | stmt :: stmts, rest, s => by
    refine (runs_stmt stmt (stmts ++ rest) s).trans ?_
    rw [Stmt.execAll, bind_apply]
    generalize (stmt.exec host scope : Eval Id Completion) s = r
    obtain ⟨c, s'⟩ := r
    -- a completion that returns has stopped the machine, any other goes on with the rest
    cases c with
    | returned v => exact .refl
    | normal v => exact runs_stmts stmts rest s'

end

/-- With nothing behind it a body stops with what a call makes of its completion. -/
theorem haltsAt_body (body : List Stmt) (s : Store) :
    let r := (Stmt.execAll host scope body : Eval Id Completion) s
    (pending body s).HaltsAt host scope (stopped r.1.result r.2) := by
  have hruns : (pending (body ++ []) s).Steps host scope _ := runs_stmts body [] s
  rw [List.append_nil] at hruns
  generalize (Stmt.execAll host scope body : Eval Id Completion) s = r at hruns
  obtain ⟨c, s'⟩ := r
  cases c with
  | returned v => exact ⟨hruns, rfl⟩
  | normal v => exact ⟨hruns.tail rfl, rfl⟩

/-- What a `return` stops with: its argument, or undefined if there is none. -/
def returned (host : Host Id) (scope : ScopeId) : Option Expr → Store → Value × Store
  | none, s => (.undefined, s)
  | some e, s => (e.eval host scope : Eval Id Value) s

/-- **The first `return` that runs decides a call.** A call within the limit gives
the value and the store that its agenda, beginning with the body in the scope of the
call, stops with; and the agenda does stop, there and nowhere else. A `return` on top
of the agenda settles both, whatever is pending below it. A statement with no
`return` of its own leads on to what is pending below it, whatever its calls
return. -/
theorem call_eq_stopped {s : Store} {f : ClosureId} {closure : Closure}
    (hf : s.closures[f]? = some closure) (left : Nat) (args : List Value) :
    let r := (Host.within (left + 1) : Host Id).call f args s
    let scope := (s.enter closure args).1
    let start := pending closure.body (s.enter closure args).2
    (∀ a, start.HaltsAt (Host.within left) scope a ↔ a = stopped r.1 r.2) ∧
    (∀ e rest s', start.Steps (Host.within left) scope (pending (.ret e :: rest) s') →
      r = returned (Host.within left) scope e s') ∧
    ∀ stmt rest s', start.Steps (Host.within left) scope (pending (stmt :: rest) s') →
      stmt.Returnless → start.Steps (Host.within left) scope
        (pending rest ((stmt.exec (Host.within left) scope : Eval Id Completion) s').2) := by
  intro r scope start
  have hhalts : start.HaltsAt (Host.within left) scope (stopped r.1 r.2) := by
    have hcall : r = _ := Host.call_succ hf left args
    rw [hcall]
    exact haltsAt_body closure.body (s.enter closure args).2
  refine ⟨fun a => ⟨fun ha => ha.unique hhalts, fun ha => ha ▸ hhalts⟩, ?_, ?_⟩
  · intro e rest s' hsteps
    have hret : (pending (.ret e :: rest) s').HaltsAt (Host.within left) scope
        (stopped (returned (Host.within left) scope e s').1
          (returned (Host.within left) scope e s').2) := by
      cases e <;> exact ⟨.single rfl, rfl⟩
    injection (hsteps.through hhalts).unique hret with hv hs
    exact Prod.ext hv hs
  · intro stmt rest s' hsteps hfree
    obtain ⟨v, hv⟩ := Stmt.exec_normal (Host.within left) scope stmt s' hfree
    have hruns := hsteps.trans (runs_stmt stmt rest s')
    rwa [after_of_normal hv] at hruns

/-- A function that calls another one, which returns, and then returns its argument
out of a branch inside a block. -/
def escaping : Closure where
  name := some "f"
  params := ["n"]
  body := [.expr (.call (.name "g") []),
    .block [.cond (.literal (.boolean true)) (.block [.ret (some (.name "n"))]) none,
      .expr (.assign (.name "g") (.literal .undefined))],
    .ret (some (.literal .null))]
  scope := Store.globalScope
  properties := []

/-- A store with that function and the other one, bound to `g`. -/
def escapingStore : Store :=
  ⟨#[⟨[("g", .function 1)], none⟩], #[],
    #[escaping, ⟨some "g", [], [.ret (some (.literal .null))], Store.globalScope, []⟩]⟩

/-- The call returns its argument: the `return` of `g` stops nothing, and neither the
assignment behind the branch nor the last `return` runs. -/
theorem call_escaping : escapingStore.closures[0]? = some escaping ∧
    ((Host.within 2 : Host Id).call 0 [.boolean true] escapingStore).1 = .boolean true ∧
    ((Host.within 2 : Host Id).call 0 [.boolean true] escapingStore).2.lookup
      Store.globalScope "g" = .function 1 := by
  have hf : escapingStore.closures[0]? = some escaping := rfl
  obtain ⟨-, hreturn, -⟩ := call_eq_stopped hf 1 [.boolean true]
  have hresult := hreturn _ _ _ (.head rfl <| .head rfl <| .head rfl <| .head rfl .refl)
  rw [hresult]
  exact ⟨hf, rfl, rfl⟩

end Agenda

end Scriptlet
