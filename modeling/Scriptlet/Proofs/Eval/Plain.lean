import Scriptlet.Eval.Basic
import Scriptlet.Proofs.Program.Shape

/-!
# Plain evaluation

In `Id` a computation is a function of the store, and its steps are the steps of that function.
Without a `return` outside of functions, the statements of a program all run, and all complete
normally (`Program.exec_returnless`).

The evaluator is written for any monad and so in terms of `pure` and `bind`. Where a run is followed
step by step, it is more convenient to apply it to a store; `bind_apply` and `pure_apply` say what
becomes of the two, and `callWithin_succ` does the same for a call that is within the limit, in
every lawful monad.
-/

namespace Scriptlet

/-- One computation after another: the second runs in the store that the first one leaves. -/
theorem bind_apply {α β : Type} (x : Eval Id α) (f : α → Eval Id β) (s : Store) :
    (x >>= f) s = f (x s).1 (x s).2 := rfl

/-- A value leaves the store as it is. -/
theorem pure_apply {α : Type} (a : α) (s : Store) : (pure a : Eval Id α) s = (a, s) := rfl

/-- What a call makes of the completion of its body. -/
def Completion.result : Completion → Value
  | .returned v => v
  | .normal _ => .undefined

/-- A call within the limit runs the body in the scope of the call, with one call
less to nest. -/
theorem callWithin_succ {m : Type → Type} [Monad m] [LawfulMonad m] (faults : Faults m) {s : Store}
    {f : ClosureId} {closure : Closure} (h : s.closures[f]? = some closure) (left : Nat)
    (args : List Value) :
    callWithin faults (left + 1) f args s =
      Stmt.execAll ⟨callWithin faults left, faults.badTarget⟩ (s.enter closure args).1 closure.body
        (s.enter closure args).2 >>= fun r => pure (r.1.result, r.2) := by
  rw [callWithin]
  change (pure (s.closures[f]?, s) >>= fun r => _) = _
  rw [pure_bind, h]
  change (pure (s.enter closure args) >>= fun r => _) = _
  rw [pure_bind]
  refine bind_congr fun r => ?_
  obtain ⟨c, s'⟩ := r
  cases c <;> rfl

/-- `callWithin_succ` in plain surroundings, where the run of the body is a pair of a completion and
a store. -/
theorem Host.call_succ {s : Store} {f : ClosureId} {closure : Closure}
    (h : s.closures[f]? = some closure) (left : Nat) (args : List Value) :
    (Host.within (left + 1) : Host Id).call f args s =
      ((Stmt.execAll (Host.within left) (s.enter closure args).1 closure.body : Eval Id Completion)
        (s.enter closure args).2).map Completion.result id :=
  callWithin_succ Faults.asValues h left args

/-! ## Statements that do not return

Completions other than normal ones come from `return` statements only, so a body without any runs to
its end. Functions inside it may return; their bodies belong to the calls of them.
-/

section

variable (host : Host Id) (scope : ScopeId)

mutual

/-- A statement without `return` completes normally. -/
theorem Stmt.exec_normal :
    ∀ (stmt : Stmt) (s : Store), stmt.Returnless → ∃ v, (stmt.exec host scope s).1 = .normal v
  | .function _ _ _, _, _ | .var _ _, _, _ | .expr _, _, _ => ⟨_, rfl⟩
  | .block body, s, h => Stmt.execAll_normal body s h
  | .cond test consequent none, s, h => by
    rw [Stmt.exec, bind_apply]
    split
    · exact Stmt.exec_normal consequent _ h
    · exact ⟨_, rfl⟩
  | .cond test consequent (some alternate), s, h => by
    rw [Stmt.exec, bind_apply]
    split
    · exact Stmt.exec_normal consequent _ h.1
    · exact Stmt.exec_normal alternate _ h.2

theorem Stmt.execAll_normal :
    ∀ (body : List Stmt) (s : Store), Stmt.ReturnlessAll body →
      ∃ v, (Stmt.execAll host scope body s).1 = .normal v
  | [], _, _ => ⟨_, rfl⟩
  | stmt :: body, s, h => by
    obtain ⟨v, hv⟩ := Stmt.exec_normal stmt s h.1
    rw [Stmt.execAll, bind_apply, hv]
    exact Stmt.execAll_normal body _ h.2

end

end

/-- Runs all statements of a program, whatever they complete with, and lists the
completions. -/
def Program.completions {m : Type → Type} [Monad m] (host : Host m) (scope : ScopeId) :
    Program → Eval m (List Completion)
  | [] => return []
  | stmt :: p => do
    let c ← Stmt.exec host scope stmt
    let cs ← Program.completions host scope p
    return c :: cs

/-- **A program without `return` runs to its end**: all its statements complete
normally, and the last of them is what the program completes with. -/
theorem Program.exec_returnless (host : Host Id) (scope : ScopeId) {p : Program}
    (hp : Stmt.ReturnlessAll p) (last : Completion) (s : Store) :
    (∀ c ∈ (p.completions host scope s).1, ∃ v, c = .normal v) ∧
      Program.exec host scope last p s =
        ((p.completions host scope s).1.getLast?.getD last, (p.completions host scope s).2) := by
  induction p generalizing last s with
  | nil => exact ⟨nofun, rfl⟩
  | cons stmt p ih =>
    obtain ⟨v, hv⟩ := Stmt.exec_normal host scope stmt s hp.1
    obtain ⟨hnormal, hexec⟩ := ih hp.2 (.normal v) (stmt.exec host scope s).2
    have hall : Program.completions host scope (stmt :: p) s =
        let r := Program.completions host scope p (stmt.exec host scope s).2
        (.normal v :: r.1, r.2) := by
      rw [Program.completions, bind_apply, bind_apply, hv]
      rfl
    rw [hall]
    refine ⟨?_, ?_⟩
    · intro c hc
      rcases List.mem_cons.mp hc with rfl | hc
      · exact ⟨v, rfl⟩
      · exact hnormal c hc
    · rw [Program.exec, bind_apply, hv, List.getLast?_cons]
      exact hexec

end Scriptlet
