import Scriptlet.Eval.Simulation

/-!
# Evaluation one step at a time

The plain evaluator nests as deep as the calls of the script, and so would need as much stack. Here
a computation says after every step what is left to do, and a loop does it, so that ten thousand
nested calls take no more stack than one. Both give the same results: `Stepwise.run_exec` and its
companions.

The evaluator itself is not written again. `Stepwise` is a monad in which every `bind` pauses and
hands over the rest, and the evaluator is run in it. That the results are the same is then a
relation between this monad and `Id` (`Stepwise.yields`), which holds of every evaluation as soon as
it holds of `pure` and `bind`.
-/

namespace Scriptlet

/-- A computation interrupted after a step, or done. What is left is a function, so that it only
starts when it is asked for. -/
inductive Step (ρ : Type) where
  | done (result : ρ)
  | next (rest : Unit → Step ρ)

/-- Runs a computation to its end, in a loop that needs no stack. -/
def Step.finish {ρ : Type} : Step ρ → ρ
  | .done result => result
  | .next rest => (rest ()).finish

/-- Computations that hand over to a continuation and pause at every `bind`. -/
def Stepwise (ρ α : Type) : Type := (α → Step ρ) → Step ρ

instance {ρ : Type} : Monad (Stepwise ρ) where
  pure a := fun k => k a
  bind x f := fun k => .next fun _ => x fun a => f a k

namespace Stepwise

/-- A stepwise computation and a value are related if continuing the one is
continuing with the other. -/
def yields (ρ : Type) : MonadRelation (Stepwise ρ) Id where
  Rel x a := ∀ k, (x k).finish = (k a).finish
  rel_pure _ := fun _ => rfl
  rel_bind := fun {_ _ x y f g} hx hf k =>
    calc (x fun a => f a k).finish
        = (f y k).finish := hx _
      _ = (k (g y)).finish := hf y k

/-- Runs a stepwise computation from a store. -/
def run {α : Type} (x : Eval (Stepwise (α × Store)) α) (s : Store) : α × Store :=
  (x s .done).finish

/-- A computation that is related to a plain one gives its result. -/
theorem run_eq {α : Type} {x : Eval (Stepwise (α × Store)) α} {y : Eval Id α}
    (h : (yields (α × Store)).OnStore x y) (s : Store) : run x s = y s :=
  h s .done

/-- **Expressions** evaluate stepwise as they do plainly. -/
@[simp] theorem run_eval (left : Nat) (scope : ScopeId) (e : Expr) (s : Store) :
    run (e.eval (Host.within left) scope) s = (e.eval (Host.within left) scope : Eval Id Value) s :=
  run_eq (Expr.eval_related (Host.within_related left) scope e) s

/-- **Statements** run stepwise as they do plainly. -/
@[simp] theorem run_exec (left : Nat) (scope : ScopeId) (stmt : Stmt) (s : Store) :
    run (stmt.exec (Host.within left) scope) s =
      (stmt.exec (Host.within left) scope : Eval Id Completion) s :=
  run_eq (Stmt.exec_related (Host.within_related left) scope stmt) s

/-- **Blocks** run stepwise as they do plainly. -/
@[simp] theorem run_execAll (left : Nat) (scope : ScopeId) (body : List Stmt) (s : Store) :
    run (Stmt.execAll (Host.within left) scope body) s =
      (Stmt.execAll (Host.within left) scope body : Eval Id Completion) s :=
  run_eq (Stmt.execAll_related (Host.within_related left) scope body) s

/-- **Programs** run stepwise as they do plainly. -/
@[simp] theorem run_program (left : Nat) (scope : ScopeId) (last : Completion) (p : Program)
    (s : Store) :
    run (Program.exec (Host.within left) scope last p) s =
      (Program.exec (Host.within left) scope last p : Eval Id Completion) s :=
  run_eq (Program.exec_related (Host.within_related left) scope last p) s

/-- **Calls** run stepwise as they do plainly. -/
@[simp] theorem run_call (left : Nat) (id : ClosureId) (args : List Value) (s : Store) :
    run ((Host.within left).call id args) s = ((Host.within left : Host Id).call id args) s :=
  run_eq ((Host.within_related left).call id args) s

end Stepwise

end Scriptlet
