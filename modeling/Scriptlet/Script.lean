import Scriptlet.Eval.Stepwise
import Scriptlet.Program.OfTree

/-!
# Running scripts

The operations by which a program is run from outside, each from a store to a result and the store
it leaves behind. They run stepwise, so that no script needs more stack than another, and each has
the result of plain evaluation: `Program.run_eq` and its companions. So whatever is proved of the
plain evaluator is true of these.

Each of them starts at depth zero, that is in surroundings in which all calls are still allowed. A
program can be run in any scope of any store; `Program.value` and `runScript` are the case of a
fresh store with nothing in it but an empty global scope.
-/

namespace Scriptlet

/-- Evaluates an expression. -/
def Expr.run (e : Expr) (scope : ScopeId) (s : Store) : Value × Store :=
  Stepwise.run (e.eval .top scope) s

/-- Runs a statement. -/
def Stmt.run (stmt : Stmt) (scope : ScopeId) (s : Store) : Completion × Store :=
  Stepwise.run (stmt.exec .top scope) s

/-- Runs a block: its statements in the scope itself, up to the first that returns. -/
def Stmt.runAll (body : List Stmt) (scope : ScopeId) (s : Store) : Completion × Store :=
  Stepwise.run (Stmt.execAll .top scope body) s

/-- Runs a program. Its value is that of the last statement that ran, and undefined if none did. A
`return` outside of all functions ends the program; scripts have none, but programs that are built
by hand may. -/
def Program.run (p : Program) (scope : ScopeId) (s : Store) : Value × Store :=
  let (last, s) := Stepwise.run (Program.exec .top scope (.normal .undefined) p) s
  (last.value, s)

/-- Calls a closure with values, as a script would; its value is what the first `return` of the body
returns. -/
def Store.call (s : Store) (id : ClosureId) (args : List Value) : Value × Store :=
  Stepwise.run (Host.top.call id args) s

/-- An expression has the value of plain evaluation. -/
theorem Expr.run_eq (e : Expr) (scope : ScopeId) (s : Store) :
    e.run scope s = (e.eval Host.top scope : Eval Id Value) s :=
  Stepwise.run_eval callLimit scope e s

/-- A statement completes as in plain evaluation. -/
theorem Stmt.run_eq (stmt : Stmt) (scope : ScopeId) (s : Store) :
    stmt.run scope s = (stmt.exec Host.top scope : Eval Id Completion) s :=
  Stepwise.run_exec callLimit scope stmt s

/-- A block completes as in plain evaluation. -/
theorem Stmt.runAll_eq (body : List Stmt) (scope : ScopeId) (s : Store) :
    Stmt.runAll body scope s = (Stmt.execAll Host.top scope body : Eval Id Completion) s :=
  Stepwise.run_execAll callLimit scope body s

/-- A program has the value and leaves the store of plain evaluation. -/
theorem Program.run_eq (p : Program) (scope : ScopeId) (s : Store) :
    p.run scope s =
      ((Program.exec Host.top scope (.normal .undefined) p : Eval Id Completion) s).map
        Completion.value id := by
  rw [Program.run, Host.top, Stepwise.run_program]
  rfl

/-- A call has the value of plain evaluation. -/
theorem Store.call_eq (s : Store) (id : ClosureId) (args : List Value) :
    s.call id args = (Host.top : Host Id).call id args s :=
  Stepwise.run_call callLimit id args s

/-- Runs a program in a fresh global scope. -/
def Program.value (p : Program) : Value := (p.run Store.globalScope .initial).1

/-- The value of a source text run in a fresh global scope, or the reason why it is no program. -/
def runScript (source : String) : Except ProgramError Value :=
  (Program.ofSource source).map Program.value

end Scriptlet
