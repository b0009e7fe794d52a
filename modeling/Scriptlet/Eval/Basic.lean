import Scriptlet.Store.Basic
import Scriptlet.Text.Quoted

/-!
# Evaluation

Expressions evaluate to a value and statements to a completion, both by recursion on what is
evaluated and with the store passed along. Two things are left to the surroundings, which `Host`
collects: how a function is called, and what becomes of an assignment to something that is neither a
name nor a member. Calls are bounded: `callWithin` counts how many may still be nested, so that a
recursive function comes to an end.

The definitions are written over an arbitrary monad. In `Id` they are plain functions of the store;
`Scriptlet.Eval.Stepwise` runs the same definitions one step at a time. Other monads keep a record
of refused calls, or stop at a bad assignment, and so evaluation can be asked what it did on the
way.

Nothing is ever thrown. An error is a value, which an expression may have and a statement may
complete with; evaluation goes on with it as with any other. Only `return` changes the order in
which statements run, and completions are there to say so.
-/

namespace Scriptlet

/-- Computations that use the store: from a store to a result and the store afterwards, in a
monad. -/
abbrev Eval (m : Type → Type) := StateT Store m

/-- How a statement ended, and with which value. Only a `return` ends in another way than
normally. -/
inductive Completion where
  /-- the next statement follows -/
  | normal (value : Value)
  /-- the function that is running ends with this value -/
  | returned (value : Value)
deriving DecidableEq

/-- The value a completion carries. -/
def Completion.value : Completion → Value
  | .normal v => v
  | .returned v => v

/-- What evaluation leaves to its surroundings. The body of a function is not part of the code that
calls it, and so calling cannot be done by recursion on the code. -/
structure Host (m : Type → Type) where
  /-- calls a closure with evaluated arguments -/
  call : ClosureId → List Value → Eval m Value
  /-- stands for an assignment to neither a name nor a member -/
  badTarget : Eval m Value

/-- The callee of a call in words, for the message that it is not a function. -/
def Expr.describe : Expr → String
  | .name n => n
  | .member base (.literal (.string key)) => base.describe ++ "." ++ key
  | .member base _ => base.describe ++ "[...]"
  | .call callee _ => callee.describe ++ "(...)"
  | .literal (.string s) => quotedString s
  | .literal value => (Value.ofLiteral value).display
  | _ => "expression"

variable {m : Type → Type} [Monad m]

/-- Reads from the store, which stays as it is. -/
def reading {α : Type} (f : Store → α) : Eval m α := modifyGet fun s => (f s, s)

/-! ## Expressions

By recursion on the expression. Operands are evaluated from left to right, each in the store that
the one before it left. Where an operand has no properties to look into, what stands behind it is
not evaluated at all.
-/

mutual

/-- Evaluates an expression in a scope. Objects and functions are made anew each time. A function
captures the scope; a call of anything but a function is an error, and its arguments are then not
evaluated. An assignment has the value `undefined`, whatever is assigned. -/
def Expr.eval (host : Host m) (scope : ScopeId) : Expr → Eval m Value
  | .literal value => pure (.ofLiteral value)
  | .object properties => do
    let id ← modifyGet Store.newObject
    Expr.evalProperties host scope id properties
    return .object id
  | .name n => reading (·.lookup scope n)
  | .member base key => do
    let object ← base.eval host scope
    if object.isObjectLike then
      let k ← key.eval host scope
      reading (·.getProperty object k.key)
    else return .undefined
  | .function n params body =>
    return .function (← modifyGet (·.newClosure n params body scope))
  | .call callee args => do
    match ← callee.eval host scope with
    | .function id =>
      let values ← Expr.evalAll host scope args
      host.call id values
    | _ => return .typeError (callee.describe ++ " is not a function")
  | .binary op left right => do
    let a ← left.eval host scope
    let b ← right.eval host scope
    return op.apply a b
  | .assign (.name n) value => do
    let v ← value.eval host scope
    modify (·.assign scope n v)
    return .undefined
  | .assign (.member base key) value => do
    let object ← base.eval host scope
    if object.isObjectLike then
      let k ← key.eval host scope
      let v ← value.eval host scope
      modify (·.setProperty object k.key v)
      return .undefined
    else return .undefined
  | .assign _ _ => host.badTarget

/-- Evaluates expressions from left to right. -/
def Expr.evalAll (host : Host m) (scope : ScopeId) : List Expr → Eval m (List Value)
  | [] => pure []
  | e :: es => do
    let v ← e.eval host scope
    let vs ← Expr.evalAll host scope es
    return v :: vs

/-- Evaluates properties from left to right into an object, which is there already and receives each
one as soon as its value is known. -/
def Expr.evalProperties (host : Host m) (scope : ScopeId) (id : ObjectId) :
    List (String × Expr) → Eval m Unit
  | [] => pure ()
  | (key, e) :: properties => do
    let v ← e.eval host scope
    modify (·.setProperty (.object id) key v)
    Expr.evalProperties host scope id properties

end

/-! ## Statements

By recursion on the statement. All names are bound in the scope in which the function or the program
runs; a block has none of its own.
-/

mutual

/-- Runs a statement in a scope. Declarations complete with `undefined`, an `if` with what the
branch that was taken completes with, and an expression with its value. -/
def Stmt.exec (host : Host m) (scope : ScopeId) : Stmt → Eval m Completion
  | .function name params body => do
    let id ← modifyGet (·.newClosure (some name) params body scope)
    modify (·.bind scope name (.function id))
    return .normal .undefined
  | .var name init => do
    let v ← init.eval host scope
    modify (·.bind scope name v)
    return .normal .undefined
  | .cond test consequent none => do
    let v ← test.eval host scope
    if v.truthy then consequent.exec host scope else return .normal .undefined
  | .cond test consequent (some alternate) => do
    let v ← test.eval host scope
    if v.truthy then consequent.exec host scope else alternate.exec host scope
  | .ret none => return .returned .undefined
  | .ret (some value) => return .returned (← value.eval host scope)
  | .block body => Stmt.execAll host scope body
  | .expr e => return .normal (← e.eval host scope)

/-- Runs statements one after the other in the scope itself, up to the first that
returns. What they evaluate to is dropped. -/
def Stmt.execAll (host : Host m) (scope : ScopeId) : List Stmt → Eval m Completion
  | [] => return .normal .undefined
  | s :: ss => do
    match ← s.exec host scope with
    | .returned v => return .returned v
    | .normal _ => Stmt.execAll host scope ss

end

/-- Runs the statements of a program in a scope and keeps the last completion, starting from `last`.
Unlike in a block, the value of a statement is kept, since a program is asked for it. -/
def Program.exec (host : Host m) (scope : ScopeId) (last : Completion) :
    Program → Eval m Completion
  | [] => return last
  | s :: ss => do
    match ← Stmt.exec host scope s with
    | .returned v => return .returned v
    | .normal v => Program.exec host scope (.normal v) ss

/-! ## Calls

A call opens a scope inside the one that the closure captured, binds the parameters there and runs
the body. The scope of the caller has no part in this.
-/

/-- What becomes of a call that is refused and of a bad assignment. These are the two things that a
variant of the evaluator may want to treat differently. -/
structure Faults (m : Type → Type) where
  refusedCall : Eval m Value
  badTarget : Eval m Value

/-- Faults are values of the language. -/
def Faults.asValues : Faults m where
  refusedCall := return .tooDeep
  badTarget := return .typeError "invalid assignment target"

/-- Opens the scope of a call: inside the captured scope, its names the parameters. Arguments that
are missing are undefined, and ones too many are dropped. -/
def Store.enter (s : Store) (closure : Closure) (args : List Value) : ScopeId × Store :=
  let (scope, s) := s.newScope closure.scope
  (scope, s.bindParams scope closure.params args)

/-- Calls a closure when that many calls may still be nested. The first `return` that runs gives the
value; a body that runs to its end gives `undefined`. -/
def callWithin (faults : Faults m) : Nat → ClosureId → List Value → Eval m Value
  | 0, _, _ => faults.refusedCall
  | left + 1, id, args => do
    match ← reading (·.closures[id]?) with
    | none => return .undefined
    | some closure =>
      let scope ← modifyGet (·.enter closure args)
      match ← Stmt.execAll ⟨callWithin faults left, faults.badTarget⟩ scope closure.body with
      | .returned v => return v
      | .normal _ => return .undefined

/-- How many calls may be nested. The one after that is refused and has an error as its value. -/
def callLimit : Nat := 10000

/-- Surroundings in which that many calls may still be nested. -/
def Host.within (left : Nat) : Host m :=
  ⟨callWithin .asValues left, Faults.asValues.badTarget⟩

/-- The surroundings at the start of a program. -/
def Host.top : Host m := Host.within callLimit

end Scriptlet
