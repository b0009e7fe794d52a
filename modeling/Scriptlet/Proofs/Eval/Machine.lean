import Mathlib.Logic.Relation
import Scriptlet.Proofs.Eval.Frame

/-!
# A machine that never runs for ever

The evaluator is a recursive function, and that it has a value says nothing about how long a run
takes. Here evaluation is a machine that does one thing at a time: it has a store, a counter of the
calls in progress, something to do now (`Control`) and a stack of what to do then (`Frame`). Nothing
bounds it from outside. A name is looked up by going from scope to scope, a call jumps to a body
found in the store, and only the counter stands against endless recursion.

From every well-formed store, at every depth of calls, the machine halts, and with the result of the
evaluator: `Machine.halts`. The argument is the order in which `Machine.calls_yield` and
`Machine.eval_yields` are proved: by the calls still allowed, then by what is evaluated; and along
the chain of scopes for a name, which ends because evaluation keeps stores well-formed.

This module has the machine itself. A step looks at the control. If there is something to begin,
`beginExpr`, `beginStmt` or `beginCall` does; a value or a completion is handed to the frame on top
of the stack by `resumeValue` or `resumeCompletion`. Every frame waits for one of the two and is
stuck with the other, and no stack that the machine builds ever gets there, which is part of
`Machine.halts`.
-/

namespace Scriptlet

/-- What is to be done with a value or a completion once it is there. A frame has what is left of
the construct that pushed it: the scope it is evaluated in, the results it has so far, and the code
that comes after. -/
inductive Frame where
  -- with a value
  | memberOf (scope : ScopeId) (key : Expr)
  | keyOf (object : Value)
  | callOf (scope : ScopeId) (callee : Expr) (args : List Expr)
  | argumentOf (scope : ScopeId) (id : ClosureId) (done : List Value) (rest : List Expr)
  | leftOf (scope : ScopeId) (op : BinaryOp) (right : Expr)
  | rightOf (op : BinaryOp) (a : Value)
  | assignName (scope : ScopeId) (name : String)
  | assignMember (scope : ScopeId) (key value : Expr)
  | assignKey (scope : ScopeId) (object : Value) (value : Expr)
  | assignProperty (object : Value) (key : String)
  | propertyOf (scope : ScopeId) (id : ObjectId) (key : String) (rest : List (String × Expr))
  | varOf (scope : ScopeId) (name : String)
  | testOf (scope : ScopeId) (consequent : Stmt) (alternate : Option Stmt)
  | returnOf
  | statementOf
  -- with a completion
  | blockOf (scope : ScopeId) (rest : List Stmt)
  | programOf (scope : ScopeId) (rest : List Stmt)
  | callEnd

/-- What is to be done now. Besides evaluating and running code there are searches that go from
scope to scope, and lists that are worked off, so that every step is a bounded amount of work. -/
inductive Control where
  /-- evaluate an expression -/
  | eval (scope : ScopeId) (e : Expr)
  /-- evaluate the arguments that are left, then call -/
  | arguments (scope : ScopeId) (id : ClosureId) (done : List Value) (rest : List Expr)
  /-- evaluate the properties that are left -/
  | properties (scope : ScopeId) (id : ObjectId) (rest : List (String × Expr))
  /-- look for a name, from here outwards -/
  | find (name : String) (here : ScopeId)
  /-- look for where to assign, from here outwards, or else in `scope` -/
  | assign (name : String) (v : Value) (scope here : ScopeId)
  /-- call a closure -/
  | call (id : ClosureId) (args : List Value)
  /-- run a statement -/
  | exec (scope : ScopeId) (stmt : Stmt)
  /-- run statements and drop what they come to -/
  | block (scope : ScopeId) (body : List Stmt)
  /-- run statements and keep what the last one came to -/
  | program (scope : ScopeId) (last : Completion) (p : Program)
  /-- hand on a value -/
  | value (v : Value)
  /-- hand on a completion -/
  | completion (c : Completion)

/-- The machine. -/
structure Machine where
  store : Store
  /-- how many calls are in progress -/
  depth : Nat
  control : Control
  stack : List Frame

namespace Machine

/-- Begins an expression: it is done at once, or its first part becomes the control and a frame
keeps the rest. Assigning to anything but a name or a member is an error, without a look at the
value. -/
def beginExpr (scope : ScopeId) (s : Store) (d : Nat) (k : List Frame) : Expr → Machine
  | .literal value => ⟨s, d, .value (.ofLiteral value), k⟩
  | .object properties => ⟨s.newObject.2, d, .properties scope s.newObject.1 properties, k⟩
  | .name n => ⟨s, d, .find n scope, k⟩
  | .member base key => ⟨s, d, .eval scope base, .memberOf scope key :: k⟩
  | .function n params body =>
    ⟨(s.newClosure n params body scope).2, d,
      .value (.function (s.newClosure n params body scope).1), k⟩
  | .call callee args => ⟨s, d, .eval scope callee, .callOf scope callee args :: k⟩
  | .binary op left right => ⟨s, d, .eval scope left, .leftOf scope op right :: k⟩
  | .assign (.name n) value => ⟨s, d, .eval scope value, .assignName scope n :: k⟩
  | .assign (.member base key) value =>
    ⟨s, d, .eval scope base, .assignMember scope key value :: k⟩
  | .assign _ _ => ⟨s, d, .value (.typeError "invalid assignment target"), k⟩

/-- Begins a statement. Declarations of functions bind at once, all others evaluate something
first. -/
def beginStmt (scope : ScopeId) (s : Store) (d : Nat) (k : List Frame) : Stmt → Machine
  | .function name params body =>
    let (id, s) := s.newClosure (some name) params body scope
    ⟨s.bind scope name (.function id), d, .completion (.normal .undefined), k⟩
  | .var name init => ⟨s, d, .eval scope init, .varOf scope name :: k⟩
  | .cond test consequent alternate =>
    ⟨s, d, .eval scope test, .testOf scope consequent alternate :: k⟩
  | .ret none => ⟨s, d, .completion (.returned .undefined), k⟩
  | .ret (some value) => ⟨s, d, .eval scope value, .returnOf :: k⟩
  | .block body => ⟨s, d, .block scope body, k⟩
  | .expr e => ⟨s, d, .eval scope e, .statementOf :: k⟩

/-- Enters a call, unless too many are in progress. -/
def beginCall (s : Store) (d : Nat) (k : List Frame) (id : ClosureId) (args : List Value) :
    Machine :=
  if callLimit ≤ d then ⟨s, d, .value .tooDeep, k⟩
  else
    match s.closures[id]? with
    | none => ⟨s, d, .value .undefined, k⟩
    | some closure =>
      let (scope, s) := s.enter closure args
      ⟨s, d + 1, .block scope closure.body, .callEnd :: k⟩

/-- Looks for a name in one scope: it is bound there, or the search goes on in the scope around it,
or there is none and the name is not defined. -/
def findHere (s : Store) (d : Nat) (k : List Frame) (name : String) (here : ScopeId) : Machine :=
  match s.binding? here name with
  | some v => ⟨s, d, .value v, k⟩
  | none =>
    match s.scopes[here]?.bind Scope.outer with
    | some outer => ⟨s, d, .find name outer, k⟩
    | none => ⟨s, d, .value (.notDefined name), k⟩

/-- Assigns in one scope if it binds the name, and in `scope` if none does. -/
def assignHere (s : Store) (d : Nat) (k : List Frame) (name : String) (v : Value)
    (scope here : ScopeId) : Machine :=
  if s.binds here name then ⟨s.bind here name v, d, .value .undefined, k⟩
  else
    match s.scopes[here]?.bind Scope.outer with
    | some outer => ⟨s, d, .assign name v scope outer, k⟩
    | none => ⟨s.bind scope name v, d, .value .undefined, k⟩

/-- Goes on with a value. Frames that wait for a completion get none. -/
def resumeValue (s : Store) (d : Nat) (v : Value) (k : List Frame) : Frame → Option Machine
  | .memberOf scope key =>
    if v.isObjectLike then some ⟨s, d, .eval scope key, .keyOf v :: k⟩
    else some ⟨s, d, .value .undefined, k⟩
  | .keyOf object => some ⟨s, d, .value (s.getProperty object v.key), k⟩
  | .callOf scope callee args =>
    match v with
    | .function id => some ⟨s, d, .arguments scope id [] args, k⟩
    | _ => some ⟨s, d, .value (.typeError (callee.describe ++ " is not a function")), k⟩
  | .argumentOf scope id done rest => some ⟨s, d, .arguments scope id (done ++ [v]) rest, k⟩
  | .leftOf scope op right => some ⟨s, d, .eval scope right, .rightOf op v :: k⟩
  | .rightOf op a => some ⟨s, d, .value (op.apply a v), k⟩
  | .assignName scope name => some ⟨s, d, .assign name v scope scope, k⟩
  | .assignMember scope key value =>
    if v.isObjectLike then some ⟨s, d, .eval scope key, .assignKey scope v value :: k⟩
    else some ⟨s, d, .value .undefined, k⟩
  | .assignKey scope object value =>
    some ⟨s, d, .eval scope value, .assignProperty object v.key :: k⟩
  | .assignProperty object key => some ⟨s.setProperty object key v, d, .value .undefined, k⟩
  | .propertyOf scope id key rest =>
    some ⟨s.setProperty (.object id) key v, d, .properties scope id rest, k⟩
  | .varOf scope name => some ⟨s.bind scope name v, d, .completion (.normal .undefined), k⟩
  | .testOf scope consequent alternate =>
    if v.truthy then some ⟨s, d, .exec scope consequent, k⟩
    else
      match alternate with
      | none => some ⟨s, d, .completion (.normal .undefined), k⟩
      | some alternate => some ⟨s, d, .exec scope alternate, k⟩
  | .returnOf => some ⟨s, d, .completion (.returned v), k⟩
  | .statementOf => some ⟨s, d, .completion (.normal v), k⟩
  | _ => none

/-- Goes on with a completion. Frames that wait for a value get none. The end of a
call gives the counter back what the call took. -/
def resumeCompletion (s : Store) (d : Nat) (c : Completion) (k : List Frame) :
    Frame → Option Machine
  | .blockOf scope rest =>
    match c with
    | .returned v => some ⟨s, d, .completion (.returned v), k⟩
    | .normal _ => some ⟨s, d, .block scope rest, k⟩
  | .programOf scope rest =>
    match c with
    | .returned v => some ⟨s, d, .completion (.returned v), k⟩
    | .normal v => some ⟨s, d, .program scope (.normal v) rest, k⟩
  | .callEnd =>
    match c with
    | .returned v => some ⟨s, d - 1, .value v, k⟩
    | .normal _ => some ⟨s, d - 1, .value .undefined, k⟩
  | _ => none

/-- One step; none if there is nothing left to do. -/
def step : Machine → Option Machine
  | ⟨s, d, .eval scope e, k⟩ => some (beginExpr scope s d k e)
  | ⟨s, d, .arguments _ id done [], k⟩ => some ⟨s, d, .call id done, k⟩
  | ⟨s, d, .arguments scope id done (e :: rest), k⟩ =>
    some ⟨s, d, .eval scope e, .argumentOf scope id done rest :: k⟩
  | ⟨s, d, .properties _ id [], k⟩ => some ⟨s, d, .value (.object id), k⟩
  | ⟨s, d, .properties scope id ((key, e) :: rest), k⟩ =>
    some ⟨s, d, .eval scope e, .propertyOf scope id key rest :: k⟩
  | ⟨s, d, .find name here, k⟩ => some (findHere s d k name here)
  | ⟨s, d, .assign name v scope here, k⟩ => some (assignHere s d k name v scope here)
  | ⟨s, d, .call id args, k⟩ => some (beginCall s d k id args)
  | ⟨s, d, .exec scope stmt, k⟩ => some (beginStmt scope s d k stmt)
  | ⟨s, d, .block _ [], k⟩ => some ⟨s, d, .completion (.normal .undefined), k⟩
  | ⟨s, d, .block scope (stmt :: rest), k⟩ =>
    some ⟨s, d, .exec scope stmt, .blockOf scope rest :: k⟩
  | ⟨s, d, .program _ last [], k⟩ => some ⟨s, d, .completion last, k⟩
  | ⟨s, d, .program scope _ (stmt :: rest), k⟩ =>
    some ⟨s, d, .exec scope stmt, .programOf scope rest :: k⟩
  | ⟨s, d, .value v, frame :: k⟩ => resumeValue s d v k frame
  | ⟨s, d, .completion c, frame :: k⟩ => resumeCompletion s d c k frame
  | ⟨_, _, .value _, []⟩ => none
  | ⟨_, _, .completion _, []⟩ => none

/-- One step as a relation. -/
abbrev Next (a b : Machine) : Prop := a.step = some b

/-- Any number of steps. -/
abbrev Steps : Machine → Machine → Prop := Relation.ReflTransGen Next

/-- A run that comes to an end: finitely many steps, and then none. -/
def HaltsAt (a b : Machine) : Prop := a.Steps b ∧ b.step = none

end Machine

end Scriptlet
