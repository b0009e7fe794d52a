import Scriptlet.Script
import Scriptlet.Store.Inspect

/-!
# Sessions

A session keeps one store alive through a list of steps and lets them run code, look into scopes and
handle values directly. It numbers the scopes it has met, the global one first, and keeps values
under names of its own.

A step is an action, the scope it concerns and perhaps a name for its value. The values that an
action needs are described by a `ValueSpec`: known outright, read from a scope, kept from an earlier
step, or a property of another value. `Session.step` performs the action and gives an `Answer`,
which has all that can be said about the result. None of this can fail: a number without a scope
stands for the global one, a name under which nothing was kept for undefined.
-/

namespace Scriptlet

/-- A way to come by a value in a session, without knowing where in the store anything lives. -/
inductive ValueSpec where
  /-- a value known outright -/
  | value (v : Value)
  /-- a fresh object -/
  | object
  /-- the value of a name seen from a scope of the session -/
  | var (name : String) (scope : Nat)
  /-- a value the session kept -/
  | slot (name : String)
  /-- a property of another value -/
  | property (base : ValueSpec) (key : String)

/-- What a step of a session does: it runs code in one of its forms, or applies a single operation
of the store, or looks at values. -/
inductive Action where
  /-- runs a source text -/
  | run (source : String)
  /-- runs a program -/
  | exec (program : Program)
  /-- runs one statement -/
  | statement (stmt : Stmt)
  /-- runs a block -/
  | block (body : List Stmt)
  /-- evaluates an expression -/
  | expression (e : Expr)
  /-- opens a scope inside the current one -/
  | child
  /-- looks up the scope a function closes over -/
  | closureScope (value : ValueSpec)
  /-- reads a name -/
  | get (name : String)
  /-- binds a name in the scope itself -/
  | bind (name : String) (value : ValueSpec)
  /-- assigns to a name -/
  | assign (name : String) (value : ValueSpec)
  /-- finds the scope that binds a name -/
  | resolve (name : String)
  /-- asks whether the scope itself binds a name -/
  | has (name : String)
  /-- reads a property -/
  | getProperty (base : ValueSpec) (key : String)
  /-- writes a property -/
  | setProperty (base : ValueSpec) (key : String) (value : ValueSpec)
  /-- calls a function -/
  | call (callee : ValueSpec) (args : List ValueSpec)
  /-- compares two values in every way there is -/
  | compare (left right : ValueSpec)
  /-- looks at a value -/
  | inspect (value : ValueSpec)

/-- A step: an action, the number of the scope it concerns, and the name under
which its value is kept. -/
structure SessionStep where
  action : Action
  scope : Nat
  save : Option String

/-- What a step answers, with one constructor for each kind of result. -/
inductive Answer where
  | value (v : Value)
  | refused (e : ProgramError)
  | completion (c : Completion)
  | scope (number : Nat)
  | notAFunction (v : Value)
  | done
  | resolved (found : Bool) (number : Option Nat)
  | has (present : Bool)
  | written (success : Bool)
  | comparison (loose : Value) (strict host : Bool)
  | inspection (v : Value)

/-- The value an answer carries, to be kept if the step asks for it. -/
def Answer.value? : Answer → Option Value
  | .value v => some v
  | .completion c => some c.value
  | .comparison loose _ _ => some loose
  | .inspection v => some v
  | _ => none

/-- A session: the store, and what the steps so far have met and kept in it. -/
structure Session where
  store : Store
  /-- the scopes met so far, by their numbers -/
  scopes : List ScopeId
  /-- the values kept -/
  slots : Table Value

namespace Session

/-- A session at its start: the global scope, and nothing kept. -/
def initial : Session := ⟨.initial, [Store.globalScope], []⟩

/-- The scope of a number. -/
def scopeAt (session : Session) (number : Nat) : ScopeId :=
  (session.scopes[number]?).getD Store.globalScope

/-- The number of a scope the session has met. A scope that was only opened by a call has none. -/
def numberOf? (session : Session) (scope : ScopeId) : Option Nat :=
  session.scopes.idxOf? scope

/-- The value a specification denotes. Only a fresh object changes the session, and it does so even
where the value is then not used. -/
def valueOf (session : Session) : ValueSpec → Value × Session
  | .value v => (v, session)
  | .object =>
    let (id, store) := session.store.newObject
    (.object id, { session with store })
  | .var name scope => (session.store.lookup (session.scopeAt scope) name, session)
  | .slot name => ((session.slots.find? name).getD .undefined, session)
  | .property base key =>
    let (v, session) := session.valueOf base
    (session.store.getProperty v key, session)

/-- The values several specifications denote, from left to right. -/
def valuesOf (session : Session) : List ValueSpec → List Value × Session
  | [] => ([], session)
  | spec :: specs =>
    let (v, session) := session.valueOf spec
    let (vs, session) := session.valuesOf specs
    (v :: vs, session)

/-- Keeps the store that running left behind. -/
def ran {α : Type} (session : Session) (result : α × Store) (answer : α → Answer) :
    Answer × Session :=
  (answer result.1, { session with store := result.2 })

/-- Numbers a scope, with a new number if it has none, and answers the number. -/
def withScope (session : Session) (scope : ScopeId) : Answer × Session :=
  match session.numberOf? scope with
  | some number => (.scope number, session)
  | none =>
    (.scope session.scopes.length, { session with scopes := session.scopes ++ [scope] })

/-- Performs an action in a scope. Operands are evaluated from left to right, before anything else
is done; a text that is no program changes nothing. -/
def perform (session : Session) (scope : ScopeId) : Action → Answer × Session
  | .run source =>
    match Program.ofSource source with
    | .ok program => session.ran (program.run scope session.store) .value
    | .error e => (.refused e, session)
  | .exec program => session.ran (program.run scope session.store) .value
  | .statement stmt => session.ran (stmt.run scope session.store) .completion
  | .block body => session.ran (Stmt.runAll body scope session.store) .completion
  | .expression e => session.ran (e.run scope session.store) .value
  | .child =>
    let (id, store) := session.store.newScope scope
    (.scope session.scopes.length, { session with store, scopes := session.scopes ++ [id] })
  | .closureScope spec =>
    match session.valueOf spec with
    | (.function id, session) =>
      match session.store.closures[id]? with
      | some closure => session.withScope closure.scope
      | none => (.notAFunction (.function id), session)
    | (v, session) => (.notAFunction v, session)
  | .get name => (.value (session.store.lookup scope name), session)
  | .bind name spec =>
    let (v, session) := session.valueOf spec
    (.done, { session with store := session.store.bind scope name v })
  | .assign name spec =>
    let (v, session) := session.valueOf spec
    (.done, { session with store := session.store.assign scope name v })
  | .resolve name =>
    match session.store.resolve scope name with
    | some holder => (.resolved true (session.numberOf? holder), session)
    | none => (.resolved false none, session)
  | .has name => (.has (session.store.binds scope name), session)
  | .getProperty base key =>
    let (v, session) := session.valueOf base
    (.value (session.store.getProperty v key), session)
  | .setProperty base key spec =>
    let (object, session) := session.valueOf base
    let (v, session) := session.valueOf spec
    (.written object.isObjectLike,
      { session with store := session.store.setProperty object key v })
  | .call callee args =>
    match session.valueOf callee with
    | (.function id, session) =>
      let (values, session) := session.valuesOf args
      session.ran (session.store.call id values) .value
    | (v, session) => (.notAFunction v, session)
  | .compare left right =>
    let (a, session) := session.valueOf left
    let (b, session) := session.valueOf right
    (.comparison (a.looseEquals b) (a.strictEquals b) (a.hostEquals b), session)
  | .inspect spec =>
    let (v, session) := session.valueOf spec
    (.inspection v, session)

/-- Keeps the value of an answer under a name, if a name is given and the answer has a value. -/
def keep (session : Session) (name : Option String) (answer : Answer) : Session :=
  match name, answer.value? with
  | some name, some v => { session with slots := session.slots.put name v }
  | _, _ => session

/-- Performs a step: the action in the scope of its number, and then keeps the value. -/
def step (session : Session) (s : SessionStep) : Answer × Session :=
  let (answer, session) := session.perform (session.scopeAt s.scope) s.action
  (answer, session.keep s.save answer)

/-- The bindings of a scope itself, in the order of their names. -/
def bindings (session : Session) (number : Nat) : List (String × Value) :=
  match session.store.scopes[session.scopeAt number]? with
  | some scope => Table.sorted scope.bindings
  | none => []

end Session

end Scriptlet
