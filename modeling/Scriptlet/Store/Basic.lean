import Scriptlet.Store.Table
import Scriptlet.Value.Basic

/-!
# The store

Everything that outlives an expression: scopes, objects and closures, each in a list that only
grows. A scope knows the scope around it; looking a name up walks outwards until a scope binds it.

Where something lives is its position in the list. Values refer to objects and closures by position,
closures and scopes refer to scopes; nothing is ever removed, so a reference that was good once
stays good. What is new is put at the end, with a position that no one knew before.
-/

namespace Scriptlet

/-- The names bound at one level, and the level around it. A scope without an outer one is a global
scope. -/
structure Scope where
  bindings : Table Value
  outer : Option ScopeId

/-- A function together with the scope it was created in. What the body sees besides its own names
are the names of that scope, at the time of the call. -/
structure Closure where
  name : Option String
  params : List String
  body : List Stmt
  /-- the captured scope: shared, so later writes to it are seen -/
  scope : ScopeId
  /-- functions have properties too -/
  properties : Table Value

/-- Scopes, objects and closures. -/
structure Store where
  scopes : Array Scope
  objects : Array (Table Value)
  closures : Array Closure

namespace Store

/-- Where the global scope lives. -/
def globalScope : ScopeId := 0

/-- A store with nothing but an empty global scope, in which every script can start. -/
def initial : Store := ⟨#[⟨[], none⟩], #[], #[]⟩

/-! ## Creation

Each of these gives the position of what is new, together with the store that has it.
-/

/-- A new scope inside `outer`. -/
def newScope (s : Store) (outer : ScopeId) : ScopeId × Store :=
  (s.scopes.size, { s with scopes := s.scopes.push ⟨[], some outer⟩ })

/-- A new object without properties. -/
def newObject (s : Store) : ObjectId × Store :=
  (s.objects.size, { s with objects := s.objects.push [] })

/-- A new closure over `scope`. -/
def newClosure (s : Store) (name : Option String) (params : List String) (body : List Stmt)
    (scope : ScopeId) : ClosureId × Store :=
  (s.closures.size, { s with closures := s.closures.push ⟨name, params, body, scope, []⟩ })

/-! ## Names

A name is resolved to a scope first. Reading and assigning both go to that scope; declaring does not
look for one.
-/

/-- The nearest scope that binds a name, at most `fuel` steps outwards. The number of steps is what
the recursion is on, as nothing about a store by itself keeps scopes from being in a circle. -/
def resolveWithin (s : Store) (name : String) : Nat → ScopeId → Option ScopeId
  | 0, _ => none
  | fuel + 1, id =>
    match s.scopes[id]? with
    | none => none
    | some scope =>
      if scope.bindings.has name then some id
      else
        match scope.outer with
        | none => none
        | some outer => resolveWithin s name fuel outer

/-- The nearest scope, from `id` outwards, that binds a name. No walk outwards is
longer than there are scopes, since it meets no scope twice. -/
def resolve (s : Store) (id : ScopeId) (name : String) : Option ScopeId :=
  s.resolveWithin name s.scopes.size id

/-- Whether a scope itself binds a name. -/
def binds (s : Store) (id : ScopeId) (name : String) : Bool :=
  (s.scopes[id]?.map fun scope => scope.bindings.has name).getD false

/-- The value a scope itself binds a name to, the scopes around it left aside. -/
def binding? (s : Store) (id : ScopeId) (name : String) : Option Value :=
  s.scopes[id]?.bind fun scope => scope.bindings.find? name

/-- The value of a name seen from a scope. A name that no scope binds has an error as its value. -/
def lookup (s : Store) (id : ScopeId) (name : String) : Value :=
  match s.resolve id name with
  | some holder => (s.binding? holder name).getD .undefined
  | none => .notDefined name

/-- Binds a name in a scope itself, in place of an earlier binding there. The scopes around it may
bind the name as well and are left as they are. -/
def bind (s : Store) (id : ScopeId) (name : String) (value : Value) : Store :=
  { s with
    scopes := s.scopes.modify id fun scope =>
      { scope with bindings := scope.bindings.put name value } }

/-- Assigns to a name: to the nearest binding, or else to a new one in `id`, the scope where the
assignment stands. -/
def assign (s : Store) (id : ScopeId) (name : String) (value : Value) : Store :=
  s.bind ((s.resolve id name).getD id) name value

/-- Binds parameters to arguments in order; a missing argument is undefined, and
an extra one is dropped. -/
def bindParams (s : Store) (id : ScopeId) : List String → List Value → Store
  | [], _ => s
  | p :: ps, [] => (s.bind id p .undefined).bindParams id ps []
  | p :: ps, v :: vs => (s.bind id p v).bindParams id ps vs

/-! ## Properties

Objects and functions have properties, in a table of their own. All other values have none.
-/

/-- The properties of a value, if it has any. -/
def properties? (s : Store) : Value → Option (Table Value)
  | .object id => s.objects[id]?
  | .function id => s.closures[id]?.map Closure.properties
  | _ => none

/-- A property of a value; undefined if there is none. -/
def getProperty (s : Store) (base : Value) (key : String) : Value :=
  ((s.properties? base).bind fun properties => properties.find? key).getD .undefined

/-- Sets a property of a value. A value that has no properties is left alone. -/
def setProperty (s : Store) (base : Value) (key : String) (value : Value) : Store :=
  match base with
  | .object id =>
    { s with objects := s.objects.modify id fun properties => properties.put key value }
  | .function id =>
    { s with
      closures := s.closures.modify id fun closure =>
        { closure with properties := closure.properties.put key value } }
  | _ => s

end Store

end Scriptlet
