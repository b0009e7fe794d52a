import Scriptlet.Number.Style
import Scriptlet.Program.Basic

/-!
# Values

What expressions evaluate to. Primitive values are held directly; objects and functions are held by
where they live in the store, so that all copies of one share its properties. An error is a value
like any other: it is stored, compared and passed around, and never stops a program.

Nothing here needs the store. The text of an object is the same for all of them, and so is that of
a function, whatever its name; two of them are equal if they live at the same place. There are three
equalities: the strict and the loose one of scripts, and one for hosts, which alone looks into
errors.
-/

namespace Scriptlet

/-- Where a scope lives in the store. -/
abbrev ScopeId := Nat

/-- Where an object lives in the store. -/
abbrev ObjectId := Nat

/-- Where a closure lives in the store. -/
abbrev ClosureId := Nat

/-- The kinds of errors. Each has one occasion in the evaluator, or several for wrong types. -/
inductive FaultKind where
  | reference | type | range
deriving DecidableEq, Repr

/-- The name of a kind of errors. -/
def FaultKind.name : FaultKind → String
  | .reference => "ReferenceError"
  | .type => "TypeError"
  | .range => "RangeError"

/-- What went wrong: a kind, and the message without the name of the kind. -/
structure Fault where
  kind : FaultKind
  message : String
deriving DecidableEq, Repr

/-- A fault in words. -/
def Fault.text (f : Fault) : String := f.kind.name ++ ": " ++ f.message

/-- Values. All eight kinds can be stored, passed and returned alike. -/
inductive Value where
  | undefined
  | null
  | boolean (b : Bool)
  | string (s : String)
  | number (x : Float)
  | object (id : ObjectId)
  | function (id : ClosureId)
  | error (fault : Fault)
deriving DecidableEq

namespace Value

/-- A name that nothing binds. -/
def notDefined (name : String) : Value := .error ⟨.reference, name ++ " is not defined"⟩

/-- An operation on values of the wrong kinds. -/
def typeError (message : String) : Value := .error ⟨.type, message⟩

/-- The value of a call that is nested too deep. -/
def tooDeep : Value := .error ⟨.range, "Maximum call stack size exceeded"⟩

/-- The value of a literal. -/
def ofLiteral : Literal → Value
  | .number x => .number x
  | .string s => .string s
  | .boolean b => .boolean b
  | .undefined => .undefined
  | .null => .null

/-- The name of a value's kind, as messages show it. -/
def typeName : Value → String
  | undefined => "undefined"
  | null => "null"
  | boolean _ => "boolean"
  | string _ => "string"
  | number _ => "number"
  | object _ => "object"
  | function _ => "function"
  | error _ => "error"

/-- Whether a value is `undefined` or `null`, which the loose equality takes for the same. -/
def isNullish : Value → Bool
  | undefined | null => true
  | _ => false

/-- Whether a value is an error. -/
def isError : Value → Bool
  | error _ => true
  | _ => false

/-- Whether a value has properties. Reading or writing one of any other value has no effect. -/
def isObjectLike : Value → Bool
  | object _ | function _ => true
  | _ => false

/-- Whether a condition of this value holds. Zeros, NaN and the empty string do
not; objects, functions and errors always do. -/
def truthy : Value → Bool
  | undefined | null => false
  | boolean b => b
  | string s => !s.isEmpty
  | number x => !(x == 0 || x.isNaN)
  | object _ | function _ | error _ => true

/-- The text of a value, as it is printed and as it is used for keys. The text of a string is the
string itself; that of an error says what went wrong. -/
def display : Value → String
  | undefined => "undefined"
  | null => "null"
  | boolean b => if b then "true" else "false"
  | string s => s
  | number x => numberText x
  | object _ => "[object Object]"
  | function _ => "function"
  | error f => "ERROR: " ++ f.text

/-- The property key a value stands for, which is its text: a number and its text are the same
key. -/
def key (v : Value) : String := v.display

/-! ## Equality

All three compare values of one kind alike, errors apart, and differ in what they make of errors
and of values of different kinds.
-/

/-- Compares two values of one kind: primitives by value, NaN differing from
itself, objects and functions by where they live. Values of two kinds and errors
are not compared. -/
def sameKindEquals : Value → Value → Option Bool
  | undefined, undefined => some true
  | null, null => some true
  | boolean a, boolean b => some (a == b)
  | string a, string b => some (a == b)
  | number a, number b => some (a == b)
  | object a, object b => some (a == b)
  | function a, function b => some (a == b)
  | _, _ => none

/-- The strict equality of scripts. Values of two kinds are never equal, and errors are not even
equal to themselves. -/
def strictEquals (a b : Value) : Bool := (sameKindEquals a b).getD false

/-- The loose equality of scripts. `undefined` and `null` equal each other and
nothing else; apart from that an error is passed on, and values of two kinds are
an error. -/
def looseEquals (a b : Value) : Value :=
  if a.isNullish || b.isNullish then .boolean (a.isNullish && b.isNullish)
  else if a.isError then a
  else if b.isError then b
  else
    match sameKindEquals a b with
    | some equal => .boolean equal
    | none => typeError ("cannot loosely compare " ++ a.typeName ++ " with " ++ b.typeName)

/-- Equality as seen from outside: primitives by value, objects and functions by
where they live, errors by what they say. -/
def hostEquals : Value → Value → Bool
  | undefined, undefined => true
  | null, null => true
  | boolean a, boolean b => a == b
  | string a, string b => a == b
  | number a, number b => a == b
  | object a, object b => a == b
  | function a, function b => a == b
  | error f, error g => f == g
  | _, _ => false

end Value

/-! ## Operators

What an operator makes of two values that have been computed already.
-/

/-- The value of an operator on two values. The arithmetic ones take numbers only, and for anything
else their value is an error that names both kinds. Subtraction adds the negated number. -/
def BinaryOp.apply : BinaryOp → Value → Value → Value
  | .looseEquals, a, b => a.looseEquals b
  | .strictEquals, a, b => .boolean (a.strictEquals b)
  | .add, .number x, .number y => .number (x + y)
  | .subtract, .number x, .number y => .number (x + -y)
  | .lessThan, .number x, .number y => .boolean (x < y)
  | op, a, b =>
    .typeError ("operands of '" ++ op.token ++ "' must be numbers, got " ++ a.typeName ++ " and "
      ++ b.typeName)

end Scriptlet
