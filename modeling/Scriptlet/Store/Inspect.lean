import Scriptlet.Store.Basic
import Scriptlet.Text.Quoted

/-!
# Values seen from outside

The text of a value for a reader who wants to tell it from every other kind: a string in quotes, a
number with its fraction, a function by its name. Objects are not looked into, since they may
contain themselves.
-/

namespace Scriptlet

/-- The inside of a value's inspection text: the kind of the value, with what there is to show of it
in parentheses. For the name of a function the store is needed. -/
def Store.inspectInside (s : Store) : Value → String
  | .undefined => "Undefined"
  | .null => "Null"
  | .boolean b => "Boolean(" ++ (if b then "true" else "false") ++ ")"
  | .string text => "String(" ++ quotedString text ++ ")"
  | .number x => "Number(" ++ String.ofList (NumberStyle.record.text x) ++ ")"
  | .object _ => "Object(...)"
  | .function id =>
    "Lambda(" ++ ((s.closures[id]?.bind Closure.name).getD "<anonymous>") ++ ")"
  | .error f => "Error(" ++ f.kind.name ++ "(" ++ quotedString f.message ++ "))"

/-- The inspection text of a value, which is what is shown of it to a host that asks. -/
def Store.inspect (s : Store) (v : Value) : String := "JsValue::" ++ s.inspectInside v

end Scriptlet
