/-!
# Programs

What a script means once its text is out of the way: expressions, statements and programs. Every
text that parses and stays within the language becomes one of these, and the evaluator runs nothing
else.

Less is left than the text had. Parentheses, empty statements and the levels of precedence are gone;
`a.b` and `a["b"]` are the same; all ways of declaring a variable are alike, and a declaration
without a value has the value `undefined`. Not every program comes from a text: an assignment to a
literal can be built by hand, for example, and the evaluator has an answer for it.
-/

namespace Scriptlet

/-- Values that are written down directly. That `undefined` is one of them and not a name is decided
when a text becomes a program. -/
inductive Literal where
  | number (x : Float)
  | string (s : String)
  | boolean (b : Bool)
  | undefined
  | null
deriving DecidableEq

/-- The operators that combine the values of two operands. Both operands are always evaluated. -/
inductive BinaryOp where
  | add | subtract | lessThan | looseEquals | strictEquals
deriving DecidableEq, Repr

/-- How an operator is written, in a script and in messages about its operands. -/
def BinaryOp.token : BinaryOp → String
  | .add => "+"
  | .subtract => "-"
  | .lessThan => "<"
  | .looseEquals => "=="
  | .strictEquals => "==="

mutual

/-- Expressions. Functions have statements in their bodies, so expressions and statements are
defined together. -/
inductive Expr where
  /-- a value written down -/
  | literal (value : Literal)
  /-- an object with the given properties, a later one of the same key winning -/
  | object (properties : List (String × Expr))
  /-- the value bound to a name -/
  | name (name : String)
  /-- a property, its key computed: `base.key` is `base["key"]` -/
  | member (base key : Expr)
  /-- a function closed over the scope it is evaluated in -/
  | function (name : Option String) (params : List String) (body : List Stmt)
  /-- a call -/
  | call (callee : Expr) (args : List Expr)
  /-- two operands combined -/
  | binary (op : BinaryOp) (left right : Expr)
  /-- a value stored in a name or a property; no other target can be written -/
  | assign (target value : Expr)

/-- Statements. A branch is a single statement, which may be a block. -/
inductive Stmt where
  /-- binds a name to a function -/
  | function (name : String) (params : List String) (body : List Stmt)
  /-- binds a name to a value -/
  | var (name : String) (init : Expr)
  /-- runs one branch or the other -/
  | cond (test : Expr) (consequent : Stmt) (alternate : Option Stmt)
  /-- ends the function that is running -/
  | ret (value : Option Expr)
  /-- several statements in the place of one; a block opens no scope -/
  | block (body : List Stmt)
  /-- an expression evaluated in the place of a statement -/
  | expr (e : Expr)

end

/-- A program: its statements in order. -/
abbrev Program := List Stmt

end Scriptlet
