import Scriptlet.Number.Style
import Scriptlet.Program.Basic
import Scriptlet.Text.Quoted
import Scriptlet.Text.Record

/-!
# Program listings

A program written out as a record of its parts, so that nothing about it is left to guess.

Each construct is a record under the name of its kind, with its parts as fields or arguments. The
listing is computed by recursion on the program and says nothing about layout; how a record is
spread over lines is decided in `Scriptlet.Text.Record`.
-/

namespace Scriptlet

/-- A string in a listing, in quotes and with escapes where they are needed. -/
def Record.string (s : String) : Record := .leaf (quotedString s)

/-- The name of an operator in a listing. -/
def BinaryOp.listing : BinaryOp → Record
  | .add => .leaf "Add"
  | .subtract => .leaf "Subtract"
  | .lessThan => .leaf "LessThan"
  | .looseEquals => .leaf "LooseEquals"
  | .strictEquals => .leaf "StrictEquals"

/-- A literal in a listing. -/
def Literal.listing : Literal → Record
  | .number x =>
    .args "NumberLiteral" [.leaf (String.ofList (NumberStyle.record.text x))]
  | .string s => .args "StringLiteral" [.string s]
  | .boolean b => .args "BooleanLiteral" [.leaf (if b then "true" else "false")]
  | .undefined => .leaf "UndefinedLiteral"
  | .null => .leaf "NullLiteral"

/-- A block in a listing, given its statements. -/
def Record.block (body : List Record) : Record :=
  .fields "BlockStatementData" [("body", .elements body)]

/-- A function in a listing, given the statements of its body. -/
def Record.function (params : List String) (body : List Record) : Record :=
  .fields "FunctionData"
    [("params", .elements (params.map Record.string)), ("body", .block body)]

/-- Two operands and what joins them in a listing. -/
def Record.operation (operator left right : Record) : Record :=
  .fields "BinaryExpression" [("operator", operator), ("left", left), ("right", right)]

mutual

/-- An expression in a listing. An assignment is shown like an operator with two operands. -/
def Expr.listing : Expr → Record
  | .literal value => .args "Literal" [value.listing]
  | .object properties =>
    .fields "ObjectExpression" [("properties", .elements (Expr.listProperties properties))]
  | .name n => .args "Identifier" [.string n]
  | .member base key =>
    .fields "MemberExpression" [("object", base.listing), ("property", key.listing)]
  | .function n params body =>
    .fields "FunctionExpression"
      [("name", .optional (n.map Record.string)),
       ("function", .function params (Stmt.listAll body))]
  | .call callee args =>
    .fields "CallExpression"
      [("callee", callee.listing), ("arguments", .elements (Expr.listAll args))]
  | .binary op left right => .operation op.listing left.listing right.listing
  | .assign target value => .operation (.leaf "Assign") target.listing value.listing

/-- Expressions in a listing. -/
def Expr.listAll : List Expr → List Record
  | [] => []
  | e :: es => e.listing :: Expr.listAll es

/-- Properties in a listing. -/
def Expr.listProperties : List (String × Expr) → List Record
  | [] => []
  | (key, e) :: properties => .args "" [.string key, e.listing] :: Expr.listProperties properties

/-- A statement in a listing. A branch or a value that is missing is shown as missing. -/
def Stmt.listing : Stmt → Record
  | .function name params body =>
    .fields "FunctionDeclaration"
      [("name", .string name), ("function", .function params (Stmt.listAll body))]
  | .var name init =>
    .args "VariableDeclaration"
      [.fields "VariableDeclarationData" [("name", .string name), ("init", init.listing)]]
  | .cond test consequent none =>
    .fields "IfStatement"
      [("test", test.listing), ("consequent", consequent.listing), ("alternate", .optional none)]
  | .cond test consequent (some alternate) =>
    .fields "IfStatement"
      [("test", test.listing), ("consequent", consequent.listing),
       ("alternate", .optional (some alternate.listing))]
  | .ret none => .fields "ReturnStatement" [("argument", .optional none)]
  | .ret (some value) => .fields "ReturnStatement" [("argument", .optional (some value.listing))]
  | .block body => .args "BlockStatement" [.block (Stmt.listAll body)]
  | .expr e => .args "ExpressionStatement" [e.listing]

/-- Statements in a listing. -/
def Stmt.listAll : List Stmt → List Record
  | [] => []
  | s :: ss => s.listing :: Stmt.listAll ss

end

/-- The listing of a program: its statements under a name of their own. -/
def Program.listing (program : Program) : Record :=
  .fields "ProgramData" [("body", .elements (Stmt.listAll program))]

end Scriptlet
