import Scriptlet.Number.Literal
import Scriptlet.Number.Style
import Scriptlet.Program.Basic
import Scriptlet.Program.Error

/-!
# From parse trees to programs

A tree becomes a program if it stays within the language; the first construct that does not, in the
order in which the nodes are visited here, is the reason for the refusal. The levels of the grammar
that only pass an operand through leave no trace.

The functions are total on trees of any shape, whether or not the grammar can make them: a node with
too few children, or with one of a rule that does not belong there, is refused like one that the
language does not have. So nothing about the shape of trees has to be known to run them, and that
the grammar makes no such trees is left to be proved.

The order of visits matters for which of several reasons is reported. It is from left to right,
except that the alternative of an `if` is looked at before its test and its consequent.
-/

namespace Scriptlet

/-- What the text of an operator does to its two sides. Assignment is not a binary operator: its
left side is a target and has no value. -/
inductive Operator where
  | binary (op : BinaryOp)
  | assign

namespace Operator

/-- The operators of the language by their text. -/
def ofToken? (token : List Char) : Option Operator :=
  if token = ['+'] then some (.binary .add)
  else if token = ['-'] then some (.binary .subtract)
  else if token = ['<'] then some (.binary .lessThan)
  else if token = ['='] then some .assign
  else if token = ['=', '='] then some (.binary .looseEquals)
  else if token = ['=', '=', '='] then some (.binary .strictEquals)
  else none

/-- The operator of a node, by the text of the node. The grammar has more operators than the
language. -/
def ofTree (t : Tree) : Except ProgramError Operator :=
  match ofToken? t.text with
  | some op => .ok op
  | none => .error (.unknownOperator t.string)

/-- The expression an operator makes of its two sides. -/
def apply : Operator → Expr → Expr → Expr
  | .binary op, left, right => .binary op left right
  | .assign, target, value => .assign target value

end Operator

/-- Whether an expression can be assigned to: a name, or a property of something. -/
def Expr.isTarget : Expr → Bool
  | .name _ => true
  | .member _ _ => true
  | _ => false

/-- The string a string literal denotes. Its characters are its only child. -/
def stringValue (t : Tree) : Except ProgramError String :=
  match unescape ((t.children.head?.map Tree.text).getD []) with
  | some chars => .ok (String.ofList chars)
  | none => .error t.invalidLiteral

/-- The number a number literal denotes. -/
def numericValue (t : Tree) : Except ProgramError Float :=
  match numericLiteral? t.text with
  | some x => .ok x
  | none => .error t.invalidLiteral

/-- The key a property of an object literal is stored under. -/
def propertyKey (t : Tree) : Except ProgramError String :=
  match t.rule with
  | .identifierName => .ok t.string
  | .stringLiteral => stringValue t
  | .numericLiteral => (numericValue t).map numberText
  | _ => .error t.unsupported

/-- The names of parameters. Only plain names are parameters; the grammar also has patterns, default
values and a rest parameter. -/
def parameterNames (t : Tree) : Except ProgramError (List String) :=
  if t.rule = .formalParameters then
    t.children.mapM fun p => if p.rule = .identifier then .ok p.string else .error p.unsupported
  else .error t.unsupported

/-- The expression a name denotes. The name `undefined` always denotes the value. -/
def Expr.ofName (name : String) : Expr :=
  if name = "undefined" then .literal .undefined else .name name

/-- A statement that leaves nothing is an empty block where one must stand, as in a branch. -/
def Stmt.orEmpty (stmt : Option Stmt) : Stmt := stmt.getD (.block [])

mutual

/-- The expression of a tree, or the reason why there is none. A chain with a single operand is that
operand, and so a tree of twenty levels may become a name. -/
def Expr.ofTree : Tree → Except ProgramError Expr
  | ⟨rule, start, text, children⟩ =>
    let self : Tree := ⟨rule, start, text, children⟩
    match rule with
    | .expression | .conditionalExpression | .unaryExpression | .postfixExpression =>
      match children with
      | [only] => Expr.ofTree only
      | _ => .error self.unsupported
    | .assignmentExpression =>
      match children with
      | [] => .error self.unsupported
      | [only] => Expr.ofTree only
      | [left, operator] => do
        let _ ← Expr.ofTree left
        let _ ← Operator.ofTree operator
        throw self.unsupported
      | left :: operator :: right :: _ => do
        let target ← Expr.ofTree left
        let op ← Operator.ofTree operator
        if !target.isTarget then throw self.unsupported
        let value ← Expr.ofTree right
        return op.apply target value
    | .logicalOrExpression | .logicalAndExpression | .equalityExpression
    | .relationalExpression | .additiveExpression | .multiplicativeExpression =>
      match children with
      | [] => .error self.unsupported
      | first :: steps => do Expr.ofChain self (← Expr.ofTree first) steps
    | .leftHandSideExpression =>
      match children with
      | [] => .error self.unsupported
      | first :: suffixes => do Expr.ofSuffixes (← Expr.ofTree first) suffixes
    | .parenthesizedExpression =>
      match children with
      | [] => .error self.unsupported
      | inner :: _ => Expr.ofTree inner
    | .functionExpression =>
      match children with
      | [name, params, body] => do
        let (params, body) ← Stmt.ofFunction params body
        return .function (some name.string) params body
      | [params, body] => do
        let (params, body) ← Stmt.ofFunction params body
        return .function none params body
      | _ => .error self.unsupported
    | .objectLiteral => return .object (← Expr.ofProperties children)
    | .identifier => return Expr.ofName self.string
    | .numericLiteral => return .literal (.number (← numericValue self))
    | .stringLiteral => return .literal (.string (← stringValue self))
    | .booleanLiteral => return .literal (.boolean (text = ['t', 'r', 'u', 'e']))
    | .nullLiteral => return .literal .null
    | _ => .error self.unsupported

/-- The expressions of several trees, in order. -/
def Expr.ofTrees : List Tree → Except ProgramError (List Expr)
  | [] => return []
  | t :: ts => do
    let e ← Expr.ofTree t
    let es ← Expr.ofTrees ts
    return e :: es

/-- A chain of operators of one level, folded to the left: the expression so far is the left operand
of the next operator. -/
def Expr.ofChain (self : Tree) (left : Expr) : List Tree → Except ProgramError Expr
  | [] => return left
  | [operator] => do
    let _ ← Operator.ofTree operator
    throw self.unsupported
  | operator :: operand :: steps => do
    let op ← Operator.ofTree operator
    let right ← Expr.ofTree operand
    Expr.ofChain self (op.apply left right) steps

/-- Calls and property accesses applied one after the other, each to the expression so far. -/
def Expr.ofSuffixes (base : Expr) : List Tree → Except ProgramError Expr
  | [] => return base
  | ⟨rule, start, text, children⟩ :: suffixes => do
    let self : Tree := ⟨rule, start, text, children⟩
    match rule with
    | .arguments => Expr.ofSuffixes (.call base (← Expr.ofTrees children)) suffixes
    | .propertyAccess =>
      match children with
      | [] => throw self.unsupported
      | name :: _ => Expr.ofSuffixes (.member base (.literal (.string name.string))) suffixes
    | .elementAccess =>
      match children with
      | [] => throw self.unsupported
      | key :: _ => Expr.ofSuffixes (.member base (← Expr.ofTree key)) suffixes
    | _ => throw self.unsupported

/-- The properties of an object literal, in order. -/
def Expr.ofProperties : List Tree → Except ProgramError (List (String × Expr))
  | [] => return []
  | ⟨rule, start, text, children⟩ :: properties => do
    let self : Tree := ⟨rule, start, text, children⟩
    if rule ≠ .propertyAssignment then throw self.unsupported
    match children with
    | [] => throw self.unsupported
    | [_] => throw self.unsupported
    | name :: init :: _ =>
      let key ← propertyKey name
      let value ← Expr.ofTree init
      return (key, value) :: (← Expr.ofProperties properties)

/-- The parameters and the body of a function. Inside the body a `return` is allowed. -/
def Stmt.ofFunction (params : Tree) :
    Tree → Except ProgramError (List String × List Stmt)
  | ⟨rule, start, text, children⟩ => do
    let self : Tree := ⟨rule, start, text, children⟩
    if rule ≠ .block then throw self.unsupported
    let names ← parameterNames params
    let body ← Stmt.ofTrees true children
    return (names, body)

/-- The statement of a tree, if it leaves one. Only an empty statement leaves none. Whether a
function is around the statement decides whether it may be a `return`. -/
def Stmt.ofTree (inFunction : Bool) : Tree → Except ProgramError (Option Stmt)
  | ⟨rule, start, text, children⟩ =>
    let self : Tree := ⟨rule, start, text, children⟩
    match rule with
    | .functionDeclaration =>
      match children with
      | [name, params, body] => do
        if name.rule ≠ .identifier then throw self.unsupported
        let (params, body) ← Stmt.ofFunction params body
        return some (.function name.string params body)
      | _ => .error self.unsupported
    | .block => do
      let body ← Stmt.ofTrees inFunction children
      return some (.block body)
    | .ifStatement =>
      match children with
      | [test, consequent] => do
        let test ← Expr.ofTree test
        let consequent ← Stmt.ofTree inFunction consequent
        return some (.cond test (Stmt.orEmpty consequent) none)
      | [test, consequent, alternate] => do
        let alternate ← Stmt.ofTree inFunction alternate
        let test ← Expr.ofTree test
        let consequent ← Stmt.ofTree inFunction consequent
        return some (.cond test (Stmt.orEmpty consequent) (some (Stmt.orEmpty alternate)))
      | _ => .error self.unsupported
    | .returnStatement =>
      if inFunction then
        match children with
        | [] => return some (.ret none)
        | value :: _ => do
          let value ← Expr.ofTree value
          return some (.ret (some value))
      else .error (.returnOutsideFunction self.string)
    | .variableStatement => do
      let declarations ← Stmt.ofDeclarations children
      return some (.block declarations)
    | .expressionStatement =>
      match children with
      | [] => .error self.unsupported
      | e :: _ => do
        let e ← Expr.ofTree e
        return some (.expr e)
    | .emptyStatement => return none
    | _ => .error self.unsupported

/-- The statements of several trees, in order, without those that leave none. -/
def Stmt.ofTrees (inFunction : Bool) : List Tree → Except ProgramError (List Stmt)
  | [] => return []
  | t :: ts => do
    if t.rule = .endOfInput then Stmt.ofTrees inFunction ts
    else
      let stmt ← Stmt.ofTree inFunction t
      let stmts ← Stmt.ofTrees inFunction ts
      return stmt.toList ++ stmts

/-- The declarations of a variable statement. All kinds of variables are alike, so the word in front
is passed over. -/
def Stmt.ofDeclarations : List Tree → Except ProgramError (List Stmt)
  | [] => return []
  | ⟨rule, start, text, children⟩ :: parts => do
    match rule with
    | .varKind => Stmt.ofDeclarations parts
    | .variableDeclarationList =>
      let first ← Stmt.ofDeclarators children
      let rest ← Stmt.ofDeclarations parts
      return first ++ rest
    | _ => throw (Tree.mk rule start text children).unsupported

/-- One declaration for each declarator; without an initial value the variable
is undefined. -/
def Stmt.ofDeclarators : List Tree → Except ProgramError (List Stmt)
  | [] => return []
  | ⟨rule, start, text, children⟩ :: declarators => do
    match children with
    | [] => throw (Tree.mk rule start text children).unsupported
    | [target] =>
      if target.rule ≠ .identifier then throw target.unsupported
      return .var target.string (.literal .undefined) :: (← Stmt.ofDeclarators declarators)
    | target :: init :: _ =>
      if target.rule ≠ .identifier then throw target.unsupported
      let value ← Expr.ofTree init
      return .var target.string value :: (← Stmt.ofDeclarators declarators)

end

/-- The program of the trees a script parses to: the script itself, and perhaps the end of the
input. -/
def Program.ofTrees (trees : List Tree) : Except ProgramError Program :=
  trees.foldlM
    (fun program t =>
      match t.rule with
      | .script => Stmt.ofTrees false t.children
      | .endOfInput => .ok program
      | _ => .error t.unsupported)
    []

/-- The program of a source text, or the reason why it is none: it does not parse, or one of its
nodes is beyond the language. -/
def Program.ofSource (source : String) : Except ProgramError Program :=
  match parseScript source with
  | .ok trees => Program.ofTrees trees
  | .error e => .error (.malformed e)

end Scriptlet
