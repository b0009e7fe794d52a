import Scriptlet.Grammar.Peg

/-!
# The grammar

`Rule.kind` says how a rule takes part in a match, `Rule.body` what it matches. The grammar is wider
than the language that runs: a program that uses more than the language has is still parsed, and
refused by the name of the rule at fault.

Expressions are layered by precedence. Each level is a chain of operands of the next level with
operators of its own between them, down to the postfix and primary expressions, and every level
makes a node even if it has one operand only. Assignment stands above all of them and nests to the
right. The
semicolon behind a statement is optional, and no line break is needed where it is missing: a
statement ends where nothing goes on with it. Only behind `return` the end of the line counts, and
there is a rule that looks for it.
-/

namespace Scriptlet

/-- How a rule takes part in a match. -/
inductive RuleKind where
  /-- makes a node; trivia is skipped inside as it is around the rule -/
  | plain
  /-- makes no node; otherwise as `plain` -/
  | silent
  /-- makes one node without children; no trivia is skipped inside -/
  | token
  /-- makes a node with children; no trivia is skipped inside -/
  | compound
  /-- makes no node; no trivia is skipped inside. These are the trivia themselves -/
  | trivia
deriving DecidableEq, Repr

open Peg

namespace Rule

/-- The kind of a rule. -/
def kind : Rule → RuleKind
  | .whitespace | .comment => .trivia
  | .statement | .bindingTarget | .formalParameter | .primaryExpression | .propertyDefinition
  | .propertyName | .literal | .hexIntegerLiteral | .decimalLiteral | .exponentPart | .identStart
  | .identChar | .inlineBlockComment | .functionKeyword | .ifKeyword | .elseKeyword
  | .whileKeyword | .forKeyword | .returnKeyword | .throwKeyword | .breakKeyword
  | .continueKeyword | .newKeyword => .silent
  | .varKind | .assignmentOperator | .logicalOrOperator | .logicalAndOperator | .equalityOperator
  | .relationalOperator | .additiveOperator | .multiplicativeOperator | .unaryOperator
  | .updateOperator | .thisExpression | .nullLiteral | .booleanLiteral | .numericLiteral
  | .doubleStringCharacters | .singleStringCharacters | .identifier | .identifierName
  | .reservedWord | .returnAtLineEnd | .functionWord | .ifWord | .elseWord | .whileWord
  | .forWord | .returnWord | .throwWord | .breakWord | .continueWord | .newWord => .token
  | .stringLiteral => .compound
  | _ => .plain

/-- A list of names between brackets, as destructuring writes it. -/
def namesBetween (opening closing : String) : Peg :=
  lit opening ++ optional (commaSeparated (rule .identifier)) ++ optional (lit ",") ++ lit closing

/-- A chain of operands of one precedence level: one operand, and then as many operators with
another operand as there are. -/
def chain (operand operator : Rule) : Peg :=
  rule operand ++ many (rule operator ++ rule operand)

/-- The characters of a string between quotes: anything but the quote, a
backslash and a line feed, or a backslash and the character after it. -/
def stringCharacters (quote : String) : Peg :=
  many ((notAhead (lit quote <|> lit "\\" <|> lit "\n") ++ one .any) <|> (lit "\\" ++ one .any))

/-- What a rule matches. -/
def body : Rule → Peg
  | .endOfInput => finish
  | .whitespace => lit " " <|> lit "\t" <|> lit "\r" <|> lit "\n" <|> lit "\ufeff"
  | .comment =>
    (lit "//" ++ many (notAhead (lit "\n") ++ one .any))
      <|> (lit "/*" ++ many (notAhead (lit "*/") ++ one .any) ++ lit "*/")
  | .script => start ++ many (rule .statement) ++ rule .endOfInput
  -- Statements
  | .statement =>
    rule .block <|> rule .variableStatement <|> rule .emptyStatement <|> rule .ifStatement
      <|> rule .whileStatement <|> rule .forStatement <|> rule .returnStatement
      <|> rule .throwStatement <|> rule .breakStatement <|> rule .continueStatement
      <|> rule .functionDeclaration <|> rule .expressionStatement
  | .block => lit "\x7b" ++ many (rule .statement) ++ lit "\x7d"
  | .emptyStatement => lit ";"
  | .variableStatement =>
    rule .varKind ++ rule .variableDeclarationList ++ optional (lit ";")
  | .varKind => (lit "var" <|> lit "let" <|> lit "const") ++ notAhead (rule .identChar)
  | .variableDeclarationList => commaSeparated (rule .variableDeclaration)
  | .variableDeclaration =>
    rule .bindingTarget ++ optional (lit "=" ++ rule .assignmentExpression)
  | .bindingTarget =>
    rule .objectBindingPattern <|> rule .arrayBindingPattern <|> rule .identifier
  | .objectBindingPattern => namesBetween "\x7b" "\x7d"
  | .arrayBindingPattern => namesBetween "[" "]"
  | .ifStatement =>
    rule .ifKeyword ++ lit "(" ++ rule .expression ++ lit ")" ++ rule .statement
      ++ optional (rule .elseKeyword ++ rule .statement)
  | .whileStatement =>
    rule .whileKeyword ++ lit "(" ++ rule .expression ++ lit ")" ++ rule .statement
  | .forStatement =>
    rule .forKeyword ++ lit "(" ++ optional (rule .forInit) ++ lit ";"
      ++ optional (rule .expression) ++ lit ";" ++ optional (rule .expression) ++ lit ")"
      ++ rule .statement
  | .forInit => (rule .varKind ++ rule .variableDeclarationList) <|> rule .expression
  | .returnStatement =>
    ((ahead (rule .returnAtLineEnd) ++ rule .returnKeyword)
        <|> (rule .returnKeyword ++ optional (rule .expression)))
      ++ optional (lit ";")
  | .throwStatement => rule .throwKeyword ++ rule .expression ++ optional (lit ";")
  | .breakStatement => rule .breakKeyword ++ optional (lit ";")
  | .continueStatement => rule .continueKeyword ++ optional (lit ";")
  | .functionDeclaration =>
    rule .functionKeyword ++ rule .identifier ++ rule .formalParameters ++ rule .block
  | .formalParameters => lit "(" ++ optional (commaSeparated (rule .formalParameter)) ++ lit ")"
  | .formalParameter =>
    rule .restParameter <|> rule .defaultParameter <|> rule .objectBindingPattern
      <|> rule .arrayBindingPattern <|> rule .identifier
  | .restParameter => lit "..." ++ rule .identifier
  | .defaultParameter => rule .identifier ++ lit "=" ++ rule .assignmentExpression
  | .expressionStatement =>
    notAhead (lit "\x7b" <|> rule .functionWord) ++ rule .expression ++ optional (lit ";")
  -- Expressions, lowest precedence first
  | .expression => commaSeparated (rule .assignmentExpression)
  | .assignmentExpression =>
    rule .conditionalExpression
      ++ optional (rule .assignmentOperator ++ rule .assignmentExpression)
  | .conditionalExpression =>
    rule .logicalOrExpression
      ++ optional (lit "?" ++ rule .assignmentExpression ++ lit ":" ++ rule .assignmentExpression)
  | .logicalOrExpression => chain .logicalAndExpression .logicalOrOperator
  | .logicalAndExpression => chain .equalityExpression .logicalAndOperator
  | .equalityExpression => chain .relationalExpression .equalityOperator
  | .relationalExpression => chain .additiveExpression .relationalOperator
  | .additiveExpression => chain .multiplicativeExpression .additiveOperator
  | .multiplicativeExpression => chain .unaryExpression .multiplicativeOperator
  | .unaryExpression =>
    (rule .unaryOperator ++ rule .unaryExpression) <|> rule .postfixExpression
  | .postfixExpression => rule .leftHandSideExpression ++ optional (rule .updateOperator)
  | .leftHandSideExpression =>
    rule .primaryExpression
      ++ many (rule .arguments <|> rule .propertyAccess <|> rule .elementAccess)
  | .assignmentOperator =>
    (lit "=" ++ notAhead (lit "=")) <|> lit "+=" <|> lit "-=" <|> lit "*=" <|> lit "/="
      <|> lit "%=" <|> lit "<<=" <|> lit ">>>=" <|> lit ">>=" <|> lit "&=" <|> lit "|="
      <|> lit "^="
  | .logicalOrOperator => lit "||"
  | .logicalAndOperator => lit "&&"
  | .equalityOperator => lit "===" <|> lit "!==" <|> lit "==" <|> lit "!="
  | .relationalOperator =>
    lit "<=" <|> lit ">=" <|> (lit "<" ++ notAhead (lit "<")) <|> (lit ">" ++ notAhead (lit ">"))
  | .additiveOperator =>
    (lit "+" ++ notAhead (lit "+" <|> lit "=")) <|> (lit "-" ++ notAhead (lit "-" <|> lit "="))
  | .multiplicativeOperator => (lit "*" <|> lit "/" <|> lit "%") ++ notAhead (lit "=")
  | .unaryOperator =>
    wholeWord "typeof" <|> (lit "!" ++ notAhead (lit "=")) <|> lit "~"
      <|> (lit "+" ++ notAhead (lit "+")) <|> (lit "-" ++ notAhead (lit "-"))
  | .updateOperator => lit "++" <|> lit "--"
  | .arguments => lit "(" ++ optional (commaSeparated (rule .assignmentExpression)) ++ lit ")"
  | .propertyAccess => lit "." ++ rule .identifierName
  | .elementAccess => lit "[" ++ rule .expression ++ lit "]"
  | .primaryExpression =>
    rule .functionExpression <|> rule .thisExpression <|> rule .newExpression
      <|> rule .objectLiteral <|> rule .arrayLiteral <|> rule .parenthesizedExpression
      <|> rule .literal <|> rule .identifier
  | .functionExpression =>
    rule .functionKeyword ++ optional (rule .identifier) ++ rule .formalParameters ++ rule .block
  | .thisExpression => wholeWord "this"
  | .newExpression => rule .newKeyword ++ rule .leftHandSideExpression
  | .parenthesizedExpression => lit "(" ++ rule .expression ++ lit ")"
  | .objectLiteral =>
    lit "\x7b" ++ optional (commaSeparated (rule .propertyDefinition) ++ optional (lit ","))
      ++ lit "\x7d"
  | .propertyDefinition => rule .propertyAssignment <|> rule .shorthandProperty
  | .propertyAssignment => rule .propertyName ++ lit ":" ++ rule .assignmentExpression
  | .shorthandProperty => rule .identifier
  | .propertyName => rule .stringLiteral <|> rule .numericLiteral <|> rule .identifierName
  | .arrayLiteral =>
    lit "[" ++ optional (rule .assignmentExpression)
      ++ many (lit "," ++ optional (rule .assignmentExpression)) ++ lit "]"
  -- Literals and names
  | .literal =>
    rule .nullLiteral <|> rule .booleanLiteral <|> rule .numericLiteral <|> rule .stringLiteral
  | .nullLiteral => wholeWord "null"
  | .booleanLiteral => (lit "true" <|> lit "false") ++ notAhead (rule .identChar)
  | .numericLiteral =>
    (rule .hexIntegerLiteral <|> rule .decimalLiteral) ++ notAhead (rule .identChar)
  | .hexIntegerLiteral => lit "0" ++ (lit "x" <|> lit "X") ++ many1 (one .hexDigit)
  | .decimalLiteral =>
    ((many1 (one .digit) ++ optional (lit "." ++ many (one .digit)))
        <|> (lit "." ++ many1 (one .digit)))
      ++ optional (rule .exponentPart)
  | .exponentPart =>
    (lit "e" <|> lit "E") ++ optional (lit "+" <|> lit "-") ++ many1 (one .digit)
  | .stringLiteral =>
    (lit "\"" ++ rule .doubleStringCharacters ++ lit "\"")
      <|> (lit "'" ++ rule .singleStringCharacters ++ lit "'")
  | .doubleStringCharacters => stringCharacters "\""
  | .singleStringCharacters => stringCharacters "'"
  | .identifier => notAhead (rule .reservedWord) ++ rule .identifierName
  | .identifierName => rule .identStart ++ many (rule .identChar)
  | .identStart => one .letter <|> lit "_" <|> lit "$"
  | .identChar => one .letterOrDigit <|> lit "_" <|> lit "$"
  | .reservedWord =>
    (lit "break" <|> lit "const" <|> lit "continue" <|> lit "do" <|> lit "else" <|> lit "false"
        <|> lit "for" <|> lit "function" <|> lit "if" <|> lit "let" <|> lit "new" <|> lit "null"
        <|> lit "return" <|> lit "this" <|> lit "throw" <|> lit "true" <|> lit "typeof"
        <|> lit "var" <|> lit "while")
      ++ notAhead (rule .identChar)
  -- A line break right after `return` ends the statement
  | .returnAtLineEnd =>
    wholeWord "return"
      ++ many (lit " " <|> lit "\t" <|> lit "\ufeff" <|> rule .inlineBlockComment)
      ++ (lit "\n" <|> lit "\r" <|> lit "//" <|> lit "/*" <|> rule .endOfInput)
  | .inlineBlockComment =>
    lit "/*" ++ many (notAhead (lit "*/" <|> lit "\n" <|> lit "\r") ++ one .any) ++ lit "*/"
  -- Keywords; their word boundaries are only ever looked ahead for
  | .functionWord => wholeWord "function"
  | .ifWord => wholeWord "if"
  | .elseWord => wholeWord "else"
  | .whileWord => wholeWord "while"
  | .forWord => wholeWord "for"
  | .returnWord => wholeWord "return"
  | .throwWord => wholeWord "throw"
  | .breakWord => wholeWord "break"
  | .continueWord => wholeWord "continue"
  | .newWord => wholeWord "new"
  | .functionKeyword => keyword .functionWord "function"
  | .ifKeyword => keyword .ifWord "if"
  | .elseKeyword => keyword .elseWord "else"
  | .whileKeyword => keyword .whileWord "while"
  | .forKeyword => keyword .forWord "for"
  | .returnKeyword => keyword .returnWord "return"
  | .throwKeyword => keyword .throwWord "throw"
  | .breakKeyword => keyword .breakWord "break"
  | .continueKeyword => keyword .continueWord "continue"
  | .newKeyword => keyword .newWord "new"

end Rule

end Scriptlet
