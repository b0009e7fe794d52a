/-!
# The rules of the grammar

One constructor for each rule, and the name under which a rule appears in parse trees and messages.
The order of the constructors is the order in which messages list rules.

Rules that only look whether a keyword ends where it should, or which only give a name to a part of
another rule, are rules too; most of these make no nodes, and which ones do is said by `Rule.kind`.
-/

namespace Scriptlet

/-- The rules of the grammar, the end of input first. -/
inductive Rule where
  | endOfInput | whitespace | comment | script | statement | block | emptyStatement
  | variableStatement | varKind | variableDeclarationList | variableDeclaration | bindingTarget
  | objectBindingPattern | arrayBindingPattern | ifStatement | whileStatement | forStatement
  | forInit | returnStatement | throwStatement | breakStatement | continueStatement
  | functionDeclaration | formalParameters | formalParameter | restParameter | defaultParameter
  | expressionStatement | expression | assignmentExpression | conditionalExpression
  | logicalOrExpression | logicalAndExpression | equalityExpression | relationalExpression
  | additiveExpression | multiplicativeExpression | unaryExpression | postfixExpression
  | leftHandSideExpression | assignmentOperator | logicalOrOperator | logicalAndOperator
  | equalityOperator | relationalOperator | additiveOperator | multiplicativeOperator
  | unaryOperator | updateOperator | arguments | propertyAccess | elementAccess
  | primaryExpression | functionExpression | thisExpression | newExpression
  | parenthesizedExpression | objectLiteral | propertyDefinition | propertyAssignment
  | shorthandProperty | propertyName | arrayLiteral | literal | nullLiteral | booleanLiteral
  | numericLiteral | hexIntegerLiteral | decimalLiteral | exponentPart | stringLiteral
  | doubleStringCharacters | singleStringCharacters | identifier | identifierName | identStart
  | identChar | reservedWord | returnAtLineEnd | inlineBlockComment | functionWord | ifWord
  | elseWord | whileWord | forWord | returnWord | throwWord | breakWord | continueWord
  | newWord | functionKeyword | ifKeyword | elseKeyword | whileKeyword | forKeyword
  | returnKeyword | throwKeyword | breakKeyword | continueKeyword | newKeyword
deriving DecidableEq, Repr

namespace Rule

/-- Every rule, in order. Facts about all rules that can be decided are checked along this list. -/
def all : List Rule :=
  [.endOfInput, .whitespace, .comment, .script, .statement, .block, .emptyStatement,
   .variableStatement, .varKind, .variableDeclarationList, .variableDeclaration, .bindingTarget,
   .objectBindingPattern, .arrayBindingPattern, .ifStatement, .whileStatement, .forStatement,
   .forInit, .returnStatement, .throwStatement, .breakStatement, .continueStatement,
   .functionDeclaration, .formalParameters, .formalParameter, .restParameter, .defaultParameter,
   .expressionStatement, .expression, .assignmentExpression, .conditionalExpression,
   .logicalOrExpression, .logicalAndExpression, .equalityExpression, .relationalExpression,
   .additiveExpression, .multiplicativeExpression, .unaryExpression, .postfixExpression,
   .leftHandSideExpression, .assignmentOperator, .logicalOrOperator, .logicalAndOperator,
   .equalityOperator, .relationalOperator, .additiveOperator, .multiplicativeOperator,
   .unaryOperator, .updateOperator, .arguments, .propertyAccess, .elementAccess,
   .primaryExpression, .functionExpression, .thisExpression, .newExpression,
   .parenthesizedExpression, .objectLiteral, .propertyDefinition, .propertyAssignment,
   .shorthandProperty, .propertyName, .arrayLiteral, .literal, .nullLiteral, .booleanLiteral,
   .numericLiteral, .hexIntegerLiteral, .decimalLiteral, .exponentPart, .stringLiteral,
   .doubleStringCharacters, .singleStringCharacters, .identifier, .identifierName, .identStart,
   .identChar, .reservedWord, .returnAtLineEnd, .inlineBlockComment, .functionWord, .ifWord,
   .elseWord, .whileWord, .forWord, .returnWord, .throwWord, .breakWord, .continueWord, .newWord,
   .functionKeyword, .ifKeyword, .elseKeyword, .whileKeyword, .forKeyword, .returnKeyword,
   .throwKeyword, .breakKeyword, .continueKeyword, .newKeyword]

/-- The name of a rule, which outlines, listings and messages show. -/
def name : Rule → String
  | .endOfInput => "EOI"
  | .whitespace => "WHITESPACE"
  | .comment => "COMMENT"
  | .script => "script"
  | .statement => "statement"
  | .block => "block"
  | .emptyStatement => "empty_statement"
  | .variableStatement => "variable_statement"
  | .varKind => "var_kind"
  | .variableDeclarationList => "variable_declaration_list"
  | .variableDeclaration => "variable_declaration"
  | .bindingTarget => "binding_target"
  | .objectBindingPattern => "object_binding_pattern"
  | .arrayBindingPattern => "array_binding_pattern"
  | .ifStatement => "if_statement"
  | .whileStatement => "while_statement"
  | .forStatement => "for_statement"
  | .forInit => "for_init"
  | .returnStatement => "return_statement"
  | .throwStatement => "throw_statement"
  | .breakStatement => "break_statement"
  | .continueStatement => "continue_statement"
  | .functionDeclaration => "function_declaration"
  | .formalParameters => "formal_parameters"
  | .formalParameter => "formal_parameter"
  | .restParameter => "rest_parameter"
  | .defaultParameter => "default_parameter"
  | .expressionStatement => "expression_statement"
  | .expression => "expression"
  | .assignmentExpression => "assignment_expression"
  | .conditionalExpression => "conditional_expression"
  | .logicalOrExpression => "logical_or_expression"
  | .logicalAndExpression => "logical_and_expression"
  | .equalityExpression => "equality_expression"
  | .relationalExpression => "relational_expression"
  | .additiveExpression => "additive_expression"
  | .multiplicativeExpression => "multiplicative_expression"
  | .unaryExpression => "unary_expression"
  | .postfixExpression => "postfix_expression"
  | .leftHandSideExpression => "left_hand_side_expression"
  | .assignmentOperator => "assignment_operator"
  | .logicalOrOperator => "logical_or_operator"
  | .logicalAndOperator => "logical_and_operator"
  | .equalityOperator => "equality_operator"
  | .relationalOperator => "relational_operator"
  | .additiveOperator => "additive_operator"
  | .multiplicativeOperator => "multiplicative_operator"
  | .unaryOperator => "unary_operator"
  | .updateOperator => "update_operator"
  | .arguments => "arguments"
  | .propertyAccess => "property_access"
  | .elementAccess => "element_access"
  | .primaryExpression => "primary_expression"
  | .functionExpression => "function_expression"
  | .thisExpression => "this_expression"
  | .newExpression => "new_expression"
  | .parenthesizedExpression => "parenthesized_expression"
  | .objectLiteral => "object_literal"
  | .propertyDefinition => "property_definition"
  | .propertyAssignment => "property_assignment"
  | .shorthandProperty => "shorthand_property"
  | .propertyName => "property_name"
  | .arrayLiteral => "array_literal"
  | .literal => "literal"
  | .nullLiteral => "null_literal"
  | .booleanLiteral => "boolean_literal"
  | .numericLiteral => "numeric_literal"
  | .hexIntegerLiteral => "hex_integer_literal"
  | .decimalLiteral => "decimal_literal"
  | .exponentPart => "exponent_part"
  | .stringLiteral => "string_literal"
  | .doubleStringCharacters => "double_string_characters"
  | .singleStringCharacters => "single_string_characters"
  | .identifier => "identifier"
  | .identifierName => "identifier_name"
  | .identStart => "ident_start"
  | .identChar => "ident_char"
  | .reservedWord => "reserved_word"
  | .returnAtLineEnd => "return_at_line_end"
  | .inlineBlockComment => "inline_block_comment"
  | .functionWord => "kw_function"
  | .ifWord => "kw_if"
  | .elseWord => "kw_else"
  | .whileWord => "kw_while"
  | .forWord => "kw_for"
  | .returnWord => "kw_return"
  | .throwWord => "kw_throw"
  | .breakWord => "kw_break"
  | .continueWord => "kw_continue"
  | .newWord => "kw_new"
  | .functionKeyword => "FUNCTION"
  | .ifKeyword => "IF"
  | .elseKeyword => "ELSE"
  | .whileKeyword => "WHILE"
  | .forKeyword => "FOR"
  | .returnKeyword => "RETURN"
  | .throwKeyword => "THROW"
  | .breakKeyword => "BREAK"
  | .continueKeyword => "CONTINUE"
  | .newKeyword => "NEW"

/-- The rule of a given name, for those who ask for a single rule to be matched. -/
def ofName? (s : String) : Option Rule :=
  all.find? fun r => r.name = s

/-- The list of rules is complete, and so what is checked of every rule in it is true of all
rules. -/
theorem mem_all (r : Rule) : r ∈ all := by
  have h : all.contains r = true := by cases r <;> rfl
  simpa using h

end Rule

end Scriptlet
