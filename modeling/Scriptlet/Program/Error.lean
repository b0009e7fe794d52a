import Scriptlet.Grammar.SyntaxError

/-!
# Why a source is not a program

A text is refused because it does not parse, or because of one of its nodes. In the second case the
reason carries what the message needs: the text of the node exactly as it stands in the source,
trivia inside included, and its rule where the message names it.
-/

namespace Scriptlet

/-- The reasons for which a source is refused. -/
inductive ProgramError where
  /-- the grammar does not match -/
  | malformed (e : SyntaxError)
  /-- the grammar knows the construct, the language does not -/
  | unsupported (kind : Rule) (text : String)
  /-- the grammar knows the operator, the language does not -/
  | unknownOperator (token : String)
  /-- a `return` with no function around it -/
  | returnOutsideFunction (text : String)
  /-- a literal that denotes nothing -/
  | invalidLiteral (kind : Rule) (text : String)

namespace ProgramError

/-- The reason in words. -/
def message : ProgramError → String
  | .malformed e => e.message
  | .unsupported kind text => "Unknown node " ++ kind.name ++ ": " ++ text
  | .unknownOperator token => "Unknown binary operator token " ++ token
  | .returnOutsideFunction text =>
    "Illegal return statement outside of a function body: " ++ text
  | .invalidLiteral kind text => "Invalid " ++ kind.name ++ ": " ++ text

end ProgramError

/-- The refusal of a node that the language does not have. -/
def Tree.unsupported (t : Tree) : ProgramError := .unsupported t.rule t.string

/-- The refusal of a literal node that denotes nothing. -/
def Tree.invalidLiteral (t : Tree) : ProgramError := .invalidLiteral t.rule t.string

end Scriptlet
