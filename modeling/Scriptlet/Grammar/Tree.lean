import Scriptlet.Grammar.Rule
import Scriptlet.Text.Quoted

/-!
# Parse trees

A node is a rule, the text it matched and the nodes found inside. Positions are byte offsets in the
UTF-8 form of the source; only where a node starts is stored, since its text says how far it goes.

The outline of a tree is a line for each node, in preorder and indented by depth. It shows the span,
the rule and the text of each node, the text in quotes so that it stays on its line.
-/

namespace Scriptlet

/-- The number of bytes a text takes in UTF-8. -/
def utf8Length (text : List Char) : Nat :=
  text.foldr (fun c n => c.utf8Size + n) 0

/-- A parse tree. Its children are the nodes that were made inside the match, at whatever depth the
rules that make no nodes were nested. -/
structure Tree where
  /-- the rule that matched -/
  rule : Rule
  /-- the byte offset of the match -/
  start : Nat
  /-- the characters of the match, trivia between its parts included -/
  text : List Char
  /-- the nodes made inside the match, in source order -/
  children : List Tree

namespace Tree

/-- The byte offset just behind a node. -/
def stop (t : Tree) : Nat := t.start + utf8Length t.text

/-- The text of a node as a string. -/
def string (t : Tree) : String := String.ofList t.text

mutual

/-- A node and everything below it in preorder, each with its depth. -/
def preorder (depth : Nat) : Tree → List (Nat × Tree)
  | ⟨rule, start, text, children⟩ =>
    (depth, ⟨rule, start, text, children⟩) :: preorderAll (depth + 1) children

/-- `preorder` for several trees side by side. -/
def preorderAll (depth : Nat) : List Tree → List (Nat × Tree)
  | [] => []
  | t :: ts => preorder depth t ++ preorderAll depth ts

end

/-- The line of a node in an outline: its rule, its span and its text in quotes,
indented by its depth. -/
def outlineLine (depth : Nat) (t : Tree) : List Char :=
  List.replicate (2 * depth) ' ' ++ t.rule.name.toList ++ " => (".toList
    ++ Nat.toDigits 10 t.start ++ ',' :: Nat.toDigits 10 t.stop ++ ") #".toList ++ quoted t.text

/-- The outline of a tree, one line for each node. -/
def outline (t : Tree) : List (List Char) :=
  (t.preorder 0).map fun entry => entry.2.outlineLine entry.1

end Tree

/-- The outlines of several trees, one below the other, without a line break at the end. -/
def outlineText (trees : List Tree) : String :=
  String.ofList (['\n'].intercalate (trees.flatMap Tree.outline))

end Scriptlet
