/-!
# Records

Structured data written out with its names: fields in braces, arguments in parentheses, elements in
brackets. `Record.compact` writes one line; `Record.spread` gives every part a line of its own,
indented by its depth.

A record says what the parts of something are and under which names, and leaves it to these two how
that is laid out. In the spread form every part ends in a comma, the last one included, and only a
list without elements stays on one line.
-/

namespace Scriptlet

/-- Data with the names it is written out under. The text of a leaf is taken as it is and must be
quoted already, if it is to be. -/
inductive Record where
  /-- text that stands for itself -/
  | leaf (text : String)
  /-- a name and named fields -/
  | fields (name : String) (parts : List (String × Record))
  /-- a name, perhaps empty, and arguments -/
  | args (name : String) (parts : List Record)
  /-- a list -/
  | elements (parts : List Record)

namespace Record

mutual

/-- The record on one line. -/
def compact : Record → String
  | .leaf text => text
  | .fields name parts => name ++ " \x7b " ++ ", ".intercalate (compactFields parts) ++ " \x7d"
  | .args name parts => name ++ "(" ++ ", ".intercalate (compactParts parts) ++ ")"
  | .elements parts => "[" ++ ", ".intercalate (compactParts parts) ++ "]"

/-- `compact` for the parts of a record. -/
def compactParts : List Record → List String
  | [] => []
  | r :: rs => compact r :: compactParts rs

/-- `compact` for named parts. -/
def compactFields : List (String × Record) → List String
  | [] => []
  | (name, r) :: rs => (name ++ ": " ++ compact r) :: compactFields rs

end

/-- The start of a line at a depth. -/
def margin (depth : Nat) : String := String.ofList (List.replicate (4 * depth) ' ')

mutual

/-- The record with every part on a line of its own, the lines after the first indented to `depth`.
A list without elements stays on its line. The first line is not indented, since it may stand behind
the name of a field. -/
def spread (depth : Nat) : Record → String
  | .leaf text => text
  | .fields name parts =>
    name ++ " \x7b\n" ++ spreadFields (depth + 1) parts ++ margin depth ++ "\x7d"
  | .args name parts => name ++ "(\n" ++ spreadParts (depth + 1) parts ++ margin depth ++ ")"
  | .elements [] => "[]"
  | .elements (r :: rs) =>
    "[\n" ++ margin (depth + 1) ++ spread (depth + 1) r ++ ",\n" ++ spreadParts (depth + 1) rs
      ++ margin depth ++ "]"

/-- `spread` for the parts of a record. -/
def spreadParts (depth : Nat) : List Record → String
  | [] => ""
  | r :: rs => margin depth ++ spread depth r ++ ",\n" ++ spreadParts depth rs

/-- `spread` for named parts. -/
def spreadFields (depth : Nat) : List (String × Record) → String
  | [] => ""
  | (name, r) :: rs =>
    margin depth ++ name ++ ": " ++ spread depth r ++ ",\n" ++ spreadFields depth rs

end

/-- Data that may be missing. -/
def optional : Option Record → Record
  | none => .leaf "None"
  | some r => .args "Some" [r]

end Record

end Scriptlet
