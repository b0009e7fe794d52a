import Scriptlet.CommandLine
import Scriptlet.Eval.Basic
import Scriptlet.Eval.Simulation
import Scriptlet.Eval.Stepwise
import Scriptlet.Grammar.Match
import Scriptlet.Grammar.Peg
import Scriptlet.Grammar.Productions
import Scriptlet.Grammar.Rule
import Scriptlet.Grammar.SyntaxError
import Scriptlet.Grammar.Tree
import Scriptlet.Main
import Scriptlet.Number.Decimal
import Scriptlet.Number.Literal
import Scriptlet.Number.Style
import Scriptlet.Program.Basic
import Scriptlet.Program.Error
import Scriptlet.Program.Listing
import Scriptlet.Program.OfTree
import Scriptlet.Proofs.Eval.Agenda
import Scriptlet.Proofs.Eval.Client
import Scriptlet.Proofs.Eval.Correspondence
import Scriptlet.Proofs.Eval.Depth
import Scriptlet.Proofs.Eval.Discipline
import Scriptlet.Proofs.Eval.Flattening
import Scriptlet.Proofs.Eval.Frame
import Scriptlet.Proofs.Eval.Machine
import Scriptlet.Proofs.Eval.ObjectLiteral
import Scriptlet.Proofs.Eval.Parameters
import Scriptlet.Proofs.Eval.Plain
import Scriptlet.Proofs.Eval.Refusal
import Scriptlet.Proofs.Eval.Renaming
import Scriptlet.Proofs.Eval.Termination
import Scriptlet.Proofs.Eval.Unnamed
import Scriptlet.Proofs.Grammar.Adequacy
import Scriptlet.Proofs.Grammar.Alike
import Scriptlet.Proofs.Grammar.Corner
import Scriptlet.Proofs.Grammar.Descent
import Scriptlet.Proofs.Grammar.Enclosing
import Scriptlet.Proofs.Grammar.Extension
import Scriptlet.Proofs.Grammar.First
import Scriptlet.Proofs.Grammar.Gap
import Scriptlet.Proofs.Grammar.LineEnd
import Scriptlet.Proofs.Grammar.Literal
import Scriptlet.Proofs.Grammar.Matching
import Scriptlet.Proofs.Grammar.Nesting
import Scriptlet.Proofs.Grammar.Numeral
import Scriptlet.Proofs.Grammar.Outline
import Scriptlet.Proofs.Grammar.Reading
import Scriptlet.Proofs.Grammar.Respacing
import Scriptlet.Proofs.Grammar.ReturnArgument
import Scriptlet.Proofs.Grammar.Second
import Scriptlet.Proofs.Grammar.Settled
import Scriptlet.Proofs.Grammar.Shape
import Scriptlet.Proofs.Grammar.Token
import Scriptlet.Proofs.Grammar.Trailing
import Scriptlet.Proofs.Number.Double
import Scriptlet.Proofs.Number.Hexadecimal
import Scriptlet.Proofs.Number.Nearest
import Scriptlet.Proofs.Number.Rounding
import Scriptlet.Proofs.Number.Shortest
import Scriptlet.Proofs.Number.Text
import Scriptlet.Proofs.Number.Written
import Scriptlet.Proofs.Program.Bare
import Scriptlet.Proofs.Program.Decoding
import Scriptlet.Proofs.Program.Flat
import Scriptlet.Proofs.Program.Grouping
import Scriptlet.Proofs.Program.Lowering
import Scriptlet.Proofs.Program.Passing
import Scriptlet.Proofs.Program.Precedence
import Scriptlet.Proofs.Program.Range
import Scriptlet.Proofs.Program.Shape
import Scriptlet.Proofs.Program.Source
import Scriptlet.Proofs.Program.Supported
import Scriptlet.Proofs.Program.Words
import Scriptlet.Proofs.Program.Writable
import Scriptlet.Proofs.Program.Writing
import Scriptlet.Proofs.Script.Composition
import Scriptlet.Proofs.Script.Faultless
import Scriptlet.Proofs.Script.Spacing
import Scriptlet.Proofs.Store.Assignment
import Scriptlet.Proofs.Store.Cells
import Scriptlet.Proofs.Store.Chain
import Scriptlet.Proofs.Store.Region
import Scriptlet.Proofs.Store.Renaming
import Scriptlet.Proofs.Text.Quoted
import Scriptlet.Proofs.Value.Equality
import Scriptlet.Script
import Scriptlet.Session
import Scriptlet.Store.Basic
import Scriptlet.Store.Inspect
import Scriptlet.Store.Table
import Scriptlet.Text.DefaultIgnorable
import Scriptlet.Text.Escape
import Scriptlet.Text.GraphemeExtend
import Scriptlet.Text.Printable
import Scriptlet.Text.Quoted
import Scriptlet.Text.Record
import Scriptlet.Value.Basic

/-!
# Scriptlet

A small scripting language, from the text of a script to the value it has, and what is true of it.

The modules come in two halves. The first is the language as it runs, and what its programs need:

* `Scriptlet.Grammar`: the rules of the grammar as parsing expressions, the matcher, parse trees
  with their outlines, and syntax errors.
* `Scriptlet.Program`: expressions, statements and programs, and how a parse tree becomes one of
  them or is refused.
* `Scriptlet.Number` and `Scriptlet.Text`: number literals and how numbers are shown, escapes,
  quoted text and the records of which listings are made.
* `Scriptlet.Value` and `Scriptlet.Store`: what expressions evaluate to, and the scopes, objects
  and closures that they work on.
* `Scriptlet.Eval`: the evaluator, written over an arbitrary monad, and the monad it is run in.
* `Scriptlet.Script`, `Scriptlet.Session`, `Scriptlet.CommandLine` and `Scriptlet.Main`: running
  scripts from a store, step by step in a session, or as a command.

The second half, under `Scriptlet.Proofs`, is the theory. It is arranged by the same subjects, and
no definition of the first half depends on it.

* `Proofs.Grammar` is about matching. `Reading` says what every parse has read, from which come the
  shapes of nodes (`Shape`) and their nesting (`Nesting`, `parse_nested`). `Matching` says what a
  match is without fuel, and `Adequacy` that the matcher finds it; `Descent` that it always does so
  (`matching_ends`). `First`, `Second` and `Corner` compute from the grammar where rules begin and
  what may follow them. On these rest the modules about changes to a text: more text behind it
  (`Trailing`, `Extension`, `Settled`), other spacing (`Gap`, `Alike`, `Respacing`), parentheses
  around it (`Enclosing`). `LineEnd` and `ReturnArgument` are about the line break behind `return`,
  and `Outline` shows that an outline tells all there is (`outline_lossless`).
* `Proofs.Program` is about lowering: what it refuses (`lowering_verdict`), what a program from a
  text is like (`ofSource_range`), the grouping of operators (`ofSource_chain`), single words
  (`ofSource_word`) and the escapes of strings (`stringValue_decodes`).
* `Proofs.Number` goes from doubles as bits to the nearest double and to the digits shown
  (`numberText_lossless`, `hexLiteral_nearest`).
* `Proofs.Value` and `Proofs.Text` have the equalities of values (`Value.equalities_agree`) and the
  reading of quoted text.
* `Proofs.Store` has cells and references, the chain of scopes, regions and renamings, and the one
  effect of an assignment (`Store.assign_one_effect`).
* `Proofs.Eval` is about evaluation. What one run keeps is proved once for every `Discipline`, and
  what two runs keep once for every `Correspondence`; `Machine` is evaluation one step at a time,
  and `Termination` shows that it ends (`Machine.halts`). The theorems are instances: the frame law
  (`evaluation_framed`), runs up to renaming (`evaluation_renamed`), the counter of calls
  (`Machine.depth_accounted`, `limit_transparent`), blocks (`blocks_transparent`), names that are
  not used (`unnamed_bindings_inert`), object literals (`object_built_apart`), the scope of a call
  (`call_opens_scope`), returns (`Agenda.call_eq_stopped`) and whatever a client does
  (`Client.store_grows`).
* `Proofs.Script` puts texts and runs together: scripts run without faults (`scripts_faultless`),
  compose (`scripts_compose`) and do not depend on spacing (`spacing_transparent`).
-/
