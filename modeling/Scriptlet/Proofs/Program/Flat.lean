import Scriptlet.Program.Basic

/-!
# Programs without blocks in bodies

A block in the body of a function or of another block can be replaced by its own statements.
`Program.flat` does so everywhere, and leaves alone the blocks that are statements of the program
itself or branches of a condition. What is flat already stays as it is (`Program.flat_flat`).

Blocks have no scope of their own in the language: a variable declared in a block is one of the
function around it. So a block in a body says no more than its statements. A block that is a branch
has to stay, since a branch is one statement. The blocks of the program itself stay because a
program has the value of its last statement, and what the statements in a block evaluate to is
dropped.
-/

namespace Scriptlet

/-- What stands for a statement in a body: the statements of a block, and any other
statement itself. -/
def Stmt.spliced : Stmt → List Stmt
  | .block body => body
  | stmt => [stmt]

mutual

/-- An expression with the bodies of its functions made flat. -/
def Expr.flat : Expr → Expr
  | .literal value => .literal value
  | .object properties => .object (Expr.flatProperties properties)
  | .name n => .name n
  | .member base key => .member base.flat key.flat
  | .function name params body => .function name params (Stmt.flatBody body)
  | .call callee args => .call callee.flat (Expr.flatAll args)
  | .binary op left right => .binary op left.flat right.flat
  | .assign target value => .assign target.flat value.flat

/-- `Expr.flat` for several expressions. -/
def Expr.flatAll : List Expr → List Expr
  | [] => []
  | e :: es => e.flat :: Expr.flatAll es

/-- `Expr.flat` for properties. -/
def Expr.flatProperties : List (String × Expr) → List (String × Expr)
  | [] => []
  | (key, e) :: properties => (key, e.flat) :: Expr.flatProperties properties

/-- A statement with all bodies inside it made flat. A block stays one block, as whatever it is a
part of decides whether it may be spliced. -/
def Stmt.flat : Stmt → Stmt
  | .function name params body => .function name params (Stmt.flatBody body)
  | .var name init => .var name init.flat
  | .cond test consequent none => .cond test.flat consequent.flat none
  | .cond test consequent (some alternate) =>
    .cond test.flat consequent.flat (some alternate.flat)
  | .ret none => .ret none
  | .ret (some value) => .ret (some value.flat)
  | .block body => .block (Stmt.flatBody body)
  | .expr e => .expr e.flat

/-- A body without blocks, the statements of each block in its place. -/
def Stmt.flatBody : List Stmt → List Stmt
  | [] => []
  | stmt :: body => stmt.flat.spliced ++ Stmt.flatBody body

end

/-- A program with all bodies made flat. Its own statements are kept, blocks among
them. -/
def Program.flat (p : Program) : Program := p.map Stmt.flat

/-- Bodies one after the other are made flat one after the other. -/
theorem Stmt.flatBody_append (b b' : List Stmt) :
    Stmt.flatBody (b ++ b') = Stmt.flatBody b ++ Stmt.flatBody b' := by
  induction b with
  | nil => rfl
  | cons stmt b ih => rw [List.cons_append, Stmt.flatBody, Stmt.flatBody, ih, List.append_assoc]

/-- A block in a body counts as its statements, which is what splicing is meant to do. -/
theorem Stmt.flatBody_block (body rest : List Stmt) :
    Stmt.flatBody (.block body :: rest) = Stmt.flatBody (body ++ rest) := by
  rw [Stmt.flatBody_append, Stmt.flatBody, Stmt.flat, Stmt.spliced]

/-- No block is left in a flat body, however deep the blocks were nested. -/
theorem Stmt.flatBody_blockless :
    ∀ body : List Stmt, ∀ stmt ∈ Stmt.flatBody body, ∀ inner, stmt ≠ .block inner
  | [], _, h, _ => nomatch h
  | .block b :: body, stmt, h, inner => by
    rw [Stmt.flatBody_block, Stmt.flatBody_append] at h
    rcases List.mem_append.mp h with h | h
    · exact Stmt.flatBody_blockless b stmt h inner
    · exact Stmt.flatBody_blockless body stmt h inner
  | .function _ _ _ :: body, stmt, h, inner | .var _ _ :: body, stmt, h, inner
  | .cond _ _ none :: body, stmt, h, inner | .cond _ _ (some _) :: body, stmt, h, inner
  | .ret none :: body, stmt, h, inner | .ret (some _) :: body, stmt, h, inner
  | .expr _ :: body, stmt, h, inner => by
    rcases List.mem_cons.mp h with rfl | h
    · exact nofun
    · exact Stmt.flatBody_blockless body stmt h inner

/-! ## What is flat stays flat

By one induction over code, along the definition.
-/

mutual

theorem Expr.flat_flat : ∀ e : Expr, e.flat.flat = e.flat
  | .literal _ | .name _ => rfl
  | .object properties => by simp only [Expr.flat, Expr.flatProperties_flatProperties properties]
  | .member base key => by simp only [Expr.flat, Expr.flat_flat base, Expr.flat_flat key]
  | .function _ _ body => by simp only [Expr.flat, Stmt.flatBody_flatBody body]
  | .call callee args => by
    simp only [Expr.flat, Expr.flat_flat callee, Expr.flatAll_flatAll args]
  | .binary _ left right => by simp only [Expr.flat, Expr.flat_flat left, Expr.flat_flat right]
  | .assign target value => by
    simp only [Expr.flat, Expr.flat_flat target, Expr.flat_flat value]

theorem Expr.flatAll_flatAll : ∀ es : List Expr, Expr.flatAll (Expr.flatAll es) = Expr.flatAll es
  | [] => rfl
  | e :: es => by simp only [Expr.flatAll, Expr.flat_flat e, Expr.flatAll_flatAll es]

theorem Expr.flatProperties_flatProperties : ∀ properties : List (String × Expr),
    Expr.flatProperties (Expr.flatProperties properties) = Expr.flatProperties properties
  | [] => rfl
  | (_, e) :: properties => by
    simp only [Expr.flatProperties, Expr.flat_flat e,
      Expr.flatProperties_flatProperties properties]

theorem Stmt.flat_flat : ∀ stmt : Stmt, stmt.flat.flat = stmt.flat
  | .function _ _ body => by simp only [Stmt.flat, Stmt.flatBody_flatBody body]
  | .var _ init => by simp only [Stmt.flat, Expr.flat_flat init]
  | .cond test consequent none => by
    simp only [Stmt.flat, Expr.flat_flat test, Stmt.flat_flat consequent]
  | .cond test consequent (some alternate) => by
    simp only [Stmt.flat, Expr.flat_flat test, Stmt.flat_flat consequent,
      Stmt.flat_flat alternate]
  | .ret none => rfl
  | .ret (some value) => by simp only [Stmt.flat, Expr.flat_flat value]
  | .block body => by simp only [Stmt.flat, Stmt.flatBody_flatBody body]
  | .expr e => by simp only [Stmt.flat, Expr.flat_flat e]

/-- A spliced block is flat by the induction, and no other flat statement is a block. -/
theorem Stmt.flatBody_flatBody : ∀ body : List Stmt,
    Stmt.flatBody (Stmt.flatBody body) = Stmt.flatBody body
  | [] => rfl
  | stmt :: body => by
    have hstmt := Stmt.flat_flat stmt
    have hspliced : Stmt.flatBody stmt.flat.spliced = stmt.flat.spliced := by
      cases hs : stmt.flat with
      | block b =>
        rw [hs, Stmt.flat, Stmt.block.injEq] at hstmt
        exact hstmt
      | _ =>
        rw [hs] at hstmt
        simp only [Stmt.spliced, Stmt.flatBody, hstmt, List.append_nil]
    rw [Stmt.flatBody, Stmt.flatBody_append, hspliced, Stmt.flatBody_flatBody body]

end

/-- A flat program stays as it is. -/
theorem Program.flat_flat (p : Program) : Program.flat (Program.flat p) = Program.flat p := by
  simp only [Program.flat, List.map_map, Function.comp_def, Stmt.flat_flat]

end Scriptlet
