import Scriptlet.Program.OfTree

/-!
# Shapes of programs

`Expr.Everywhere P Q` says that `P` holds of an expression and of every expression inside it and `Q`
of every statement inside it, the bodies of functions included; `Stmt.Everywhere` says the same of a
statement. The programs that texts denote have two such shapes: they assign to names and members
only (`Stmt.WellTargeted`), and they return only inside functions (`Stmt.Returnless`). `Stmt.Names
N` is the shape of code that uses no names but those of `N`.

The shapes are what invariants of evaluation ask of code. A closure holds code that was part of the
program, and later code is run out of the store; a property that holds everywhere in a program holds
of the closures made from it, and so of everything that is ever run. Properties of the whole
statement that do not pass to function bodies, such as being without a `return`, are recursions of
their own.
-/

namespace Scriptlet

mutual

/-- `P` of the expression and of all expressions inside, `Q` of all statements inside. The
definition follows the constructors of code, so that at each of them it unfolds to what holds of the
parts. -/
def Expr.Everywhere (P : Expr → Prop) (Q : Stmt → Prop) : Expr → Prop
  | .literal value => P (.literal value)
  | .object properties => P (.object properties) ∧ Expr.EverywhereProperties P Q properties
  | .name n => P (.name n)
  | .member base key => P (.member base key) ∧ base.Everywhere P Q ∧ key.Everywhere P Q
  | .function name params body => P (.function name params body) ∧ Stmt.EverywhereAll P Q body
  | .call callee args =>
    P (.call callee args) ∧ callee.Everywhere P Q ∧ Expr.EverywhereAll P Q args
  | .binary op left right =>
    P (.binary op left right) ∧ left.Everywhere P Q ∧ right.Everywhere P Q
  | .assign target value =>
    P (.assign target value) ∧ target.Everywhere P Q ∧ value.Everywhere P Q

/-- `Expr.Everywhere` for several expressions. -/
def Expr.EverywhereAll (P : Expr → Prop) (Q : Stmt → Prop) : List Expr → Prop
  | [] => True
  | e :: es => e.Everywhere P Q ∧ Expr.EverywhereAll P Q es

/-- `Expr.Everywhere` for properties. The keys are texts and have no code in them. -/
def Expr.EverywhereProperties (P : Expr → Prop) (Q : Stmt → Prop) : List (String × Expr) → Prop
  | [] => True
  | (_, e) :: properties => e.Everywhere P Q ∧ Expr.EverywhereProperties P Q properties

/-- `Q` of the statement and of all statements inside, `P` of all expressions
inside. -/
def Stmt.Everywhere (P : Expr → Prop) (Q : Stmt → Prop) : Stmt → Prop
  | .function name params body =>
    Q (.function name params body) ∧ Stmt.EverywhereAll P Q body
  | .var name init => Q (.var name init) ∧ init.Everywhere P Q
  | .cond test consequent none =>
    Q (.cond test consequent none) ∧ test.Everywhere P Q ∧ consequent.Everywhere P Q
  | .cond test consequent (some alternate) =>
    Q (.cond test consequent (some alternate)) ∧ test.Everywhere P Q ∧
      consequent.Everywhere P Q ∧ alternate.Everywhere P Q
  | .ret none => Q (.ret none)
  | .ret (some value) => Q (.ret (some value)) ∧ value.Everywhere P Q
  | .block body => Q (.block body) ∧ Stmt.EverywhereAll P Q body
  | .expr e => Q (.expr e) ∧ e.Everywhere P Q

/-- `Stmt.Everywhere` for several statements. -/
def Stmt.EverywhereAll (P : Expr → Prop) (Q : Stmt → Prop) : List Stmt → Prop
  | [] => True
  | s :: ss => s.Everywhere P Q ∧ Stmt.EverywhereAll P Q ss

end

mutual

/-- What holds of all expressions and of all statements holds everywhere. This is how a statement
about code with a shape is used for any code: the trivial shape is everyone's. -/
theorem Expr.everywhere_of_forall {P : Expr → Prop} {Q : Stmt → Prop} (hP : ∀ e, P e)
    (hQ : ∀ stmt, Q stmt) : ∀ e : Expr, e.Everywhere P Q
  | .literal _ | .name _ => hP _
  | .object properties => ⟨hP _, Expr.everywhereProperties_of_forall hP hQ properties⟩
  | .member base key =>
    ⟨hP _, Expr.everywhere_of_forall hP hQ base, Expr.everywhere_of_forall hP hQ key⟩
  | .function _ _ body => ⟨hP _, Stmt.everywhereAll_of_forall hP hQ body⟩
  | .call callee args =>
    ⟨hP _, Expr.everywhere_of_forall hP hQ callee, Expr.everywhereAll_of_forall hP hQ args⟩
  | .binary _ left right =>
    ⟨hP _, Expr.everywhere_of_forall hP hQ left, Expr.everywhere_of_forall hP hQ right⟩
  | .assign target value =>
    ⟨hP _, Expr.everywhere_of_forall hP hQ target, Expr.everywhere_of_forall hP hQ value⟩

theorem Expr.everywhereAll_of_forall {P : Expr → Prop} {Q : Stmt → Prop} (hP : ∀ e, P e)
    (hQ : ∀ stmt, Q stmt) : ∀ es : List Expr, Expr.EverywhereAll P Q es
  | [] => trivial
  | e :: es => ⟨Expr.everywhere_of_forall hP hQ e, Expr.everywhereAll_of_forall hP hQ es⟩

theorem Expr.everywhereProperties_of_forall {P : Expr → Prop} {Q : Stmt → Prop} (hP : ∀ e, P e)
    (hQ : ∀ stmt, Q stmt) :
    ∀ properties : List (String × Expr), Expr.EverywhereProperties P Q properties
  | [] => trivial
  | (_, e) :: properties =>
    ⟨Expr.everywhere_of_forall hP hQ e, Expr.everywhereProperties_of_forall hP hQ properties⟩

/-- What holds of all expressions and of all statements holds everywhere in a
statement. -/
theorem Stmt.everywhere_of_forall {P : Expr → Prop} {Q : Stmt → Prop} (hP : ∀ e, P e)
    (hQ : ∀ stmt, Q stmt) : ∀ stmt : Stmt, stmt.Everywhere P Q
  | .function _ _ body => ⟨hQ _, Stmt.everywhereAll_of_forall hP hQ body⟩
  | .var _ init => ⟨hQ _, Expr.everywhere_of_forall hP hQ init⟩
  | .cond test consequent none =>
    ⟨hQ _, Expr.everywhere_of_forall hP hQ test, Stmt.everywhere_of_forall hP hQ consequent⟩
  | .cond test consequent (some alternate) =>
    ⟨hQ _, Expr.everywhere_of_forall hP hQ test, Stmt.everywhere_of_forall hP hQ consequent,
      Stmt.everywhere_of_forall hP hQ alternate⟩
  | .ret none => hQ _
  | .ret (some value) => ⟨hQ _, Expr.everywhere_of_forall hP hQ value⟩
  | .block body => ⟨hQ _, Stmt.everywhereAll_of_forall hP hQ body⟩
  | .expr e => ⟨hQ _, Expr.everywhere_of_forall hP hQ e⟩

theorem Stmt.everywhereAll_of_forall {P : Expr → Prop} {Q : Stmt → Prop} (hP : ∀ e, P e)
    (hQ : ∀ stmt, Q stmt) : ∀ body : List Stmt, Stmt.EverywhereAll P Q body
  | [] => trivial
  | stmt :: body => ⟨Stmt.everywhere_of_forall hP hQ stmt, Stmt.everywhereAll_of_forall hP hQ body⟩

end

/-- Bodies one after the other have a shape if both have it. -/
theorem Stmt.everywhereAll_append {P : Expr → Prop} {Q : Stmt → Prop} {ss ts : List Stmt}
    (hs : Stmt.EverywhereAll P Q ss) (ht : Stmt.EverywhereAll P Q ts) :
    Stmt.EverywhereAll P Q (ss ++ ts) := by
  induction ss with
  | nil => exact ht
  | cons s ss ih => exact ⟨hs.1, ih hs.2⟩

/-! ## Targets of assignments

An assignment to anything else is refused when it is evaluated. The programs that are lowered have
none, but a program that is put together by hand may.
-/

/-- If the expression is an assignment, it goes to a name or a member. Other expressions are not
asked about; what is inside of them has its own turn. -/
def Expr.HasTarget : Expr → Prop
  | .assign target _ => target.isTarget
  | _ => True

/-- Every assignment in the expression goes to a name or a member. -/
abbrev Expr.WellTargeted (e : Expr) : Prop := e.Everywhere Expr.HasTarget fun _ => True

/-- Every assignment in the expressions goes to a name or a member. -/
abbrev Expr.WellTargetedAll (es : List Expr) : Prop :=
  Expr.EverywhereAll Expr.HasTarget (fun _ => True) es

/-- Every assignment in the properties goes to a name or a member. -/
abbrev Expr.WellTargetedProperties (properties : List (String × Expr)) : Prop :=
  Expr.EverywhereProperties Expr.HasTarget (fun _ => True) properties

/-- Every assignment in the statement goes to a name or a member. -/
abbrev Stmt.WellTargeted (s : Stmt) : Prop := s.Everywhere Expr.HasTarget fun _ => True

/-- Every assignment in the statements goes to a name or a member. -/
abbrev Stmt.WellTargetedAll (ss : List Stmt) : Prop :=
  Stmt.EverywhereAll Expr.HasTarget (fun _ => True) ss

/-! ## Names

Which names code looks up, assigns and binds. The shape is used to say that code does not use some
name, or uses only those that a program was renamed on.
-/

/-- If the expression is a name, `N` holds of it; if it is a function, `N` holds of its
parameters. The name of a function that is an expression binds nothing and is left
out. -/
def Expr.HasNames (N : String → Prop) : Expr → Prop
  | .name n => N n
  | .function _ params _ => ∀ p ∈ params, N p
  | _ => True

/-- If the statement declares a variable or a function, `N` holds of the names that it
binds. -/
def Stmt.HasNames (N : String → Prop) : Stmt → Prop
  | .function name params _ => N name ∧ ∀ p ∈ params, N p
  | .var name _ => N name
  | _ => True

/-- If all names will do, then so do those of any expression. -/
theorem Expr.hasNames_of_forall {N : String → Prop} (h : ∀ name, N name) (e : Expr) :
    e.HasNames N := by
  cases e with
  | name n => exact h n
  | function _ _ _ => exact fun p _ => h p
  | literal _ | object _ | member _ _ | call _ _ | binary _ _ _ | assign _ _ => trivial

/-- If all names will do, then so do those that a statement binds. -/
theorem Stmt.hasNames_of_forall {N : String → Prop} (h : ∀ name, N name) (stmt : Stmt) :
    stmt.HasNames N := by
  cases stmt with
  | function name _ _ => exact ⟨h name, fun p _ => h p⟩
  | var name _ => exact h name
  | cond _ _ _ | ret _ | block _ | expr _ => trivial

/-- `N` holds of every name that is looked up, assigned or bound in the expression. -/
abbrev Expr.Names (N : String → Prop) (e : Expr) : Prop :=
  e.Everywhere (Expr.HasNames N) (Stmt.HasNames N)

/-- `N` holds of every name in the expressions. -/
abbrev Expr.NamesAll (N : String → Prop) (es : List Expr) : Prop :=
  Expr.EverywhereAll (Expr.HasNames N) (Stmt.HasNames N) es

/-- `N` holds of every name in the properties, their keys apart. -/
abbrev Expr.NamesProperties (N : String → Prop) (properties : List (String × Expr)) : Prop :=
  Expr.EverywhereProperties (Expr.HasNames N) (Stmt.HasNames N) properties

/-- `N` holds of every name that is looked up, assigned or bound in the statement. -/
abbrev Stmt.Names (N : String → Prop) (stmt : Stmt) : Prop :=
  stmt.Everywhere (Expr.HasNames N) (Stmt.HasNames N)

/-- `N` holds of every name in the statements. -/
abbrev Stmt.NamesAll (N : String → Prop) (body : List Stmt) : Prop :=
  Stmt.EverywhereAll (Expr.HasNames N) (Stmt.HasNames N) body

section

variable {N : String → Prop} (h : ∀ name, N name)

include h

/-- Code of which nothing is asked is code with all names. The lemma and its companions give the
code in a closure, about which nothing else is known, to results about code with certain names. -/
theorem Expr.names_of_forall (e : Expr) : e.Names N :=
  Expr.everywhere_of_forall (Expr.hasNames_of_forall h) (Stmt.hasNames_of_forall h) e

theorem Stmt.names_of_forall (stmt : Stmt) : stmt.Names N :=
  Stmt.everywhere_of_forall (Expr.hasNames_of_forall h) (Stmt.hasNames_of_forall h) stmt

theorem Stmt.namesAll_of_forall (body : List Stmt) : Stmt.NamesAll N body :=
  Stmt.everywhereAll_of_forall (Expr.hasNames_of_forall h) (Stmt.hasNames_of_forall h) body

end

/-! ## Returns

A `return` inside a function's body returns from that function. So the recursion stops at functions,
and does not go into expressions at all.
-/

mutual

/-- The statement has no `return` but inside functions. Running such a statement never returns. -/
def Stmt.Returnless : Stmt → Prop
  | .cond _ consequent none => consequent.Returnless
  | .cond _ consequent (some alternate) => consequent.Returnless ∧ alternate.Returnless
  | .ret _ => False
  | .block body => Stmt.ReturnlessAll body
  | .function _ _ _ | .var _ _ | .expr _ => True

/-- The statements have no `return` but inside functions. -/
def Stmt.ReturnlessAll : List Stmt → Prop
  | [] => True
  | s :: ss => s.Returnless ∧ Stmt.ReturnlessAll ss

end

/-- Bodies one after the other are without a `return` if both are. -/
theorem Stmt.returnlessAll_append {ss ts : List Stmt} (hs : Stmt.ReturnlessAll ss)
    (ht : Stmt.ReturnlessAll ts) : Stmt.ReturnlessAll (ss ++ ts) := by
  induction ss with
  | nil => exact ht
  | cons s ss ih => exact ⟨hs.1, ih hs.2⟩

/-! ## Variables

A declaration of several variables is lowered to as many statements, which stand in the body side by
side.
-/

/-- The statement declares a variable. -/
def Stmt.isVar : Stmt → Bool
  | .var _ _ => true
  | _ => false

/-- Declarations have no `return`. -/
theorem Stmt.returnlessAll_of_isVar {ss : List Stmt} (h : ∀ s ∈ ss, s.isVar) :
    Stmt.ReturnlessAll ss := by
  induction ss with
  | nil => trivial
  | cons s ss ih =>
    obtain ⟨hs, hss⟩ := List.forall_mem_cons.mp h
    refine ⟨?_, ih hss⟩
    cases s with
    | var name init => trivial
    | function _ _ _ | cond _ _ _ | ret _ | block _ | expr _ => cases hs

end Scriptlet
