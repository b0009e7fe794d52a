import Scriptlet.Eval.Basic

/-!
# One evaluator, many monads

The evaluator uses nothing of its monad but `pure` and `bind`. So whenever two monads are related in
a way that both respect, evaluation in the one is related to evaluation in the other:
`Expr.eval_related` and its companions. Every way of running programs is compared with the plain one
through these.

The induction over code is done here once. A monad that records refused calls, one that stops at a
bad assignment, one that allows the evaluator to be interrupted: for each of them it suffices to say
how its computations are related to plain ones, and to check `pure`, `bind` and what becomes of
faults.
-/

namespace Scriptlet

/-- A relation between the computations of two monads that `pure` and `bind` respect. It relates
computations of every type, as an evaluation has parts of many. -/
structure MonadRelation (m n : Type → Type) [Monad m] [Monad n] where
  /-- the relation -/
  Rel : {α : Type} → m α → n α → Prop
  /-- the same value in both is related -/
  rel_pure : ∀ {α : Type} (a : α), Rel (pure a : m α) (pure a : n α)
  /-- related computations continued in a related way are related -/
  rel_bind : ∀ {α β : Type} {x : m α} {y : n α} {f : α → m β} {g : α → n β},
    Rel x y → (∀ a, Rel (f a) (g a)) → Rel (x >>= f) (y >>= g)

namespace MonadRelation

variable {m n : Type → Type} [Monad m] [Monad n] (R : MonadRelation m n)

/-- The relation on computations with the store: related from every store. -/
def OnStore {α : Type} (x : Eval m α) (y : Eval n α) : Prop := ∀ s, R.Rel (x s) (y s)

variable {R}

/-- A value is related to itself, in every store. -/
theorem onStore_pure {α : Type} (a : α) : R.OnStore (pure a : Eval m α) (pure a : Eval n α) :=
  fun s => R.rel_pure (a, s)

/-- Computations that go on in a related way after related computations are related, from every
store. This and the cases below are all that the recursion over code needs of a relation. -/
theorem onStore_bind {α β : Type} {x : Eval m α} {y : Eval n α} {f : α → Eval m β}
    {g : α → Eval n β} (hx : R.OnStore x y) (hf : ∀ a, R.OnStore (f a) (g a)) :
    R.OnStore (x >>= f) (y >>= g) :=
  fun s => R.rel_bind (hx s) fun p => hf p.1 p.2

/-- Both computations do the same to the store and have the same result, so nothing has to be known
of what they do. -/
theorem onStore_modifyGet {α : Type} (f : Store → α × Store) :
    R.OnStore (modifyGet f : Eval m α) (modifyGet f : Eval n α) :=
  fun s => R.rel_pure (f s)

theorem onStore_modify (f : Store → Store) :
    R.OnStore (modify f : Eval m PUnit) (modify f : Eval n PUnit) :=
  fun s => R.rel_pure (PUnit.unit, f s)

theorem onStore_reading {α : Type} (f : Store → α) :
    R.OnStore (reading f : Eval m α) (reading f : Eval n α) :=
  onStore_modifyGet _

end MonadRelation

open MonadRelation

variable {m n : Type → Type} [Monad m] [Monad n]

/-- Surroundings are related if what they do is. -/
structure Host.Related (R : MonadRelation m n) (h : Host m) (k : Host n) : Prop where
  call : ∀ id args, R.OnStore (h.call id args) (k.call id args)
  badTarget : R.OnStore h.badTarget k.badTarget

/-- Faults are related if what becomes of them is. -/
structure Faults.Related (R : MonadRelation m n) (f : Faults m) (g : Faults n) : Prop where
  refusedCall : R.OnStore f.refusedCall g.refusedCall
  badTarget : R.OnStore f.badTarget g.badTarget

variable {R : MonadRelation m n} {h : Host m} {k : Host n}

mutual

/-- **Evaluation respects every relation of monads**, for expressions. -/
theorem Expr.eval_related (hk : h.Related R k) (scope : ScopeId) :
    ∀ e : Expr, R.OnStore (e.eval h scope) (e.eval k scope)
  | .literal _ => onStore_pure _
  | .object properties =>
    onStore_bind (onStore_modifyGet _) fun id =>
      onStore_bind (Expr.evalProperties_related hk scope id properties) fun _ => onStore_pure _
  | .name _ => onStore_reading _
  | .member base key =>
    onStore_bind (Expr.eval_related hk scope base) fun object => by
      by_cases ho : object.isObjectLike
      · simp only [ho, if_true]
        exact onStore_bind (Expr.eval_related hk scope key) fun _ => onStore_reading _
      · simp only [ho, if_false, Bool.false_eq_true]
        exact onStore_pure _
  | .function _ _ _ => onStore_bind (onStore_modifyGet _) fun _ => onStore_pure _
  | .call callee args =>
    onStore_bind (Expr.eval_related hk scope callee) fun v => by
      cases v with
      | function id =>
        exact onStore_bind (Expr.evalAll_related hk scope args) fun values => hk.call id values
      | _ => exact onStore_pure _
  | .binary _ left right =>
    onStore_bind (Expr.eval_related hk scope left) fun _ =>
      onStore_bind (Expr.eval_related hk scope right) fun _ => onStore_pure _
  | .assign (.name _) value =>
    onStore_bind (Expr.eval_related hk scope value) fun _ =>
      onStore_bind (onStore_modify _) fun _ => onStore_pure _
  | .assign (.member base key) value =>
    onStore_bind (Expr.eval_related hk scope base) fun object => by
      by_cases ho : object.isObjectLike
      · simp only [ho, if_true]
        exact onStore_bind (Expr.eval_related hk scope key) fun _ =>
          onStore_bind (Expr.eval_related hk scope value) fun _ =>
            onStore_bind (onStore_modify _) fun _ => onStore_pure _
      · simp only [ho, if_false, Bool.false_eq_true]
        exact onStore_pure _
  | .assign (.literal _) _ | .assign (.object _) _ | .assign (.function _ _ _) _
  | .assign (.call _ _) _ | .assign (.binary _ _ _) _ | .assign (.assign _ _) _ => hk.badTarget

/-- Evaluation respects every relation of monads, for several expressions. -/
theorem Expr.evalAll_related (hk : h.Related R k) (scope : ScopeId) :
    ∀ es : List Expr, R.OnStore (Expr.evalAll h scope es) (Expr.evalAll k scope es)
  | [] => onStore_pure _
  | e :: es =>
    onStore_bind (Expr.eval_related hk scope e) fun _ =>
      onStore_bind (Expr.evalAll_related hk scope es) fun _ => onStore_pure _

/-- Evaluation respects every relation of monads, for properties. -/
theorem Expr.evalProperties_related (hk : h.Related R k) (scope : ScopeId) (id : ObjectId) :
    ∀ properties : List (String × Expr),
      R.OnStore (Expr.evalProperties h scope id properties)
        (Expr.evalProperties k scope id properties)
  | [] => onStore_pure _
  | (_, e) :: properties =>
    onStore_bind (Expr.eval_related hk scope e) fun _ =>
      onStore_bind (onStore_modify _) fun _ =>
        Expr.evalProperties_related hk scope id properties

end

mutual

/-- **Evaluation respects every relation of monads**, for statements. -/
theorem Stmt.exec_related (hk : h.Related R k) (scope : ScopeId) :
    ∀ s : Stmt, R.OnStore (s.exec h scope) (s.exec k scope)
  | .function _ _ _ =>
    onStore_bind (onStore_modifyGet _) fun _ =>
      onStore_bind (onStore_modify _) fun _ => onStore_pure _
  | .var _ init =>
    onStore_bind (Expr.eval_related hk scope init) fun _ =>
      onStore_bind (onStore_modify _) fun _ => onStore_pure _
  | .cond test consequent none =>
    onStore_bind (Expr.eval_related hk scope test) fun v => by
      by_cases hv : v.truthy
      · simp only [hv, if_true]
        exact Stmt.exec_related hk scope consequent
      · simp only [hv, if_false, Bool.false_eq_true]
        exact onStore_pure _
  | .cond test consequent (some alternate) =>
    onStore_bind (Expr.eval_related hk scope test) fun v => by
      by_cases hv : v.truthy
      · simp only [hv, if_true]
        exact Stmt.exec_related hk scope consequent
      · simp only [hv, if_false, Bool.false_eq_true]
        exact Stmt.exec_related hk scope alternate
  | .ret none => onStore_pure _
  | .ret (some value) => onStore_bind (Expr.eval_related hk scope value) fun _ => onStore_pure _
  | .block body => Stmt.execAll_related hk scope body
  | .expr e => onStore_bind (Expr.eval_related hk scope e) fun _ => onStore_pure _

/-- Evaluation respects every relation of monads, for several statements. -/
theorem Stmt.execAll_related (hk : h.Related R k) (scope : ScopeId) :
    ∀ ss : List Stmt, R.OnStore (Stmt.execAll h scope ss) (Stmt.execAll k scope ss)
  | [] => onStore_pure _
  | s :: ss =>
    onStore_bind (Stmt.exec_related hk scope s) fun c => by
      cases c with
      | returned v => exact onStore_pure _
      | normal v => exact Stmt.execAll_related hk scope ss

end

/-- **Evaluation respects every relation of monads**, for programs. -/
theorem Program.exec_related (hk : h.Related R k) (scope : ScopeId) (last : Completion)
    (p : Program) : R.OnStore (Program.exec h scope last p) (Program.exec k scope last p) := by
  induction p generalizing last with
  | nil => exact onStore_pure _
  | cons s ss ih =>
    refine onStore_bind (Stmt.exec_related hk scope s) fun c => ?_
    cases c with
    | returned v => exact onStore_pure _
    | normal v => exact ih _

/-- **Evaluation respects every relation of monads**, for calls. -/
theorem callWithin_related {f : Faults m} {g : Faults n} (hfg : f.Related R g) :
    ∀ (left : Nat) (id : ClosureId) (args : List Value),
      R.OnStore (callWithin f left id args) (callWithin g left id args) := by
  intro left
  induction left with
  | zero => exact fun _ _ => hfg.refusedCall
  | succ left ih =>
    intro id args
    refine onStore_bind (onStore_reading _) fun found => ?_
    cases found with
    | none => exact onStore_pure _
    | some closure =>
      refine onStore_bind (onStore_modifyGet _) fun scope => ?_
      refine onStore_bind (Stmt.execAll_related ⟨ih, hfg.badTarget⟩ scope closure.body) fun c => ?_
      cases c <;> exact onStore_pure _

/-- Faults that are values are the same in every monad. -/
theorem Faults.asValues_related : (Faults.asValues : Faults m).Related R Faults.asValues :=
  ⟨onStore_pure _, onStore_pure _⟩

/-- The surroundings that allow a number of nested calls are the same in every
monad. -/
theorem Host.within_related (left : Nat) :
    (Host.within left : Host m).Related R (Host.within left) :=
  ⟨callWithin_related Faults.asValues_related left, onStore_pure _⟩

end Scriptlet
