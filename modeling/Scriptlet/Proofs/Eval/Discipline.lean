import Scriptlet.Eval.Basic
import Scriptlet.Proofs.Program.Shape
import Scriptlet.Proofs.Store.Cells

/-!
# What evaluation keeps

A `Discipline` is a property of stores together with the scopes that may be used and the values that
may turn up, kept by every single operation of the store on such scopes and values. Evaluation
consists of nothing but these operations, so it keeps every discipline: `Expr.eval_keeps` and its
companions, proved once by recursion on what is evaluated and, for calls, on how many may still be
nested.

The monad is left open, as in the evaluator: a `MonadSpec` says what it means that a computation
ends in a result with a property. In `Id` every computation ends; in `Option` one may be stopped,
and to end is to not be stopped.

Two disciplines are used. `confinement` keeps a run inside a region of the store, from which
well-formedness and the frame law follow; `targeting` keeps to code that assigns to names and
members only, and says of such code that a run which stops at any other target never does. For the
second the code matters, and so a discipline may be `strict` about it. A closure is then asked about
when it is made, and can be relied on when it is called.
-/

namespace Scriptlet

/-- A way to say of the computations of a monad that they end in a result with a
property. -/
structure MonadSpec (m : Type → Type) [Monad m] where
  /-- the computation ends in a result with the property -/
  Ends : {α : Type} → m α → (α → Prop) → Prop
  /-- a value is its own result -/
  ends_pure : ∀ {α : Type} {a : α} {Q : α → Prop}, Q a → Ends (pure a : m α) Q
  /-- one computation after another -/
  ends_bind : ∀ {α β : Type} {x : m α} {f : α → m β} {P : α → Prop} {Q : β → Prop},
    Ends x P → (∀ a, P a → Ends (f a) Q) → Ends (x >>= f) Q
  /-- a result with a property has every weaker one -/
  ends_mono : ∀ {α : Type} {x : m α} {P Q : α → Prop}, Ends x P → (∀ a, P a → Q a) → Ends x Q

/-- Plain computations always end. -/
def MonadSpec.plain : MonadSpec Id where
  Ends x Q := Q x
  ends_pure h := h
  ends_bind hx hf := hf _ hx
  ends_mono hx h := h _ hx

/-- Computations that may be stopped end if they are not. -/
def MonadSpec.unstopped : MonadSpec Option where
  Ends x Q := ∃ a, x = some a ∧ Q a
  ends_pure h := ⟨_, rfl, h⟩
  ends_bind hx hf := by
    obtain ⟨a, rfl, ha⟩ := hx
    exact hf a ha
  ends_mono hx h := by
    obtain ⟨a, ha, hP⟩ := hx
    exact ⟨a, ha, h a hP⟩

/-- A property of stores, the scopes that may be used, the values that may turn up
and the code that may run, such that every operation of the store keeps to them. -/
structure Discipline where
  /-- what holds of the store throughout -/
  Inv : Store → Prop
  /-- the scopes that may be used -/
  Scope : Store → ScopeId → Prop
  /-- the values that may turn up -/
  Val : Store → Value → Prop
  /-- whether code must assign to names and members only -/
  strict : Prop
  scope_mono : ∀ {s s' : Store} {id : ScopeId}, s ≤ s' → Scope s id → Scope s' id
  val_mono : ∀ {s s' : Store} {v : Value}, s ≤ s' → Val s v → Val s' v
  val_of_loc?_none : ∀ {s : Store} {v : Value}, v.loc? = none → Val s v
  lookup : ∀ {s : Store} {id : ScopeId} (name : String),
    Inv s → Scope s id → Val s (s.lookup id name)
  resolve : ∀ {s : Store} {id holder : ScopeId} {name : String},
    Inv s → Scope s id → s.resolve id name = some holder → Scope s holder
  getProperty : ∀ {s : Store} {base : Value} (key : String),
    Inv s → Val s base → Val s (s.getProperty base key)
  newObject : ∀ {s : Store}, Inv s →
    Inv s.newObject.2 ∧ Val s.newObject.2 (.object s.newObject.1)
  newClosure : ∀ {s : Store} {scope : ScopeId} (name : Option String) (params : List String)
    {body : List Stmt}, Inv s → Scope s scope → (strict → Stmt.WellTargetedAll body) →
    Inv (s.newClosure name params body scope).2 ∧
      Val (s.newClosure name params body scope).2
        (.function (s.newClosure name params body scope).1)
  /-- a closure that may be called may have its scope opened and its body run -/
  newScope : ∀ {s : Store} {id : ClosureId} {closure : Closure},
    Inv s → Val s (.function id) → s.closures[id]? = some closure →
    Inv (s.newScope closure.scope).2 ∧
      Scope (s.newScope closure.scope).2 (s.newScope closure.scope).1 ∧
      (strict → Stmt.WellTargetedAll closure.body)
  bind : ∀ {s : Store} {id : ScopeId} (name : String) {v : Value},
    Inv s → Scope s id → Val s v → Inv (s.bind id name v)
  setProperty : ∀ {s : Store} {base : Value} (key : String) {v : Value},
    Inv s → Val s base → Val s v → Inv (s.setProperty base key v)

namespace Discipline

variable {m : Type → Type} [Monad m] {M : MonadSpec m} {D : Discipline}

/-- From a store, the computation ends in a larger store under the discipline,
with a result that has the property there. -/
def Keeps (D : Discipline) (M : MonadSpec m) {α : Type} (s : Store) (x : Eval m α)
    (Q : Store → α → Prop) : Prop :=
  M.Ends (x s) fun r => s ≤ r.2 ∧ D.Inv r.2 ∧ Q r.2 r.1

/-- A value is its own result, if the store is under the discipline already. -/
theorem keeps_pure {α : Type} {s : Store} {a : α} {Q : Store → α → Prop} (hs : D.Inv s)
    (hQ : Q s a) : D.Keeps M s (pure a) Q :=
  M.ends_pure ⟨le_rfl, hs, hQ⟩

/-- Computations are chained: the second one starts where the first one ended, in a larger store
that is under the discipline, with a result that has the property there. -/
theorem keeps_bind {α β : Type} {s : Store} {x : Eval m α} {f : α → Eval m β}
    {Q : Store → α → Prop} {R : Store → β → Prop} (hx : D.Keeps M s x Q)
    (hf : ∀ a s', s ≤ s' → D.Inv s' → Q s' a → D.Keeps M s' (f a) R) :
    D.Keeps M s (x >>= f) R := by
  refine M.ends_bind hx ?_
  rintro ⟨a, s'⟩ ⟨hle, hs', hQ⟩
  refine M.ends_mono (hf a s' hle hs' hQ) ?_
  rintro ⟨b, s''⟩ ⟨hle', hs'', hR⟩
  exact ⟨hle.trans hle', hs'', hR⟩

/-- One operation of the store is a computation, with what is known of the operation. -/
theorem keeps_modifyGet {α : Type} {s : Store} {f : Store → α × Store} {Q : Store → α → Prop}
    (hle : s ≤ (f s).2) (hs : D.Inv (f s).2) (hQ : Q (f s).2 (f s).1) :
    D.Keeps M s (modifyGet f) Q :=
  M.ends_pure ⟨hle, hs, hQ⟩

theorem keeps_modify {s : Store} {f : Store → Store} (hle : s ≤ f s) (hs : D.Inv (f s)) :
    D.Keeps M s (modify f) fun _ _ => True :=
  M.ends_pure ⟨hle, hs, trivial⟩

/-- An operation that reads, and leaves the store as it is. -/
theorem keeps_reading {α : Type} {s : Store} {f : Store → α} {Q : Store → α → Prop}
    (hs : D.Inv s) (hQ : Q s (f s)) : D.Keeps M s (reading f) Q :=
  M.ends_pure ⟨le_rfl, hs, hQ⟩

/-! ## Operations made of several

A discipline is about the operations that make or change one cell. Assigning, binding parameters and
entering a call are made of these.
-/

/-- Assigning is binding in a scope that may be used. -/
theorem assign {s : Store} {id : ScopeId} (name : String) {v : Value} (hs : D.Inv s)
    (hid : D.Scope s id) (hv : D.Val s v) : D.Inv (s.assign id name v) := by
  rw [Store.assign]
  cases hr : s.resolve id name with
  | none => exact D.bind name hs hid hv
  | some holder => exact D.bind name hs (D.resolve hs hid hr) hv

/-- Binding parameters is binding one after the other. -/
theorem bindParams (params : List String) (args : List Value) {s : Store} {id : ScopeId}
    (hs : D.Inv s) (hid : D.Scope s id) (hargs : ∀ v ∈ args, D.Val s v) :
    s ≤ s.bindParams id params args ∧ D.Inv (s.bindParams id params args) := by
  induction params generalizing s args with
  | nil =>
    rw [Store.bindParams]
    exact ⟨le_rfl, hs⟩
  | cons p ps ih =>
    cases args with
    | nil =>
      have hle := Store.le_bind s id p .undefined
      have hs' : D.Inv (s.bind id p .undefined) :=
        D.bind p hs hid (D.val_of_loc?_none rfl)
      obtain ⟨hle', hinv⟩ := ih [] hs' (D.scope_mono hle hid) (fun _ hv => nomatch hv)
      exact ⟨hle.trans hle', hinv⟩
    | cons v vs =>
      have hle := Store.le_bind s id p v
      have hs' : D.Inv (s.bind id p v) := D.bind p hs hid (hargs v List.mem_cons_self)
      obtain ⟨hle', hinv⟩ := ih vs hs' (D.scope_mono hle hid) fun w hw =>
        D.val_mono hle (hargs w (List.mem_cons_of_mem _ hw))
      exact ⟨hle.trans hle', hinv⟩

/-- The scope of a call may be used. -/
theorem enter {s : Store} {id : ClosureId} {closure : Closure} {args : List Value}
    (hs : D.Inv s) (hid : D.Val s (.function id)) (hc : s.closures[id]? = some closure)
    (hargs : ∀ v ∈ args, D.Val s v) :
    s ≤ (s.enter closure args).2 ∧ D.Inv (s.enter closure args).2 ∧
      D.Scope (s.enter closure args).2 (s.enter closure args).1 := by
  obtain ⟨hs', hscope, -⟩ := D.newScope hs hid hc
  have hle := Store.le_newScope s closure.scope
  obtain ⟨hle', hinv⟩ := bindParams closure.params args hs' hscope fun v hv =>
    D.val_mono hle (hargs v hv)
  exact ⟨hle.trans hle', hinv, D.scope_mono hle' hscope⟩

end Discipline

/-- Only an object or a function that was there before lives anywhere; what an
operator makes does not. -/
theorem BinaryOp.loc?_apply (op : BinaryOp) (a b : Value) : (op.apply a b).loc? = none := by
  cases op with
  | looseEquals =>
    simp only [BinaryOp.apply, Value.looseEquals]
    split
    · rfl
    · split
      · next h => exact Value.loc?_eq_none (by cases a <;> first | rfl | cases h)
      · split
        · next h => exact Value.loc?_eq_none (by cases b <;> first | rfl | cases h)
        · split <;> rfl
  | strictEquals => rfl
  | _ => cases a <;> cases b <;> rfl

/-! ## Evaluation

The recursion over code. Each case is a chain of the lemmas above, one for each step that the
evaluator takes; calls are left to the surroundings, and come last.
-/

variable {m : Type → Type} [Monad m] {M : MonadSpec m} {D : Discipline}

open Discipline

/-- Surroundings that keep the discipline when they are left something to do. -/
structure Host.Obeys (D : Discipline) (M : MonadSpec m) (h : Host m) : Prop where
  call : ∀ {s : Store} {id : ClosureId} {args : List Value}, D.Inv s →
    D.Val s (.function id) → (∀ v ∈ args, D.Val s v) → D.Keeps M s (h.call id args) D.Val
  badTarget : ¬ D.strict → ∀ {s : Store}, D.Inv s → D.Keeps M s h.badTarget D.Val

variable {h : Host m} {scope : ScopeId}

mutual

/-- **Evaluation keeps every discipline**, for expressions. -/
theorem Expr.eval_keeps (hh : h.Obeys D M) :
    ∀ (e : Expr) {s : Store}, (D.strict → e.WellTargeted) → D.Inv s → D.Scope s scope →
      D.Keeps M s (e.eval h scope) D.Val
  | .literal value, s, _, hs, _ => by
    have hloc : (Value.ofLiteral value).loc? = none := by cases value <;> rfl
    exact keeps_pure hs (D.val_of_loc?_none hloc)
  | .object properties, s, he, hs, hscope => by
    obtain ⟨hs₁, hv⟩ := D.newObject hs
    refine keeps_bind (keeps_modifyGet (Store.le_newObject s) hs₁
      (Q := fun s id => D.Val s (.object id)) hv) ?_
    intro id s₁ hle₁ hs₁ hv
    refine keeps_bind (Expr.evalProperties_keeps hh properties (fun hstrict => (he hstrict).2)
      hs₁ (D.scope_mono hle₁ hscope) hv) ?_
    intro _ s₂ hle₂ hs₂ _
    exact keeps_pure hs₂ (D.val_mono hle₂ hv)
  | .name n, s, _, hs, hscope => keeps_reading hs (D.lookup n hs hscope)
  | .member base key, s, he, hs, hscope => by
    refine keeps_bind (Expr.eval_keeps hh base (fun hstrict => (he hstrict).2.1) hs hscope) ?_
    intro object s₁ hle₁ hs₁ hobject
    split
    · refine keeps_bind (Expr.eval_keeps hh key (fun hstrict => (he hstrict).2.2) hs₁
        (D.scope_mono hle₁ hscope)) ?_
      intro k s₂ hle₂ hs₂ _
      exact keeps_reading hs₂ (D.getProperty k.key hs₂ (D.val_mono hle₂ hobject))
    · exact keeps_pure hs₁ (D.val_of_loc?_none rfl)
  | .function n params body, s, he, hs, hscope => by
    obtain ⟨hs₁, hv⟩ := D.newClosure n params hs hscope fun hstrict => (he hstrict).2
    refine keeps_bind (keeps_modifyGet (Store.le_newClosure s n params body scope) hs₁
      (Q := fun s id => D.Val s (.function id)) hv) ?_
    intro id s₁ _ hs₁ hv
    exact keeps_pure hs₁ hv
  | .call callee args, s, he, hs, hscope => by
    refine keeps_bind (Expr.eval_keeps hh callee (fun hstrict => (he hstrict).2.1) hs hscope) ?_
    intro f s₁ hle₁ hs₁ hf
    split
    · refine keeps_bind (Expr.evalAll_keeps hh args (fun hstrict => (he hstrict).2.2) hs₁
        (D.scope_mono hle₁ hscope)) ?_
      intro values s₂ hle₂ hs₂ hvalues
      -- the arguments were evaluated after the callee, and the store has grown in between
      exact hh.call hs₂ (D.val_mono hle₂ hf) hvalues
    · exact keeps_pure hs₁ (D.val_of_loc?_none rfl)
  | .binary op left right, s, he, hs, hscope => by
    refine keeps_bind (Expr.eval_keeps hh left (fun hstrict => (he hstrict).2.1) hs hscope) ?_
    intro a s₁ hle₁ hs₁ _
    refine keeps_bind (Expr.eval_keeps hh right (fun hstrict => (he hstrict).2.2) hs₁
      (D.scope_mono hle₁ hscope)) ?_
    intro b s₂ _ hs₂ _
    exact keeps_pure hs₂ (D.val_of_loc?_none (op.loc?_apply a b))
  | .assign (.name n) value, s, he, hs, hscope => by
    refine keeps_bind (Expr.eval_keeps hh value (fun hstrict => (he hstrict).2.2) hs hscope) ?_
    intro v s₁ hle₁ hs₁ hv
    -- assigning binds the name in some scope, and the discipline says that it may be used
    refine keeps_bind (keeps_modify (Store.le_bind s₁ _ n v)
      (D.assign n hs₁ (D.scope_mono hle₁ hscope) hv)) ?_
    intro _ s₂ _ hs₂ _
    exact keeps_pure hs₂ (D.val_of_loc?_none rfl)
  | .assign (.member base key) value, s, he, hs, hscope => by
    refine keeps_bind (Expr.eval_keeps hh base (fun hstrict => (he hstrict).2.1.2.1) hs hscope) ?_
    intro object s₁ hle₁ hs₁ hobject
    split
    · refine keeps_bind (Expr.eval_keeps hh key (fun hstrict => (he hstrict).2.1.2.2) hs₁
        (D.scope_mono hle₁ hscope)) ?_
      intro k s₂ hle₂ hs₂ _
      refine keeps_bind (Expr.eval_keeps hh value (fun hstrict => (he hstrict).2.2) hs₂
        (D.scope_mono (hle₁.trans hle₂) hscope)) ?_
      intro v s₃ hle₃ hs₃ hv
      refine keeps_bind (keeps_modify (Store.le_setProperty s₃ object k.key v)
        (D.setProperty k.key hs₃ (D.val_mono (hle₂.trans hle₃) hobject) hv)) ?_
      intro _ s₄ _ hs₄ _
      exact keeps_pure hs₄ (D.val_of_loc?_none rfl)
    · exact keeps_pure hs₁ (D.val_of_loc?_none rfl)
  | .assign (.literal _) _, s, he, hs, _ | .assign (.object _) _, s, he, hs, _
  | .assign (.function _ _ _) _, s, he, hs, _ | .assign (.call _ _) _, s, he, hs, _
  | .assign (.binary _ _ _) _, s, he, hs, _ | .assign (.assign _ _) _, s, he, hs, _ =>
    hh.badTarget (fun hstrict => nomatch (he hstrict).1) hs

theorem Expr.evalAll_keeps (hh : h.Obeys D M) :
    ∀ (es : List Expr) {s : Store},
      (D.strict → Expr.WellTargetedAll es) → D.Inv s → D.Scope s scope →
      D.Keeps M s (Expr.evalAll h scope es) fun s vs => ∀ v ∈ vs, D.Val s v
  | [], s, _, hs, _ => keeps_pure hs fun _ hv => nomatch hv
  | e :: es, s, he, hs, hscope => by
    refine keeps_bind (Expr.eval_keeps hh e (fun hstrict => (he hstrict).1) hs hscope) ?_
    intro v s₁ hle₁ hs₁ hv
    refine keeps_bind (Expr.evalAll_keeps hh es (fun hstrict => (he hstrict).2) hs₁
      (D.scope_mono hle₁ hscope)) ?_
    intro vs s₂ hle₂ hs₂ hvs
    refine keeps_pure hs₂ ?_
    intro w hw
    rcases List.mem_cons.mp hw with rfl | hw
    · exact D.val_mono hle₂ hv
    · exact hvs w hw

theorem Expr.evalProperties_keeps (hh : h.Obeys D M) {id : ObjectId} :
    ∀ (properties : List (String × Expr)) {s : Store},
      (D.strict → Expr.WellTargetedProperties properties) → D.Inv s → D.Scope s scope →
      D.Val s (.object id) →
      D.Keeps M s (Expr.evalProperties h scope id properties) fun _ _ => True
  | [], s, _, hs, _, _ => keeps_pure hs trivial
  | (key, e) :: properties, s, he, hs, hscope, hid => by
    refine keeps_bind (Expr.eval_keeps hh e (fun hstrict => (he hstrict).1) hs hscope) ?_
    intro v s₁ hle₁ hs₁ hv
    refine keeps_bind (keeps_modify (Store.le_setProperty s₁ (.object id) key v)
      (D.setProperty key hs₁ (D.val_mono hle₁ hid) hv)) ?_
    intro _ s₂ hle₂ hs₂ _
    exact Expr.evalProperties_keeps hh properties (fun hstrict => (he hstrict).2) hs₂
      (D.scope_mono (hle₁.trans hle₂) hscope) (D.val_mono (hle₁.trans hle₂) hid)

end

mutual

/-- **Evaluation keeps every discipline**, for statements. -/
theorem Stmt.exec_keeps (hh : h.Obeys D M) :
    ∀ (stmt : Stmt) {s : Store}, (D.strict → stmt.WellTargeted) → D.Inv s → D.Scope s scope →
      D.Keeps M s (stmt.exec h scope) fun s c => D.Val s c.value
  | .function name params body, s, he, hs, hscope => by
    obtain ⟨hs₁, hv⟩ := D.newClosure (some name) params hs hscope fun hstrict => (he hstrict).2
    refine keeps_bind (keeps_modifyGet (Store.le_newClosure s (some name) params body scope) hs₁
      (Q := fun s id => D.Val s (.function id)) hv) ?_
    intro id s₁ hle₁ hs₁ hv
    refine keeps_bind (keeps_modify (Store.le_bind s₁ scope name (.function id))
      (D.bind name hs₁ (D.scope_mono hle₁ hscope) hv)) ?_
    intro _ s₂ _ hs₂ _
    exact keeps_pure hs₂ (D.val_of_loc?_none rfl)
  | .var name init, s, he, hs, hscope => by
    refine keeps_bind (Expr.eval_keeps hh init (fun hstrict => (he hstrict).2) hs hscope) ?_
    intro v s₁ hle₁ hs₁ hv
    refine keeps_bind (keeps_modify (Store.le_bind s₁ scope name v)
      (D.bind name hs₁ (D.scope_mono hle₁ hscope) hv)) ?_
    intro _ s₂ _ hs₂ _
    exact keeps_pure hs₂ (D.val_of_loc?_none rfl)
  | .cond test consequent none, s, he, hs, hscope => by
    refine keeps_bind (Expr.eval_keeps hh test (fun hstrict => (he hstrict).2.1) hs hscope) ?_
    intro v s₁ hle₁ hs₁ _
    split
    · exact Stmt.exec_keeps hh consequent (fun hstrict => (he hstrict).2.2) hs₁
        (D.scope_mono hle₁ hscope)
    · exact keeps_pure hs₁ (D.val_of_loc?_none rfl)
  | .cond test consequent (some alternate), s, he, hs, hscope => by
    refine keeps_bind (Expr.eval_keeps hh test (fun hstrict => (he hstrict).2.1) hs hscope) ?_
    intro v s₁ hle₁ hs₁ _
    split
    · exact Stmt.exec_keeps hh consequent (fun hstrict => (he hstrict).2.2.1) hs₁
        (D.scope_mono hle₁ hscope)
    · exact Stmt.exec_keeps hh alternate (fun hstrict => (he hstrict).2.2.2) hs₁
        (D.scope_mono hle₁ hscope)
  | .ret none, s, _, hs, _ => keeps_pure hs (D.val_of_loc?_none rfl)
  | .ret (some value), s, he, hs, hscope => by
    refine keeps_bind (Expr.eval_keeps hh value (fun hstrict => (he hstrict).2) hs hscope) ?_
    intro v s₁ _ hs₁ hv
    exact keeps_pure hs₁ hv
  | .block body, s, he, hs, hscope =>
    Stmt.execAll_keeps hh body (fun hstrict => (he hstrict).2) hs hscope
  | .expr e, s, he, hs, hscope => by
    refine keeps_bind (Expr.eval_keeps hh e (fun hstrict => (he hstrict).2) hs hscope) ?_
    intro v s₁ _ hs₁ hv
    exact keeps_pure hs₁ hv

theorem Stmt.execAll_keeps (hh : h.Obeys D M) :
    ∀ (body : List Stmt) {s : Store}, (D.strict → Stmt.WellTargetedAll body) → D.Inv s →
      D.Scope s scope →
      D.Keeps M s (Stmt.execAll h scope body) fun s c => D.Val s c.value
  | [], s, _, hs, _ => keeps_pure hs (D.val_of_loc?_none rfl)
  | stmt :: body, s, he, hs, hscope => by
    refine keeps_bind (Stmt.exec_keeps hh stmt (fun hstrict => (he hstrict).1) hs hscope) ?_
    intro c s₁ hle₁ hs₁ hc
    cases c with
    | returned v => exact keeps_pure hs₁ hc
    | normal v =>
      exact Stmt.execAll_keeps hh body (fun hstrict => (he hstrict).2) hs₁
        (D.scope_mono hle₁ hscope)

end

/-- **Evaluation keeps every discipline**, for programs. -/
theorem Program.exec_keeps (hh : h.Obeys D M) (p : Program) {s : Store} {last : Completion}
    (hp : D.strict → Stmt.WellTargetedAll p) (hs : D.Inv s) (hscope : D.Scope s scope)
    (hlast : D.Val s last.value) :
    D.Keeps M s (Program.exec h scope last p) fun s c => D.Val s c.value := by
  induction p generalizing s last with
  | nil => exact keeps_pure hs hlast
  | cons stmt p ih =>
    refine keeps_bind (Stmt.exec_keeps hh stmt (fun hstrict => (hp hstrict).1) hs hscope) ?_
    intro c s₁ hle₁ hs₁ hc
    cases c with
    | returned v => exact keeps_pure hs₁ hc
    | normal v =>
      exact ih (fun hstrict => (hp hstrict).2) hs₁ (D.scope_mono hle₁ hscope) hc

/-- What becomes of faults keeps the discipline. -/
structure Faults.Obeys (D : Discipline) (M : MonadSpec m) (f : Faults m) : Prop where
  refusedCall : ∀ {s : Store}, D.Inv s → D.Keeps M s f.refusedCall D.Val
  badTarget : ¬ D.strict → ∀ {s : Store}, D.Inv s → D.Keeps M s f.badTarget D.Val

/-- **Evaluation keeps every discipline**, for calls. -/
theorem callWithin_keeps {f : Faults m} (hf : f.Obeys D M) (left : Nat) :
    Host.Obeys D M ⟨callWithin f left, f.badTarget⟩ := by
  induction left with
  | zero => exact ⟨fun hs _ _ => hf.refusedCall hs, hf.badTarget⟩
  | succ left ih =>
    refine ⟨fun {s id args} hs hid hargs => ?_, hf.badTarget⟩
    refine keeps_bind (keeps_reading hs (Q := fun s' found => s' = s ∧ found = s.closures[id]?)
      ⟨rfl, rfl⟩) ?_
    rintro found s' - - ⟨rfl, rfl⟩
    split
    · exact keeps_pure hs (D.val_of_loc?_none rfl)
    · next closure hclosure =>
      obtain ⟨hle₁, hs₁, hscope⟩ := D.enter hs hid hclosure hargs
      obtain ⟨-, -, hbody⟩ := D.newScope hs hid hclosure
      refine keeps_bind (keeps_modifyGet hle₁ hs₁ hscope (Q := D.Scope)) ?_
      intro scope s₁ _ hs₁ hscope
      refine keeps_bind (Stmt.execAll_keeps ih closure.body hbody hs₁ hscope) ?_
      intro c s₂ _ hs₂ hc
      cases c with
      | returned v => exact keeps_pure hs₂ hc
      | normal v => exact keeps_pure hs₂ (D.val_of_loc?_none rfl)

/-- Faults that are values keep every discipline. -/
theorem Faults.asValues_obeys : (Faults.asValues : Faults m).Obeys D M where
  refusedCall hs := keeps_pure hs (D.val_of_loc?_none rfl)
  badTarget _ _ hs := keeps_pure hs (D.val_of_loc?_none rfl)

/-- The surroundings of a program keep every discipline, however many calls may
still be nested. -/
theorem Host.within_obeys (left : Nat) : (Host.within left : Host m).Obeys D M :=
  callWithin_keeps Faults.asValues_obeys left

end Scriptlet
