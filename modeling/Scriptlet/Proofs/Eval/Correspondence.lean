import Scriptlet.Proofs.Eval.Discipline
import Scriptlet.Proofs.Eval.Refusal
import Scriptlet.Proofs.Store.Renaming

/-!
# What two runs keep

A `Correspondence` is for two runs what a `Discipline` is for one: a relation between stores, up to
a renaming that grows, kept by every operation of the store on corresponding scopes and values. The
code is the same in both runs, and so evaluation keeps every correspondence: `Expr.eval_corresponds`
and its companions.

A correspondence may put up with some names only, those of `Name`; then what is proved is about code
that uses no others. Three are used: renamed stores, where every name is allowed (`upToRenaming`), a
store beside one with more bindings at its root, where the names of these are not (`sideBySide`),
and a store beside one with an object more (`lacking`).

The monad is left open. A `MonadPairing` says what it means that two computations end in related
results; where refused calls are written down, these are related too. So one recursion over
expressions and statements serves plain and recorded runs alike.

What has to be shown of a correspondence is two things about cells, that it survives an allocation
in both stores and a write to both, and what can be read. The operations that are made of several,
such as assigning or entering a call, follow from these and are done here.
-/

namespace Scriptlet

open Store

/-- The statements ended in the same way, with renamed values. -/
inductive Completion.Renamed (f : Renaming) : Completion → Completion → Prop
  | normal {v v' : Value} (h : v.Renamed f v') : Renamed f (.normal v) (.normal v')
  | returned {v v' : Value} (h : v.Renamed f v') : Renamed f (.returned v) (.returned v')

/-- If completions are renamed, so are the values in them, whether returned or not. -/
theorem Completion.Renamed.value {f : Renaming} {c c' : Completion} (h : c.Renamed f c') :
    c.value.Renamed f c'.value := by
  cases h with
  | normal h => exact h
  | returned h => exact h

/-! ## Pairs of computations

What it means that two computations belong together, for plain ones and for ones that keep a record.
The evaluator only uses `pure` and `bind`, so only these are asked for.
-/

/-- A way to say of two computations that they end in related results, for a renaming
that relates no less than the one at their start. -/
structure MonadPairing (m : Type → Type) [Monad m] where
  /-- from the renaming on, the computations end in related results -/
  Both : {α β : Type} → Renaming → m α → m β → (Renaming → α → β → Prop) → Prop
  /-- values are their own results -/
  both_pure : ∀ {α β : Type} {f g : Renaming} {a : α} {b : β} {Q : Renaming → α → β → Prop},
    f ≤ g → Q g a b → Both f (pure a) (pure b) Q
  /-- one computation after another -/
  both_bind : ∀ {α β γ δ : Type} {f : Renaming} {x : m α} {y : m β} {k : α → m γ} {l : β → m δ}
    {Q : Renaming → α → β → Prop} {R : Renaming → γ → δ → Prop}, Both f x y Q →
    (∀ g a b, f ≤ g → Q g a b → Both g (k a) (l b) R) → Both f (x >>= k) (y >>= l) R

/-- Plain computations are their results. -/
def MonadPairing.plain : MonadPairing Id where
  Both f x y Q := ∃ g, f ≤ g ∧ Q g x y
  both_pure hle hQ := ⟨_, hle, hQ⟩
  both_bind := by
    rintro α β γ δ f x y k l Q R ⟨g, hle, hQ⟩ hk
    obtain ⟨g', hle', hR⟩ := hk g x y hle hQ
    exact ⟨g', hle.trans hle', hR⟩

/-- The refused calls are of corresponding closures, with renamed arguments. -/
structure Refusal.Renamed (f : Renaming) (r r' : Refusal) : Prop where
  closure : f (.closure r.closure) = some (.closure r'.closure)
  args : List.Forall₂ (Value.Renamed f) r.args r'.args

/-- Refusals that are renamed stay so under a renaming that relates more. -/
theorem Refusal.Renamed.mono {f g : Renaming} {r r' : Refusal} (hle : f ≤ g)
    (h : r.Renamed f r') : r.Renamed g r' :=
  ⟨hle _ _ h.closure, h.args.imp fun _ _ hv => hv.mono hle⟩

/-- Where refused calls are written down, the same calls are refused in the same order. -/
def MonadPairing.recorded : MonadPairing Recorded where
  Both f x y Q :=
    ∃ g, f ≤ g ∧ List.Forall₂ (Refusal.Renamed g) x.refusals y.refusals ∧ Q g x.value y.value
  both_pure hle hQ := ⟨_, hle, .nil, hQ⟩
  both_bind := by
    rintro α β γ δ f x y k l Q R ⟨g, hle, hxy, hQ⟩ hk
    obtain ⟨g', hle', hkl, hR⟩ := hk g x.value y.value hle hQ
    exact ⟨g', hle.trans hle', List.rel_append (hxy.imp fun _ _ h => h.mono hle') hkl, hR⟩

/-! ## Correspondences

A correspondence is given by its invariant and by what every operation of the store does to it.
-/

/-- The code of a closure uses these names only. -/
def Closure.Names (N : String → Prop) (closure : Closure) : Prop :=
  (∀ p ∈ closure.params, N p) ∧ Stmt.NamesAll N closure.body

/-- If the cell is a closure, its code uses these names only. -/
def Cell.Names (N : String → Prop) : Cell → Prop
  | .closure f => f.Names N
  | .scope _ | .object _ => True

/-- A relation between stores that every operation of the store keeps, when it is
applied to corresponding things. -/
structure Correspondence where
  /-- what holds of the stores throughout -/
  Inv : Renaming → Store → Store → Prop
  /-- the names that code may use -/
  Name : String → Prop
  lookup : ∀ {f : Renaming} {s s' : Store} {id id' : ScopeId} {name : String},
    Inv f s s' → f (.scope id) = some (.scope id') → Name name →
    (s.lookup id name).Renamed f (s'.lookup id' name)
  resolve : ∀ {f : Renaming} {s s' : Store} {id id' : ScopeId} {name : String},
    Inv f s s' → f (.scope id) = some (.scope id') → Name name →
    Option.Rel (fun i j => f (.scope i) = some (.scope j)) (s.resolve id name)
      (s'.resolve id' name)
  getProperty : ∀ {f : Renaming} {s s' : Store} {base base' : Value} (key : String),
    Inv f s s' → base.Renamed f base' →
    (s.getProperty base key).Renamed f (s'.getProperty base' key)
  /-- corresponding closures have the same code, which may run -/
  closure : ∀ {f : Renaming} {s s' : Store} {id id' : ClosureId},
    Inv f s s' → f (.closure id) = some (.closure id') →
    ∃ a b, s.closures[id]? = some a ∧ s'.closures[id']? = some b ∧ a.params = b.params ∧
      a.body = b.body ∧ f (.scope a.scope) = some (.scope b.scope) ∧ a.Names Name
  /-- new cells correspond from then on -/
  alloc : ∀ {f : Renaming} {s s' t t' : Store} {ℓ ℓ' : Loc} {c c' : Cell},
    Inv f s s' → s.Allocates ℓ c t → s'.Allocates ℓ' c' t' → c.Renamed f c' → c.Names Name →
    ∃ g, f ≤ g ∧ g ℓ = some ℓ' ∧ Inv g t t'
  /-- a scope is written to under a name of code, anything else under any name -/
  write : ∀ {f : Renaming} {s s' t t' : Store} {ℓ ℓ' : Loc} {name : String} {v v' : Value},
    Inv f s s' → s.Writes ℓ name v t → s'.Writes ℓ' name v' t' → f ℓ = some ℓ' →
    (∀ id, ℓ' = .scope id → Name name) → v.Renamed f v' → Inv f t t'

namespace Correspondence

variable {m : Type → Type} [Monad m] {M : MonadPairing m} {C : Correspondence}
variable {α β γ δ : Type} {f g : Renaming} {s s' : Store}

/-- From two stores, the computations end in stores that correspond and with results that
are related. -/
def Simulates (C : Correspondence) (M : MonadPairing m) (f : Renaming) (s s' : Store)
    (x : Eval m α) (x' : Eval m β) (Q : Renaming → α → β → Prop) : Prop :=
  M.Both f (x s) (x' s') fun g r r' => C.Inv g r.2 r'.2 ∧ Q g r.1 r'.1

/-- A value is its own result, if the stores correspond already. -/
theorem simulates_pure {Q : Renaming → α → β → Prop} {a : α} {b : β} (hs : C.Inv f s s')
    (hQ : Q f a b) : C.Simulates M f s s' (pure a) (pure b) Q :=
  M.both_pure le_rfl ⟨hs, hQ⟩

/-- Computations are chained: what the first ones end in is what the second ones start from. The
renaming may have grown in between, which is why the second ones are asked for every larger
renaming. -/
theorem simulates_bind {Q : Renaming → α → β → Prop} {R : Renaming → γ → δ → Prop}
    {x : Eval m α} {x' : Eval m β} {k : α → Eval m γ} {k' : β → Eval m δ}
    (hx : C.Simulates M f s s' x x' Q)
    (hk : ∀ g a b t t', f ≤ g → C.Inv g t t' → Q g a b →
      C.Simulates M g t t' (k a) (k' b) R) :
    C.Simulates M f s s' (x >>= k) (x' >>= k') R :=
  M.both_bind hx fun g r r' hle hr => hk g r.1 r'.1 r.2 r'.2 hle hr.1 hr.2

/-- One operation of the store in each run, which may have made the renaming grow. -/
theorem simulates_modifyGet {Q : Renaming → α → β → Prop} {x : Store → α × Store}
    {x' : Store → β × Store} (hle : f ≤ g) (hs : C.Inv g (x s).2 (x' s').2)
    (hQ : Q g (x s).1 (x' s').1) : C.Simulates M f s s' (modifyGet x) (modifyGet x') Q :=
  M.both_pure hle ⟨hs, hQ⟩

/-- An operation without a result, for which the renaming stays the same. -/
theorem simulates_modify {x x' : Store → Store} (hs : C.Inv f (x s) (x' s')) :
    C.Simulates M f s s' (modify x) (modify x') fun _ _ _ => True :=
  simulates_modifyGet le_rfl hs trivial

/-- An operation that reads and leaves the stores as they are. -/
theorem simulates_reading {Q : Renaming → α → β → Prop} {x : Store → α} {x' : Store → β}
    (hs : C.Inv f s s') (hQ : Q f (x s) (x' s')) :
    C.Simulates M f s s' (reading x) (reading x') Q :=
  simulates_modifyGet le_rfl hs hQ

/-! Each operation of the store, applied to corresponding things. -/

/-- Both runs make an object. The two correspond from then on. -/
theorem newObject (hs : C.Inv f s s') :
    C.Simulates M f s s' (modifyGet Store.newObject) (modifyGet Store.newObject)
      fun g id id' => g (.object id) = some (.object id') := by
  obtain ⟨g, hle, hid, hs'⟩ :=
    C.alloc hs (newObject_allocates s) (newObject_allocates s') (.object .nil) trivial
  exact simulates_modifyGet hle hs' hid

/-- Both runs make a closure of the same code, in corresponding scopes. The names in the code must
be ones that the correspondence allows, since the closure may be called at any later time. -/
theorem newClosure (hs : C.Inv f s s') {scope scope' : ScopeId}
    (hscope : f (.scope scope) = some (.scope scope')) (name : Option String)
    {params : List String} {body : List Stmt} (hparams : ∀ p ∈ params, C.Name p)
    (hbody : Stmt.NamesAll C.Name body) :
    C.Simulates M f s s' (modifyGet (·.newClosure name params body scope))
      (modifyGet (·.newClosure name params body scope'))
      fun g id id' => g (.closure id) = some (.closure id') := by
  obtain ⟨g, hle, hid, hs'⟩ := C.alloc hs (newClosure_allocates s name params body scope)
    (newClosure_allocates s' name params body scope') (.closure rfl rfl rfl hscope .nil)
    ⟨hparams, hbody⟩
  exact simulates_modifyGet hle hs' hid

/-- Binding an allowed name in corresponding scopes is a write to corresponding cells. -/
theorem bind (hs : C.Inv f s s') {scope scope' : ScopeId}
    (hscope : f (.scope scope) = some (.scope scope')) {name : String} (hname : C.Name name)
    {v v' : Value} (hv : v.Renamed f v') : C.Inv f (s.bind scope name v) (s'.bind scope' name v') :=
  C.write hs (bind_writes s scope name v) (bind_writes s' scope' name v') hscope
    (fun _ _ => hname) hv

/-- Assigning finds corresponding scopes to write to: either both runs resolve the name, to scopes
that correspond, or neither does and both write to the scope at hand. -/
theorem assign (hs : C.Inv f s s') {scope scope' : ScopeId}
    (hscope : f (.scope scope) = some (.scope scope')) {name : String} (hname : C.Name name)
    {v v' : Value} (hv : v.Renamed f v') :
    C.Inv f (s.assign scope name v) (s'.assign scope' name v') := by
  have hres := C.resolve hs hscope hname
  rw [Store.assign, Store.assign]
  generalize s.resolve scope name = x at hres
  generalize s'.resolve scope' name = y at hres
  cases hres with
  | some hij => exact bind hs hij hname hv
  | none => exact bind hs hscope hname hv

/-- Setting a property writes to corresponding cells, if the bases live anywhere at all; otherwise
it does nothing in either run. -/
theorem setProperty (hs : C.Inv f s s') {base base' : Value} (hbase : base.Renamed f base')
    (key : String) {v v' : Value} (hv : v.Renamed f v') :
    C.Inv f (s.setProperty base key v) (s'.setProperty base' key v') := by
  cases hloc : base.loc? with
  | none =>
    obtain rfl : base = base' := by
      cases hbase with
      | plain _ => rfl
      | object _ | function _ => cases hloc
    rw [setProperty_of_loc?_none s key v hloc, setProperty_of_loc?_none s' key v' hloc]
    exact hs
  | some ℓ =>
    obtain ⟨ℓ', hloc', hf⟩ := hbase.loc? hloc
    refine C.write hs (setProperty_writes s key v hloc) (setProperty_writes s' key v' hloc') hf
      ?_ hv
    -- no value lives at a scope
    rintro id rfl
    cases base' <;> cases hloc'

/-- Binding parameters binds one after the other, by induction on them. -/
theorem bindParams (hs : C.Inv f s s') {scope scope' : ScopeId}
    (hscope : f (.scope scope) = some (.scope scope')) {params : List String}
    (hparams : ∀ p ∈ params, C.Name p) {args args' : List Value}
    (hargs : List.Forall₂ (Value.Renamed f) args args') :
    C.Inv f (s.bindParams scope params args) (s'.bindParams scope' params args') := by
  induction params generalizing s s' args args' with
  | nil => exact hs
  | cons p ps ih =>
    obtain ⟨hp, hps⟩ := List.forall_mem_cons.mp hparams
    cases hargs with
    | nil => exact ih (bind hs hscope hp (.plain rfl)) hps .nil
    | cons hv hargs => exact ih (bind hs hscope hp hv) hps hargs

/-- The scopes of two calls of corresponding closures correspond. -/
theorem enter (hs : C.Inv f s s') {a b : Closure} (hparams : a.params = b.params)
    (hscope : f (.scope a.scope) = some (.scope b.scope)) (hnames : ∀ p ∈ a.params, C.Name p)
    {args args' : List Value} (hargs : List.Forall₂ (Value.Renamed f) args args') :
    C.Simulates M f s s' (modifyGet (·.enter a args)) (modifyGet (·.enter b args'))
      fun g scope scope' => g (.scope scope) = some (.scope scope') := by
  obtain ⟨g, hle, hid, hs'⟩ := C.alloc hs (newScope_allocates s a.scope)
    (newScope_allocates s' b.scope) (.scope (.some hscope) .nil) trivial
  have hargs' : List.Forall₂ (Value.Renamed g) args args' := hargs.imp fun _ _ h => h.mono hle
  refine simulates_modifyGet hle ?_ hid
  change C.Inv g (Store.bindParams _ _ a.params args) (Store.bindParams _ _ b.params args')
  rw [← hparams]
  exact bindParams hs' hid hnames hargs'

end Correspondence

open Correspondence

variable {m : Type → Type} [Monad m] {M : MonadPairing m} {C : Correspondence}

/-- Surroundings that keep the correspondence when they are left something to do. -/
structure Host.Corresponds (C : Correspondence) (M : MonadPairing m) (h : Host m) : Prop where
  call : ∀ {f : Renaming} {s s' : Store} {id id' : ClosureId} {args args' : List Value},
    C.Inv f s s' → f (.closure id) = some (.closure id') →
    List.Forall₂ (Value.Renamed f) args args' →
    C.Simulates M f s s' (h.call id args) (h.call id' args') Value.Renamed
  badTarget : ∀ {f : Renaming} {s s' : Store}, C.Inv f s s' →
    C.Simulates M f s s' h.badTarget h.badTarget Value.Renamed

/-! ## Evaluation -/

section

variable {h : Host m}

mutual

/-- **Evaluation keeps every correspondence**, for expressions. -/
theorem Expr.eval_corresponds (hh : h.Corresponds C M) :
    ∀ (e : Expr) {f : Renaming} {s s' : Store} {scope scope' : ScopeId}, e.Names C.Name →
      C.Inv f s s' → f (.scope scope) = some (.scope scope') →
      C.Simulates M f s s' (e.eval h scope) (e.eval h scope') Value.Renamed
  | .literal value, f, s, s', _, _, _, hs, _ => by
    have hloc : (Value.ofLiteral value).loc? = none := by cases value <;> rfl
    exact simulates_pure hs (.plain hloc)
  | .object properties, f, s, s', scope, scope', he, hs, hscope => by
    refine simulates_bind (Correspondence.newObject hs) ?_
    intro g id id' t t' hle ht hid
    refine simulates_bind
      (Expr.evalProperties_corresponds hh properties he.2 ht (hle _ _ hscope) hid) ?_
    intro g' _ _ t t' hle' ht _
    exact simulates_pure ht (.object (hle' _ _ hid))
  | .name n, f, s, s', _, _, he, hs, hscope => simulates_reading hs (C.lookup hs hscope he)
  | .member base key, f, s, s', scope, scope', he, hs, hscope => by
    refine simulates_bind (Expr.eval_corresponds hh base he.2.1 hs hscope) ?_
    intro g object object' t t' hle ht hobject
    -- both runs go the same way, as renamed values have properties or not alike
    rw [← hobject.isObjectLike_eq]
    split
    · refine simulates_bind (Expr.eval_corresponds hh key he.2.2 ht (hle _ _ hscope)) ?_
      intro g' k k' t t' hle' ht hk
      refine simulates_reading ht ?_
      rw [Value.key, Value.key, ← hk.display_eq]
      exact C.getProperty _ ht (hobject.mono hle')
    · exact simulates_pure ht (.plain rfl)
  | .function n params body, f, s, s', scope, scope', he, hs, hscope => by
    refine simulates_bind (Correspondence.newClosure hs hscope n he.1 he.2) ?_
    intro g id id' t t' _ ht hid
    exact simulates_pure ht (.function hid)
  | .call callee args, f, s, s', scope, scope', he, hs, hscope => by
    refine simulates_bind (Expr.eval_corresponds hh callee he.2.1 hs hscope) ?_
    intro g v v' t t' hle ht hv
    -- what is called is a function in both runs, or in neither
    cases hv with
    | function hid =>
      refine simulates_bind (Expr.evalAll_corresponds hh args he.2.2 ht (hle _ _ hscope)) ?_
      intro g' values values' t t' hle' ht hvalues
      exact hh.call ht (hle' _ _ hid) hvalues
    | object _ => exact simulates_pure ht (.plain rfl)
    | plain hloc =>
      cases v with
      | object _ | function _ => cases hloc
      | _ => exact simulates_pure ht (.plain rfl)
  | .binary op left right, f, s, s', scope, scope', he, hs, hscope => by
    refine simulates_bind (Expr.eval_corresponds hh left he.2.1 hs hscope) ?_
    intro g a a' t t' hle ht ha
    refine simulates_bind (Expr.eval_corresponds hh right he.2.2 ht (hle _ _ hscope)) ?_
    intro g' b b' t t' hle' ht hb
    -- an operator looks at no more of its operands than renaming keeps
    rw [← op.apply_renamed (ha.mono hle') hb]
    exact simulates_pure ht (.plain (op.loc?_apply a b))
  | .assign (.name n) value, f, s, s', scope, scope', he, hs, hscope => by
    refine simulates_bind (Expr.eval_corresponds hh value he.2.2 hs hscope) ?_
    intro g v v' t t' hle ht hv
    refine simulates_bind
      (simulates_modify (Correspondence.assign ht (hle _ _ hscope) he.2.1 hv)) ?_
    intro g' _ _ t t' _ ht _
    exact simulates_pure ht (.plain rfl)
  | .assign (.member base key) value, f, s, s', scope, scope', he, hs, hscope => by
    obtain ⟨-, ⟨-, hbase, hkey⟩, hvalue⟩ := he
    refine simulates_bind (Expr.eval_corresponds hh base hbase hs hscope) ?_
    intro g object object' t t' hle ht hobject
    rw [← hobject.isObjectLike_eq]
    split
    · refine simulates_bind (Expr.eval_corresponds hh key hkey ht (hle _ _ hscope)) ?_
      intro g₂ k k' t t' hle₂ ht hk
      refine simulates_bind
        (Expr.eval_corresponds hh value hvalue ht (hle₂ _ _ (hle _ _ hscope))) ?_
      intro g₃ v v' t t' hle₃ ht hv
      rw [Value.key, Value.key, ← hk.display_eq]
      refine simulates_bind (simulates_modify
        (Correspondence.setProperty ht (hobject.mono (hle₂.trans hle₃)) _ hv)) ?_
      intro g₄ _ _ t t' _ ht _
      exact simulates_pure ht (.plain rfl)
    · exact simulates_pure ht (.plain rfl)
  | .assign (.literal _) _, _, _, _, _, _, _, hs, _
  | .assign (.object _) _, _, _, _, _, _, _, hs, _
  | .assign (.function _ _ _) _, _, _, _, _, _, _, hs, _
  | .assign (.call _ _) _, _, _, _, _, _, _, hs, _
  | .assign (.binary _ _ _) _, _, _, _, _, _, _, hs, _
  | .assign (.assign _ _) _, _, _, _, _, _, _, hs, _ => hh.badTarget hs

theorem Expr.evalAll_corresponds (hh : h.Corresponds C M) :
    ∀ (es : List Expr) {f : Renaming} {s s' : Store} {scope scope' : ScopeId},
      Expr.NamesAll C.Name es → C.Inv f s s' → f (.scope scope) = some (.scope scope') →
      C.Simulates M f s s' (Expr.evalAll h scope es) (Expr.evalAll h scope' es)
        fun g => List.Forall₂ (Value.Renamed g)
  | [], f, s, s', _, _, _, hs, _ => simulates_pure hs .nil
  | e :: es, f, s, s', scope, scope', he, hs, hscope => by
    refine simulates_bind (Expr.eval_corresponds hh e he.1 hs hscope) ?_
    intro g v v' t t' hle ht hv
    refine simulates_bind (Expr.evalAll_corresponds hh es he.2 ht (hle _ _ hscope)) ?_
    intro g' vs vs' t t' hle' ht hvs
    exact simulates_pure ht (.cons (hv.mono hle') hvs)

theorem Expr.evalProperties_corresponds (hh : h.Corresponds C M) :
    ∀ (properties : List (String × Expr)) {f : Renaming} {s s' : Store} {scope scope' : ScopeId}
      {id id' : ObjectId}, Expr.NamesProperties C.Name properties → C.Inv f s s' →
      f (.scope scope) = some (.scope scope') → f (.object id) = some (.object id') →
      C.Simulates M f s s' (Expr.evalProperties h scope id properties)
        (Expr.evalProperties h scope' id' properties) fun _ _ _ => True
  | [], f, s, s', _, _, _, _, _, hs, _, _ => simulates_pure hs trivial
  | (key, e) :: properties, f, s, s', scope, scope', id, id', he, hs, hscope, hid => by
    refine simulates_bind (Expr.eval_corresponds hh e he.1 hs hscope) ?_
    intro g v v' t t' hle ht hv
    refine simulates_bind (simulates_modify
      (Correspondence.setProperty ht (.object (hle _ _ hid)) key hv)) ?_
    intro g' _ _ t t' hle' ht _
    exact Expr.evalProperties_corresponds hh properties he.2 ht (hle' _ _ (hle _ _ hscope))
      (hle' _ _ (hle _ _ hid))

end

mutual

/-- **Evaluation keeps every correspondence**, for statements. -/
theorem Stmt.exec_corresponds (hh : h.Corresponds C M) :
    ∀ (stmt : Stmt) {f : Renaming} {s s' : Store} {scope scope' : ScopeId}, stmt.Names C.Name →
      C.Inv f s s' → f (.scope scope) = some (.scope scope') →
      C.Simulates M f s s' (stmt.exec h scope) (stmt.exec h scope') Completion.Renamed
  | .function name params body, f, s, s', scope, scope', he, hs, hscope => by
    obtain ⟨⟨hname, hparams⟩, hbody⟩ := he
    refine simulates_bind (Correspondence.newClosure hs hscope (some name) hparams hbody) ?_
    intro g id id' t t' hle ht hid
    refine simulates_bind (simulates_modify
      (Correspondence.bind ht (hle _ _ hscope) hname (.function hid))) ?_
    intro g' _ _ t t' _ ht _
    exact simulates_pure ht (.normal (.plain rfl))
  | .var name init, f, s, s', scope, scope', he, hs, hscope => by
    refine simulates_bind (Expr.eval_corresponds hh init he.2 hs hscope) ?_
    intro g v v' t t' hle ht hv
    refine simulates_bind (simulates_modify
      (Correspondence.bind ht (hle _ _ hscope) he.1 hv)) ?_
    intro g' _ _ t t' _ ht _
    exact simulates_pure ht (.normal (.plain rfl))
  | .cond test consequent none, f, s, s', scope, scope', he, hs, hscope => by
    refine simulates_bind (Expr.eval_corresponds hh test he.2.1 hs hscope) ?_
    intro g v v' t t' hle ht hv
    rw [← hv.truthy_eq]
    split
    · exact Stmt.exec_corresponds hh consequent he.2.2 ht (hle _ _ hscope)
    · exact simulates_pure ht (.normal (.plain rfl))
  | .cond test consequent (some alternate), f, s, s', scope, scope', he, hs, hscope => by
    obtain ⟨-, htest, hconsequent, halternate⟩ := he
    refine simulates_bind (Expr.eval_corresponds hh test htest hs hscope) ?_
    intro g v v' t t' hle ht hv
    rw [← hv.truthy_eq]
    split
    · exact Stmt.exec_corresponds hh consequent hconsequent ht (hle _ _ hscope)
    · exact Stmt.exec_corresponds hh alternate halternate ht (hle _ _ hscope)
  | .ret none, f, s, s', _, _, _, hs, _ => simulates_pure hs (.returned (.plain rfl))
  | .ret (some value), f, s, s', scope, scope', he, hs, hscope => by
    refine simulates_bind (Expr.eval_corresponds hh value he.2 hs hscope) ?_
    intro g v v' t t' _ ht hv
    exact simulates_pure ht (.returned hv)
  | .block body, f, s, s', scope, scope', he, hs, hscope =>
    Stmt.execAll_corresponds hh body he.2 hs hscope
  | .expr e, f, s, s', scope, scope', he, hs, hscope => by
    refine simulates_bind (Expr.eval_corresponds hh e he.2 hs hscope) ?_
    intro g v v' t t' _ ht hv
    exact simulates_pure ht (.normal hv)

theorem Stmt.execAll_corresponds (hh : h.Corresponds C M) :
    ∀ (body : List Stmt) {f : Renaming} {s s' : Store} {scope scope' : ScopeId},
      Stmt.NamesAll C.Name body → C.Inv f s s' → f (.scope scope) = some (.scope scope') →
      C.Simulates M f s s' (Stmt.execAll h scope body) (Stmt.execAll h scope' body)
        Completion.Renamed
  | [], f, s, s', _, _, _, hs, _ => simulates_pure hs (.normal (.plain rfl))
  | stmt :: body, f, s, s', scope, scope', he, hs, hscope => by
    refine simulates_bind (Stmt.exec_corresponds hh stmt he.1 hs hscope) ?_
    intro g c c' t t' hle ht hc
    cases hc with
    | returned hv => exact simulates_pure ht (.returned hv)
    | normal _ => exact Stmt.execAll_corresponds hh body he.2 ht (hle _ _ hscope)

end

/-- **Evaluation keeps every correspondence**, for programs. -/
theorem Program.exec_corresponds (hh : h.Corresponds C M) (p : Program) {f : Renaming}
    {s s' : Store} {scope scope' : ScopeId} {last last' : Completion}
    (hp : Stmt.NamesAll C.Name p) (hs : C.Inv f s s')
    (hscope : f (.scope scope) = some (.scope scope')) (hlast : last.Renamed f last') :
    C.Simulates M f s s' (Program.exec h scope last p) (Program.exec h scope' last' p)
      Completion.Renamed := by
  induction p generalizing f s s' last last' with
  | nil => exact simulates_pure hs hlast
  | cons stmt p ih =>
    refine simulates_bind (Stmt.exec_corresponds hh stmt hp.1 hs hscope) ?_
    intro g c c' t t' hle ht hc
    cases hc with
    | returned hv => exact simulates_pure ht (.returned hv)
    | normal hv => exact ih hp.2 ht (hle _ _ hscope) (.normal hv)

/-- **Evaluation keeps every correspondence**, for calls: the body runs in a new scope
inside the captured one, and sees nothing of the caller. -/
theorem callInto_corresponds (hh : h.Corresponds C M) {f : Renaming} {s s' : Store}
    {id id' : ClosureId} {args args' : List Value} (hs : C.Inv f s s')
    (hid : f (.closure id) = some (.closure id'))
    (hargs : List.Forall₂ (Value.Renamed f) args args') :
    C.Simulates M f s s' (callInto h id args) (callInto h id' args') Value.Renamed := by
  obtain ⟨a, b, ha, hb, hparams, hbody, hscope, hnames⟩ := C.closure hs hid
  refine simulates_bind (simulates_reading hs
    (Q := fun g x y => g = f ∧ x = some a ∧ y = some b) ⟨rfl, ha, hb⟩) ?_
  rintro _ _ _ t t' - ht ⟨rfl, rfl, rfl⟩
  refine simulates_bind (Correspondence.enter ht hparams hscope hnames.1 hargs) ?_
  intro g scope scope' t t' _ ht hscope
  rw [← hbody]
  refine simulates_bind (Stmt.execAll_corresponds hh a.body hnames.2 ht hscope) ?_
  intro g' c c' t t' _ ht hc
  cases hc with
  | returned hv => exact simulates_pure ht hv
  | normal _ => exact simulates_pure ht (.plain rfl)

end

/-- The surroundings of a program keep every correspondence, however many calls may still
be nested. -/
theorem Host.within_corresponds (left : Nat) : (Host.within left : Host m).Corresponds C M := by
  induction left with
  | zero =>
    exact ⟨fun hs _ _ => simulates_pure hs (.plain rfl), fun hs => simulates_pure hs (.plain rfl)⟩
  | succ left ih => exact ⟨callInto_corresponds ih, fun hs => simulates_pure hs (.plain rfl)⟩

/-- Where refused calls are written down, corresponding calls are refused. -/
theorem Host.recording_corresponds (left : Nat) :
    (Host.recording left).Corresponds C .recorded := by
  induction left with
  | zero =>
    refine ⟨fun {f s s' id id' args args'} hs hid hargs => ?_,
      fun hs => simulates_pure hs (.plain rfl)⟩
    exact ⟨f, le_rfl, .cons ⟨hid, hargs⟩ .nil, hs, .plain rfl⟩
  | succ left ih => exact ⟨callInto_corresponds ih, fun hs => simulates_pure hs (.plain rfl)⟩

end Scriptlet
