import Mathlib.Logic.Relation
import Scriptlet.Proofs.Eval.Frame
import Scriptlet.Script

/-!
# What every client sees

A client works on a store from outside. It starts with the global scope, and each step applies one
operation to scopes and values it has come by before; running code is one operation among others.
However the steps are ordered, the store stays well-formed and only grows: no scope moves, no
closure changes its code, no name and no property is lost. So a name that was once resolved is
resolved ever after, to the same scope or to a nearer one (`Client.store_grows`).

A client cannot make up a reference. Its `Step` takes scopes and values from the lists of those it
holds, and adds what it gets to them; that is what `Client.Sound` says of every client that can be
reached: its store is well-formed, and all it holds exists there.

* `Client.Step.sound`: one operation keeps a client sound and its store growing. Each of the
  operations has its lemma with the store or with the evaluator, so there is one line for each.
* `Client.Reaches.sound`: the same of any number of operations, by induction.
* `Client.store_grows`: what this means for the cells of the store, for the chains of scopes and for
  the resolution of names.
-/

namespace Scriptlet

open Store

/-- A store, and the scopes and values a client of it has come by. -/
structure Client where
  store : Store
  scopes : List ScopeId
  values : List Value

namespace Client

/-- A client at its start: a fresh global scope. -/
def initial : Client := ⟨.initial, [globalScope], []⟩

/-- The client when an operation has changed the store. -/
def withStore (c : Client) (s : Store) : Client := { c with store := s }

/-- The client when an operation has given it a scope. -/
def withScope (c : Client) (r : ScopeId × Store) : Client := ⟨r.2, r.1 :: c.scopes, c.values⟩

/-- The client when an operation has given it a value. -/
def withValue (c : Client) (r : Value × Store) : Client := ⟨r.2, c.scopes, r.1 :: c.values⟩

/-- One operation, applied to what the client has. -/
inductive Step (c : Client) : Client → Prop where
  -- operations of the store
  | newScope {outer : ScopeId} : outer ∈ c.scopes → Step c (c.withScope (c.store.newScope outer))
  | bind {scope : ScopeId} {v : Value} (name : String) : scope ∈ c.scopes → v ∈ c.values →
    Step c (c.withStore (c.store.bind scope name v))
  | assign {scope : ScopeId} {v : Value} (name : String) : scope ∈ c.scopes → v ∈ c.values →
    Step c (c.withStore (c.store.assign scope name v))
  | setProperty {base v : Value} (key : String) : base ∈ c.values → v ∈ c.values →
    Step c (c.withStore (c.store.setProperty base key v))
  -- running code
  | expression {scope : ScopeId} (e : Expr) : scope ∈ c.scopes →
    Step c (c.withValue (e.run scope c.store))
  | statement {scope : ScopeId} (stmt : Stmt) : scope ∈ c.scopes →
    Step c (c.withValue ((stmt.run scope c.store).map Completion.value id))
  | block {scope : ScopeId} (body : List Stmt) : scope ∈ c.scopes →
    Step c (c.withValue ((Stmt.runAll body scope c.store).map Completion.value id))
  | program {scope : ScopeId} (p : Program) : scope ∈ c.scopes →
    Step c (c.withValue (p.run scope c.store))
  | call {id : ClosureId} {args : List Value} : .function id ∈ c.values →
    (∀ v ∈ args, v ∈ c.values) → Step c (c.withValue (c.store.call id args))
  -- coming by scopes and values without changing anything
  | primitive {v : Value} : v.loc? = none → Step c (c.withValue (v, c.store))
  | lookup {scope : ScopeId} (name : String) : scope ∈ c.scopes →
    Step c (c.withValue (c.store.lookup scope name, c.store))
  | getProperty {base : Value} (key : String) : base ∈ c.values →
    Step c (c.withValue (c.store.getProperty base key, c.store))
  | resolve {scope holder : ScopeId} {name : String} : scope ∈ c.scopes →
    c.store.resolve scope name = some holder → Step c (c.withScope (holder, c.store))
  | outer {id outer : ScopeId} {scope : Scope} : id ∈ c.scopes →
    c.store.scopes[id]? = some scope → scope.outer = some outer →
    Step c (c.withScope (outer, c.store))
  | captured {id : ClosureId} {f : Closure} : .function id ∈ c.values →
    c.store.closures[id]? = some f → Step c (c.withScope (f.scope, c.store))

/-- Any number of operations one after the other. -/
abbrev Reaches : Client → Client → Prop := Relation.ReflTransGen Step

/-- The store is well-formed, and what the client has exists in it. -/
structure Sound (c : Client) : Prop where
  store : c.store.WellFormed
  scopes : ∀ id ∈ c.scopes, c.store.Has (.scope id)
  values : ∀ v ∈ c.values, c.store.HasValue v

/-- A client that has done nothing yet holds the global scope of an empty store, which exists. -/
theorem sound_initial : initial.Sound where
  store := wellFormed_initial
  scopes id hid := by
    obtain rfl := List.mem_singleton.mp hid
    exact ⟨.scope ⟨[], none⟩, rfl⟩
  values _ hv := nomatch hv

variable {c c' : Client}

namespace Sound

/-- An operation that changes the store and gives nothing back: what the client holds exists in
every larger store. -/
theorem withStore (h : c.Sound) {s : Store} (hle : c.store ≤ s) (hs : s.WellFormed) :
    (c.withStore s).Sound where
  store := hs
  scopes id hid := (h.scopes id hid).mono hle
  values v hv ℓ hℓ := (h.values v hv ℓ hℓ).mono hle

/-- An operation that gives a scope adds it to those the client holds, and it exists. -/
theorem withScope (h : c.Sound) {r : ScopeId × Store} (hle : c.store ≤ r.2)
    (hs : r.2.WellFormed) (hr : r.2.Has (.scope r.1)) : (c.withScope r).Sound where
  store := hs
  scopes id hid := by
    rcases List.mem_cons.mp hid with rfl | hid
    · exact hr
    · exact (h.scopes id hid).mono hle
  values v hv ℓ hℓ := (h.values v hv ℓ hℓ).mono hle

/-- An operation that gives a value adds it to those the client holds. What has to be known of the
operation is in `Store.Grows`, which is how the evaluator is specified. -/
theorem withValue (h : c.Sound) {r : Value × Store} (hr : c.store.Grows r HasValue) :
    (c.withValue r).Sound where
  store := hr.wellFormed
  scopes id hid := (h.scopes id hid).mono hr.le
  values v hv ℓ hℓ := by
    rcases List.mem_cons.mp hv with rfl | hv
    · exact hr.result ℓ hℓ
    · exact (h.values v hv ℓ hℓ).mono hr.le

/-- A value that is read comes with the store as it is. -/
theorem withRead (h : c.Sound) {v : Value} (hv : c.store.HasValue v) :
    (c.withValue (v, c.store)).Sound :=
  h.withValue ⟨le_rfl, h.store, hv⟩

/-- Scopes that the client holds belong to the region of everything. This is the form in which the
operations of the store ask for them. -/
theorem inside (h : c.Sound) {id : ScopeId} (hid : id ∈ c.scopes) :
    Inside Set.univ c.store (.scope id) :=
  ⟨Set.mem_univ _, h.scopes id hid⟩

/-- Values that the client holds belong to the region of everything, as the operations of the store
ask. -/
theorem valueInside (h : c.Sound) {v : Value} (hv : v ∈ c.values) :
    ValueInside Set.univ c.store v :=
  valueInside_univ.mpr (h.values v hv)

end Sound

/-- **One operation of a client** loses nothing and leaves everything sound: the store after it
extends the store before, and whatever the client may ask for next is in it. -/
theorem Step.sound (h : c.Step c') (hc : c.Sound) : c.store ≤ c'.store ∧ c'.Sound := by
  have hconf := hc.store.confined
  cases h with
  | @newScope outer houter =>
    obtain ⟨hs, hin⟩ := hconf.newScope (hc.inside houter)
    have hle := le_newScope c.store outer
    exact ⟨hle, hc.withScope hle hs.wellFormed hin.2⟩
  | @bind scope v name hscope hv =>
    -- operations of the store keep to the region of everything, and so references stay good
    have hs := (confinement _ _).bind name hconf (hc.inside hscope) (hc.valueInside hv)
    have hle := le_bind c.store scope name v
    exact ⟨hle, hc.withStore hle hs.wellFormed⟩
  | @assign scope v name hscope hv =>
    have hs := (confinement _ _).assign name hconf (hc.inside hscope) (hc.valueInside hv)
    have hle : c.store ≤ c.store.assign scope name v := le_bind c.store _ name v
    exact ⟨hle, hc.withStore hle hs.wellFormed⟩
  | @setProperty base v key hbase hv =>
    have hs := (confinement _ _).setProperty key hconf (hc.valueInside hbase) (hc.valueInside hv)
    have hle := le_setProperty c.store base key v
    exact ⟨hle, hc.withStore hle hs.wellFormed⟩
  | expression e hscope =>
    rw [Expr.run_eq]
    have hr := Expr.eval_grows callLimit e hc.store (hc.scopes _ hscope)
    exact ⟨hr.le, hc.withValue hr⟩
  | statement stmt hscope =>
    rw [Stmt.run_eq]
    obtain ⟨hle, hwf, hres⟩ := Stmt.exec_grows callLimit stmt hc.store (hc.scopes _ hscope)
    exact ⟨hle, hc.withValue ⟨hle, hwf, hres⟩⟩
  | block body hscope =>
    rw [Stmt.runAll_eq]
    obtain ⟨hle, hwf, hres⟩ := Stmt.execAll_grows callLimit body hc.store (hc.scopes _ hscope)
    exact ⟨hle, hc.withValue ⟨hle, hwf, hres⟩⟩
  | program p hscope =>
    rw [Program.run_eq]
    -- the value that a program begins with lives nowhere
    have hlast : c.store.HasValue (Completion.normal .undefined).value := by rintro ℓ ⟨⟩
    obtain ⟨hle, hwf, hres⟩ := Program.exec_grows callLimit p hc.store (hc.scopes _ hscope) hlast
    exact ⟨hle, hc.withValue ⟨hle, hwf, hres⟩⟩
  | call hid hargs =>
    rw [Store.call_eq]
    have hr := Host.call_grows callLimit hc.store (hc.values _ hid _ rfl) fun v hv =>
      hc.values v (hargs v hv)
    exact ⟨hr.le, hc.withValue hr⟩
  | primitive hv => exact ⟨le_rfl, hc.withRead (valueInside_univ.mp (valueInside_of_loc?_none hv))⟩
  | lookup name hscope =>
    exact ⟨le_rfl, hc.withRead (valueInside_univ.mp (hconf.lookup name (hc.inside hscope)))⟩
  | getProperty key hbase =>
    exact ⟨le_rfl, hc.withRead (valueInside_univ.mp (hconf.getProperty key (hc.valueInside hbase)))⟩
  | resolve hscope hr =>
    exact ⟨le_rfl, hc.withScope le_rfl hc.store (hconf.resolve (hc.inside hscope) hr).2⟩
  | outer _ hs ho =>
    have hrefers : c.store.Refers (.scope _) (.scope _) :=
      ⟨_, cell?_scope hs, .inl (congrArg (Option.map Loc.scope) ho)⟩
    exact ⟨le_rfl, hc.withScope le_rfl hc.store (hc.store.has hrefers)⟩
  | captured _ hf =>
    have hrefers : c.store.Refers (.closure _) (.scope _) := ⟨_, cell?_closure hf, .inl rfl⟩
    exact ⟨le_rfl, hc.withScope le_rfl hc.store (hc.store.has hrefers)⟩

/-- **Any number of operations** lose nothing and leave everything sound, by induction on the run
with `Step.sound` for each operation. -/
theorem Reaches.sound (h : c.Reaches c') (hc : c.Sound) : c.store ≤ c'.store ∧ c'.Sound := by
  induction h with
  | refl => exact ⟨le_rfl, hc⟩
  | tail _ hstep ih =>
    obtain ⟨hle, hmid⟩ := ih
    obtain ⟨hle', hlast⟩ := hstep.sound hmid
    exact ⟨hle.trans hle', hlast⟩

/-- **The store of a client only grows.** Whatever operations lead from a fresh
global scope to one client and on to another: everything the first refers to or
has exists; going outwards from any scope comes to an end without meeting a scope
twice; nothing of the first store is changed but by new values under names, old
or new; and a name that the first one resolves is resolved by the second, to the
same scope or to one that comes before it on the way outwards. -/
theorem store_grows (hc : initial.Reaches c) (hc' : c.Reaches c') :
    (∀ ℓ ℓ', c.store.Refers ℓ ℓ' → c.store.Has ℓ') ∧
    (∀ id ∈ c.scopes, c.store.Has (.scope id)) ∧ (∀ v ∈ c.values, c.store.HasValue v) ∧
    c.store ≤ c'.store ∧
    ∀ id, c.store.Has (.scope id) → ∃ l, c.store.Chain id l ∧ l.Nodup ∧
      ∀ name holder, c.store.resolve id name = some holder →
        ∃ holder' near far, c'.store.resolve id name = some holder' ∧
          l = near ++ holder' :: far ∧ holder ∈ holder' :: far := by
  obtain ⟨-, hsound⟩ := hc.sound sound_initial
  obtain ⟨hle, -⟩ := hc'.sound hsound
  refine ⟨fun _ _ => hsound.store.has, hsound.scopes, hsound.values, hle, ?_⟩
  intro id hid
  obtain ⟨l, hl⟩ := hsound.store.chain hid
  exact ⟨l, hl, hl.nodup, fun name holder hr => hl.resolve_mono hle hr⟩

/-- A name bound in the global scope and then in a scope inside it: seen from there,
it is resolved first to the outer scope and then to the nearer one. -/
theorem store_grows_shadowing : ∃ c c', initial.Reaches c ∧ c.Reaches c' ∧
    c.store.resolve 1 "x" = some 0 ∧ c'.store.resolve 1 "x" = some 1 ∧ c.store ≤ c'.store := by
  let c₁ := initial.withValue (.null, initial.store)
  let c₂ := c₁.withStore (c₁.store.bind globalScope "x" .null)
  let c₃ := c₂.withScope (c₂.store.newScope globalScope)
  let c₄ := c₃.withStore (c₃.store.bind 1 "x" .null)
  have h₁ : initial.Step c₁ := .primitive rfl
  have h₂ : c₁.Step c₂ := .bind "x" (.head _) (.head _)
  have h₃ : c₂.Step c₃ := .newScope (.head _)
  have h₄ : c₃.Step c₄ := .bind "x" (.head _) (.head _)
  have hc₃ : initial.Reaches c₃ := ((Relation.ReflTransGen.single h₁).tail h₂).tail h₃
  have hc₄ : c₃.Reaches c₄ := .single h₄
  exact ⟨c₃, c₄, hc₃, hc₄, rfl, rfl, (store_grows hc₃ hc₄).2.2.2.1⟩

end Client

end Scriptlet
