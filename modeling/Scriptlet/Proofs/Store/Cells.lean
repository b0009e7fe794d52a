import Mathlib.Order.Basic
import Scriptlet.Store.Basic

/-!
# The store as a heap of cells

Scopes, objects and closures live at three kinds of locations, but for what happens to them they are
alike: each holds values under names, and some are tied to a scope for good. `Store.cell?` is the
view that treats them alike. Seen through it, an operation of the store does one of two things:

* `Store.Allocates` — a cell appears where there was none;
* `Store.Writes` — a value is put under a name in one cell.

Both only extend the store: `s ≤ s'` says that every cell of `s` is still there in `s'`, tied to
what it was tied to, with all its names. Nothing is ever removed.

Invariants of the store are proved for the two shapes of operations, and not for each operation.
That an operation has one of the shapes is said once, in `Store.newScope_allocates` and its like; no
proof further on looks into arrays.
-/

namespace Scriptlet

/-- Where something lives in the store. -/
inductive Loc where
  | scope (id : ScopeId)
  | object (id : ObjectId)
  | closure (id : ClosureId)
deriving DecidableEq

/-- What lives there. -/
inductive Cell where
  | scope (scope : Scope)
  | object (properties : Table Value)
  | closure (closure : Closure)

/-- Where a value lives. Primitive values and errors live nowhere, and are compared by what they
are. -/
def Value.loc? : Value → Option Loc
  | .object id => some (.object id)
  | .function id => some (.closure id)
  | _ => none

/-- Only what has properties lives in the store. -/
theorem Value.loc?_eq_none {v : Value} (h : v.isObjectLike = false) : v.loc? = none := by
  cases v <;> first | rfl | cases h

/-! ## Tables

A table is a list of entries, and is read through `find?`. The lemmas say what putting does to the
names of a table.
-/

namespace Table

variable {α : Type}

/-- Every name of the one table is a name of the other. -/
def Keeps (t t' : Table α) : Prop := ∀ name, t.has name → t'.has name

/-- Putting a value under a name loses no name. -/
theorem keeps_put (t : Table α) (name : String) (value : α) : t.Keeps (t.put name value) := by
  intro other h
  rw [has_put, h, Bool.or_true]

/-- Puts entries into a table, one after the other. -/
def putAll (t : Table α) (entries : List (String × α)) : Table α :=
  entries.foldl (fun t entry => t.put entry.1 entry.2) t

/-- Of several entries with one name, the last one counts. -/
theorem find?_putAll (t : Table α) (entries : List (String × α)) (name : String) :
    (t.putAll entries).find? name = (entries.reverse.lookup name).or (t.find? name) := by
  induction entries generalizing t with
  | nil => rfl
  | cons entry entries ih =>
    obtain ⟨own, value⟩ := entry
    rw [putAll, List.foldl_cons, ← putAll, ih, find?_put, List.reverse_cons, List.lookup_append,
      Option.or_assoc]
    congr 1
    by_cases h : own = name
    · simp [h]
    · simp [List.lookup_cons, h, beq_false_of_ne (Ne.symm h)]

/-- A table has the names of its entries. -/
theorem has_iff {t : Table α} {name : String} : t.has name ↔ name ∈ t.map Prod.fst := by
  induction t with
  | nil => simp [has, find?]
  | cons entry t ih =>
    obtain ⟨own, value⟩ := entry
    by_cases h : own = name
    · simp [has, find?, h]
    · simpa [has, find?, h, Ne.symm h] using ih

/-- The names of a table after something was put into it are those that it had and the one put. -/
theorem mem_names_put {t : Table α} {name other : String} {value : α} :
    other ∈ (t.put name value).map Prod.fst ↔ other = name ∨ other ∈ t.map Prod.fst := by
  rw [← has_iff, ← has_iff, has_put, Bool.or_eq_true, decide_eq_true_iff, eq_comm]

theorem mem_names_putAll {t : Table α} {entries : List (String × α)} {name : String} :
    name ∈ (t.putAll entries).map Prod.fst ↔
      name ∈ entries.map Prod.fst ∨ name ∈ t.map Prod.fst := by
  induction entries generalizing t with
  | nil => simp [putAll]
  | cons entry entries ih =>
    rw [putAll, List.foldl_cons, ← putAll, ih, mem_names_put, List.map_cons, List.mem_cons,
      ← or_assoc, or_comm (a := name = entry.1)]

/-- Putting makes no second entry of a name. -/
theorem nodup_put {t : Table α} (h : (t.map Prod.fst).Nodup) (name : String) (value : α) :
    ((t.put name value).map Prod.fst).Nodup := by
  induction t with
  | nil => exact List.pairwise_singleton _ name
  | cons entry t ih =>
    obtain ⟨own, old⟩ := entry
    obtain ⟨hown, ht⟩ := List.nodup_cons.mp h
    rw [put]
    split
    case isTrue => exact h
    case isFalse hne =>
      refine List.nodup_cons.mpr ⟨fun hmem => ?_, ih ht⟩
      exact (mem_names_put.mp hmem).elim hne hown

/-- Putting several entries makes no second entry of a name either. -/
theorem nodup_putAll {t : Table α} (h : (t.map Prod.fst).Nodup) (entries : List (String × α)) :
    ((t.putAll entries).map Prod.fst).Nodup := by
  induction entries generalizing t with
  | nil => exact h
  | cons entry entries ih => exact ih (nodup_put h entry.1 entry.2)

end Table

/-! ## Cells

The view of what lives in the store, and what is the same for all three kinds of cells.
-/

namespace Cell

/-- The values a cell holds under names. -/
def table : Cell → Table Value
  | .scope s => s.bindings
  | .object properties => properties
  | .closure c => c.properties

/-- What a cell is tied to for good: a scope to the scope around it, a closure to
the scope it captured. -/
def link? : Cell → Option Loc
  | .scope s => s.outer.map .scope
  | .object _ => none
  | .closure c => some (.scope c.scope)

/-- A cell with a value put under a name. -/
def put (c : Cell) (name : String) (v : Value) : Cell :=
  match c with
  | .scope s => .scope { s with bindings := s.bindings.put name v }
  | .object properties => .object (Table.put properties name v)
  | .closure f => .closure { f with properties := f.properties.put name v }

@[simp] theorem table_put (c : Cell) (name : String) (v : Value) :
    (c.put name v).table = c.table.put name v := by
  cases c <;> rfl

@[simp] theorem link?_put (c : Cell) (name : String) (v : Value) :
    (c.put name v).link? = c.link? := by
  cases c <;> rfl

/-- Cell extension: the same cell with the same ties and the same code, and none of its names lost.
The values under the names may have changed. -/
def Le : Cell → Cell → Prop
  | .scope a, .scope b => a.outer = b.outer ∧ a.bindings.Keeps b.bindings
  | .object a, .object b => Table.Keeps a b
  | .closure a, .closure b =>
    a.name = b.name ∧ a.params = b.params ∧ a.body = b.body ∧ a.scope = b.scope ∧
      a.properties.Keeps b.properties
  | _, _ => False

theorem Le.refl (c : Cell) : c.Le c := by
  cases c with
  | scope a => exact ⟨rfl, fun _ h => h⟩
  | object a => exact fun _ h => h
  | closure a => exact ⟨rfl, rfl, rfl, rfl, fun _ h => h⟩

theorem Le.trans {a b c : Cell} (h₁ : a.Le b) (h₂ : b.Le c) : a.Le c := by
  cases a <;> cases b <;> try exact h₁.elim
  all_goals cases c <;> try exact h₂.elim
  case scope.scope.scope =>
    obtain ⟨ho₁, hk₁⟩ := h₁
    obtain ⟨ho₂, hk₂⟩ := h₂
    exact ⟨ho₁.trans ho₂, fun n h => hk₂ n (hk₁ n h)⟩
  case object.object.object => exact fun n h => h₂ n (h₁ n h)
  case closure.closure.closure =>
    obtain ⟨hn₁, hp₁, hb₁, hs₁, hk₁⟩ := h₁
    obtain ⟨hn₂, hp₂, hb₂, hs₂, hk₂⟩ := h₂
    exact ⟨hn₁.trans hn₂, hp₁.trans hp₂, hb₁.trans hb₂, hs₁.trans hs₂,
      fun n h => hk₂ n (hk₁ n h)⟩

/-- Putting a value under a name extends a cell: no name is lost, and nothing but bindings or
properties is changed. -/
theorem le_put (c : Cell) (name : String) (v : Value) : c.Le (c.put name v) := by
  cases c with
  | scope a => exact ⟨rfl, Table.keeps_put _ _ _⟩
  | object a => exact Table.keeps_put _ _ _
  | closure a => exact ⟨rfl, rfl, rfl, rfl, Table.keeps_put _ _ _⟩

end Cell

namespace Store

/-- What lives at a location. -/
def cell? (s : Store) : Loc → Option Cell
  | .scope id => s.scopes[id]?.map .scope
  | .object id => s.objects[id]?.map .object
  | .closure id => s.closures[id]?.map .closure

/-- Whether anything lives at a location. -/
def Has (s : Store) (ℓ : Loc) : Prop := ∃ c, s.cell? ℓ = some c

theorem cell?_scope {s : Store} {id : ScopeId} {scope : Scope} (h : s.scopes[id]? = some scope) :
    s.cell? (.scope id) = some (.scope scope) := by
  rw [cell?, h]
  rfl

theorem cell?_closure {s : Store} {id : ClosureId} {f : Closure} (h : s.closures[id]? = some f) :
    s.cell? (.closure id) = some (.closure f) := by
  rw [cell?, h]
  rfl

/-- What lives at the location of a scope is a scope. -/
theorem Has.scope {s : Store} {id : ScopeId} (h : s.Has (.scope id)) :
    ∃ scope, s.scopes[id]? = some scope := by
  obtain ⟨c, hc⟩ := h
  obtain ⟨scope, hscope, -⟩ := Option.map_eq_some_iff.mp hc
  exact ⟨scope, hscope⟩

/-- The properties of a value are the table of the cell it lives at. A value that lives nowhere has
none. -/
theorem properties?_eq {s : Store} {v : Value} {t : Table Value} (h : s.properties? v = some t) :
    ∃ ℓ c, v.loc? = some ℓ ∧ s.cell? ℓ = some c ∧ c.table = t := by
  cases v with
  | object id =>
    have ht : s.objects[id]? = some t := h
    exact ⟨.object id, .object t, rfl, by rw [cell?, ht]; rfl, rfl⟩
  | function id =>
    obtain ⟨f, hf, rfl⟩ := Option.map_eq_some_iff.mp h
    exact ⟨.closure id, .closure f, rfl, cell?_closure hf, rfl⟩
  | _ => cases h

/-! ## What the operations do

The two shapes of operations, and which operation has which.
-/

/-- A cell appears at a location where there was none, and all others are as they were. -/
structure Allocates (s : Store) (ℓ : Loc) (c : Cell) (s' : Store) : Prop where
  fresh : s.cell? ℓ = none
  cell? : ∀ ℓ', s'.cell? ℓ' = if ℓ' = ℓ then some c else s.cell? ℓ'

/-- A value is put under a name in the cell at a location, if there is one; all others are as they
were. -/
structure Writes (s : Store) (ℓ : Loc) (name : String) (v : Value) (s' : Store) : Prop where
  cell? : ∀ ℓ', s'.cell? ℓ' = if ℓ' = ℓ then (s.cell? ℓ').map (·.put name v) else s.cell? ℓ'

/-- Opening a scope allocates a scope without names, tied to the one around it. -/
theorem newScope_allocates (s : Store) (outer : ScopeId) :
    s.Allocates (.scope (s.newScope outer).1) (.scope ⟨[], some outer⟩) (s.newScope outer).2 where
  fresh := by simp [Store.cell?, newScope]
  cell? ℓ := by
    cases ℓ with
    | scope id =>
      by_cases h : id = s.scopes.size <;> simp [Store.cell?, newScope, Array.getElem?_push, h]
    | object id => simp [Store.cell?, newScope]
    | closure id => simp [Store.cell?, newScope]

/-- Making an object allocates an object without properties. -/
theorem newObject_allocates (s : Store) :
    s.Allocates (.object s.newObject.1) (.object []) s.newObject.2 where
  fresh := by simp [Store.cell?, newObject]
  cell? ℓ := by
    cases ℓ with
    | object id =>
      by_cases h : id = s.objects.size <;> simp [Store.cell?, newObject, Array.getElem?_push, h]
    | scope id => simp [Store.cell?, newObject]
    | closure id => simp [Store.cell?, newObject]

/-- Making a closure allocates a closure that captures the scope. -/
theorem newClosure_allocates (s : Store) (name : Option String) (params : List String)
    (body : List Stmt) (scope : ScopeId) :
    s.Allocates (.closure (s.newClosure name params body scope).1)
      (.closure ⟨name, params, body, scope, []⟩) (s.newClosure name params body scope).2 where
  fresh := by simp [Store.cell?, newClosure]
  cell? ℓ := by
    cases ℓ with
    | closure id =>
      by_cases h : id = s.closures.size <;> simp [Store.cell?, newClosure, Array.getElem?_push, h]
    | scope id => simp [Store.cell?, newClosure]
    | object id => simp [Store.cell?, newClosure]

theorem bind_writes (s : Store) (id : ScopeId) (name : String) (v : Value) :
    s.Writes (.scope id) name v (s.bind id name v) where
  cell? ℓ := by
    cases ℓ with
    | scope id' =>
      by_cases h : id = id'
      · subst h
        cases hs : s.scopes[id]? <;> simp [Store.cell?, bind, Array.getElem?_modify, hs, Cell.put]
      · simp [Store.cell?, bind, Array.getElem?_modify, h, Ne.symm h]
    | object id' => simp [Store.cell?, bind]
    | closure id' => simp [Store.cell?, bind]

/-- A property is set in the cell the value lives at, if it lives anywhere. -/
theorem setProperty_writes (s : Store) {base : Value} {ℓ : Loc} (key : String) (v : Value)
    (h : base.loc? = some ℓ) : s.Writes ℓ key v (s.setProperty base key v) := by
  cases base with
  | object id =>
    obtain rfl := Option.some.inj h
    refine ⟨fun ℓ' => ?_⟩
    cases ℓ' with
    | object id' =>
      by_cases h : id = id'
      · subst h
        cases hs : s.objects[id]? <;>
          simp [Store.cell?, setProperty, Array.getElem?_modify, hs, Cell.put]
      · simp [Store.cell?, setProperty, Array.getElem?_modify, h, Ne.symm h]
    | scope id' => simp [Store.cell?, setProperty]
    | closure id' => simp [Store.cell?, setProperty]
  | function id =>
    obtain rfl := Option.some.inj h
    refine ⟨fun ℓ' => ?_⟩
    cases ℓ' with
    | closure id' =>
      by_cases h : id = id'
      · subst h
        cases hs : s.closures[id]? <;>
          simp [Store.cell?, setProperty, Array.getElem?_modify, hs, Cell.put]
      · simp [Store.cell?, setProperty, Array.getElem?_modify, h, Ne.symm h]
    | scope id' => simp [Store.cell?, setProperty]
    | object id' => simp [Store.cell?, setProperty]
  | _ => cases h

/-- What lives nowhere has no property set. -/
theorem setProperty_of_loc?_none (s : Store) {base : Value} (key : String) (v : Value)
    (h : base.loc? = none) : s.setProperty base key v = s := by
  cases base <;> first | rfl | cases h

/-! ## The order of stores

Extension is a preorder, and every operation goes up in it. This is the simplest invariant of
evaluation: whatever is known to exist goes on to exist.
-/

/-- A store extends another if it has all of its cells, each extended. -/
instance : LE Store where
  le s s' := ∀ ℓ c, s.cell? ℓ = some c → ∃ c', s'.cell? ℓ = some c' ∧ c.Le c'

instance : Preorder Store where
  le_refl _ _ c hc := ⟨c, hc, Cell.Le.refl c⟩
  le_trans _ _ _ h₁ h₂ ℓ first hfirst := by
    obtain ⟨mid, hmid, hle₁⟩ := h₁ ℓ first hfirst
    obtain ⟨last, hlast, hle₂⟩ := h₂ ℓ mid hmid
    exact ⟨last, hlast, hle₁.trans hle₂⟩

variable {s s' : Store} {ℓ : Loc}

/-- What lives in a store lives in its extensions. -/
theorem Has.mono (hle : s ≤ s') (h : s.Has ℓ) : s'.Has ℓ := by
  obtain ⟨c, hc⟩ := h
  obtain ⟨c', hc', -⟩ := hle ℓ c hc
  exact ⟨c', hc'⟩

/-- A new cell extends the store, since no other one changes. -/
theorem Allocates.le {c : Cell} (h : s.Allocates ℓ c s') : s ≤ s' := by
  intro ℓ' c' hc'
  refine ⟨c', ?_, Cell.Le.refl c'⟩
  rw [h.cell?, if_neg, hc']
  rintro rfl
  rw [h.fresh] at hc'
  cases hc'

theorem Allocates.has {c : Cell} (h : s.Allocates ℓ c s') : s'.Has ℓ :=
  ⟨c, by rw [h.cell?, if_pos rfl]⟩

theorem Writes.le {name : String} {v : Value} (h : s.Writes ℓ name v s') : s ≤ s' := by
  intro ℓ' c hc
  by_cases hℓ : ℓ' = ℓ
  · exact ⟨c.put name v, by rw [h.cell?, if_pos hℓ, hc]; rfl, Cell.le_put c name v⟩
  · exact ⟨c, by rw [h.cell?, if_neg hℓ, hc], Cell.Le.refl c⟩

theorem le_newScope (s : Store) (outer : ScopeId) : s ≤ (s.newScope outer).2 :=
  (newScope_allocates s outer).le

theorem le_newObject (s : Store) : s ≤ s.newObject.2 := (newObject_allocates s).le

theorem le_newClosure (s : Store) (name : Option String) (params : List String)
    (body : List Stmt) (scope : ScopeId) : s ≤ (s.newClosure name params body scope).2 :=
  (newClosure_allocates s name params body scope).le

theorem le_bind (s : Store) (id : ScopeId) (name : String) (v : Value) :
    s ≤ s.bind id name v :=
  (bind_writes s id name v).le

theorem le_setProperty (s : Store) (base : Value) (key : String) (v : Value) :
    s ≤ s.setProperty base key v := by
  cases h : base.loc? with
  | none => rw [setProperty_of_loc?_none s key v h]
  | some ℓ => exact (setProperty_writes s key v h).le

end Store

end Scriptlet
