import Scriptlet.Proofs.Eval.Discipline
import Scriptlet.Proofs.Store.Region

/-!
# The frame law

Working inside a region is a discipline (`confinement`), so evaluation stays inside every region it
starts in. For the region of everything this says that evaluation keeps stores well-formed; for the
region of what is reachable from the roots it is the frame law `evaluation_framed`: what cannot be
reached is not touched, and what can be reached afterwards could be reached before or is new. It is
why two counters made by the same function do not disturb each other.

* `Expr.eval_grows` and its companions are the first of these, and the specification of the
  evaluator that other modules use: from a well-formed store it leaves a larger one that is
  well-formed, with a result that exists in it.
* `Store.Framed.of_keeps` turns the second into the frame law, for any computation: the region of
  what is reachable from the roots is closed under following references, so nothing outside it can
  ever turn up.
-/

namespace Scriptlet

open Store

/-- Working inside a region from `s₀` on. -/
def confinement (R : Set Loc) (s₀ : Store) : Discipline where
  Inv s := Confined R s₀ s
  Scope s id := Inside R s (.scope id)
  Val s v := ValueInside R s v
  strict := False
  scope_mono := Inside.mono
  val_mono := ValueInside.mono
  val_of_loc?_none := valueInside_of_loc?_none
  lookup name hs hid := hs.lookup name hid
  resolve hs hid hr := hs.resolve hid hr
  getProperty key hs hbase := hs.getProperty key hbase
  newObject {s} hs := by
    have ha := newObject_allocates s
    refine ⟨hs.alloc ha ?_, ?_⟩
    · rintro ℓ (hlink | ⟨name, v, hv, -⟩)
      · cases hlink
      · cases hv
    · intro ℓ hℓ
      obtain rfl := Option.some.inj hℓ
      exact ⟨hs.mem_of_fresh ha.fresh, ha.has⟩
  newClosure {s scope} name params body hs hscope _ := by
    have ha := newClosure_allocates s name params body scope
    refine ⟨hs.alloc ha ?_, ?_⟩
    · rintro ℓ (hlink | ⟨name, v, hv, -⟩)
      · obtain rfl := Option.some.inj hlink
        exact hscope
      · cases hv
    · intro ℓ hℓ
      obtain rfl := Option.some.inj hℓ
      exact ⟨hs.mem_of_fresh ha.fresh, ha.has⟩
  newScope {s id closure} hs hid hclosure := by
    -- the scope around the new one is the captured one
    obtain ⟨hs', hin⟩ := hs.newScope
      (hs.closed _ (hid _ rfl).1 _ ⟨_, cell?_closure hclosure, .inl rfl⟩)
    exact ⟨hs', hin, False.elim⟩
  bind {s id} name v hs hid hv := hs.write (bind_writes s id name v) hid.1 hv
  setProperty {s base} key v hs hbase hv := by
    cases hloc : base.loc? with
    | none =>
      rw [setProperty_of_loc?_none s key v hloc]
      exact hs
    | some ℓ => exact hs.write (setProperty_writes s key v hloc) (hbase ℓ hloc).1 hv

/-! ## Well-formedness

What confinement to the region of everything says: references lead to something, and all that
existed still does.
-/

/-- In a well-formed store, a valid value belongs to the region of everything. -/
theorem valueInside_univ {s : Store} {v : Value} : ValueInside Set.univ s v ↔ s.HasValue v :=
  ⟨fun h ℓ hℓ => (h ℓ hℓ).2, fun h ℓ hℓ => ⟨Set.mem_univ ℓ, h ℓ hℓ⟩⟩

/-- What a computation does to a well-formed store: it keeps it well-formed, loses
nothing, and has a result that exists. -/
structure Store.Grows {α : Type} (s : Store) (r : α × Store) (Q : Store → α → Prop) : Prop where
  le : s ≤ r.2
  wellFormed : r.2.WellFormed
  result : Q r.2 r.1

/-- A computation that keeps to the region of everything grows the store, with a result of which as
much is known as the discipline gives. -/
theorem Store.Grows.of_keeps {α : Type} {s : Store} {x : Eval Id α} {Q Q' : Store → α → Prop}
    (h : (confinement Set.univ s).Keeps .plain s x Q) (hQ : ∀ s a, Q s a → Q' s a) :
    s.Grows (x s) Q' := by
  obtain ⟨hle, hconf, hres⟩ := h
  exact ⟨hle, hconf.wellFormed, hQ _ _ hres⟩

section

variable {s : Store} {scope : ScopeId}

/-- **The specification of evaluation**: an expression, evaluated in a scope of a well-formed store,
leaves a larger one that is well-formed, and its value exists there. -/
theorem Expr.eval_grows (left : Nat) (e : Expr) (hs : s.WellFormed)
    (hscope : s.Has (.scope scope)) :
    s.Grows ((e.eval (Host.within left) scope : Eval Id Value) s) HasValue :=
  .of_keeps (Expr.eval_keeps (Host.within_obeys left) e False.elim hs.confined
    ⟨Set.mem_univ _, hscope⟩) fun _ _ => valueInside_univ.mp

/-- A statement leaves a larger store that is well-formed, and completes with a value that exists
there. -/
theorem Stmt.exec_grows (left : Nat) (stmt : Stmt) (hs : s.WellFormed)
    (hscope : s.Has (.scope scope)) :
    s.Grows ((stmt.exec (Host.within left) scope : Eval Id Completion) s)
      fun s c => s.HasValue c.value :=
  .of_keeps (Stmt.exec_keeps (Host.within_obeys left) stmt False.elim hs.confined
    ⟨Set.mem_univ _, hscope⟩) fun _ _ => valueInside_univ.mp

theorem Stmt.execAll_grows (left : Nat) (body : List Stmt) (hs : s.WellFormed)
    (hscope : s.Has (.scope scope)) :
    s.Grows ((Stmt.execAll (Host.within left) scope body : Eval Id Completion) s)
      fun s c => s.HasValue c.value :=
  .of_keeps (Stmt.execAll_keeps (Host.within_obeys left) body False.elim hs.confined
    ⟨Set.mem_univ _, hscope⟩) fun _ _ => valueInside_univ.mp

/-- A program leaves a larger store that is well-formed, with a value that exists there if the value
that it begins with exists. -/
theorem Program.exec_grows (left : Nat) (p : Program) {last : Completion} (hs : s.WellFormed)
    (hscope : s.Has (.scope scope)) (hlast : s.HasValue last.value) :
    s.Grows ((Program.exec (Host.within left) scope last p : Eval Id Completion) s)
      fun s c => s.HasValue c.value :=
  .of_keeps (Program.exec_keeps (Host.within_obeys left) p False.elim hs.confined
    ⟨Set.mem_univ _, hscope⟩ (valueInside_univ.mpr hlast)) fun _ _ => valueInside_univ.mp

/-- A call leaves a larger store that is well-formed, with a value that exists there, if its closure
and its arguments exist. -/
theorem Host.call_grows (left : Nat) {id : ClosureId} {args : List Value} (hs : s.WellFormed)
    (hid : s.Has (.closure id)) (hargs : ∀ v ∈ args, s.HasValue v) :
    s.Grows ((Host.within left : Host Id).call id args s) HasValue := by
  refine .of_keeps ((Host.within_obeys left).call hs.confined (valueInside_univ.mpr ?_)
    fun v hv => valueInside_univ.mpr (hargs v hv)) fun _ _ => valueInside_univ.mp
  intro ℓ hℓ
  obtain rfl := Option.some.inj hℓ
  exact hid

end

/-! ## The frame law

The same discipline, for the region of what can be reached from where the run starts.
-/

/-- Where a value lives, as a set. -/
def Value.locs (v : Value) : Set Loc := { ℓ | v.loc? = some ℓ }

/-- What a computation that starts from `roots` may do to the store. -/
structure Store.Framed (s : Store) (roots : Set Loc) (result : Value) (s' : Store) : Prop where
  /-- what cannot be reached from the roots is not touched -/
  unchanged : ∀ ℓ, s.Has ℓ → ¬ s.Reachable roots ℓ → s'.cell? ℓ = s.cell? ℓ
  /-- what can be reached afterwards, from the roots or the result, could be reached
  before or is new -/
  reachable : ∀ ℓ, s'.Reachable (roots ∪ result.locs) ℓ →
    s.Reachable roots ℓ ∨ ¬ s.Has ℓ ∧ s'.Has ℓ

/-- Working inside what is reachable from the roots obeys the frame law. -/
theorem Store.Framed.of_keeps {α : Type} {s : Store} {roots : Set Loc} {x : Eval Id α}
    (value : α → Value) (hroots : ∀ ℓ ∈ roots, s.Has ℓ)
    (h : (confinement (s.regionOf roots) s).Keeps .plain s x
      fun s' a => ValueInside (s.regionOf roots) s' (value a)) :
    s.Framed roots (value (x s).1) (x s).2 := by
  obtain ⟨hle, hconf, hv⟩ := h
  refine ⟨fun ℓ hℓ hnot => ?_, fun ℓ hr => ?_⟩
  · refine (hconf.outside ℓ ?_).2
    rintro (hr | hfresh)
    · exact hnot hr
    · exact hfresh hℓ
  · have hin : Inside (s.regionOf roots) (x s).2 ℓ := by
      refine Reachable.subset (R := { ℓ | Inside (s.regionOf roots) (x s).2 ℓ }) ?_ ?_ hr
      · rintro ℓ' (hroot | hres)
        · exact ⟨.inl (.root hroot), (hroots ℓ' hroot).mono hle⟩
        · exact hv ℓ' hres
      · exact fun ℓ₁ hin₁ ℓ₂ hr₂ => hconf.closed ℓ₁ hin₁.1 ℓ₂ hr₂
    exact hin.1.imp_right fun hfresh => ⟨hfresh, hin.2⟩

theorem Store.inside_regionOf {s : Store} {roots : Set Loc} {ℓ : Loc} (hℓ : ℓ ∈ roots)
    (hhas : s.Has ℓ) : Inside (s.regionOf roots) s ℓ :=
  ⟨.inl (.root hℓ), hhas⟩

/-- **The frame law.** In a well-formed store, however many calls may still be
nested, expressions, statements and blocks touch nothing that cannot be reached
from their scope, and calls nothing that cannot be reached from the closure and
the arguments; and what can be reached afterwards could be reached before or is
new. -/
theorem evaluation_framed {s : Store} (hs : s.WellFormed) (left : Nat) :
    (∀ (e : Expr) (scope : ScopeId), s.Has (.scope scope) →
      let r := (e.eval (Host.within left) scope : Eval Id Value) s
      s.Framed {.scope scope} r.1 r.2) ∧
    (∀ (stmt : Stmt) (scope : ScopeId), s.Has (.scope scope) →
      let r := (stmt.exec (Host.within left) scope : Eval Id Completion) s
      s.Framed {.scope scope} r.1.value r.2) ∧
    (∀ (body : List Stmt) (scope : ScopeId), s.Has (.scope scope) →
      let r := (Stmt.execAll (Host.within left) scope body : Eval Id Completion) s
      s.Framed {.scope scope} r.1.value r.2) ∧
    ∀ (id : ClosureId) (args : List Value), s.Has (.closure id) → (∀ v ∈ args, s.HasValue v) →
      let r := (Host.within left : Host Id).call id args s
      s.Framed ({.closure id} ∪ { ℓ | ∃ v ∈ args, v.loc? = some ℓ }) r.1 r.2 := by
  have hroot : ∀ {scope : ScopeId}, s.Has (.scope scope) →
      ∀ ℓ ∈ ({.scope scope} : Set Loc), s.Has ℓ := by
    rintro scope hscope ℓ rfl
    exact hscope
  refine ⟨?_, ?_, ?_, ?_⟩
  · intro e scope hscope
    exact .of_keeps id (hroot hscope) (Expr.eval_keeps (Host.within_obeys left) e False.elim
      (hs.confined_regionOf _) (inside_regionOf (Set.mem_singleton _) hscope))
  · intro stmt scope hscope
    exact .of_keeps Completion.value (hroot hscope) (Stmt.exec_keeps (Host.within_obeys left) stmt
      False.elim (hs.confined_regionOf _) (inside_regionOf (Set.mem_singleton _) hscope))
  · intro body scope hscope
    exact .of_keeps Completion.value (hroot hscope) (Stmt.execAll_keeps (Host.within_obeys left)
      body False.elim (hs.confined_regionOf _) (inside_regionOf (Set.mem_singleton _) hscope))
  · intro id args hid hargs
    refine .of_keeps (fun v => v) ?_ ((Host.within_obeys left).call (hs.confined_regionOf _) ?_ ?_)
    · rintro ℓ (rfl | ⟨v, hv, hℓ⟩)
      · exact hid
      · exact hargs v hv ℓ hℓ
    · intro ℓ hℓ
      obtain rfl := Option.some.inj hℓ
      exact inside_regionOf (.inl rfl) hid
    · intro v hv ℓ hℓ
      exact inside_regionOf (.inr ⟨v, hv, hℓ⟩) (hargs v hv ℓ hℓ)

/-- From the global scope, a scope inside it cannot be reached: an assignment to a
global name leaves it alone. -/
theorem evaluation_framed_inner_scope :
    let s := (initial.newScope globalScope).2
    let r := ((Expr.assign (.name "x") (.literal .null)).eval (Host.within 1) globalScope :
      Eval Id Value) s
    s.WellFormed ∧ s.Has (.scope 1) ∧ ¬ s.Reachable {.scope globalScope} (.scope 1) ∧
      s.Framed {.scope globalScope} r.1 r.2 ∧ r.2.cell? (.scope 1) = s.cell? (.scope 1) := by
  intro s r
  have hglobal : s.Has (.scope globalScope) := ⟨.scope ⟨[], none⟩, rfl⟩
  have hinner : s.Has (.scope 1) := ⟨.scope ⟨[], some globalScope⟩, rfl⟩
  have hs : s.WellFormed :=
    (wellFormed_initial.confined.newScope ⟨Set.mem_univ _, ⟨.scope ⟨[], none⟩, rfl⟩⟩).1.wellFormed
  have hunreachable : ¬ s.Reachable {.scope globalScope} (.scope 1) := by
    intro hr
    have hmem : Loc.scope 1 ∈ ({.scope globalScope} : Set Loc) :=
      hr.subset (fun _ h => h) (by
        rintro _ rfl ℓ ⟨c, hc, hm⟩
        obtain rfl := Option.some.inj hc
        rcases hm with hlink | ⟨name, v, hv, -⟩
        · cases hlink
        · cases hv)
    cases hmem
  have hframed :=
    (evaluation_framed hs 1).1 (.assign (.name "x") (.literal .null)) globalScope hglobal
  exact ⟨hs, hinner, hunreachable, hframed, hframed.unchanged _ hinner hunreachable⟩

end Scriptlet
