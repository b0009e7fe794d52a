import Scriptlet.Proofs.Eval.Plain
import Scriptlet.Proofs.Eval.Renaming

/-!
# Objects under construction

The object of an object literal exists before its initial values are evaluated, but nothing refers
to it until it is the value of the literal. So evaluating the initial values is the same as
evaluating them in a store that lacks the object (`Store.Lacks`), up to where cells live: it neither
sees the object nor changes it. This is a correspondence (`lacking`), which evaluation keeps, for as
long as the object has the same properties; between two initial values a property is added
(`Store.Lacks.put`).

The properties of the finished object are therefore those that the literal lists, whatever its
initial values do (`object_built_apart`).

* `Store.Lacks` relates a store to one that has the object besides. New cells, writes to other cells
  and new properties of the object keep it.
* `Expr.Initialises` is the course that the evaluation of the literal takes: one initial value after
  the other, none of which sees the object.
* `Expr.evalProperties_initialises` shows this by induction on the properties, with the run in the
  store that lacks the object beside it.
-/

namespace Scriptlet

open Store

/-! ## Stores that lack an object

The relation is a renaming that leaves out a single cell of the second store. What makes it last is
that nothing refers to that cell, so no operation can ever get at it.
-/

/-- The first store lacks the object of the second that has the given properties, and has all of
its other cells, as the renaming relates them. -/
structure Store.Lacks (id : ObjectId) (properties : Table Value) (f : Renaming)
    (s s' : Store) : Prop where
  /-- cells that are related are alike -/
  renamed : s.Renamed f s'
  object : s'.cell? (.object id) = some (.object properties)
  /-- nothing stands for the object -/
  apart : ∀ ℓ, f ℓ ≠ some (.object id)
  /-- but for everything else -/
  total : ∀ ℓ, s.Has ℓ → ∃ ℓ', f ℓ = some ℓ'
  onto : ∀ ℓ', s'.Has ℓ' → ℓ' ≠ .object id → ∃ ℓ, f ℓ = some ℓ'

namespace Store.Lacks

variable {id : ObjectId} {properties : Table Value} {f : Renaming} {s s' t t' : Store}
variable {ℓ ℓ' : Loc} {name : String} {v v' : Value}

/-- What is new is not the object. -/
theorem ne_of_fresh (h : s.Lacks id properties f s') (hfresh : s'.cell? ℓ' = none) :
    ℓ' ≠ .object id := by
  rintro rfl
  rw [h.object] at hfresh
  cases hfresh

/-- **New cells** that both stores make for the same purpose are related from then on, and the first
store still lacks the object and nothing else. -/
theorem alloc (h : s.Lacks id properties f s') {c c' : Cell} (ha : s.Allocates ℓ c t)
    (ha' : s'.Allocates ℓ' c' t') (hc : c.Renamed f c') :
    ∃ g, f ≤ g ∧ g ℓ = some ℓ' ∧ t.Lacks id properties g t' := by
  have hne := h.ne_of_fresh ha'.fresh
  have hle := Renaming.le_extend (h.renamed.fresh ha.fresh) (h.renamed.fresh_symm ha'.fresh)
  have hself := Renaming.extend_self (h.renamed.fresh ha.fresh) (h.renamed.fresh_symm ha'.fresh)
  refine ⟨_, hle, hself, h.renamed.extend ha ha' hc, ?_, fun x => ?_, fun x ⟨d, hd⟩ => ?_,
    fun y ⟨d, hd⟩ hy => ?_⟩
  · rw [ha'.cell?, if_neg hne.symm, h.object]
  · rw [Renaming.extend_apply]
    split
    · exact fun heq => hne (Option.some.inj heq)
    · exact h.apart x
  · rw [ha.cell?] at hd
    split at hd
    · next hx => exact ⟨ℓ', hx ▸ hself⟩
    · obtain ⟨y, hy⟩ := h.total x ⟨d, hd⟩
      exact ⟨y, hle _ _ hy⟩
  · rw [ha'.cell?] at hd
    split at hd
    · next hy => exact ⟨ℓ, hy ▸ hself⟩
    · obtain ⟨x, hx⟩ := h.onto y ⟨d, hd⟩ hy
      exact ⟨x, hle _ _ hx⟩

theorem has_of_writes (hw : s.Writes ℓ name v t) {x : Loc} (hx : t.Has x) : s.Has x := by
  obtain ⟨d, hd⟩ := hx
  rw [hw.cell?] at hd
  split at hd
  · obtain ⟨c, hc, -⟩ := Option.map_eq_some_iff.mp hd
    exact ⟨c, hc⟩
  · exact ⟨d, hd⟩

/-- **The same value written** to related cells leaves the object alone: its cell is not among those
that the renaming relates, so the write does not reach it. -/
theorem write (h : s.Lacks id properties f s') (hw : s.Writes ℓ name v t)
    (hw' : s'.Writes ℓ' name v' t') (hℓ : f ℓ = some ℓ') (hv : v.Renamed f v') :
    t.Lacks id properties f t' where
  renamed := h.renamed.write hw hw' hℓ hv
  object := by
    have hne : Loc.object id ≠ ℓ' := by
      rintro rfl
      exact h.apart ℓ hℓ
    rw [hw'.cell?, if_neg hne, h.object]
  apart := h.apart
  total x hx := h.total x (has_of_writes hw hx)
  onto y hy := h.onto y (has_of_writes hw' hy)

/-- **A property put into the object** is not seen in the store that lacks it. Only the cell of the
object changes, and the other store has no such cell. -/
theorem put (h : s.Lacks id properties f s') (key : String) (v : Value) :
    s.Lacks id (properties.put key v) f (s'.setProperty (.object id) key v) := by
  have hw := @setProperty_writes s' (.object id) _ key v rfl
  refine ⟨⟨fun {x y} hxy => ?_, h.renamed.chain⟩, ?_, h.apart, h.total,
    fun y hy => h.onto y (has_of_writes hw hy)⟩
  · obtain ⟨c, c', hc, hc', hrel⟩ := h.renamed.cells hxy
    refine ⟨c, c', hc, ?_, hrel⟩
    rw [hw.cell?, if_neg, hc']
    rintro rfl
    exact h.apart x hxy
  · rw [hw.cell?, if_pos rfl, h.object]
    rfl

/-- Nothing refers to the object, if it does not do so itself. -/
theorem not_refers (h : s.Lacks id properties f s')
    (hself : ¬(Cell.object properties).Mentions (.object id)) (y : Loc) :
    ¬s'.Refers y (.object id) := by
  intro hrefers
  by_cases hy : y = .object id
  · subst hy
    obtain ⟨c, hc, hm⟩ := hrefers
    obtain rfl := Option.some.inj (h.object.symm.trans hc)
    exact hself hm
  · have hhas : s'.Has y := hrefers.imp fun _ hc => hc.1
    obtain ⟨x, hx⟩ := h.onto y hhas hy
    obtain ⟨z, -, hz⟩ := h.renamed.symm.refers (f.eq_some_iff.mpr hx) hrefers
    exact h.apart z (f.eq_some_iff.mp hz)

/-- A value that stands for another is not the object. -/
theorem value_ne (h : s.Lacks id properties f s') (hv : v.Renamed f v') : v' ≠ .object id := by
  rintro rfl
  cases hv with
  | plain hloc => cases hloc
  | object hid => exact h.apart _ hid

end Store.Lacks

/-- What a cell mentions stands for itself, so it is renamed to itself. -/
theorem Cell.renamed_self {f : Renaming} {c : Cell} (h : ∀ ℓ, c.Mentions ℓ → f ℓ = some ℓ) :
    c.Renamed f c := by
  have htable : c.table.Renamed f c.table := by
    intro name
    cases hv : c.table.find? name with
    | none => exact .none
    | some v =>
      refine .some ?_
      cases v with
      | object id => exact .object (h _ (.inr ⟨name, _, hv, rfl⟩))
      | function id => exact .function (h _ (.inr ⟨name, _, hv, rfl⟩))
      | _ => exact .plain rfl
  cases c with
  | scope scope =>
    refine .scope ?_ htable
    cases ho : scope.outer with
    | none => exact .none
    | some outer => exact .some (h _ (.inl (by rw [Cell.link?, ho]; rfl)))
  | object properties => exact .object htable
  | closure closure => exact .closure rfl rfl rfl (h _ (.inl rfl)) htable

open Classical in
/-- The cells of a store, each of which stands for itself. -/
noncomputable def Store.itself (s : Store) : Renaming := PEquiv.ofSet { ℓ | s.Has ℓ }

/-- Every cell of the store stands for itself. -/
theorem Store.itself_of_has {s : Store} {ℓ : Loc} (h : s.Has ℓ) : s.itself ℓ = some ℓ :=
  if_pos h

open Classical in
/-- What stands for something in `Store.itself` is a cell of the store and stands for nothing
else. -/
theorem Store.eq_of_itself {s : Store} {ℓ ℓ' : Loc} (h : s.itself ℓ = some ℓ') :
    ℓ = ℓ' ∧ s.Has ℓ := by
  have h : (if s.Has ℓ then some ℓ else none) = some ℓ' := h
  split at h
  · next hhas => exact ⟨Option.some.inj h, hhas⟩
  · cases h

/-- Before a new object, a store lacks it. -/
theorem Store.WellFormed.lacks_newObject {s : Store} (hs : s.WellFormed) :
    s.Lacks s.newObject.1 [] s.itself s.newObject.2 := by
  have ha := newObject_allocates s
  refine ⟨⟨fun {ℓ ℓ'} hℓ => ?_, fun {id id'} hid => ?_⟩, ?_, fun ℓ hℓ => ?_,
    fun ℓ hℓ => ⟨ℓ, itself_of_has hℓ⟩, fun ℓ' ⟨c, hc⟩ hne => ⟨ℓ', itself_of_has ?_⟩⟩
  · obtain ⟨rfl, c, hc⟩ := eq_of_itself hℓ
    obtain ⟨c', hc', -⟩ := ha.le ℓ c hc
    have hne : ℓ ≠ .object s.newObject.1 := by
      rintro rfl
      rw [ha.fresh] at hc
      cases hc
    rw [ha.cell?, if_neg hne, hc] at hc'
    refine ⟨c, c, hc, ?_, Cell.renamed_self fun ℓ' hm => itself_of_has (hs.has ⟨c, hc, hm⟩)⟩
    rw [ha.cell?, if_neg hne, hc]
  · exact hs.chain (eq_of_itself hid).2
  · rw [ha.cell?, if_pos rfl]
  · obtain ⟨rfl, c, hc⟩ := eq_of_itself hℓ
    rw [ha.fresh] at hc
    cases hc
  · rw [ha.cell?, if_neg hne] at hc
    exact ⟨c, hc⟩

/-- A store and one that lacks an object correspond, for all code, as long as the object has the
same properties. -/
def lacking (id : ObjectId) (properties : Table Value) : Correspondence where
  Inv := Store.Lacks id properties
  Name _ := True
  lookup hs hid _ := hs.renamed.lookup hid _
  resolve hs hid _ := hs.renamed.resolve hid _
  getProperty key hs hbase := hs.renamed.getProperty hbase key
  closure hs hid := by
    obtain ⟨a, b, ha, hb, hparams, hbody, hscope⟩ := hs.renamed.closure hid
    exact ⟨a, b, ha, hb, hparams, hbody, hscope, fun _ _ => trivial,
      Stmt.namesAll_of_forall (fun _ => trivial) a.body⟩
  alloc hs ha ha' hc _ := hs.alloc ha ha' hc
  write hs hw hw' hℓ _ hv := hs.write hw hw' hℓ hv

/-! ## Initial values

The object is evaluated into while the relation says that it cannot be seen.
-/

/-- An evaluation from `s` to the value `v` and the store `t` neither sees nor changes the
object: it exists before, is the same afterwards, and nothing refers to it all the while. -/
structure Store.Unseen (id : ObjectId) (s : Store) (v : Value) (t : Store) : Prop where
  has : s.Has (.object id)
  unchanged : t.cell? (.object id) = s.cell? (.object id)
  before : ∀ ℓ, ¬s.Refers ℓ (.object id)
  after : ∀ ℓ, ¬t.Refers ℓ (.object id)
  value : v ≠ .object id

/-- From the first store to the last, the initial values are evaluated in order, each once and in
the store that the one before it left, and put into the object, which no evaluation sees. -/
inductive Expr.Initialises (host : Host Id) (scope : ScopeId) (id : ObjectId) :
    Store → List (String × Expr) → List Value → Store → Prop where
  | done {s : Store} : Initialises host scope id s [] [] s
  | step {s t s' : Store} {key : String} {e : Expr} {v : Value}
    {properties : List (String × Expr)} {values : List Value}
    (eval : e.eval host scope s = (v, t)) (unseen : s.Unseen id v t)
    (rest : Initialises host scope id (t.setProperty (.object id) key v) properties values s') :
    Initialises host scope id s ((key, e) :: properties) (v :: values) s'

section

variable {id : ObjectId} {scope : ScopeId} {f : Renaming} {s s' : Store} {table : Table Value}

/-- A value other than the object can be put into it. -/
theorem Table.not_mentions_put {v : Value}
    (hself : ¬(Cell.object table).Mentions (.object id)) (key : String) (hv : v ≠ .object id) :
    ¬(Cell.object (table.put key v)).Mentions (.object id) := by
  intro hm
  rcases Cell.mentions_put (c := .object table) hm with hm | hloc
  · exact hself hm
  · cases v with
    | object id' =>
      obtain rfl := Loc.object.inj (Option.some.inj hloc)
      exact hv rfl
    | _ => cases hloc

/-- **One initial value** is evaluated as if there were no object, and does not see it: the store
that it leaves still lacks the object, with the properties it had. -/
theorem Expr.eval_unseen (left : Nat) (e : Expr) (h : s.Lacks id table f s')
    (hscope : f (.scope scope) = some (.scope scope))
    (hself : ¬(Cell.object table).Mentions (.object id)) :
    let r := (e.eval (Host.within left) scope : Eval Id Value) s
    let r' := (e.eval (Host.within left) scope : Eval Id Value) s'
    s'.Unseen id r'.1 r'.2 ∧
      ∃ g, f ≤ g ∧ r.1.Renamed g r'.1 ∧ r.2.Lacks id table g r'.2 := by
  obtain ⟨g, hle, hlacks, hv⟩ := Expr.eval_corresponds (C := lacking id table) (M := .plain)
    (Host.within_corresponds left) e (Expr.names_of_forall (fun _ => trivial) e) h hscope
  refine ⟨⟨⟨_, h.object⟩, ?_, h.not_refers hself, hlacks.not_refers hself, hlacks.value_ne hv⟩,
    g, hle, hv, hlacks⟩
  exact (Lacks.object hlacks).trans h.object.symm

/-- **All initial values** are evaluated one after the other as if there were no object, and the
object has at the end the properties put into it in this order, by induction on the properties with
`Expr.eval_unseen` for each value. -/
theorem Expr.evalProperties_initialises (left : Nat) (properties : List (String × Expr))
    (h : s.Lacks id table f s') (hscope : f (.scope scope) = some (.scope scope))
    (hself : ¬(Cell.object table).Mentions (.object id)) :
    let r := (Expr.evalAll (Host.within left) scope (properties.map Prod.snd) :
      Eval Id (List Value)) s
    let r' := (Expr.evalProperties (Host.within left) scope id properties : Eval Id Unit) s'
    ∃ g values, f ≤ g ∧ List.Forall₂ (Value.Renamed g) r.1 values ∧
      Expr.Initialises (Host.within left) scope id s' properties values r'.2 ∧
      r.2.Lacks id (table.putAll ((properties.map Prod.fst).zip values)) g r'.2 := by
  induction properties generalizing f s s' table with
  | nil => exact ⟨f, [], le_rfl, .nil, .done, h⟩
  | cons property properties ih =>
    obtain ⟨key, e⟩ := property
    obtain ⟨hunseen, g, hle, hv, hlacks⟩ := Expr.eval_unseen left e h hscope hself
    obtain ⟨g', values, hle', hvalues, hrest, hlast⟩ := ih (hlacks.put key _) (hle _ _ hscope)
      (Table.not_mentions_put hself key hunseen.value)
    exact ⟨g', _ :: values, hle.trans hle', .cons (hv.mono hle') hvalues,
      .step rfl hunseen hrest, hlast⟩

end

/-- **Object literals are built apart.** In a well-formed store, however many calls may still be
nested, the value of an object literal is an object that did not exist before. Its initial values
are evaluated in order, each once, in the scope of the literal and in the store the one before it
left, and none of them sees or changes the object, creates it or has it as its value. In the end
its properties are those of the literal, the last one counting where a key is repeated; and the
initial values and the rest of the store are what they would have been without the object. -/
theorem object_built_apart {s : Store} (hs : s.WellFormed) {scope : ScopeId}
    (hscope : s.Has (.scope scope)) (left : Nat) (properties : List (String × Expr)) :
    let r := ((Expr.object properties).eval (Host.within left) scope : Eval Id Value) s
    let r₀ := (Expr.evalAll (Host.within left) scope (properties.map Prod.snd) :
      Eval Id (List Value)) s
    ∃ id values table, r.1 = .object id ∧ ¬s.Has (.object id) ∧ s.newObject.1 = id ∧
      Expr.Initialises (Host.within left) scope id s.newObject.2 properties values r.2 ∧
      r.2.objects[id]? = some table ∧
      (∀ key, table.find? key = ((properties.map Prod.fst).zip values).reverse.lookup key) ∧
      ∃ g : Renaming, (∀ ℓ, s.Has ℓ → g ℓ = some ℓ) ∧
        List.Forall₂ (Value.Renamed g) r₀.1 values ∧ r₀.2.Lacks id table g r.2 := by
  intro r r₀
  have hempty : ¬(Cell.object []).Mentions (.object s.newObject.1) := by
    rintro (hlink | ⟨name, v, hv, -⟩)
    · cases hlink
    · cases hv
  obtain ⟨g, values, hle, hvalues, hinit, hlacks⟩ := Expr.evalProperties_initialises left
    properties hs.lacks_newObject (itself_of_has hscope) hempty
  refine ⟨s.newObject.1, values, _, rfl, ?_, rfl, hinit, ?_, fun key => ?_, g,
    fun ℓ hℓ => hle _ _ (itself_of_has hℓ), hvalues, hlacks⟩
  · rintro ⟨c, hc⟩
    rw [(newObject_allocates s).fresh] at hc
    cases hc
  · obtain ⟨table, htable, hcell⟩ := Option.map_eq_some_iff.mp hlacks.object
    rw [Cell.object.inj hcell] at htable
    exact htable
  · rw [Table.find?_putAll, Table.find?, Option.or_none]

/-- Of a key that is listed twice the last value counts, here one that an initial value before it
has assigned. -/
theorem object_built_apart_repeated_key :
    let properties : List (String × Expr) := [("a", .object []),
      ("b", .assign (.name "x") (.literal (.string "last"))), ("a", .name "x")]
    let r := ((Expr.object properties).eval (Host.within 1) globalScope : Eval Id Value) .initial
    r.1 = .object 0 ∧ ∃ table, r.2.objects[0]? = some table ∧
      table.find? "a" = some (.string "last") ∧ table.find? "b" = some .undefined ∧
      table.find? "c" = none := by
  intro properties r
  have hscope : Store.initial.Has (.scope globalScope) := ⟨.scope ⟨[], none⟩, rfl⟩
  obtain ⟨id, values, table, hr, -, rfl, hinit, htable, hfind, -⟩ :=
    object_built_apart wellFormed_initial hscope 1 properties
  have hvalues : values = [.object 1, .undefined, .string "last"] := by
    change Expr.Initialises _ _ _ _ [(_, _), (_, _), (_, _)] values _ at hinit
    obtain _ | ⟨⟨⟩, -, hinit⟩ := hinit
    obtain _ | ⟨⟨⟩, -, hinit⟩ := hinit
    obtain _ | ⟨⟨⟩, -, ⟨⟩⟩ := hinit
    rfl
  subst hvalues
  exact ⟨hr, table, htable, (hfind "a").trans rfl, (hfind "b").trans rfl, (hfind "c").trans rfl⟩

end Scriptlet
