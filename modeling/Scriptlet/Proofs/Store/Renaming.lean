import Mathlib.Data.List.Forall2
import Mathlib.Data.PEquiv
import Scriptlet.Proofs.Store.Region

/-!
# Stores up to renaming

Where a cell lives says nothing about a program but which cells are the same. A `Renaming` is a
partial bijection of locations; values, tables and cells are renamed if they are alike but for the
locations in them, which correspond. `Store.Renamed f s s'` says this of all the cells that `f`
relates, and is the invariant of two runs side by side:

* what is read in the one store is what is read in the other, renamed (`Store.Renamed.lookup`,
  `Store.Renamed.getProperty`);
* the same write in both keeps them renamed (`Store.Renamed.write`);
* new cells in both extend the renaming by one pair (`Store.Renamed.alloc`).

Cells that `f` does not relate are not spoken of, so they may differ at will.

The renaming has to be a bijection because values are compared by identity: two references that are
one in one run must be one in the other (`Value.Renamed.sameKindEquals_eq`). It is partial so that
it can begin with the roots of what is compared, and grow with what the runs allocate. As the
library has partial bijections, with their order and inverses, little of this is about renamings as
such.
-/

namespace Scriptlet

/-- A renaming of locations: which location of one store stands for which of another. -/
abbrev Renaming := Loc ≃. Loc

/-! ## Values

Renamed values behave alike in all operations, down to the texts that are made of them.
-/

/-- The values are the same but for where they live, which corresponds. What lives nowhere is the
same. -/
inductive Value.Renamed (f : Renaming) : Value → Value → Prop
  | plain {v : Value} (h : v.loc? = none) : Renamed f v v
  | object {a b : ObjectId} (h : f (.object a) = some (.object b)) :
    Renamed f (.object a) (.object b)
  | function {a b : ClosureId} (h : f (.closure a) = some (.closure b)) :
    Renamed f (.function a) (.function b)

namespace Value.Renamed

variable {f g : Renaming} {v v' w w' : Value}

/-- A renaming that relates more relates the same values. -/
theorem mono (hle : f ≤ g) (h : v.Renamed f v') : v.Renamed g v' := by
  cases h with
  | plain h => exact .plain h
  | object h => exact .object (hle _ _ h)
  | function h => exact .function (hle _ _ h)

/-- Where one value lives, the other lives at the corresponding place. -/
theorem loc? (h : v.Renamed f v') {ℓ : Loc} (hℓ : v.loc? = some ℓ) :
    ∃ ℓ', v'.loc? = some ℓ' ∧ f ℓ = some ℓ' := by
  cases h with
  | plain h =>
    rw [h] at hℓ
    cases hℓ
  | object h =>
    obtain rfl := Option.some.inj hℓ
    exact ⟨_, rfl, h⟩
  | function h =>
    obtain rfl := Option.some.inj hℓ
    exact ⟨_, rfl, h⟩

/-- Read backwards, a renaming relates the values backwards. -/
theorem symm (h : v.Renamed f v') : v'.Renamed f.symm v := by
  cases h with
  | plain h => exact .plain h
  | object h => exact .object (f.eq_some_iff.mpr h)
  | function h => exact .function (f.eq_some_iff.mpr h)

/-! Nothing but identity looks at where a value lives. -/

/-- Renamed values cannot be told apart by a script, other than by comparing where they live: they
have the same kind, and by the lemmas that follow the same text and the same use as conditions,
bases and operands. -/
theorem typeName_eq (h : v.Renamed f v') : v.typeName = v'.typeName := by
  cases h <;> rfl

theorem display_eq (h : v.Renamed f v') : v.display = v'.display := by
  cases h <;> rfl

theorem truthy_eq (h : v.Renamed f v') : v.truthy = v'.truthy := by
  cases h <;> rfl

theorem isObjectLike_eq (h : v.Renamed f v') : v.isObjectLike = v'.isObjectLike := by
  cases h <;> rfl

theorem isNullish_eq (h : v.Renamed f v') : v.isNullish = v'.isNullish := by
  cases h <;> rfl

/-- One is an error if the other is. -/
theorem isError_eq (h : v.Renamed f v') : v.isError = v'.isError := by
  cases h <;> rfl

/-- An error is the same error. -/
theorem eq_of_isError (h : v.Renamed f v') (he : v.isError) : v = v' := by
  cases h with
  | plain _ => rfl
  | object _ | function _ => cases he

/-- A renaming is one to one, so it keeps apart what is apart. -/
theorem beq_eq {mk : Nat → Loc} (hmk : Function.Injective mk) {a a' b b' : Nat}
    (ha : f (mk a) = some (mk a')) (hb : f (mk b) = some (mk b')) :
    (a == b) = (a' == b') := by
  have hiff : a = b ↔ a' = b' := by
    refine ⟨?_, ?_⟩
    · rintro rfl
      exact hmk (Option.some.inj (ha.symm.trans hb))
    · rintro rfl
      exact hmk (f.inj ha hb)
  by_cases hab : a = b
  · rw [beq_iff_eq.mpr hab, beq_iff_eq.mpr (hiff.mp hab)]
  · rw [beq_eq_false_iff_ne.mpr hab, beq_eq_false_iff_ne.mpr fun h => hab (hiff.mpr h)]

/-- **Comparison commutes with renaming**, identity of objects and functions included: a renaming
relates each cell to one cell only, in both directions. -/
theorem sameKindEquals_eq (hv : v.Renamed f v') (hw : w.Renamed f w') :
    v.sameKindEquals w = v'.sameKindEquals w' := by
  cases hv with
  | plain hv =>
    cases hw with
    | plain _ => rfl
    | object _ | function _ => cases v <;> first | rfl | cases hv
  | object hv =>
    cases hw with
    | plain hw => cases w <;> first | rfl | cases hw
    | object hw => exact congrArg some (beq_eq (fun _ _ => Loc.object.inj) hv hw)
    | function _ => rfl
  | function hv =>
    cases hw with
    | plain hw => cases w <;> first | rfl | cases hw
    | object _ => rfl
    | function hw => exact congrArg some (beq_eq (fun _ _ => Loc.closure.inj) hv hw)

/-- The loose comparison gives the same answer, or the same error. -/
theorem looseEquals_eq (hv : v.Renamed f v') (hw : w.Renamed f w') :
    v.looseEquals w = v'.looseEquals w' := by
  rw [looseEquals, looseEquals, ← hv.isNullish_eq, ← hw.isNullish_eq, ← hv.isError_eq,
    ← hw.isError_eq, ← sameKindEquals_eq hv hw, ← hv.typeName_eq, ← hw.typeName_eq]
  split
  · rfl
  · split
    · next he => exact hv.eq_of_isError he
    · split
      · next he => exact hw.eq_of_isError he
      · rfl

end Value.Renamed

/-- **Operators commute with renaming**: the result is the same, as an operator looks at no more of
its operands than what kind of values they are, how they are displayed and whether they are the
same. -/
theorem BinaryOp.apply_renamed {f : Renaming} {v v' w w' : Value} (op : BinaryOp)
    (hv : v.Renamed f v') (hw : w.Renamed f w') : op.apply v w = op.apply v' w' := by
  cases op with
  | looseEquals => exact Value.Renamed.looseEquals_eq hv hw
  | strictEquals =>
    exact congrArg (fun o => Value.boolean (o.getD false)) (Value.Renamed.sameKindEquals_eq hv hw)
  | add | subtract | lessThan =>
    cases hv with
    | plain hv =>
      cases hw with
      | plain _ => rfl
      | object _ | function _ => cases v <;> rfl
    | object _ | function _ => cases hw <;> rfl

/-! ## Tables and cells

Tables are compared by what is found in them, not by the order of their entries.
-/

section

variable {α β : Type} {R : α → β → Prop} {x : Option α} {y : Option β}

theorem rel_imp {R' : α → β → Prop} (h : Option.Rel R x y) (himp : ∀ {a b}, R a b → R' a b) :
    Option.Rel R' x y := by
  cases h with
  | some h => exact .some (himp h)
  | none => exact .none

theorem rel_symm {R' : β → α → Prop} (h : Option.Rel R x y) (himp : ∀ {a b}, R a b → R' b a) :
    Option.Rel R' y x := by
  cases h with
  | some h => exact .some (himp h)
  | none => exact .none

theorem isSome_eq_of_rel (h : Option.Rel R x y) : x.isSome = y.isSome := by
  cases h <;> rfl

theorem exists_of_rel (h : Option.Rel R x y) {a : α} (ha : x = some a) :
    ∃ b, y = some b ∧ R a b := by
  cases h with
  | some h =>
    obtain rfl := Option.some.inj ha
    exact ⟨_, rfl, h⟩
  | none => cases ha

end

/-- The tables have the same names, with renamed values under them. The order of the names may
differ. -/
def Table.Renamed (f : Renaming) (t t' : Table Value) : Prop :=
  ∀ name, Option.Rel (Value.Renamed f) (t.find? name) (t'.find? name)

namespace Table.Renamed

variable {f g : Renaming} {t t' : Table Value}

theorem nil : Table.Renamed f [] [] := fun _ => .none

theorem mono (hle : f ≤ g) (h : t.Renamed f t') : t.Renamed g t' :=
  fun name => rel_imp (h name) (Value.Renamed.mono hle)

/-- Putting corresponding values under one name into renamed tables keeps them renamed. -/
theorem put (h : t.Renamed f t') (name : String) {v v' : Value} (hv : v.Renamed f v') :
    (t.put name v).Renamed f (t'.put name v') := by
  intro other
  rw [Table.find?_put, Table.find?_put]
  split
  · exact .some hv
  · exact h other

/-- What is found in the one table is found in the other, renamed. -/
theorem getD (h : t.Renamed f t') (name : String) :
    ((t.find? name).getD .undefined).Renamed f ((t'.find? name).getD .undefined) := by
  have hrel := h name
  generalize t.find? name = x at hrel
  generalize t'.find? name = y at hrel
  cases hrel with
  | some hv => exact hv
  | none => exact .plain rfl

theorem symm (h : t.Renamed f t') : t'.Renamed f.symm t :=
  fun name => rel_symm (h name) Value.Renamed.symm

end Table.Renamed

/-- The cells are alike: of one kind, with corresponding ties, the same code and the
same names, and renamed values under them. -/
inductive Cell.Renamed (f : Renaming) : Cell → Cell → Prop
  | scope {a b : Scope}
    (outer : Option.Rel (fun i j => f (.scope i) = some (.scope j)) a.outer b.outer)
    (bindings : a.bindings.Renamed f b.bindings) : Renamed f (.scope a) (.scope b)
  | object {a b : Table Value} (properties : a.Renamed f b) : Renamed f (.object a) (.object b)
  | closure {a b : Closure} (name : a.name = b.name) (params : a.params = b.params)
    (body : a.body = b.body) (scope : f (.scope a.scope) = some (.scope b.scope))
    (properties : a.properties.Renamed f b.properties) : Renamed f (.closure a) (.closure b)

namespace Cell.Renamed

variable {f g : Renaming} {c c' : Cell}

theorem table (h : c.Renamed f c') : c.table.Renamed f c'.table := by
  cases h with
  | scope _ bindings => exact bindings
  | object properties => exact properties
  | closure _ _ _ _ properties => exact properties

theorem mono (hle : f ≤ g) (h : c.Renamed f c') : c.Renamed g c' := by
  cases h with
  | scope outer bindings =>
    exact .scope (rel_imp outer (hle _ _)) (bindings.mono hle)
  | object properties => exact .object (properties.mono hle)
  | closure name params body scope properties =>
    exact .closure name params body (hle _ _ scope) (properties.mono hle)

/-- Renamed values, put under one name into renamed cells, leave these renamed. -/
theorem put (h : c.Renamed f c') (name : String) {v v' : Value} (hv : v.Renamed f v') :
    (c.put name v).Renamed f (c'.put name v') := by
  cases h with
  | scope outer bindings => exact .scope outer (bindings.put name hv)
  | object properties => exact .object (properties.put name hv)
  | closure hname params body scope properties =>
    exact .closure hname params body scope (properties.put name hv)

theorem symm (h : c.Renamed f c') : c'.Renamed f.symm c := by
  cases h with
  | scope outer bindings =>
    exact .scope (rel_symm outer f.eq_some_iff.mpr) bindings.symm
  | object properties => exact .object properties.symm
  | closure name params body scope properties =>
    exact .closure name.symm params.symm body.symm (f.eq_some_iff.mpr scope) properties.symm

/-- What one cell refers to, the other refers to at the corresponding place. -/
theorem mentions (h : c.Renamed f c') {ℓ : Loc} (hm : c.Mentions ℓ) :
    ∃ ℓ', c'.Mentions ℓ' ∧ f ℓ = some ℓ' := by
  rcases hm with hlink | ⟨name, v, hv, hℓ⟩
  · cases h with
    | scope outer _ =>
      obtain ⟨i, hi, rfl⟩ := Option.map_eq_some_iff.mp hlink
      obtain ⟨j, hj, hf⟩ := exists_of_rel outer hi
      exact ⟨.scope j, .inl (by rw [Cell.link?, hj]; rfl), hf⟩
    | object _ => cases hlink
    | closure _ _ _ scope _ =>
      obtain rfl := Option.some.inj hlink
      exact ⟨_, .inl rfl, scope⟩
  · obtain ⟨v', hv', hr⟩ := exists_of_rel (h.table name) hv
    obtain ⟨ℓ', hℓ', hf⟩ := hr.loc? hℓ
    exact ⟨ℓ', .inr ⟨name, v', hv', hℓ'⟩, hf⟩

end Cell.Renamed

/-! ## Stores

A renaming between two stores, and what happens to it as both change.
-/

/-- Two locations that are related to nothing yet are related to each other. The proof obligation is
that the result is one to one. -/
def Renaming.extend (f : Renaming) {ℓ ℓ' : Loc} (h : f ℓ = none) (h' : f.symm ℓ' = none) :
    Renaming where
  toFun x := if x = ℓ then some ℓ' else f x
  invFun y := if y = ℓ' then some ℓ else f.symm y
  inv x y := by
    by_cases hx : x = ℓ
    · by_cases hy : y = ℓ'
      · simp [hx, hy]
      · subst hx
        simp only [if_neg hy, if_true, f.eq_some_iff, h]
        simp [Ne.symm hy]
    · by_cases hy : y = ℓ'
      · subst hy
        simp only [if_neg hx, if_true, ← f.eq_some_iff, h']
        simp [Ne.symm hx]
      · simp only [if_neg hx, if_neg hy, f.eq_some_iff]

namespace Renaming

variable {f : Renaming} {ℓ ℓ' : Loc} (h : f ℓ = none) (h' : f.symm ℓ' = none)

/-- Whatever was related before is related as it was after a renaming is extended by a pair of new
cells. -/
theorem extend_apply (x : Loc) : f.extend h h' x = if x = ℓ then some ℓ' else f x := rfl

theorem extend_self : f.extend h h' ℓ = some ℓ' := if_pos rfl

theorem le_extend : f ≤ f.extend h h' := by
  intro x y hxy
  have hx : x ≠ ℓ := by
    rintro rfl
    rw [Option.mem_def, h] at hxy
    cases hxy
  rw [Option.mem_def, extend_apply, if_neg hx]
  exact hxy

end Renaming

/-- From a new scope the way outwards goes on with an old one. -/
theorem Store.Allocates.chain {s t : Store} {id : ScopeId} {scope : Scope}
    (h : s.Allocates (.scope id) (.scope scope) t)
    (houter : ∀ outer, scope.outer = some outer → ∃ l, s.Chain outer l) : ∃ l, t.Chain id l := by
  have hcell : t.cell? (.scope id) = some (.scope scope) := by rw [h.cell?, if_pos rfl]
  obtain ⟨scope', hs, hsame⟩ := Option.map_eq_some_iff.mp hcell
  obtain rfl := Cell.scope.inj hsame
  cases ho : scope'.outer with
  | none => exact ⟨[id], .root hs ho⟩
  | some outer =>
    obtain ⟨l, hl⟩ := houter outer ho
    exact ⟨id :: l, .inner hs ho (hl.mono h.le)⟩

/-- The cells that the renaming relates are alike, and those that are scopes lie on chains that end.
Scopes that the renaming does not relate may be anything. -/
structure Store.Renamed (f : Renaming) (s s' : Store) : Prop where
  cells : ∀ {ℓ ℓ'}, f ℓ = some ℓ' →
    ∃ c c', s.cell? ℓ = some c ∧ s'.cell? ℓ' = some c' ∧ c.Renamed f c'
  chain : ∀ {id id'}, f (.scope id) = some (.scope id') → ∃ l, s.Chain id l

namespace Store.Renamed

variable {f : Renaming} {s s' t t' : Store} {ℓ ℓ' : Loc}

/-- What does not exist is related to nothing. -/
theorem fresh (h : s.Renamed f s') (hℓ : s.cell? ℓ = none) : f ℓ = none := by
  cases hf : f ℓ with
  | none => rfl
  | some ℓ' =>
    obtain ⟨c, _, hc, -, -⟩ := h.cells hf
    rw [hℓ] at hc
    cases hc

theorem fresh_symm (h : s.Renamed f s') (hℓ : s'.cell? ℓ' = none) : f.symm ℓ' = none := by
  cases hf : f.symm ℓ' with
  | none => rfl
  | some ℓ =>
    obtain ⟨_, c', -, hc', -⟩ := h.cells (f.eq_some_iff.mp hf)
    rw [hℓ] at hc'
    cases hc'

/-- New cells in both stores that are alike are related from then on. -/
theorem extend (h : s.Renamed f s') {c c' : Cell} (ha : s.Allocates ℓ c t)
    (ha' : s'.Allocates ℓ' c' t') (hc : c.Renamed f c') :
    t.Renamed (f.extend (h.fresh ha.fresh) (h.fresh_symm ha'.fresh)) t' := by
  have hle := Renaming.le_extend (h.fresh ha.fresh) (h.fresh_symm ha'.fresh)
  refine ⟨?_, ?_⟩
  · intro x y hxy
    rw [Renaming.extend_apply] at hxy
    split at hxy
    · next hx =>
      subst hx
      obtain rfl := Option.some.inj hxy
      refine ⟨c, c', ?_, ?_, hc.mono hle⟩
      · rw [ha.cell?, if_pos rfl]
      · rw [ha'.cell?, if_pos rfl]
    · next hx =>
      obtain ⟨d, d', hd, hd', hrel⟩ := h.cells hxy
      -- the new cell of the second store was no partner of an old one
      have hy : y ≠ ℓ' := by
        rintro rfl
        rw [ha'.fresh] at hd'
        cases hd'
      refine ⟨d, d', ?_, ?_, hrel.mono hle⟩
      · rw [ha.cell?, if_neg hx, hd]
      · rw [ha'.cell?, if_neg hy, hd']
  · intro id id' hid
    rw [Renaming.extend_apply] at hid
    split at hid
    · next hnew =>
      obtain rfl := hnew
      obtain rfl := Option.some.inj hid
      obtain ⟨scope, hscope⟩ := ha.has.scope
      -- the new cell is a scope, whose chain goes on with an old one
      have hcell : Cell.scope scope = c := by
        have hcell := ha.cell? (.scope id)
        rw [if_pos rfl, cell?_scope hscope] at hcell
        exact Option.some.inj hcell
      subst hcell
      cases hc with
      | scope outer _ =>
        refine ha.chain fun i hi => ?_
        obtain ⟨j, -, hf⟩ := exists_of_rel outer hi
        exact h.chain hf
    · obtain ⟨l, hl⟩ := h.chain hid
      exact ⟨l, hl.mono ha.le⟩

/-- **New cells** in both stores that are alike extend the renaming. No cell was related to either
of them before, as they did not exist. -/
theorem alloc (h : s.Renamed f s') {c c' : Cell} (ha : s.Allocates ℓ c t)
    (ha' : s'.Allocates ℓ' c' t') (hc : c.Renamed f c') :
    ∃ g, f ≤ g ∧ g ℓ = some ℓ' ∧ t.Renamed g t' :=
  ⟨_, Renaming.le_extend _ _, Renaming.extend_self _ _, h.extend ha ha' hc⟩

/-- **The same value written** under the same name to corresponding cells keeps the stores renamed;
all other cells are as they were. -/
theorem write (h : s.Renamed f s') {name : String} {v v' : Value} (hw : s.Writes ℓ name v t)
    (hw' : s'.Writes ℓ' name v' t') (hℓ : f ℓ = some ℓ') (hv : v.Renamed f v') :
    t.Renamed f t' where
  cells {x y} hxy := by
    obtain ⟨c, c', hc, hc', hrel⟩ := h.cells hxy
    have hiff : x = ℓ ↔ y = ℓ' := by
      refine ⟨?_, ?_⟩
      · rintro rfl
        exact Option.some.inj (hxy.symm.trans hℓ)
      · rintro rfl
        exact f.inj hxy hℓ
    rw [hw.cell?, hw'.cell?, hc, hc']
    by_cases hx : x = ℓ
    · rw [if_pos hx, if_pos (hiff.mp hx)]
      exact ⟨_, _, rfl, rfl, hrel.put name hv⟩
    · rw [if_neg hx, if_neg fun hy => hx (hiff.mpr hy)]
      exact ⟨c, c', rfl, rfl, hrel⟩
  chain hid := by
    obtain ⟨l, hl⟩ := h.chain hid
    exact ⟨l, hl.mono hw.le⟩

/-! ### What is read

Names, properties and closures are read through references, which correspond.
-/

/-- A scope and the one that stands for it. -/
theorem scope (h : s.Renamed f s') {id id' : ScopeId} (hid : f (.scope id) = some (.scope id')) :
    ∃ a b, s.scopes[id]? = some a ∧ s'.scopes[id']? = some b ∧
      Option.Rel (fun i j => f (.scope i) = some (.scope j)) a.outer b.outer ∧
      a.bindings.Renamed f b.bindings := by
  obtain ⟨c, c', hc, hc', hrel⟩ := h.cells hid
  obtain ⟨a, ha, rfl⟩ := Option.map_eq_some_iff.mp hc
  obtain ⟨b, hb, rfl⟩ := Option.map_eq_some_iff.mp hc'
  cases hrel with
  | scope outer bindings => exact ⟨a, b, ha, hb, outer, bindings⟩

/-- A closure and the one that stands for it. -/
theorem closure (h : s.Renamed f s') {id id' : ClosureId}
    (hid : f (.closure id) = some (.closure id')) :
    ∃ a b, s.closures[id]? = some a ∧ s'.closures[id']? = some b ∧ a.params = b.params ∧
      a.body = b.body ∧ f (.scope a.scope) = some (.scope b.scope) := by
  obtain ⟨c, c', hc, hc', hrel⟩ := h.cells hid
  obtain ⟨a, ha, rfl⟩ := Option.map_eq_some_iff.mp hc
  obtain ⟨b, hb, rfl⟩ := Option.map_eq_some_iff.mp hc'
  cases hrel with
  | closure _ params body scope _ => exact ⟨a, b, ha, hb, params, body, scope⟩

/-- The way outwards leads through corresponding scopes. -/
theorem chain_renamed (h : s.Renamed f s') {id id' : ScopeId} {l : List ScopeId}
    (hl : s.Chain id l) (hid : f (.scope id) = some (.scope id')) :
    ∃ l', s'.Chain id' l' ∧ List.Forall₂ (fun i j => f (.scope i) = some (.scope j)) l l' := by
  induction hl generalizing id' with
  | root hs ho =>
    obtain ⟨a, b, ha, hb, outer, -⟩ := h.scope hid
    obtain rfl := Option.some.inj (hs.symm.trans ha)
    rw [ho] at outer
    have hnone : b.outer = none := by
      generalize b.outer = o at outer
      cases outer
      rfl
    exact ⟨[id'], .root hb hnone, .cons hid .nil⟩
  | inner hs ho _ ih =>
    obtain ⟨a, b, ha, hb, outer, -⟩ := h.scope hid
    obtain rfl := Option.some.inj (hs.symm.trans ha)
    obtain ⟨j, hj, hf⟩ := exists_of_rel outer ho
    obtain ⟨l', hl', hrel⟩ := ih hf
    exact ⟨id' :: l', .inner hb hj hl', .cons hid hrel⟩

/-- A scope binds a name to corresponding values, or both bind it to none. -/
theorem binding? (h : s.Renamed f s') {id id' : ScopeId}
    (hid : f (.scope id) = some (.scope id')) (name : String) :
    Option.Rel (Value.Renamed f) (s.binding? id name) (s'.binding? id' name) := by
  obtain ⟨a, b, ha, hb, -, hbindings⟩ := h.scope hid
  rw [Store.binding?, Store.binding?, ha, hb]
  exact hbindings name

/-- **A name is resolved to corresponding scopes**, or in neither store. The chains outwards run
side by side, and corresponding scopes bind the same names. -/
theorem resolve (h : s.Renamed f s') {id id' : ScopeId}
    (hid : f (.scope id) = some (.scope id')) (name : String) :
    Option.Rel (fun i j => f (.scope i) = some (.scope j)) (s.resolve id name)
      (s'.resolve id' name) := by
  obtain ⟨l, hl⟩ := h.chain hid
  obtain ⟨l', hl', hrel⟩ := h.chain_renamed hl hid
  rw [hl.resolve_eq, hl'.resolve_eq]
  clear hl hl' hid
  induction hrel with
  | nil => exact .none
  | @cons i j l l' hij _ ih =>
    have hbinds : s.binds i name = s'.binds j name := by
      rw [binds_eq_isSome, binds_eq_isSome, isSome_eq_of_rel (h.binding? hij name)]
    rw [List.find?_cons, List.find?_cons, hbinds]
    cases s'.binds j name with
    | true => exact .some hij
    | false => exact ih

/-- **A name has corresponding values** in corresponding scopes: it is resolved to corresponding
scopes, whose tables have corresponding values under every name. -/
theorem lookup (h : s.Renamed f s') {id id' : ScopeId}
    (hid : f (.scope id) = some (.scope id')) (name : String) :
    (s.lookup id name).Renamed f (s'.lookup id' name) := by
  have hres := h.resolve hid name
  rw [Store.lookup, Store.lookup]
  generalize s.resolve id name = x at hres
  generalize s'.resolve id' name = y at hres
  cases hres with
  | some hij =>
    have hrel := h.binding? hij name
    dsimp only
    generalize s.binding? _ name = v at hrel
    generalize s'.binding? _ name = v' at hrel
    cases hrel with
    | some hv => exact hv
    | none => exact .plain rfl
  | none => exact .plain rfl

/-- **A property has corresponding values** in renamed stores. A property that is missing is
`undefined` in both. -/
theorem getProperty (h : s.Renamed f s') {base base' : Value} (hbase : base.Renamed f base')
    (key : String) : (s.getProperty base key).Renamed f (s'.getProperty base' key) := by
  cases hbase with
  | plain hloc =>
    have hnone : ∀ s : Store, s.properties? base = none := by
      intro s
      cases base <;> first | rfl | cases hloc
    rw [Store.getProperty, Store.getProperty, hnone, hnone]
    exact .plain rfl
  | object hid =>
    obtain ⟨c, c', hc, hc', hrel⟩ := h.cells hid
    obtain ⟨a, ha, rfl⟩ := Option.map_eq_some_iff.mp hc
    obtain ⟨b, hb, rfl⟩ := Option.map_eq_some_iff.mp hc'
    rw [Store.getProperty, Store.getProperty, Store.properties?, Store.properties?, ha, hb]
    exact hrel.table.getD key
  | function hid =>
    obtain ⟨c, c', hc, hc', hrel⟩ := h.cells hid
    obtain ⟨a, ha, rfl⟩ := Option.map_eq_some_iff.mp hc
    obtain ⟨b, hb, rfl⟩ := Option.map_eq_some_iff.mp hc'
    rw [Store.getProperty, Store.getProperty, Store.properties?, Store.properties?, ha, hb]
    exact hrel.table.getD key

/-! ### What is reached

Renamed stores are reached through in step, so that a renaming that relates the roots relates
everything that can be reached.
-/

/-- The renaming can be read in both directions. -/
theorem symm (h : s.Renamed f s') : s'.Renamed f.symm s where
  cells hf := by
    obtain ⟨c, c', hc, hc', hrel⟩ := h.cells (f.eq_some_iff.mp hf)
    exact ⟨c', c, hc', hc, hrel.symm⟩
  chain hf := by
    have hid := f.eq_some_iff.mp hf
    obtain ⟨l, hl⟩ := h.chain hid
    obtain ⟨l', hl', -⟩ := h.chain_renamed hl hid
    exact ⟨l', hl'⟩

/-- What one location refers to, the corresponding one refers to correspondingly. -/
theorem refers (h : s.Renamed f s') {x y x' : Loc} (hx : f x = some x') (hr : s.Refers x y) :
    ∃ y', s'.Refers x' y' ∧ f y = some y' := by
  obtain ⟨c, c', hc, hc', hrel⟩ := h.cells hx
  obtain ⟨d, hd, hm⟩ := hr
  obtain rfl := Option.some.inj (hc.symm.trans hd)
  obtain ⟨y', hm', hy⟩ := hrel.mentions hm
  exact ⟨y', ⟨c', hc', hm'⟩, hy⟩

/-- **What can be reached in the one store corresponds to what can be reached in the
other.** -/
theorem reachable (h : s.Renamed f s') {roots roots' : Set Loc}
    (hroots : ∀ ℓ ∈ roots, ∃ ℓ' ∈ roots', f ℓ = some ℓ') (hr : s.Reachable roots ℓ) :
    ∃ ℓ', s'.Reachable roots' ℓ' ∧ f ℓ = some ℓ' := by
  induction hr with
  | root hℓ =>
    obtain ⟨ℓ', hℓ', hf⟩ := hroots _ hℓ
    exact ⟨ℓ', .root hℓ', hf⟩
  | step _ href ih =>
    obtain ⟨x', hx', hf⟩ := ih
    obtain ⟨y', href', hy⟩ := h.refers hf href
    exact ⟨y', .step hx' href', hy⟩

end Store.Renamed

end Scriptlet
