import Mathlib.Data.Set.Insert
import Scriptlet.Proofs.Store.Chain

/-!
# Reachability and regions

A cell refers to what it is tied to and to what the values in its table live at. A store is
well-formed if every reference leads somewhere and every chain of scopes ends.

`Store.Confined R s₀ s` is the invariant of everything that works inside a region `R` of locations:
between `s₀` and `s` nothing outside the region was touched, and no reference leads out of it. What
does not exist yet counts as inside, so new cells never leave the region. The invariant is kept by a
new cell that refers into the region (`Store.Confined.alloc`) and by a value of the region written
into it (`Store.Confined.write`), and what is read in the region belongs to it. Two regions matter:
everything, for which the invariant is well-formedness, and what is reachable from given roots, for
which it is the frame law.

One invariant thus has two uses. That evaluation keeps stores well-formed and that it does not touch
what it cannot reach are the same statement for two regions, proved by one induction over
evaluation.
-/

namespace Scriptlet

/-- The locations that a cell refers to: its tie, and where the values under its names live. -/
def Cell.Mentions (c : Cell) (ℓ : Loc) : Prop :=
  c.link? = some ℓ ∨ ∃ name v, c.table.find? name = some v ∧ v.loc? = some ℓ

/-- A value put into a cell adds what the value lives at and nothing else. -/
theorem Cell.mentions_put {c : Cell} {name : String} {v : Value} {ℓ : Loc}
    (h : (c.put name v).Mentions ℓ) : c.Mentions ℓ ∨ v.loc? = some ℓ := by
  rcases h with h | ⟨other, w, hw, hℓ⟩
  · rw [Cell.link?_put] at h
    exact .inl (.inl h)
  · rw [Cell.table_put, Table.find?_put] at hw
    split at hw
    · obtain rfl := Option.some.inj hw
      exact .inr hℓ
    · exact .inl (.inr ⟨other, w, hw, hℓ⟩)

namespace Store

variable {s s' : Store} {ℓ ℓ' : Loc}

/-- One location refers to another. -/
def Refers (s : Store) (ℓ ℓ' : Loc) : Prop := ∃ c, s.cell? ℓ = some c ∧ c.Mentions ℓ'

/-- What references lead to from `roots`, in any number of steps. -/
inductive Reachable (s : Store) (roots : Set Loc) : Loc → Prop where
  | root {ℓ : Loc} : ℓ ∈ roots → Reachable s roots ℓ
  | step {ℓ ℓ' : Loc} : Reachable s roots ℓ → s.Refers ℓ ℓ' → Reachable s roots ℓ'

/-- Every reference leads to a cell, and every chain of scopes ends. Both hold at the start and are
kept by everything that a program can do. -/
structure WellFormed (s : Store) : Prop where
  /-- references are valid -/
  has : ∀ {ℓ ℓ'}, s.Refers ℓ ℓ' → s.Has ℓ'
  /-- following the scopes outwards comes to an end -/
  chain : ∀ {id}, s.Has (.scope id) → ∃ l, s.Chain id l

/-- What a value lives at, if anything, exists. -/
def HasValue (s : Store) (v : Value) : Prop := ∀ ℓ, v.loc? = some ℓ → s.Has ℓ

/-- What is reachable from a closed region lies in it. -/
theorem Reachable.subset {roots R : Set Loc} (hroots : ∀ ℓ ∈ roots, ℓ ∈ R)
    (hclosed : ∀ ℓ ∈ R, ∀ ℓ', s.Refers ℓ ℓ' → ℓ' ∈ R) (h : s.Reachable roots ℓ) : ℓ ∈ R := by
  induction h with
  | root hℓ => exact hroots _ hℓ
  | step _ hr ih => exact hclosed _ ih _ hr

/-! ## Working inside a region

The invariant, and the two operations that keep it.
-/

variable {R : Set Loc} {s₀ : Store}

/-- From `s₀` on, everything happened inside the region. -/
structure Confined (R : Set Loc) (s₀ s : Store) : Prop where
  /-- nothing was lost -/
  le : s₀ ≤ s
  /-- what lies outside exists and is as it was -/
  outside : ∀ ℓ, ℓ ∉ R → s.Has ℓ ∧ s.cell? ℓ = s₀.cell? ℓ
  /-- no reference leads out -/
  closed : ∀ ℓ ∈ R, ∀ ℓ', s.Refers ℓ ℓ' → ℓ' ∈ R ∧ s.Has ℓ'
  /-- chains end -/
  chain : ∀ id, s.Has (.scope id) → ∃ l, s.Chain id l

/-- A location that exists and lies in the region. -/
def Inside (R : Set Loc) (s : Store) (ℓ : Loc) : Prop := ℓ ∈ R ∧ s.Has ℓ

theorem Inside.mono (hle : s ≤ s') (h : Inside R s ℓ) : Inside R s' ℓ := ⟨h.1, h.2.mono hle⟩

/-- A value that lives nowhere, or in the region. -/
def ValueInside (R : Set Loc) (s : Store) (v : Value) : Prop :=
  ∀ ℓ, v.loc? = some ℓ → Inside R s ℓ

theorem ValueInside.mono {v : Value} (hle : s ≤ s') (h : ValueInside R s v) :
    ValueInside R s' v :=
  fun ℓ hℓ => (h ℓ hℓ).mono hle

/-- A value that lives nowhere belongs to every region. -/
theorem valueInside_of_loc?_none {v : Value} (h : v.loc? = none) : ValueInside R s v := by
  intro ℓ hℓ
  rw [h] at hℓ
  cases hℓ

namespace Confined

/-- A value found in a cell of the region belongs to it. -/
theorem value_of_find? (h : Confined R s₀ s) (hℓ : ℓ ∈ R) {c : Cell} (hc : s.cell? ℓ = some c)
    {name : String} {v : Value} (hv : c.table.find? name = some v) : ValueInside R s v :=
  fun ℓ' hℓ' => h.closed ℓ hℓ ℓ' ⟨c, hc, .inr ⟨name, v, hv, hℓ'⟩⟩

/-- What does not exist yet is inside. -/
theorem mem_of_fresh (h : Confined R s₀ s) (hfresh : s.cell? ℓ = none) : ℓ ∈ R := by
  by_contra hout
  obtain ⟨⟨c, hc⟩, -⟩ := h.outside ℓ hout
  rw [hfresh] at hc
  cases hc

/-- **A new cell** keeps the invariant if it refers only to cells that exist inside the region. -/
theorem alloc (h : Confined R s₀ s) {c : Cell} (ha : s.Allocates ℓ c s')
    (hc : ∀ ℓ', c.Mentions ℓ' → Inside R s ℓ') : Confined R s₀ s' where
  le := h.le.trans ha.le
  outside ℓ' hout := by
    obtain ⟨hhas, hsame⟩ := h.outside ℓ' hout
    refine ⟨hhas.mono ha.le, ?_⟩
    rw [ha.cell?, if_neg, hsame]
    rintro rfl
    exact hout (h.mem_of_fresh ha.fresh)
  closed ℓ₁ hin ℓ₂ hr := by
    obtain ⟨d, hd, hm⟩ := hr
    rw [ha.cell?] at hd
    split at hd
    · obtain rfl := Option.some.inj hd
      exact (hc ℓ₂ hm).mono ha.le
    · obtain ⟨hin₂, hhas₂⟩ := h.closed ℓ₁ hin ℓ₂ ⟨d, hd, hm⟩
      exact ⟨hin₂, hhas₂.mono ha.le⟩
  chain id hid := by
    by_cases hnew : Loc.scope id = ℓ
    · -- the only chain that is new goes on with an old one
      subst hnew
      obtain ⟨scope, hscope⟩ := hid.scope
      have hcell : c = .scope scope := by
        have hc' := ha.cell? (.scope id)
        rw [if_pos rfl, cell?_scope hscope] at hc'
        exact (Option.some.inj hc').symm
      cases ho : scope.outer with
      | none => exact ⟨[id], .root hscope ho⟩
      | some outer =>
        have hm : c.Mentions (.scope outer) := .inl (by rw [hcell, Cell.link?, ho]; rfl)
        obtain ⟨l, hl⟩ := h.chain outer (hc _ hm).2
        exact ⟨id :: l, .inner hscope ho (hl.mono ha.le)⟩
    · obtain ⟨d, hd⟩ := hid
      rw [ha.cell?, if_neg hnew] at hd
      obtain ⟨l, hl⟩ := h.chain id ⟨d, hd⟩
      exact ⟨l, hl.mono ha.le⟩

/-- **A value written** inside the region keeps the invariant, if the value
belongs there. -/
theorem write (h : Confined R s₀ s) {name : String} {v : Value} (hw : s.Writes ℓ name v s')
    (hℓ : ℓ ∈ R) (hv : ValueInside R s v) : Confined R s₀ s' where
  le := h.le.trans hw.le
  outside ℓ' hout := by
    obtain ⟨hhas, hsame⟩ := h.outside ℓ' hout
    refine ⟨hhas.mono hw.le, ?_⟩
    rw [hw.cell?, if_neg, hsame]
    rintro rfl
    exact hout hℓ
  closed ℓ₁ hin ℓ₂ hr := by
    have hold : s.Refers ℓ₁ ℓ₂ ∨ v.loc? = some ℓ₂ := by
      obtain ⟨d, hd, hm⟩ := hr
      rw [hw.cell?] at hd
      split at hd
      · obtain ⟨c, hc, rfl⟩ := Option.map_eq_some_iff.mp hd
        exact (Cell.mentions_put hm).imp (fun hm => ⟨c, hc, hm⟩) id
      · exact .inl ⟨d, hd, hm⟩
    rcases hold with hold | hold
    · obtain ⟨hin₂, hhas₂⟩ := h.closed ℓ₁ hin ℓ₂ hold
      exact ⟨hin₂, hhas₂.mono hw.le⟩
    · exact (hv ℓ₂ hold).mono hw.le
  chain id hid := by
    obtain ⟨d, hd⟩ := hid
    have hhas : s.Has (.scope id) := by
      rw [hw.cell?] at hd
      split at hd
      · obtain ⟨c, hc, -⟩ := Option.map_eq_some_iff.mp hd
        exact ⟨c, hc⟩
      · exact ⟨d, hd⟩
    obtain ⟨l, hl⟩ := h.chain id hhas
    exact ⟨l, hl.mono hw.le⟩

/-! ### What is read in the region

Reading follows references, so it cannot leave a region that no reference leads out of.
-/

/-- A chain that starts in the region stays there. -/
theorem chain_inside (h : Confined R s₀ s) {id : ScopeId} {l : List ScopeId}
    (hl : s.Chain id l) (hin : Loc.scope id ∈ R) : ∀ id' ∈ l, Inside R s (.scope id') := by
  induction hl with
  | root hs _ =>
    intro id' hmem
    obtain rfl := List.mem_singleton.mp hmem
    exact ⟨hin, _, cell?_scope hs⟩
  | inner hs ho _ ih =>
    intro id' hmem
    rcases List.mem_cons.mp hmem with rfl | hmem
    · exact ⟨hin, _, cell?_scope hs⟩
    · refine ih (h.closed _ hin _ ⟨_, cell?_scope hs, .inl ?_⟩).1 id' hmem
      rw [Cell.link?, ho]
      rfl

/-- The scope that binds a name seen from the region is in the region. -/
theorem resolve (h : Confined R s₀ s) {id holder : ScopeId} {name : String}
    (hid : Inside R s (.scope id)) (hr : s.resolve id name = some holder) :
    Inside R s (.scope holder) := by
  obtain ⟨l, hl⟩ := h.chain id hid.2
  exact h.chain_inside hl hid.1 holder (hl.resolve_mem hr).1

/-- The value of a name seen from the region is in the region. -/
theorem lookup (h : Confined R s₀ s) {id : ScopeId} (name : String)
    (hid : Inside R s (.scope id)) : ValueInside R s (s.lookup id name) := by
  rw [Store.lookup]
  split
  · next holder hr =>
    cases hb : s.binding? holder name with
    | none => exact valueInside_of_loc?_none rfl
    | some v =>
      obtain ⟨scope, hs, hv⟩ := Option.bind_eq_some_iff.mp hb
      exact h.value_of_find? (h.resolve hid hr).1 (cell?_scope hs) hv
  · exact valueInside_of_loc?_none rfl

/-- A property of a value of the region is in the region. -/
theorem getProperty (h : Confined R s₀ s) {base : Value} (key : String)
    (hbase : ValueInside R s base) : ValueInside R s (s.getProperty base key) := by
  rw [Store.getProperty]
  cases hp : (s.properties? base).bind (·.find? key) with
  | none => exact valueInside_of_loc?_none rfl
  | some v =>
    obtain ⟨t, ht, hv⟩ := Option.bind_eq_some_iff.mp hp
    obtain ⟨ℓ, c, hℓ, hc, rfl⟩ := properties?_eq ht
    exact h.value_of_find? (hbase ℓ hℓ).1 hc hv

end Confined

/-- A scope opened inside a scope of the region belongs to the region. -/
theorem Confined.newScope (h : Confined R s₀ s) {outer : ScopeId}
    (houter : Inside R s (.scope outer)) :
    Confined R s₀ (s.newScope outer).2 ∧
      Inside R (s.newScope outer).2 (.scope (s.newScope outer).1) := by
  have ha := newScope_allocates s outer
  refine ⟨h.alloc ha ?_, h.mem_of_fresh ha.fresh, ha.has⟩
  rintro ℓ (hlink | ⟨name, v, hv, -⟩)
  · obtain rfl := Option.some.inj hlink
    exact houter
  · cases hv

/-! ## The two regions

Where the invariant comes from, and what it says at the end.
-/

/-- The store with nothing but an empty global scope is well-formed. -/
theorem wellFormed_initial : initial.WellFormed where
  has := by
    rintro ℓ ℓ' ⟨c, hc, hm⟩
    cases ℓ with
    | scope id =>
      obtain ⟨scope, hs, rfl⟩ := Option.map_eq_some_iff.mp hc
      obtain ⟨-, rfl⟩ : id = 0 ∧ (⟨[], none⟩ : Scope) = scope := by
        cases id with
        | zero => exact ⟨rfl, Option.some.inj hs⟩
        | succ id => cases hs
      rcases hm with hlink | ⟨name, v, hv, -⟩
      · cases hlink
      · cases hv
    | object id => cases hc
    | closure id => cases hc
  chain := by
    rintro id h
    obtain ⟨scope, hs⟩ := h.scope
    cases id with
    | zero =>
      obtain rfl := Option.some.inj hs
      exact ⟨[0], .root hs rfl⟩
    | succ id => cases hs

/-- A well-formed store is confined to everything. -/
theorem WellFormed.confined (h : s.WellFormed) : Confined Set.univ s s where
  le := le_rfl
  outside _ hout := absurd (Set.mem_univ _) hout
  closed _ _ _ hr := ⟨Set.mem_univ _, h.has hr⟩
  chain _ := h.chain

/-- What is confined to everything is well-formed. -/
theorem Confined.wellFormed (h : Confined Set.univ s₀ s) : s.WellFormed where
  has hr := (h.closed _ (Set.mem_univ _) _ hr).2
  chain := h.chain _

/-- What is reachable from `roots`, with everything that does not exist yet. What exists and cannot
be reached is outside, and is not touched. -/
def regionOf (s : Store) (roots : Set Loc) : Set Loc :=
  { ℓ | s.Reachable roots ℓ ∨ ¬ s.Has ℓ }

/-- A well-formed store is confined to what is reachable from any roots in it. -/
theorem WellFormed.confined_regionOf (h : s.WellFormed) (roots : Set Loc) :
    Confined (s.regionOf roots) s s where
  le := le_rfl
  outside ℓ hout := ⟨not_not.mp fun hnot => hout (.inr hnot), rfl⟩
  closed ℓ hin ℓ' hr := by
    refine ⟨.inl ?_, h.has hr⟩
    rcases hin with hin | hin
    · exact .step hin hr
    · obtain ⟨c, hc, -⟩ := hr
      exact absurd ⟨c, hc⟩ hin
  chain _ := h.chain

end Store

end Scriptlet
