import Scriptlet.Proofs.Store.Cells

/-!
# Outward chains

`Store.Chain s id l` says that the scopes met on the way outwards from `id`, up to one with nothing
around it, are `l`. A chain that exists is finite, so it meets no scope twice (`Store.Chain.nodup`)
and is no longer than there are scopes; that is why the bounded walk of `Store.resolve` finds what
an unbounded one would: the first scope of the chain that binds the name (`Store.Chain.resolve_eq`).
Chains are kept when the store is extended, and so a name that was resolved stays resolved, to the
same scope or to a nearer one (`Store.Chain.resolve_mono`).

Chains take the place of the bounded walk in all proofs about names. The walk is a recursion on its
bound, and to reason about it one would have to know in every store that the bound is enough. A
chain is inductive, and an induction on it goes outwards scope by scope, with the cases that
resolution has.
-/

namespace Scriptlet

namespace Store

/-- The scopes from `id` outwards. A scope in a circle has no chain. -/
inductive Chain (s : Store) : ScopeId → List ScopeId → Prop where
  /-- nothing is around the last one -/
  | root {id : ScopeId} {scope : Scope} :
    s.scopes[id]? = some scope → scope.outer = none → Chain s id [id]
  /-- the way on leads to the scope around -/
  | inner {id outer : ScopeId} {scope : Scope} {l : List ScopeId} :
    s.scopes[id]? = some scope → scope.outer = some outer → Chain s outer l →
      Chain s id (id :: l)

variable {s s' : Store} {id : ScopeId} {l l' : List ScopeId}

/-- A scope of the smaller store is there in the larger one, inside the same
scope and with all its names. -/
theorem scope_of_le (hle : s ≤ s') {scope : Scope} (h : s.scopes[id]? = some scope) :
    ∃ scope', s'.scopes[id]? = some scope' ∧ scope.outer = scope'.outer ∧
      scope.bindings.Keeps scope'.bindings := by
  obtain ⟨c, hc, hcell⟩ := hle _ _ (cell?_scope h)
  obtain ⟨scope', hs', rfl⟩ := Option.map_eq_some_iff.mp hc
  exact ⟨scope', hs', hcell⟩

namespace Chain

/-- There is one way outwards, as each scope has at most one around it. -/
theorem unique (h : s.Chain id l) (h' : s.Chain id l') : l = l' := by
  induction h generalizing l' with
  | root hs ho =>
    cases h' with
    | root _ _ => rfl
    | inner hs' ho' _ =>
      obtain rfl := Option.some.inj (hs.symm.trans hs')
      cases ho.symm.trans ho'
  | inner hs ho _ ih =>
    cases h' with
    | root hs' ho' =>
      obtain rfl := Option.some.inj (hs.symm.trans hs')
      cases ho.symm.trans ho'
    | inner hs' ho' hl' =>
      obtain rfl := Option.some.inj (hs.symm.trans hs')
      obtain rfl := Option.some.inj (ho.symm.trans ho')
      rw [ih hl']

/-- The chain of a scope on the way is the rest of the way. -/
theorem of_mem (h : s.Chain id l) {id' : ScopeId} (hmem : id' ∈ l) :
    ∃ near far, l = near ++ far ∧ s.Chain id' far := by
  induction h with
  | root hs ho =>
    obtain rfl := List.mem_singleton.mp hmem
    exact ⟨[], _, rfl, .root hs ho⟩
  | @inner id _ _ _ hs ho hl ih =>
    rcases List.mem_cons.mp hmem with rfl | hmem
    · exact ⟨[], _, rfl, .inner hs ho hl⟩
    · obtain ⟨near, far, rfl, hfar⟩ := ih hmem
      exact ⟨id :: near, far, rfl, hfar⟩

/-- **A chain meets no scope twice**: a scope met again would begin a shorter
chain than its own. -/
theorem nodup (h : s.Chain id l) : l.Nodup := by
  induction h with
  | root _ _ => simp
  | @inner id _ _ l hs ho hl ih =>
    refine List.nodup_cons.mpr ⟨fun hmem => ?_, ih⟩
    obtain ⟨near, far, hsplit, hfar⟩ := hl.of_mem hmem
    have hsame : id :: l = far := unique (.inner hs ho hl) hfar
    have hlen := congrArg List.length hsplit
    rw [← hsame, List.length_append, List.length_cons] at hlen
    omega

theorem has (h : s.Chain id l) {id' : ScopeId} (hmem : id' ∈ l) : s.Has (.scope id') := by
  induction h with
  | root hs _ =>
    obtain rfl := List.mem_singleton.mp hmem
    exact ⟨_, cell?_scope hs⟩
  | inner hs _ _ ih =>
    rcases List.mem_cons.mp hmem with rfl | hmem
    · exact ⟨_, cell?_scope hs⟩
    · exact ih hmem

/-- A chain is no longer than there are scopes, since it meets none twice. -/
theorem length_le (h : s.Chain id l) : l.length ≤ s.scopes.size := by
  have hsub : l ⊆ List.range s.scopes.size := by
    intro id' hmem
    obtain ⟨scope, hscope⟩ := (h.has hmem).scope
    exact List.mem_range.mpr (Array.getElem?_eq_some_iff.mp hscope).1
  simpa using h.nodup.length_le_of_subset hsub

/-- Extending the store leaves the ways outwards as they are. -/
theorem mono (hle : s ≤ s') (h : s.Chain id l) : s'.Chain id l := by
  induction h with
  | root hs ho =>
    obtain ⟨scope', hs', ho', -⟩ := scope_of_le hle hs
    exact .root hs' (ho'.symm.trans ho)
  | inner hs ho _ ih =>
    obtain ⟨scope', hs', ho', -⟩ := scope_of_le hle hs
    exact .inner hs' (ho'.symm.trans ho) ih

end Chain

/-! ## Names along a chain

What resolution and lookup come to: a walk along the chain up to the first scope that binds the
name.
-/

theorem binds_eq {scope : Scope} (h : s.scopes[id]? = some scope) (name : String) :
    s.binds id name = scope.bindings.has name := by
  rw [binds, h]
  rfl

/-- A scope binds a name exactly if it has a value for it. -/
theorem binds_eq_isSome (s : Store) (id : ScopeId) (name : String) :
    s.binds id name = (s.binding? id name).isSome := by
  cases hs : s.scopes[id]? <;> simp [binds, binding?, Table.has, hs]

theorem binds_mono (hle : s ≤ s') {name : String} (h : s.binds id name) :
    s'.binds id name := by
  cases hs : s.scopes[id]? with
  | none =>
    rw [binds, hs] at h
    cases h
  | some scope =>
    obtain ⟨scope', hs', -, hkeeps⟩ := scope_of_le hle hs
    rw [binds_eq hs] at h
    rw [binds_eq hs']
    exact hkeeps name h

/-- With fuel for the whole chain the walk finds the first scope that binds. -/
theorem Chain.resolveWithin_eq (h : s.Chain id l) (name : String) {fuel : Nat}
    (hfuel : l.length ≤ fuel) :
    s.resolveWithin name fuel id = l.find? fun id' => s.binds id' name := by
  induction h generalizing fuel with
  | @root id scope hs ho =>
    obtain ⟨fuel, rfl⟩ : ∃ n, fuel = n + 1 := ⟨fuel - 1, by simp at hfuel; omega⟩
    simp only [resolveWithin, hs, ho, List.find?_cons, binds_eq hs, List.find?_nil]
    cases scope.bindings.has name <;> rfl
  | @inner id outer scope l hs ho _ ih =>
    obtain ⟨fuel, rfl⟩ : ∃ n, fuel = n + 1 := ⟨fuel - 1, by simp at hfuel; omega⟩
    have hrest : l.length ≤ fuel := by simpa using hfuel
    simp only [resolveWithin, hs, ho, List.find?_cons, binds_eq hs, ih hrest]
    cases scope.bindings.has name <;> rfl

/-- **A name is resolved to the nearest scope of the chain that binds it**, and to none if no scope
of the chain does. -/
theorem Chain.resolve_eq (h : s.Chain id l) (name : String) :
    s.resolve id name = l.find? fun id' => s.binds id' name :=
  h.resolveWithin_eq name h.length_le

/-- The scope that a name is resolved to is on the chain and binds the name. -/
theorem Chain.resolve_mem (h : s.Chain id l) {name : String} {holder : ScopeId}
    (hr : s.resolve id name = some holder) : holder ∈ l ∧ s.binds holder name := by
  rw [h.resolve_eq] at hr
  exact ⟨List.mem_of_find?_eq_some hr, by simpa using List.find?_some hr⟩

/-- A scope that binds a name resolves it to itself. -/
theorem Chain.resolve_here (h : s.Chain id l) {name : String} (hb : s.binds id name) :
    s.resolve id name = some id := by
  rw [h.resolve_eq]
  cases h <;> rw [List.find?_cons, hb]

/-- A scope that does not bind a name leaves it to the scope around. -/
theorem Chain.resolve_outer {scope : Scope} {outer : ScopeId} (hs : s.scopes[id]? = some scope)
    (ho : scope.outer = some outer) (h : s.Chain outer l) {name : String}
    (hb : s.binds id name = false) : s.resolve id name = s.resolve outer name := by
  rw [h.resolve_eq, (Chain.inner hs ho h).resolve_eq, List.find?_cons, hb]

/-- With nothing around it the name is resolved to nothing. -/
theorem Chain.resolve_root {scope : Scope} (hs : s.scopes[id]? = some scope)
    (ho : scope.outer = none) {name : String} (hb : s.binds id name = false) :
    s.resolve id name = none := by
  rw [(Chain.root hs ho).resolve_eq, List.find?_cons, hb, List.find?_nil]

/-- The value of a name is the one bound here, if there is one. -/
theorem Chain.lookup_here (h : s.Chain id l) {name : String} {v : Value}
    (hb : s.binding? id name = some v) : s.lookup id name = v := by
  have hr : s.resolve id name = some id := h.resolve_here (by rw [binds_eq_isSome, hb]; rfl)
  rw [lookup, hr]
  simp only [hb, Option.getD_some]

/-- A name not bound here has the value it has in the scope around. -/
theorem Chain.lookup_outer {scope : Scope} {outer : ScopeId} (hs : s.scopes[id]? = some scope)
    (ho : scope.outer = some outer) (h : s.Chain outer l) {name : String}
    (hb : s.binding? id name = none) : s.lookup id name = s.lookup outer name := by
  have hr : s.resolve id name = s.resolve outer name :=
    resolve_outer hs ho h (by rw [binds_eq_isSome, hb]; rfl)
  rw [lookup, lookup, hr]

/-- A name not bound here, with nothing around, is not defined. -/
theorem Chain.lookup_root {scope : Scope} (hs : s.scopes[id]? = some scope)
    (ho : scope.outer = none) {name : String} (hb : s.binding? id name = none) :
    s.lookup id name = .notDefined name := by
  have hr : s.resolve id name = none := resolve_root hs ho (by rw [binds_eq_isSome, hb]; rfl)
  rw [lookup, hr]

/-- **Resolution only moves inwards**: a name that was resolved along a chain is
resolved in every extension of the store, to a scope that lies on the chain no
further out. -/
theorem Chain.resolve_mono (h : s.Chain id l) (hle : s ≤ s') {name : String} {holder : ScopeId}
    (hr : s.resolve id name = some holder) :
    ∃ holder' near far, s'.resolve id name = some holder' ∧ l = near ++ holder' :: far ∧
      holder ∈ holder' :: far := by
  obtain ⟨hmem, hbinds⟩ := h.resolve_mem hr
  have hbinds' : s'.binds holder name := binds_mono hle hbinds
  rw [(h.mono hle).resolve_eq]
  cases hf : l.find? fun id' => s'.binds id' name with
  | none => exact absurd hbinds' (List.find?_eq_none.mp hf holder hmem)
  | some holder' =>
    obtain ⟨-, near, far, rfl, hnear⟩ := List.find?_eq_some_iff_append.mp hf
    refine ⟨holder', near, far, rfl, rfl, ?_⟩
    rcases List.mem_append.mp hmem with hin | hin
    · have hnot := hnear holder hin
      rw [hbinds'] at hnot
      cases hnot
    · exact hin

end Store

end Scriptlet
