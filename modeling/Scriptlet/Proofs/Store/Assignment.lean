import Scriptlet.Proofs.Store.Chain

/-!
# Assignment to a name

An assignment writes one binding: in the nearest scope that binds the name, or, if none does, in the
scope it is made from (`Store.Target`). Closures share scopes, so scopes form a tree, and the write
shows at other leaves of it than the one it was made from. Where it shows is said once, for a write
to any scope (`Store.Chain.lookup_bind`): from a scope whose way outwards meets the written one
before any other that binds the name (`Store.Sees`), and nowhere else.

All of this is said with chains and bindings. The walk by which a name is resolved does not occur in
the statements, and so neither does its bound: that the walk goes as far as the chain is known
already, and here it is only used to see that the target is what the walk finds
(`Store.Chain.target_iff`).

The stores that are considered are those in which every way outwards ends. Other stores cannot come
about, and in them there might be no target.
-/

namespace Scriptlet

namespace Store

/-- Every way outwards comes to an end. Well-formed stores are grounded; nothing else is needed of
them here. -/
def Grounded (s : Store) : Prop := ∀ id, s.Has (.scope id) → ∃ l, s.Chain id l

/-- The way outwards from `id` comes to `target`, and nothing on it before `target` binds the name.
The target itself need not bind it. -/
def Sees (s : Store) (id : ScopeId) (name : String) (target : ScopeId) : Prop :=
  ∃ near far, s.Chain id (near ++ target :: far) ∧ ∀ between ∈ near, s.binds between name = false

/-- Where an assignment made from `id` goes. The two cases exclude each other, as the nearest scope
that binds the name is one on the way. -/
inductive Target (s : Store) (id : ScopeId) (name : String) : ScopeId → Prop where
  /-- to the nearest scope that binds the name -/
  | bound {target : ScopeId} : s.Sees id name target → s.binds target name → Target s id name target
  /-- to `id` itself if none does -/
  | unbound {l : List ScopeId} :
    s.Chain id l → (∀ between ∈ l, s.binds between name = false) → Target s id name id

variable {s : Store} {id target : ScopeId} {l : List ScopeId} {name : String}

/-! ## What is seen from a scope

Seeing is decided step by step outwards, as resolution is.
-/

/-- A chain begins with the scope it is the chain of. -/
theorem Chain.exists_eq_cons (h : s.Chain id l) : ∃ rest, l = id :: rest := by
  cases h <;> exact ⟨_, rfl⟩

/-- A scope sees itself, whatever it binds. -/
theorem Chain.sees_self (h : s.Chain id l) (name : String) : s.Sees id name id := by
  obtain ⟨rest, rfl⟩ := h.exists_eq_cons
  exact ⟨[], rest, h, by simp⟩

/-- With nothing around it a scope sees only itself. -/
theorem not_sees_of_root {scope : Scope} (hs : s.scopes[id]? = some scope)
    (ho : scope.outer = none) (hne : id ≠ target) : ¬s.Sees id name target := by
  rintro ⟨near, far, hchain, -⟩
  have hl : [id] = near ++ target :: far := (Chain.root hs ho).unique hchain
  cases near with
  | nil => exact hne (List.cons.inj hl).1
  | cons _ near => simp at hl

/-- Another scope is seen through the scope around, if the name is not bound here. -/
theorem sees_outer_iff {scope : Scope} {outer : ScopeId} (hs : s.scopes[id]? = some scope)
    (ho : scope.outer = some outer) (hl : s.Chain outer l) (hne : id ≠ target) :
    s.Sees id name target ↔ s.binds id name = false ∧ s.Sees outer name target := by
  constructor
  · rintro ⟨near, far, hchain, hfree⟩
    have hsplit : id :: l = near ++ target :: far := (Chain.inner hs ho hl).unique hchain
    cases near with
    | nil => exact absurd (List.cons.inj hsplit).1 hne
    | cons first near =>
      obtain ⟨rfl, rfl⟩ := List.cons.inj hsplit
      exact ⟨hfree id (by simp), near, far, hl, fun between hb => hfree between (by simp [hb])⟩
  · rintro ⟨hhere, near, far, hchain, hfree⟩
    refine ⟨id :: near, far, .inner hs ho hchain, fun between hb => ?_⟩
    rcases List.mem_cons.mp hb with rfl | hb
    · exact hhere
    · exact hfree between hb

/-- Nothing is seen past a scope that binds the name. -/
theorem Sees.eq_of_binds (h : s.Sees id name target) (hb : s.binds id name) : id = target := by
  obtain ⟨near, far, hchain, hfree⟩ := h
  obtain ⟨rest, hrest⟩ := hchain.exists_eq_cons
  cases near with
  | nil => exact (List.cons.inj hrest).1.symm
  | cons first near =>
    obtain rfl := (List.cons.inj hrest).1
    have hnot := hfree first (by simp)
    rw [hb] at hnot
    cases hnot

/-! ## What a write does

First to the bindings of the store, and then to the values of names as they are seen from the
scopes.
-/

/-- A write to a scope binds the name there and leaves every other binding alone. -/
theorem binding?_bind (h : s.Has (.scope target)) (name : String) (v : Value) (id : ScopeId)
    (other : String) :
    (s.bind target name v).binding? id other =
      if id = target ∧ other = name then some v else s.binding? id other := by
  obtain ⟨scope, hscope⟩ := h.scope
  by_cases hid : id = target
  · subst hid
    simp [binding?, bind, Array.getElem?_modify, hscope, eq_comm]
  · simp [binding?, bind, Array.getElem?_modify, hid, Ne.symm hid]

/-- A name is unbound after the write if it was before, and is not the one written. -/
theorem binding?_bind_eq_none_iff (h : s.Has (.scope target)) {other : String} {v : Value} :
    (s.bind target name v).binding? id other = none ↔
      ¬(id = target ∧ other = name) ∧ s.binding? id other = none := by
  rw [binding?_bind h]
  split <;> simp_all

/-- A write moves no scope, so the ways outwards stay what they were. -/
theorem outer_bind (s : Store) (target : ScopeId) (name : String) (v : Value) (id : ScopeId) :
    (s.bind target name v).scopes[id]?.map Scope.outer = s.scopes[id]?.map Scope.outer := by
  by_cases hid : target = id <;>
    cases hs : s.scopes[id]? <;> simp [bind, Array.getElem?_modify, hid, hs]

/-- A scope that binds the name after the write settles the lookup itself. -/
theorem Chain.lookup_bind_here (hc : s.Chain id l) (h : s.Has (.scope target))
    {name other : String} {v w : Value} (hb : (s.bind target name v).binding? id other = some w) :
    (other = name ∧ s.Sees id name target → (s.bind target name v).lookup id other = v) ∧
    (¬(other = name ∧ s.Sees id name target) →
      (s.bind target name v).lookup id other = s.lookup id other) := by
  rw [(hc.mono (le_bind s target name v)).lookup_here hb]
  rw [binding?_bind h] at hb
  split at hb
  case isTrue hwritten =>
    obtain ⟨rfl, rfl⟩ := hwritten
    obtain rfl := Option.some.inj hb
    exact ⟨fun _ => rfl, fun hnot => absurd ⟨rfl, hc.sees_self other⟩ hnot⟩
  case isFalse hold =>
    refine ⟨?_, fun _ => (hc.lookup_here hb).symm⟩
    rintro ⟨rfl, hsees⟩
    have hbinds : s.binds id other := by rw [binds_eq_isSome, hb]; rfl
    exact absurd ⟨hsees.eq_of_binds hbinds, rfl⟩ hold

/-- **Where a write shows.** After a write to `target`, the name has the new value from every scope
that sees `target`, and every other lookup is what it was. The induction is on the way outwards. -/
theorem Chain.lookup_bind (hc : s.Chain id l) (h : s.Has (.scope target)) (name other : String)
    (v : Value) :
    (other = name ∧ s.Sees id name target → (s.bind target name v).lookup id other = v) ∧
    (¬(other = name ∧ s.Sees id name target) →
      (s.bind target name v).lookup id other = s.lookup id other) := by
  have hle : s ≤ s.bind target name v := le_bind s target name v
  -- a scope that does not settle the lookup passes it on outwards, before and after
  induction hc with
  | @root id scope hs ho =>
    cases hb : (s.bind target name v).binding? id other with
    | some w => exact (Chain.root hs ho).lookup_bind_here h hb
    | none =>
      obtain ⟨hother, hold⟩ := (binding?_bind_eq_none_iff h).mp hb
      obtain ⟨scope', hs', ho', -⟩ := scope_of_le hle hs
      rw [Chain.lookup_root hs' (ho'.symm.trans ho) hb, Chain.lookup_root hs ho hold]
      refine ⟨?_, fun _ => rfl⟩
      rintro ⟨rfl, hsees⟩
      exact absurd hsees (not_sees_of_root hs ho fun hid => hother ⟨hid, rfl⟩)
  | @inner id outer scope l hs ho hl ih =>
    cases hb : (s.bind target name v).binding? id other with
    | some w => exact (Chain.inner hs ho hl).lookup_bind_here h hb
    | none =>
      obtain ⟨hother, hold⟩ := (binding?_bind_eq_none_iff h).mp hb
      obtain ⟨scope', hs', ho', -⟩ := scope_of_le hle hs
      have hsees : other = name → (s.Sees id name target ↔ s.Sees outer name target) := by
        rintro rfl
        have hfree : s.binds id other = false := by rw [binds_eq_isSome, hold]; rfl
        rw [sees_outer_iff hs ho hl fun hid => hother ⟨hid, rfl⟩, hfree]
        exact ⟨And.right, fun hsees => ⟨rfl, hsees⟩⟩
      rw [Chain.lookup_outer hs' (ho'.symm.trans ho) (hl.mono hle) hb,
        Chain.lookup_outer hs ho hl hold, and_congr_right hsees]
      exact ih

/-! ## Where an assignment goes

The target is determined, and what has been said of writes can be said of it.
-/

/-- What an assignment resolves its name to is its target, and the only one. -/
theorem Chain.target_iff (hc : s.Chain id l) :
    s.Target id name target ↔ target = (s.resolve id name).getD id := by
  rw [hc.resolve_eq]
  constructor
  · rintro (⟨⟨near, far, hchain, hfree⟩, hbinds⟩ | ⟨hchain, hfree⟩)
    · obtain rfl := hc.unique hchain
      have hfound : (near ++ target :: far).find? (s.binds · name) = some target :=
        List.find?_eq_some_iff_append.mpr
          ⟨hbinds, near, far, rfl, fun between hb => by rw [hfree between hb]; rfl⟩
      rw [hfound, Option.getD_some]
    · obtain rfl := hc.unique hchain
      have hnone : l.find? (s.binds · name) = none :=
        List.find?_eq_none.mpr fun between hb => by rw [hfree between hb]; exact Bool.false_ne_true
      rw [hnone, Option.getD_none]
  · rintro rfl
    cases hfound : l.find? (s.binds · name) with
    | none =>
      refine .unbound hc fun between hb => ?_
      simpa using List.find?_eq_none.mp hfound between hb
    | some holder =>
      obtain ⟨hbinds, near, far, rfl, hnear⟩ := List.find?_eq_some_iff_append.mp hfound
      exact .bound ⟨near, far, hc, fun between hb => by simpa using hnear between hb⟩ hbinds

/-- The scope an assignment is made from sees the target. -/
theorem Target.sees (h : s.Target id name target) : s.Sees id name target := by
  cases h with
  | bound hsees _ => exact hsees
  | unbound hc _ => exact hc.sees_self name

/-- What is seen is a scope of the store. -/
theorem Sees.has (h : s.Sees id name target) : s.Has (.scope target) := by
  obtain ⟨near, far, hchain, -⟩ := h
  exact hchain.has (by simp)

/-- **An assignment has one effect, seen from the right scopes.** Its target is the
nearest scope that binds the name, or else the scope it is made from. The target's
binding of the name is the only thing in the store that changes; the name has the
new value from the scopes that see the target, the scope it is made from among
them, and every other name from every scope is what it was, bound or not. -/
theorem assign_one_effect (hs : s.Grounded) (hid : s.Has (.scope id)) (name : String)
    (v : Value) :
    ∃ target, (∀ t, s.Target id name t ↔ t = target) ∧
      (∀ e other, (s.assign id name v).binding? e other =
        if e = target ∧ other = name then some v else s.binding? e other) ∧
      (∀ e : ScopeId,
        (s.assign id name v).scopes[e]?.map Scope.outer = s.scopes[e]?.map Scope.outer) ∧
      (s.assign id name v).objects = s.objects ∧ (s.assign id name v).closures = s.closures ∧
      (∀ e, s.Has (.scope e) → ∀ other,
        (other = name ∧ s.Sees e name target → (s.assign id name v).lookup e other = v) ∧
        (¬(other = name ∧ s.Sees e name target) →
          (s.assign id name v).lookup e other = s.lookup e other)) ∧
      (s.assign id name v).lookup id name = v := by
  obtain ⟨l, hc⟩ := hs id hid
  obtain ⟨target, htarget⟩ : ∃ target, target = (s.resolve id name).getD id := ⟨_, rfl⟩
  have hsees : s.Sees id name target := (hc.target_iff.mpr htarget).sees
  have hassign : s.assign id name v = s.bind target name v := by rw [assign, htarget]
  rw [hassign]
  refine ⟨target, fun t => htarget ▸ hc.target_iff, binding?_bind hsees.has name v,
    outer_bind s target name v, rfl, rfl, fun e he other => ?_, ?_⟩
  · obtain ⟨l', hc'⟩ := hs e he
    exact hc'.lookup_bind hsees.has name other v
  · exact (hc.lookup_bind hsees.has name name v).1 ⟨rfl, hsees⟩

/-- A global scope that binds `x`, and two scopes inside it: scope 1 binds `x` again
and has scope 3 inside it, scope 2 binds nothing. -/
def forked : Store :=
  ⟨#[⟨[("x", .null)], none⟩, ⟨[("x", .boolean true)], some 0⟩, ⟨[], some 0⟩, ⟨[], some 1⟩],
    #[], #[]⟩

/-- An assignment from scope 2 goes to the global scope; scope 3 does not see it. -/
theorem assign_forked : forked.Grounded ∧ forked.Has (.scope 2) ∧
    (forked.assign 2 "x" .undefined).lookup 0 "x" = .undefined ∧
    (forked.assign 2 "x" .undefined).lookup 3 "x" = .boolean true := by
  have h0 : forked.Chain 0 [0] := .root rfl rfl
  have h1 : forked.Chain 1 [1, 0] := .inner rfl rfl h0
  have h2 : forked.Chain 2 [2, 0] := .inner rfl rfl h0
  have h3 : forked.Chain 3 [3, 1, 0] := .inner rfl rfl h1
  have hgrounded : forked.Grounded := by
    intro id hid
    obtain ⟨scope, hscope⟩ := hid.scope
    obtain ⟨hlt, -⟩ := Array.getElem?_eq_some_iff.mp hscope
    match id, hlt with
    | 0, _ => exact ⟨_, h0⟩
    | 1, _ => exact ⟨_, h1⟩
    | 2, _ => exact ⟨_, h2⟩
    | 3, _ => exact ⟨_, h3⟩
  have hhas : forked.Has (.scope 2) := h2.has (by simp)
  obtain ⟨target, htarget, -, -, -, -, hlookup, -⟩ :=
    assign_one_effect hgrounded hhas "x" .undefined
  have hsees : forked.Sees 2 "x" 0 := ⟨[2], [], h2, by decide⟩
  obtain rfl : 0 = target := (htarget 0).mp (.bound hsees (by decide))
  refine ⟨hgrounded, hhas, (hlookup 0 (h0.has (by simp)) "x").1 ⟨rfl, h0.sees_self "x"⟩, ?_⟩
  refine ((hlookup 3 (h3.has (by simp)) "x").2 fun hsees => ?_).trans rfl
  -- scope 1 binds `x` on the way
  have hthrough := (sees_outer_iff (s := forked) rfl rfl h1 (by decide)).mp hsees.2
  have hblocked := (sees_outer_iff (s := forked) rfl rfl h0 (by decide)).mp hthrough.2
  exact absurd hblocked.1 (by decide)

end Store

end Scriptlet
