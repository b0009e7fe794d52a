import Scriptlet.Proofs.Eval.Correspondence
import Scriptlet.Proofs.Eval.Flattening
import Scriptlet.Proofs.Eval.Renaming

/-!
# Bindings that are not named

What a program does not name has no part in it. A program is run twice: in an empty global scope,
and at the root of a store that holds any bindings whatever, as long as the program names none of
them. The two runs correspond (`sideBySide`): without the extra bindings (`Store.without`) the
second store is the first one renamed. For every lookup of the program walks past the extra
bindings, in whichever scope it starts, and every assignment to a name finds the same scope to go
to.

Of what was there before, only the root has a counterpart in the first run. As a run writes to
nothing else, the rest of the store is left as it was, and so are the extra bindings:
`unnamed_bindings_inert`.

* `Table.without`, `Scope.without` and `Store.without` leave out names, at one scope. What is read
  and written under other names is the same without them.
* `Store.Beside` is the invariant. Besides the renaming it says what of the second store has no
  counterpart, and that this is as it was; and that no code of the first run uses a hidden name,
  closures that wait to be called included.
* `Store.Beside.alloc` and `Store.Beside.write` keep it, which is all that a correspondence asks
  for.
-/

namespace Scriptlet

/-! ## Leaving out names

Hidden names are those for which a test says so. In the end they are the names that the root bound
before the program began.
-/

/-- The table without the names that are hidden. -/
def Table.without {α : Type} (t : Table α) (hidden : String → Bool) : Table α :=
  t.filter fun entry => !hidden entry.1

section

variable {α : Type} (t : Table α) {hidden : String → Bool}

/-- A table without hidden names has the other ones as before. -/
theorem Table.find?_without (name : String) :
    (t.without hidden).find? name = if hidden name then none else t.find? name := by
  induction t with
  | nil => simp [without, find?]
  | cons entry rest ih =>
    obtain ⟨n, v⟩ := entry
    rw [without] at ih
    by_cases hn : hidden n
    · by_cases heq : n = name
      · subst heq
        simp [without, hn, ih]
      · simp [without, find?, hn, heq, ih]
    · by_cases heq : n = name
      · subst heq
        simp [without, find?, hn]
      · simp [without, find?, hn, heq, ih]

/-- Putting another name into a table, and leaving out hidden ones, can be done in either order. -/
theorem Table.without_put {name : String} (h : hidden name = false) (v : α) :
    (t.put name v).without hidden = (t.without hidden).put name v := by
  induction t with
  | nil => simp [without, put, h]
  | cons entry rest ih =>
    obtain ⟨n, w⟩ := entry
    rw [without, without] at ih
    by_cases heq : n = name
    · subst heq
      simp [without, put, h]
    · by_cases hn : hidden n
      · simp [without, put, hn, heq, ih]
      · simp [without, put, hn, heq, ih]

end

/-- The scope without the names that are hidden. -/
def Scope.without (scope : Scope) (hidden : String → Bool) : Scope :=
  { scope with bindings := scope.bindings.without hidden }

/-- If the cell is a scope, the scope without the names that are hidden. -/
def Cell.without (c : Cell) (hidden : String → Bool) : Cell :=
  match c with
  | .scope a => .scope (a.without hidden)
  | .object _ | .closure _ => c

/-- Putting a name that is not hidden into a cell and leaving out the hidden names can be done in
either order. -/
theorem Cell.without_put {hidden : String → Bool} {name : String} (h : hidden name = false)
    (c : Cell) (v : Value) : (c.put name v).without hidden = (c.without hidden).put name v := by
  cases c with
  | scope a => simp only [Cell.put, Cell.without, Scope.without, Table.without_put _ h]
  | object _ | closure _ => rfl

namespace Store

variable {s t : Store} {ρ : ScopeId} {hidden : String → Bool}

/-- The store without the names that are hidden in one scope. -/
def without (s : Store) (ρ : ScopeId) (hidden : String → Bool) : Store :=
  { s with scopes := s.scopes.modify ρ fun scope => scope.without hidden }

/-- Without hidden names at one scope, that scope is without them and all others are as they
were. -/
theorem scopes_without (s : Store) (ρ id : ScopeId) (hidden : String → Bool) :
    (s.without ρ hidden).scopes[id]? =
      if ρ = id then s.scopes[id]?.map fun scope => scope.without hidden else s.scopes[id]? :=
  Array.getElem?_modify

/-- Leaving out names of one scope changes no other cell, be it a scope, an object or a closure. -/
theorem cell?_without (s : Store) (ρ : ScopeId) (hidden : String → Bool) (ℓ : Loc) :
    (s.without ρ hidden).cell? ℓ =
      if ℓ = .scope ρ then (s.cell? ℓ).map fun c => c.without hidden else s.cell? ℓ := by
  cases ℓ with
  | scope id =>
    rw [cell?, scopes_without]
    by_cases h : ρ = id
    · subst h
      simp only [if_true, cell?, Option.map_map]
      rfl
    · rw [if_neg h, if_neg (fun heq => h (Loc.scope.inj heq).symm), cell?]
  | object id | closure id => rfl

/-! What happens to other names, happens without the hidden ones as well. -/

/-- A new cell is new without the hidden names as well, if it is not the scope they are hidden
at. -/
theorem Allocates.without {ℓ : Loc} {c : Cell} (h : s.Allocates ℓ c t) (hne : ℓ ≠ .scope ρ)
    (hidden : String → Bool) : (s.without ρ hidden).Allocates ℓ c (t.without ρ hidden) := by
  refine ⟨?_, fun ℓ' => ?_⟩
  · rw [cell?_without, if_neg hne, h.fresh]
  · rw [cell?_without, cell?_without, h.cell?]
    by_cases hℓ : ℓ' = ℓ
    · subst hℓ
      rw [if_neg hne, if_pos rfl, if_pos rfl]
    · rw [if_neg hℓ, if_neg hℓ]

/-- A write is a write without the hidden names as well, if it is not one of these that is written
to at their scope. -/
theorem Writes.without {ℓ : Loc} {name : String} {v : Value} (h : s.Writes ℓ name v t)
    (hname : ℓ = .scope ρ → hidden name = false) :
    (s.without ρ hidden).Writes ℓ name v (t.without ρ hidden) := by
  refine ⟨fun ℓ' => ?_⟩
  rw [cell?_without, cell?_without, h.cell?]
  by_cases hρ : ℓ' = .scope ρ
  · subst hρ
    by_cases hℓ : .scope ρ = ℓ
    · have hput := Cell.without_put (hname hℓ.symm)
      simp only [if_pos hℓ, if_true, Option.map_map]
      exact Option.map_congr fun c _ => hput c v
    · simp only [if_neg hℓ, if_true]
  · rw [if_neg hρ, if_neg hρ]

/-! Other names are seen as they were. -/

/-- Under a name that is not hidden, every scope has the binding that it had. -/
theorem binding?_without {name : String} (hname : hidden name = false) (id : ScopeId) :
    (s.without ρ hidden).binding? id name = s.binding? id name := by
  rw [binding?, binding?, scopes_without]
  split
  · cases s.scopes[id]? with
    | none => rfl
    | some scope => simp [Scope.without, Table.find?_without, hname]
  · rfl

/-- The search for a name that is not hidden stops at the same scope, however far it may go. -/
theorem resolveWithin_without {name : String} (hname : hidden name = false) (fuel : Nat)
    (id : ScopeId) :
    (s.without ρ hidden).resolveWithin name fuel id = s.resolveWithin name fuel id := by
  induction fuel generalizing id with
  | zero => rfl
  | succ fuel ih =>
    simp only [resolveWithin, scopes_without, ih]
    by_cases h : ρ = id
    · rw [if_pos h]
      cases s.scopes[id]? with
      | none => rfl
      | some scope =>
        have hhas : (scope.without hidden).bindings.has name = scope.bindings.has name := by
          simp [Scope.without, Table.has, Table.find?_without, hname]
        simp only [Option.map_some, hhas]
        rfl
    · rw [if_neg h]

theorem resolve_without {name : String} (hname : hidden name = false) (id : ScopeId) :
    (s.without ρ hidden).resolve id name = s.resolve id name := by
  have hsize : (s.without ρ hidden).scopes.size = s.scopes.size := Array.size_modify
  rw [resolve, resolve, hsize, resolveWithin_without hname]

/-- Looking up a name that is not hidden gives the same value from every scope. -/
theorem lookup_without {name : String} (hname : hidden name = false) (id : ScopeId) :
    (s.without ρ hidden).lookup id name = s.lookup id name := by
  simp only [lookup, resolve_without hname, binding?_without hname]

end Store

/-! ## Two runs beside each other

The first run begins with nothing, the second one at a root with bindings that are hidden from it.
-/

open Store

/-- Writing to a cell leaves its code as it is. -/
theorem Cell.names_put {N : String → Prop} {c : Cell} (h : c.Names N) (name : String)
    (v : Value) : (c.put name v).Names N := by
  cases c with
  | scope _ | object _ => trivial
  | closure _ => exact h

/-- What a scope binds a name to is what is in its cell. -/
theorem Store.binding?_eq_cell? (s : Store) (id : ScopeId) (name : String) :
    s.binding? id name = (s.cell? (.scope id)).bind fun c => c.table.find? name := by
  rw [binding?, cell?]
  cases s.scopes[id]? <;> rfl

/-- `t` is the store of a run that began with nothing, and `s` that of one that began at
the root `ρ` of `s₀`, where names were bound that are now hidden. -/
structure Store.Beside (s₀ : Store) (ρ : ScopeId) (hidden : String → Bool) (f : Renaming)
    (t s : Store) : Prop where
  /-- without the hidden names the stores are alike -/
  renamed : t.Renamed f (s.without ρ hidden)
  /-- the root is there -/
  root : s.Has (.scope ρ)
  /-- no code of the first run uses a hidden name -/
  code : ∀ {ℓ c}, t.cell? ℓ = some c → c.Names fun name => hidden name = false
  /-- of what was there, only the root has a counterpart -/
  apart : ∀ {ℓ ℓ'}, f ℓ = some ℓ' → s₀.Has ℓ' → ℓ' = .scope ρ
  /-- the rest is as it was -/
  kept : ∀ ℓ, s₀.Has ℓ → ℓ ≠ .scope ρ → s.cell? ℓ = s₀.cell? ℓ
  /-- and so are the hidden names -/
  hidden : ∀ name, hidden name → s.binding? ρ name = s₀.binding? ρ name

namespace Store.Beside

variable {s₀ s s' t t' : Store} {ρ : ScopeId} {hidden : String → Bool} {f : Renaming}
variable {ℓ ℓ' : Loc}

theorem ne_root_of_fresh (h : s₀.Beside ρ hidden f t s) (hfresh : s.cell? ℓ' = none) :
    ℓ' ≠ .scope ρ := by
  rintro rfl
  obtain ⟨c, hc⟩ := h.root
  rw [hfresh] at hc
  cases hc

/-- What is new in the second store was not there before. -/
theorem not_has_of_fresh (h : s₀.Beside ρ hidden f t s) (hfresh : s.cell? ℓ' = none) :
    ¬ s₀.Has ℓ' := by
  intro hhas
  have hkept := h.kept ℓ' hhas (h.ne_root_of_fresh hfresh)
  obtain ⟨c, hc⟩ := hhas
  rw [hfresh, hc] at hkept
  cases hkept

/-- **New cells** in both stores keep them beside each other, if the code of the new cell names none
of the hidden bindings. -/
theorem alloc (h : s₀.Beside ρ hidden f t s) {c c' : Cell} (ha : t.Allocates ℓ c t')
    (ha' : s.Allocates ℓ' c' s') (hc : c.Renamed f c')
    (hcode : c.Names fun name => hidden name = false) :
    ∃ g, f ≤ g ∧ g ℓ = some ℓ' ∧ s₀.Beside ρ hidden g t' s' := by
  have hne := h.ne_root_of_fresh ha'.fresh
  have hnot := h.not_has_of_fresh ha'.fresh
  have hw := ha'.without hne hidden
  have hfresh := h.renamed.fresh ha.fresh
  have hfresh' := h.renamed.fresh_symm hw.fresh
  refine ⟨f.extend hfresh hfresh', Renaming.le_extend _ _, Renaming.extend_self _ _, ?_⟩
  refine ⟨h.renamed.extend ha hw hc, h.root.mono ha'.le, ?_, ?_, ?_, ?_⟩
  · intro x d hd
    rw [ha.cell?] at hd
    split at hd
    · obtain rfl := Option.some.inj hd
      exact hcode
    · exact h.code hd
  · intro x y hxy hy
    rw [Renaming.extend_apply] at hxy
    split at hxy
    · obtain rfl := Option.some.inj hxy
      exact absurd hy hnot
    · exact h.apart hxy hy
  · intro x hx hroot
    rw [ha'.cell?, if_neg, h.kept x hx hroot]
    rintro rfl
    exact hnot hx
  · intro name hname
    rw [← h.hidden name hname, binding?_eq_cell?, binding?_eq_cell?, ha'.cell?, if_neg hne.symm]

/-- **The same value written**, to a scope under a name that is not hidden, keeps them
beside each other. -/
theorem write (h : s₀.Beside ρ hidden f t s) {name : String} {v v' : Value}
    (hw : t.Writes ℓ name v t') (hw' : s.Writes ℓ' name v' s') (hℓ : f ℓ = some ℓ')
    (hname : ∀ id, ℓ' = .scope id → hidden name = false) (hv : v.Renamed f v') :
    s₀.Beside ρ hidden f t' s' where
  renamed := h.renamed.write hw (hw'.without (hname ρ)) hℓ hv
  root := h.root.mono hw'.le
  code {x d} hd := by
    rw [hw.cell?] at hd
    split at hd
    · obtain ⟨c, hc, rfl⟩ := Option.map_eq_some_iff.mp hd
      exact Cell.names_put (h.code hc) name v
    · exact h.code hd
  apart := h.apart
  kept x hx hne := by
    rw [hw'.cell?, if_neg, h.kept x hx hne]
    rintro rfl
    exact hne (h.apart hℓ hx)
  hidden n hn := by
    rw [← h.hidden n hn, binding?_eq_cell?, binding?_eq_cell?, hw'.cell?]
    split
    · next hρ =>
      have hne : name ≠ n := by
        rintro rfl
        rw [hname ρ hρ.symm] at hn
        cases hn
      cases s.cell? (.scope ρ) with
      | none => rfl
      | some c => simp [hne]
    · rfl

end Store.Beside

/-- Runs beside each other correspond, for code that uses no hidden name. -/
def sideBySide (s₀ : Store) (ρ : ScopeId) (hidden : String → Bool) : Correspondence where
  Inv := s₀.Beside ρ hidden
  Name name := hidden name = false
  lookup {f t s id id' name} hs hid hname := by
    have hv := hs.renamed.lookup hid name
    rw [lookup_without hname] at hv
    exact hv
  resolve {f t s id id' name} hs hid hname := by
    have hholder := hs.renamed.resolve hid name
    rw [resolve_without hname] at hholder
    exact hholder
  getProperty key hs hbase := hs.renamed.getProperty hbase key
  closure hs hid := by
    obtain ⟨a, b, ha, hb, hparams, hbody, hscope⟩ := hs.renamed.closure hid
    exact ⟨a, b, ha, hb, hparams, hbody, hscope, hs.code (cell?_closure ha)⟩
  alloc hs ha ha' hc hcode := hs.alloc ha ha' hc hcode
  write hs hw hw' hℓ hname hv := hs.write hw hw' hℓ hname hv

/-- An empty global scope is beside the root of any store, with all that the root binds
hidden. -/
theorem Store.beside_initial {s : Store} {ρ : ScopeId} {root : Scope}
    (hroot : s.scopes[ρ]? = some root) (houter : root.outer = none) :
    s.Beside ρ (s.binds ρ) (PEquiv.single (.scope globalScope) (.scope ρ)) .initial s where
  renamed := by
    refine ⟨fun {ℓ ℓ'} hf => ?_, fun {id id'} hf => ?_⟩
    · obtain ⟨rfl, rfl⟩ := (PEquiv.mem_single_iff _ _ _ _).mp hf
      refine ⟨_, .scope (root.without (s.binds ρ)), rfl, ?_, .scope ?_ fun name => ?_⟩
      · rw [cell?_without, if_pos rfl, cell?_scope hroot]
        rfl
      · rw [Scope.without, houter]
        exact .none
      · -- nothing is left at the root
        have hnone : (root.without (s.binds ρ)).bindings.find? name = none := by
          rw [Scope.without, Table.find?_without, binds_eq hroot, Table.has]
          cases root.bindings.find? name <;> rfl
        rw [hnone]
        exact .none
    · obtain ⟨hid, -⟩ := (PEquiv.mem_single_iff _ _ _ _).mp hf
      obtain rfl := Loc.scope.inj hid
      exact ⟨[globalScope], .root rfl rfl⟩
  root := ⟨_, cell?_scope hroot⟩
  code {ℓ c} hc := by
    cases ℓ with
    | scope id =>
      obtain ⟨scope, -, rfl⟩ := Option.map_eq_some_iff.mp hc
      trivial
    | object id | closure id => cases hc
  apart hf _ := ((PEquiv.mem_single_iff _ _ _ _).mp hf).2
  kept _ _ _ := rfl
  hidden _ _ := rfl

/-! ## What is not named

The root of the second run takes the part of the global scope in the first.
-/

/-- A run that began in an empty global scope and one that began at the root `ρ` of `s`
ended alike, up to renaming, and the second left alone what `s` held. -/
structure Store.Unconcerned (s : Store) (ρ : ScopeId) (g : Renaming) (x y : Value × Store) :
    Prop where
  /-- the roots correspond -/
  root : g (.scope globalScope) = some (.scope ρ)
  /-- the results are the same up to where they live -/
  result : x.1.Renamed g y.1
  typeName : x.1.typeName = y.1.typeName
  display : x.1.display = y.1.display
  /-- an error is the same error -/
  error : ∀ fault, x.1 = .error fault ↔ y.1 = .error fault
  /-- apart from what the root held before, it binds the same names to renamed values -/
  bindings : ∀ name, s.binds ρ name = false →
    Option.Rel (Value.Renamed g) (x.2.binding? globalScope name) (y.2.binding? ρ name)
  /-- all that can be reached, not counting what the root held before, is alike -/
  reached : x.2.Renames g ({.scope globalScope} ∪ x.1.locs) (y.2.without ρ (s.binds ρ))
    ({.scope ρ} ∪ y.1.locs)
  /-- what the root held before, it still holds -/
  extra : ∀ name v, s.binding? ρ name = some v → y.2.binding? ρ name = some v
  /-- everything else that was there is as it was -/
  untouched : ∀ ℓ, s.Has ℓ → ℓ ≠ .scope ρ → y.2.cell? ℓ = s.cell? ℓ

/-- **Bindings that are not named have no part in a run and are not touched by it.** Let
`ρ` be a root of a store that binds no name which the program looks up, assigns or
declares. Then the program runs there as in an empty global scope: it has the same
result, refuses the same calls and leaves the same bindings, all up to renaming; and the
bindings that were there, and every other cell of the store, are as they were. The refused
calls are those that a recorded run writes down; without its record it is the run itself. -/
theorem unnamed_bindings_inert {s : Store} {ρ : ScopeId} {root : Scope}
    (hroot : s.scopes[ρ]? = some root) (houter : root.outer = none) {p : Program}
    (hp : Stmt.NamesAll (fun name => s.binds ρ name = false) p) :
    (∀ (scope : ScopeId) (t : Store),
      p.run scope t =
        (Program.exec (.recording callLimit) scope (.normal .undefined) p t).value.map
          Completion.value id) ∧
    ∃ g : Renaming, s.Unconcerned ρ g (p.run globalScope .initial) (p.run ρ s) ∧
      List.Forall₂ (Refusal.Renamed g)
        (Program.exec (.recording callLimit) globalScope (.normal .undefined) p .initial).refusals
        (Program.exec (.recording callLimit) ρ (.normal .undefined) p s).refusals := by
  refine ⟨p.run_eq_recorded, ?_⟩
  have hglobal : PEquiv.single (Loc.scope globalScope) (Loc.scope ρ) (.scope globalScope) =
      some (.scope ρ) := PEquiv.single_apply _ _
  -- one simulation for all: the names that are hidden are those that the root bound before
  have hruns : (sideBySide s ρ (s.binds ρ)).Simulates .recorded _ .initial s
      (Program.exec (.recording callLimit) globalScope (.normal .undefined) p)
      (Program.exec (.recording callLimit) ρ (.normal .undefined) p) Completion.Renamed :=
    Program.exec_corresponds (Host.recording_corresponds callLimit) p hp
      (beside_initial hroot houter) hglobal (.normal (.plain rfl))
  obtain ⟨g, hle, hrefusals, hs, hresult⟩ := hruns
  have hscope := hle _ _ hglobal
  refine ⟨g, ?_, hrefusals⟩
  rw [Program.run_eq_recorded, Program.run_eq_recorded]
  generalize Program.exec (.recording callLimit) globalScope (.normal .undefined) p .initial = x
    at hs hresult
  generalize Program.exec (.recording callLimit) ρ (.normal .undefined) p s = y at hs hresult
  have hv := hresult.value
  refine ⟨hscope, hv, hv.typeName_eq, hv.display_eq, fun fault => ?_, fun name hname => ?_, ?_,
    fun name v hb => ?_, hs.kept⟩
  · refine ⟨fun h => ?_, fun h => ?_⟩
    · exact (hv.eq_of_isError (congrArg Value.isError h)).symm.trans h
    · exact (hv.symm.eq_of_isError (congrArg Value.isError h)).symm.trans h
  -- a name that is not hidden has the same binding with the hidden ones and without
  · have hrel := hs.renamed.binding? hscope name
    rw [binding?_without hname] at hrel
    exact hrel
  · refine hs.renamed.renames ?_ ?_
    · rintro ℓ (rfl | hℓ)
      · exact ⟨_, .inl rfl, hscope⟩
      · obtain ⟨ℓ', hℓ', hf⟩ := hv.loc? hℓ
        exact ⟨ℓ', .inr hℓ', hf⟩
    · rintro ℓ' (rfl | hℓ')
      · exact ⟨_, .inl rfl, hscope⟩
      · obtain ⟨ℓ, hℓ, hf⟩ := hv.symm.loc? hℓ'
        exact ⟨ℓ, .inr hℓ, g.eq_some_iff.mp hf⟩
  · have hbinds : s.binds ρ name = true := by rw [binds_eq_isSome, hb]; rfl
    exact (hs.hidden name hbinds).trans hb

/-- A root that holds an object and a function which would see `x`. A program that
declares `x` and makes an object of its own has the result it has on its own, and the
object that was there is as it was. -/
theorem unnamed_bindings_inert_box :
    let peek : Closure := ⟨some "peek", [], [.ret (some (.name "x"))], 1, []⟩
    let root : Scope := ⟨[("box", .object 0), ("peek", .function 0)], none⟩
    let s : Store := ⟨#[⟨[], none⟩, root], #[[("full", .boolean true)]], #[peek]⟩
    let f : Stmt := .function "f" ["a"]
      [.expr (.assign (.name "y") (.name "a")), .ret (some (.name "y"))]
    let p : Program := [f, .var "x" (.object []), .expr (.call (.name "f") [.name "x"])]
    s.scopes[1]? = some root ∧ root.outer = none ∧
      Stmt.NamesAll (fun name => s.binds 1 name = false) p ∧
      (p.run globalScope .initial).1 = .object 0 ∧ (p.run 1 s).1 = .object 1 ∧
      (p.run globalScope .initial).1.display = (p.run 1 s).1.display ∧
      (p.run 1 s).2.binding? 1 "box" = some (.object 0) ∧
      (p.run 1 s).2.cell? (.object 0) = s.cell? (.object 0) := by
  intro peek root s f p
  have hroot : s.scopes[1]? = some root := rfl
  have hp : Stmt.NamesAll (fun name => s.binds 1 name = false) p := by
    simp [p, f, s, root, Stmt.EverywhereAll, Stmt.Everywhere, Expr.Everywhere,
      Expr.EverywhereAll, Expr.EverywhereProperties, Stmt.HasNames, Expr.HasNames, binds,
      Table.has, Table.find?]
  obtain ⟨-, g, h, -⟩ := unnamed_bindings_inert hroot rfl hp
  refine ⟨hroot, rfl, hp, by decide +kernel, by decide +kernel, h.display, ?_, ?_⟩
  · exact h.extra "box" (.object 0) rfl
  · exact h.untouched (.object 0) ⟨_, rfl⟩ (by decide)

end Scriptlet
