import Scriptlet.Proofs.Eval.Depth

/-!
# The scope of a call

A call opens one scope, inside the one that its closure captured, and binds the parameters in it one
after the other. So of several parameters with one name the last one counts, even where no argument
is left for it. `Store.Opens` says what the store is like when the body begins, and
`call_opens_scope` that a call is the body run from there.

What is bound is a list of pairs (`boundParams`), which runs out of arguments before it runs out of
parameters, or leaves arguments over. `lookup_boundParams` reads the value of a name off it. That
the bindings are put into the newest scope and nowhere else is shown with the store written as one
with a scope pushed onto it (`Store.push`): binding in that scope changes what was pushed, and the
store below it stays in sight.
-/

namespace Scriptlet

/-- Parameters and what is bound to them: the argument at their position, or else undefined. -/
def boundParams : List String → List Value → List (String × Value)
  | [], _ => []
  | p :: ps, args => (p, args.head?.getD .undefined) :: boundParams ps args.tail

/-- Every parameter is bound to something, in order, however many arguments there are. -/
theorem map_fst_boundParams (params : List String) (args : List Value) :
    (boundParams params args).map Prod.fst = params := by
  induction params generalizing args with
  | nil => rfl
  | cons p ps ih => exact congrArg (p :: ·) (ih args.tail)

/-- **The last position of a name decides** what it is bound to. A position without an argument
binds `undefined`, also where an earlier position of the name has an argument. -/
theorem lookup_boundParams {params : List String} {args : List Value} {p : String} {i : Nat}
    (hi : params[i]? = some p) (hlast : ∀ j, i < j → params[j]? ≠ some p) :
    (boundParams params args).reverse.lookup p = some (args[i]?.getD .undefined) := by
  induction params generalizing args i with
  | nil => cases hi
  | cons q ps ih =>
    rw [boundParams, List.reverse_cons, List.lookup_append]
    cases i with
    | zero =>
      obtain rfl : q = p := Option.some.inj hi
      have habsent : q ∉ ps := fun hmem => by
        obtain ⟨j, hj⟩ := List.mem_iff_getElem?.mp hmem
        exact hlast (j + 1) (Nat.succ_pos j) hj
      have hnone : (boundParams ps args.tail).reverse.lookup q = none := by
        refine List.lookup_eq_none_iff.mpr fun entry hentry => ?_
        have hname := List.mem_map_of_mem (f := Prod.fst) (List.mem_reverse.mp hentry)
        rw [map_fst_boundParams] at hname
        exact bne_iff_ne.mpr fun heq => habsent (heq ▸ hname)
      rw [hnone, Option.none_or, ← List.head?_eq_getElem?]
      exact List.lookup_cons_self
    | succ i =>
      rw [ih (i := i) hi fun j hj => hlast (j + 1) (Nat.succ_lt_succ hj), List.getElem?_tail]
      rfl

namespace Store

/-- A store with one more scope. -/
def push (s : Store) (scope : Scope) : Store := { s with scopes := s.scopes.push scope }

/-- The pushed scope is the newest one, and all others are where they were. -/
theorem scopes_push (s : Store) (scope : Scope) (e : ScopeId) :
    (s.push scope).scopes[e]? = if e = s.scopes.size then some scope else s.scopes[e]? :=
  Array.getElem?_push

theorem bind_push (s : Store) (scope : Scope) (name : String) (v : Value) :
    (s.push scope).bind s.scopes.size name v =
      s.push { scope with bindings := scope.bindings.put name v } := by
  have hscopes : (s.scopes.push scope).modify s.scopes.size
      (fun scope => { scope with bindings := scope.bindings.put name v }) =
      s.scopes.push { scope with bindings := scope.bindings.put name v } := by
    refine Array.ext_getElem? fun e => ?_
    rw [Array.getElem?_modify, Array.getElem?_push, Array.getElem?_push]
    by_cases he : e = s.scopes.size
    · simp [he]
    · simp [he, Ne.symm he]
  exact congrArg (fun scopes => { s with scopes }) hscopes

/-- Parameters are bound in the newest scope one after the other. -/
theorem bindParams_push (s : Store) (scope : Scope) (params : List String) (args : List Value) :
    (s.push scope).bindParams s.scopes.size params args =
      s.push { scope with bindings := scope.bindings.putAll (boundParams params args) } := by
  induction params generalizing scope args with
  | nil => rfl
  | cons p ps ih =>
    cases args with
    | nil =>
      rw [bindParams, bind_push]
      exact ih _ []
    | cons v vs =>
      rw [bindParams, bind_push]
      exact ih _ vs

/-- The scope that a call opens. -/
def callScope (closure : Closure) (args : List Value) : Scope :=
  ⟨Table.putAll [] (boundParams closure.params args), some closure.scope⟩

/-- The scope of a call is the newest one, and nothing else is new. -/
theorem enter_eq (s : Store) (closure : Closure) (args : List Value) :
    s.enter closure args = (s.scopes.size, s.push (callScope closure args)) :=
  congrArg (s.scopes.size, ·) (s.bindParams_push ⟨[], some closure.scope⟩ closure.params args)

/-- What the store `t` is like when the body of a call begins in `scope`, if it was `s` when the
closure was called. -/
structure Opens (s : Store) (closure : Closure) (args : List Value) (scope : ScopeId)
    (t : Store) : Prop where
  /-- the scope is none of those that exist -/
  fresh : s.scopes[scope]? = none
  /-- it lies in the scope that the closure captured, and binds each parameter name once and
  nothing else -/
  opened : ∃ bindings : Table Value, t.scopes[scope]? = some ⟨bindings, some closure.scope⟩ ∧
    (bindings.map Prod.fst).Nodup ∧ ∀ p, p ∈ bindings.map Prod.fst ↔ p ∈ closure.params
  /-- a name has the argument at its last position among the parameters, or undefined if there are
  fewer arguments -/
  bound : ∀ (p : String) (i : Nat), closure.params[i]? = some p →
    (∀ j, i < j → closure.params[j]? ≠ some p) →
      t.binding? scope p = some (args[i]?.getD .undefined)
  scopes : ∀ e : ScopeId, e ≠ scope → t.scopes[e]? = s.scopes[e]?
  objects : t.objects = s.objects
  closures : t.closures = s.closures

/-- Entering a call opens its scope. -/
theorem opens_enter (s : Store) (closure : Closure) (args : List Value) :
    s.Opens closure args (s.enter closure args).1 (s.enter closure args).2 := by
  rw [enter_eq]
  have hscope : (s.push (callScope closure args)).scopes[s.scopes.size]? =
      some (callScope closure args) := by rw [scopes_push, if_pos rfl]
  have hnames : ∀ p, p ∈ (callScope closure args).bindings.map Prod.fst ↔ p ∈ closure.params := by
    intro p
    rw [callScope, Table.mem_names_putAll, map_fst_boundParams]
    exact or_iff_left List.not_mem_nil
  have honce : ((callScope closure args).bindings.map Prod.fst).Nodup :=
    Table.nodup_putAll (t := []) .nil _
  refine ⟨Array.getElem?_eq_none le_rfl, ⟨_, hscope, honce, hnames⟩, ?_, ?_, rfl, rfl⟩
  · intro p i hi hlast
    rw [binding?, hscope, Option.bind_some, callScope, Table.find?_putAll,
      lookup_boundParams hi hlast, Option.some_or]
  · intro e he
    rw [scopes_push, if_neg he]

end Store

open Store

/-- **A call opens one scope and binds the parameters in it.** Below the limit a call is the body,
run in a new scope inside the captured one, in which each parameter has its argument, with all else
in the store as it was: for the evaluator, whatever it runs in, and for the machine, which goes to
the body in one step. -/
theorem call_opens_scope {s : Store} {id : ClosureId} {closure : Closure}
    (h : s.closures[id]? = some closure) (args : List Value) :
    ∃ scope t, s.Opens closure args scope t ∧
      (∀ (m : Type → Type) [Monad m] [LawfulMonad m] (faults : Faults m) (left : Nat),
        callWithin faults (left + 1) id args s =
          Stmt.execAll ⟨callWithin faults left, faults.badTarget⟩ scope closure.body t >>=
            fun r => pure (r.1.result, r.2)) ∧
      ∀ (d : Nat) (k : List Frame), d < callLimit →
        Machine.step ⟨s, d, .call id args, k⟩ =
          some ⟨t, d + 1, .block scope closure.body, .callEnd :: k⟩ :=
  ⟨_, _, s.opens_enter closure args, fun _ _ _ faults left => callWithin_succ faults h left args,
    fun _ _ hd => Machine.step_call_entered hd h args⟩

/-- A function with a parameter that is repeated. -/
def repeating : Closure :=
  ⟨some "f", ["a", "b", "a"], [.ret (some (.name "a"))], globalScope, []⟩

/-- A store with that function, in which the name of the parameter is bound globally. -/
def repeatingStore : Store := ⟨#[⟨[("a", .null)], none⟩], #[], #[repeating]⟩

/-- Two arguments leave none for the last position of `a`, which is therefore undefined; neither
the first argument nor the global `a` has a part in it. -/
theorem call_opens_repeating : repeatingStore.closures[0]? = some repeating ∧
    ∃ scope t, repeatingStore.Opens repeating [.boolean true, .boolean false] scope t ∧
      t.binding? scope "a" = some .undefined ∧ t.binding? scope "b" = some (.boolean false) ∧
      t.binding? globalScope "a" = some .null := by
  have h : repeatingStore.closures[0]? = some repeating := rfl
  obtain ⟨scope, t, hopens, -⟩ := call_opens_scope h [.boolean true, .boolean false]
  have hglobal : globalScope ≠ scope := by
    rintro rfl
    exact nomatch hopens.fresh
  refine ⟨h, scope, t, hopens, hopens.bound "a" 2 rfl ?_, hopens.bound "b" 1 rfl ?_, ?_⟩
  · intro j hj
    match j, hj with
    | j + 3, _ => exact nofun
  · intro j hj
    match j, hj with
    | 2, _ => decide
    | j + 3, _ => exact nofun
  · rw [binding?, hopens.scopes globalScope hglobal]
    rfl

end Scriptlet
