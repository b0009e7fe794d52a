import Scriptlet.Proofs.Eval.Machine
import Scriptlet.Proofs.Eval.Plain

/-!
# Evaluation always ends

`Machine.halts`: from every well-formed store and at every depth of calls the machine comes to an
end, with the result and the store of the evaluator and with the counter of calls as it was. The
runs are put together as the evaluator puts computations together, one lemma for each kind of thing
that is evaluated. The bodies of functions are not part of what is evaluated when they are called,
so calls are treated apart: their runs are assumed for one depth while expressions and statements
are treated, and then proved by going down from the limit.

A run is a chain of steps, and what is shown of each construct is where its chain ends, whatever is
on the stack below (`Yields`, `Completes`). So the chains of the parts of a construct can be put one
behind the other, with a step in between that pops the frame which was waiting. Every step is an
equation that holds by computation; what needs an argument is that the parts are run in a store that
is still well-formed, and that scopes are still there, for which `Expr.eval_grows` is used.

* `find_yields`, `assign_yields`: the search for a name, by induction on the chain of scopes.
* `eval_yields`, `exec_completes` and their companions: code, if calls at this depth end.
* `calls_yield`: calls, by induction on how many may still be nested.
* `halts`: the result, for a machine with nothing on its stack.
-/

namespace Scriptlet

namespace Machine

open Relation Store

variable {s : Store} {d : Nat} {scope : ScopeId}

/-- Whatever is on the stack, the machine comes to hand on this value with this
store, and is at the same depth as before. -/
def Yields (s : Store) (d : Nat) (c : Control) (r : Value × Store) : Prop :=
  ∀ k, Steps ⟨s, d, c, k⟩ ⟨r.2, d, .value r.1, k⟩

/-- As `Yields`, for a completion. -/
def Completes (s : Store) (d : Nat) (c : Control) (r : Completion × Store) : Prop :=
  ∀ k, Steps ⟨s, d, c, k⟩ ⟨r.2, d, .completion r.1, k⟩

/-! ## Names

The machine goes from scope to scope, where the evaluator resolves a name at once. The chain of
scopes from a place outwards is what the two have in common.
-/

/-- Where the way outwards leads on to. -/
theorem outer_eq {id : ScopeId} {scope : Scope} (hs : s.scopes[id]? = some scope) :
    s.scopes[id]?.bind Scope.outer = scope.outer := by
  rw [hs]
  rfl

/-- A name is found by going outwards. -/
theorem find_yields {id : ScopeId} {l : List ScopeId} (h : s.Chain id l) (name : String) :
    Yields s d (.find name id) (s.lookup id name, s) := by
  induction h with
  | @root id scope hs ho =>
    intro k
    refine .single ?_
    cases hb : s.binding? id name with
    | some v => simp only [Next, step, findHere, hb, (Chain.root hs ho).lookup_here hb]
    | none => simp only [Next, step, findHere, hb, outer_eq hs, ho, Chain.lookup_root hs ho hb]
  | @inner id outer scope l hs ho hl ih =>
    intro k
    cases hb : s.binding? id name with
    | some v =>
      refine .single ?_
      simp only [Next, step, findHere, hb, (Chain.inner hs ho hl).lookup_here hb]
    | none =>
      refine .head ?_ (Chain.lookup_outer hs ho hl hb ▸ ih k)
      simp only [Next, step, findHere, hb, outer_eq hs, ho]

/-- The place of an assignment is found by going outwards. -/
theorem assign_yields {id : ScopeId} {l : List ScopeId} (h : s.Chain id l) (name : String)
    (v : Value) :
    Yields s d (.assign name v scope id)
      (.undefined, s.bind ((s.resolve id name).getD scope) name v) := by
  induction h with
  | @root id scope' hs ho =>
    intro k
    refine .single ?_
    cases hb : s.binds id name with
    | true => simp [Next, step, assignHere, hb, (Chain.root hs ho).resolve_here hb]
    | false => simp [Next, step, assignHere, hb, hs, ho, Chain.resolve_root hs ho hb]
  | @inner id outer scope' l hs ho hl ih =>
    intro k
    cases hb : s.binds id name with
    | true =>
      refine .single ?_
      simp [Next, step, assignHere, hb, (Chain.inner hs ho hl).resolve_here hb]
    | false =>
      refine .head ?_ (Chain.resolve_outer hs ho hl hb ▸ ih k)
      simp [Next, step, assignHere, hb, hs, ho]

/-! ## Expressions

Along the recursion of the evaluator. What the machine has done when it comes to the next part is
exactly what the evaluator passes on to it.
-/

/-- Calls at this depth run as in the evaluator. -/
def CallsYield (d : Nat) : Prop :=
  ∀ {s : Store} {id : ClosureId} {args : List Value}, s.WellFormed → s.Has (.closure id) →
    (∀ v ∈ args, s.HasValue v) →
    Yields s d (.call id args) ((Host.within (callLimit - d) : Host Id).call id args s)

/-- Setting a property refers to nothing but the value that is set, so the store stays
well-formed. -/
theorem wellFormed_setProperty {s : Store} (hs : s.WellFormed) {base v : Value} (key : String)
    (hbase : s.HasValue base) (hv : s.HasValue v) : (s.setProperty base key v).WellFormed :=
  ((confinement Set.univ s).setProperty key hs.confined (valueInside_univ.mpr hbase)
    (valueInside_univ.mpr hv)).wellFormed

mutual

/-- An expression runs to its value. -/
theorem eval_yields (hcall : CallsYield d) :
    ∀ (e : Expr) {s : Store}, s.WellFormed → s.Has (.scope scope) →
      Yields s d (.eval scope e)
        ((e.eval (Host.within (callLimit - d)) scope : Eval Id Value) s)
  | .literal value, s, _, _ => fun k => .single rfl
  | .object properties, s, hs, hscope => by
    intro k
    -- the object is there from now on: the empty literal is the step that makes it
    obtain ⟨hle, hs₁, hid⟩ := Expr.eval_grows (callLimit - d) (.object []) hs hscope
    exact .head rfl (properties_yields hcall properties hs₁ (hscope.mono hle) (hid _ rfl) k)
  | .name n, s, hs, hscope => by
    intro k
    -- the search goes along the chain of the scope, which ends
    obtain ⟨l, hl⟩ := hs.chain hscope
    exact .head rfl (find_yields hl n k)
  | .member base key, s, hs, hscope => by
    intro k
    have hbase := eval_yields hcall base hs hscope (.memberOf scope key :: k)
    obtain ⟨hle, hs₁, -⟩ := Expr.eval_grows (callLimit - d) base hs hscope
    rw [Expr.eval, bind_apply]
    generalize (base.eval (Host.within (callLimit - d)) scope : Eval Id Value) s = r at *
    refine .head rfl (hbase.trans ?_)
    by_cases ho : r.1.isObjectLike
    · have hkey := eval_yields hcall key hs₁ (hscope.mono hle) (.keyOf r.1 :: k)
      rw [if_pos ho]
      exact .head (if_pos ho) (hkey.trans (.single rfl))
    · rw [if_neg ho]
      exact .single (if_neg ho)
  | .function n params body, s, _, _ => fun k => .single rfl
  | .call callee args, s, hs, hscope => by
    intro k
    have hcallee := eval_yields hcall callee hs hscope (.callOf scope callee args :: k)
    obtain ⟨hle, hs₁, hf⟩ := Expr.eval_grows (callLimit - d) callee hs hscope
    rw [Expr.eval, bind_apply]
    generalize (callee.eval (Host.within (callLimit - d)) scope : Eval Id Value) s = r at *
    obtain ⟨f, s₁⟩ := r
    refine .head rfl (hcallee.trans ?_)
    cases f with
    | function id =>
      -- no argument has been evaluated yet
      have hnone : ∀ v ∈ ([] : List Value), s₁.HasValue v := fun _ hv => nomatch hv
      exact .head rfl (arguments_yields hcall args hs₁ (hscope.mono hle) (hf _ rfl) hnone k)
    | _ => exact .single rfl
  | .binary op left right, s, hs, hscope => by
    intro k
    have hleft := eval_yields hcall left hs hscope (.leftOf scope op right :: k)
    obtain ⟨hle, hs₁, -⟩ := Expr.eval_grows (callLimit - d) left hs hscope
    rw [Expr.eval, bind_apply]
    generalize (left.eval (Host.within (callLimit - d)) scope : Eval Id Value) s = r at *
    have hright := eval_yields hcall right hs₁ (hscope.mono hle) (.rightOf op r.1 :: k)
    exact .head rfl (hleft.trans (.head rfl (hright.trans (.single rfl))))
  | .assign (.name n) value, s, hs, hscope => by
    intro k
    have hvalue := eval_yields hcall value hs hscope (.assignName scope n :: k)
    obtain ⟨hle, hs₁, -⟩ := Expr.eval_grows (callLimit - d) value hs hscope
    rw [Expr.eval, bind_apply]
    generalize (value.eval (Host.within (callLimit - d)) scope : Eval Id Value) s = r at *
    -- the chain is the one in the store that the value has left, where the search for the target
    -- runs
    obtain ⟨l, hl⟩ := hs₁.chain (hscope.mono hle)
    exact .head rfl (hvalue.trans (.head rfl (assign_yields hl n r.1 k)))
  | .assign (.member base key) value, s, hs, hscope => by
    intro k
    have hbase := eval_yields hcall base hs hscope (.assignMember scope key value :: k)
    obtain ⟨hle₁, hs₁, -⟩ := Expr.eval_grows (callLimit - d) base hs hscope
    rw [Expr.eval, bind_apply]
    generalize (base.eval (Host.within (callLimit - d)) scope : Eval Id Value) s = r at *
    refine .head rfl (hbase.trans ?_)
    by_cases ho : r.1.isObjectLike
    · have hkey := eval_yields hcall key hs₁ (hscope.mono hle₁) (.assignKey scope r.1 value :: k)
      obtain ⟨hle₂, hs₂, -⟩ := Expr.eval_grows (callLimit - d) key hs₁ (hscope.mono hle₁)
      rw [if_pos ho, bind_apply]
      generalize (key.eval (Host.within (callLimit - d)) scope : Eval Id Value) r.2 = r' at *
      have hvalue := eval_yields hcall value hs₂ (hscope.mono (hle₁.trans hle₂))
        (.assignProperty r.1 r'.1.key :: k)
      exact .head (if_pos ho) (hkey.trans (.head rfl (hvalue.trans (.single rfl))))
    · rw [if_neg ho]
      exact .single (if_neg ho)
  | .assign (.literal _) _, _, _, _ | .assign (.object _) _, _, _, _
  | .assign (.function _ _ _) _, _, _, _ | .assign (.call _ _) _, _, _, _
  | .assign (.binary _ _ _) _, _, _, _ | .assign (.assign _ _) _, _, _, _ => fun _ => .single rfl

/-- The arguments that are left run to their values, and the call to its own. -/
theorem arguments_yields (hcall : CallsYield d) {id : ClosureId} :
    ∀ (rest : List Expr) {done : List Value} {s : Store}, s.WellFormed → s.Has (.scope scope) →
      s.Has (.closure id) → (∀ v ∈ done, s.HasValue v) →
      Yields s d (.arguments scope id done rest)
        ((do
          let values ← Expr.evalAll (Host.within (callLimit - d)) scope rest
          (Host.within (callLimit - d)).call id (done ++ values) : Eval Id Value) s)
  | [], done, s, hs, _, hid, hdone => by
    intro k
    have hrun := hcall hs hid hdone k
    rw [bind_apply, Expr.evalAll, pure_apply, List.append_nil]
    exact .head rfl hrun
  | e :: rest, done, s, hs, hscope, hid, hdone => by
    intro k
    have he := eval_yields hcall e hs hscope (.argumentOf scope id done rest :: k)
    obtain ⟨hle, hs₁, hv⟩ := Expr.eval_grows (callLimit - d) e hs hscope
    rw [bind_apply, Expr.evalAll, bind_apply]
    generalize (e.eval (Host.within (callLimit - d)) scope : Eval Id Value) s = r at *
    have hdone' : ∀ v ∈ done ++ [r.1], r.2.HasValue v := by
      intro v hmem
      rcases List.mem_append.mp hmem with hmem | hmem
      · exact fun ℓ hℓ => (hdone v hmem ℓ hℓ).mono hle
      · obtain rfl := List.mem_singleton.mp hmem
        exact hv
    have hrest := arguments_yields hcall rest hs₁ (hscope.mono hle) (hid.mono hle) hdone' k
    rw [bind_apply] at hrest
    rw [bind_apply, pure_apply]
    simp only [List.append_assoc, List.singleton_append] at hrest
    exact .head rfl (he.trans (.head rfl hrest))

/-- The properties that are left run into the object. -/
theorem properties_yields (hcall : CallsYield d) {id : ObjectId} :
    ∀ (rest : List (String × Expr)) {s : Store}, s.WellFormed → s.Has (.scope scope) →
      s.Has (.object id) →
      Yields s d (.properties scope id rest)
        (.object id,
          ((Expr.evalProperties (Host.within (callLimit - d)) scope id rest : Eval Id Unit) s).2)
  | [], s, _, _, _ => fun k => .single rfl
  | (key, e) :: rest, s, hs, hscope, hid => by
    intro k
    have he := eval_yields hcall e hs hscope (.propertyOf scope id key rest :: k)
    obtain ⟨hle, hs₁, hv⟩ := Expr.eval_grows (callLimit - d) e hs hscope
    rw [Expr.evalProperties, bind_apply]
    generalize (e.eval (Host.within (callLimit - d)) scope : Eval Id Value) s = r at *
    have hobject : r.2.HasValue (.object id) := by
      intro ℓ hℓ
      obtain rfl := Option.some.inj hℓ
      exact hid.mono hle
    have hle' := hle.trans (le_setProperty r.2 (.object id) key r.1)
    have hrest := properties_yields hcall rest (wellFormed_setProperty hs₁ key hobject hv)
      (hscope.mono hle') (hid.mono hle') k
    exact .head rfl (he.trans (.head rfl hrest))

end

/-! ## Statements

The same with completions instead of values.
-/

mutual

/-- A statement runs to its completion. -/
theorem exec_completes (hcall : CallsYield d) :
    ∀ (stmt : Stmt) {s : Store}, s.WellFormed → s.Has (.scope scope) →
      Completes s d (.exec scope stmt)
        ((stmt.exec (Host.within (callLimit - d)) scope : Eval Id Completion) s)
  | .function name params body, s, _, _ => fun k => .single rfl
  | .var name init, s, hs, hscope => by
    intro k
    have hinit := eval_yields hcall init hs hscope (.varOf scope name :: k)
    exact .head rfl (hinit.trans (.single rfl))
  | .cond test consequent none, s, hs, hscope => by
    intro k
    have htest := eval_yields hcall test hs hscope (.testOf scope consequent none :: k)
    obtain ⟨hle, hs₁, -⟩ := Expr.eval_grows (callLimit - d) test hs hscope
    rw [Stmt.exec, bind_apply]
    generalize (test.eval (Host.within (callLimit - d)) scope : Eval Id Value) s = r at *
    refine .head rfl (htest.trans ?_)
    by_cases ht : r.1.truthy
    · rw [if_pos ht]
      exact .head (if_pos ht) (exec_completes hcall consequent hs₁ (hscope.mono hle) k)
    · rw [if_neg ht]
      exact .single (if_neg ht)
  | .cond test consequent (some alternate), s, hs, hscope => by
    intro k
    have htest := eval_yields hcall test hs hscope (.testOf scope consequent (some alternate) :: k)
    obtain ⟨hle, hs₁, -⟩ := Expr.eval_grows (callLimit - d) test hs hscope
    rw [Stmt.exec, bind_apply]
    generalize (test.eval (Host.within (callLimit - d)) scope : Eval Id Value) s = r at *
    refine .head rfl (htest.trans ?_)
    by_cases ht : r.1.truthy
    · rw [if_pos ht]
      exact .head (if_pos ht) (exec_completes hcall consequent hs₁ (hscope.mono hle) k)
    · rw [if_neg ht]
      exact .head (if_neg ht) (exec_completes hcall alternate hs₁ (hscope.mono hle) k)
  | .ret none, s, _, _ => fun k => .single rfl
  | .ret (some value), s, hs, hscope => by
    intro k
    have hvalue := eval_yields hcall value hs hscope (.returnOf :: k)
    exact .head rfl (hvalue.trans (.single rfl))
  | .block body, s, hs, hscope => fun k =>
    .head rfl (block_completes hcall body hs hscope k)
  | .expr e, s, hs, hscope => by
    intro k
    have he := eval_yields hcall e hs hscope (.statementOf :: k)
    exact .head rfl (he.trans (.single rfl))

/-- Statements run to the completion of the first that returns. -/
theorem block_completes (hcall : CallsYield d) :
    ∀ (body : List Stmt) {s : Store}, s.WellFormed → s.Has (.scope scope) →
      Completes s d (.block scope body)
        ((Stmt.execAll (Host.within (callLimit - d)) scope body : Eval Id Completion) s)
  | [], s, _, _ => fun k => .single rfl
  | stmt :: body, s, hs, hscope => by
    intro k
    have hstmt := exec_completes hcall stmt hs hscope (.blockOf scope body :: k)
    obtain ⟨hle, hs₁, -⟩ := Stmt.exec_grows (callLimit - d) stmt hs hscope
    rw [Stmt.execAll, bind_apply]
    generalize (stmt.exec (Host.within (callLimit - d)) scope : Eval Id Completion) s = r at *
    obtain ⟨c, s₁⟩ := r
    refine .head rfl (hstmt.trans ?_)
    cases c with
    | returned v => exact .single rfl
    | normal v => exact .head rfl (block_completes hcall body hs₁ (hscope.mono hle) k)

end

/-- A program runs to the completion of its last statement. -/
theorem program_completes (hcall : CallsYield d) (p : Program) {s : Store} {last : Completion}
    (hs : s.WellFormed) (hscope : s.Has (.scope scope)) :
    Completes s d (.program scope last p)
      ((Program.exec (Host.within (callLimit - d)) scope last p : Eval Id Completion) s) := by
  induction p generalizing s last with
  | nil => exact fun k => .single rfl
  | cons stmt p ih =>
    intro k
    have hstmt := exec_completes hcall stmt hs hscope (.programOf scope p :: k)
    obtain ⟨hle, hs₁, -⟩ := Stmt.exec_grows (callLimit - d) stmt hs hscope
    rw [Program.exec, bind_apply]
    generalize (stmt.exec (Host.within (callLimit - d)) scope : Eval Id Completion) s = r at *
    obtain ⟨c, s₁⟩ := r
    refine .head rfl (hstmt.trans ?_)
    cases c with
    | returned v => exact .single rfl
    | normal v => exact .head rfl (ih hs₁ (hscope.mono hle) k)

/-! ## Calls -/

/-- Calls run at every depth: by induction on how many may still be nested, since
the body of a call runs one call deeper. -/
theorem calls_yield (left : Nat) : ∀ {d : Nat}, callLimit - d = left → CallsYield d := by
  induction left with
  | zero =>
    intro d hd s id args _ _ _ k
    have hlimit : callLimit ≤ d := by omega
    rw [hd]
    refine .single ?_
    simp only [Next, step, beginCall, if_pos hlimit]
    rfl
  | succ left ih =>
    intro d hd s id args hs hid hargs k
    have hlimit : ¬ callLimit ≤ d := by omega
    have hdeeper : callLimit - (d + 1) = left := by omega
    obtain ⟨c, hc⟩ := hid
    obtain ⟨closure, hclosure, -⟩ := Option.map_eq_some_iff.mp hc
    obtain ⟨-, hconf, hin⟩ := (confinement Set.univ s).enter hs.confined
      (valueInside_univ.mpr fun ℓ hℓ => ⟨c, Option.some.inj hℓ ▸ hc⟩) hclosure
      fun v hv => valueInside_univ.mpr (hargs v hv)
    have hbody := block_completes (ih hdeeper) closure.body hconf.wellFormed hin.2
      (.callEnd :: k)
    rw [hdeeper] at hbody
    rw [hd, Host.call_succ hclosure]
    generalize (Stmt.execAll (Host.within left) (s.enter closure args).1 closure.body :
      Eval Id Completion) (s.enter closure args).2 = r at *
    obtain ⟨c, s'⟩ := r
    refine .head ?_ (hbody.trans (.single ?_))
    · simp only [Next, step, beginCall, if_neg hlimit, hclosure]
    · cases c <;> rfl

/-- **Evaluation always ends.** From every well-formed store and at every depth of
calls, the machine halts on every expression, statement, block and program in any
scope of the store, and on every call of a closure of the store with values of the
store. It halts with what the evaluator gives, and at the depth it started from. -/
theorem halts {s : Store} (hs : s.WellFormed) (d : Nat) :
    (∀ (e : Expr) (scope : ScopeId), s.Has (.scope scope) →
      let r := (e.eval (Host.within (callLimit - d)) scope : Eval Id Value) s
      HaltsAt ⟨s, d, .eval scope e, []⟩ ⟨r.2, d, .value r.1, []⟩) ∧
    (∀ (stmt : Stmt) (scope : ScopeId), s.Has (.scope scope) →
      let r := (stmt.exec (Host.within (callLimit - d)) scope : Eval Id Completion) s
      HaltsAt ⟨s, d, .exec scope stmt, []⟩ ⟨r.2, d, .completion r.1, []⟩) ∧
    (∀ (body : List Stmt) (scope : ScopeId), s.Has (.scope scope) →
      let r := (Stmt.execAll (Host.within (callLimit - d)) scope body : Eval Id Completion) s
      HaltsAt ⟨s, d, .block scope body, []⟩ ⟨r.2, d, .completion r.1, []⟩) ∧
    (∀ (p : Program) (scope : ScopeId), s.Has (.scope scope) →
      let r := (Program.exec (Host.within (callLimit - d)) scope (.normal .undefined) p :
        Eval Id Completion) s
      HaltsAt ⟨s, d, .program scope (.normal .undefined) p, []⟩ ⟨r.2, d, .completion r.1, []⟩) ∧
    ∀ (id : ClosureId) (args : List Value), s.Has (.closure id) → (∀ v ∈ args, s.HasValue v) →
      let r := (Host.within (callLimit - d) : Host Id).call id args s
      HaltsAt ⟨s, d, .call id args, []⟩ ⟨r.2, d, .value r.1, []⟩ := by
  have hcall : CallsYield d := calls_yield (callLimit - d) rfl
  refine ⟨?_, ?_, ?_, ?_, ?_⟩
  · exact fun e scope hscope => ⟨eval_yields hcall e hs hscope [], rfl⟩
  · exact fun stmt scope hscope => ⟨exec_completes hcall stmt hs hscope [], rfl⟩
  · exact fun body scope hscope => ⟨block_completes hcall body hs hscope [], rfl⟩
  · exact fun p scope hscope => ⟨program_completes hcall p hs hscope [], rfl⟩
  · exact fun id args hid hargs => ⟨hcall hs hid hargs [], rfl⟩

/-- Even a function that does nothing but call itself comes to an end: the last of its calls is one
too many and is refused. -/
theorem halts_on_endless_recursion :
    let f : Stmt := .function "f" [] [.expr (.call (.name "f") [])]
    let s := (f.exec (Host.top : Host Id) globalScope .initial).2
    s.WellFormed ∧ s.Has (.scope globalScope) ∧
      ∃ b, HaltsAt ⟨s, 0, .eval globalScope (.call (.name "f") []), []⟩ b := by
  intro f s
  have hglobal : initial.Has (.scope globalScope) := ⟨.scope ⟨[], none⟩, rfl⟩
  obtain ⟨hle, hs, -⟩ := Stmt.exec_grows callLimit f wellFormed_initial hglobal
  exact ⟨hs, hglobal.mono hle, _, (halts hs 0).1 _ _ (hglobal.mono hle)⟩

end Machine

end Scriptlet
