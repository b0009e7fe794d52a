import Scriptlet.Eval.Simulation

/-!
# Refused calls

A call beyond the limit is refused, and what it gives is a value like any other: a script can store
it, compare it or drop it, and nothing in the result has to show that there was one. Here evaluation
writes down every call that it refuses (`Recorded`). Forgetting the record gives plain evaluation
(`Host.recording_erased`), and an evaluation whose record stays empty is the same with more calls
allowed (`Host.recording_mono`). So the limit is not seen unless it is met: `limit_transparent`.

Both are relations between monads in the sense of `MonadRelation`, `Recorded.erasure` and
`Recorded.unlessRefused`, so that nothing has to be shown about expressions and statements again.
What is left is the calls themselves: by induction on how many may still be nested, a call is
refused in both runs, or in the one that allows fewer and then the record is not empty, or it is
made in both.
-/

namespace Scriptlet

/-- A call that was refused. -/
structure Refusal where
  closure : ClosureId
  args : List Value
deriving DecidableEq

/-- A result together with the calls that were refused on the way to it, in order. -/
structure Recorded (α : Type) where
  value : α
  refusals : List Refusal

namespace Recorded

instance : Monad Recorded where
  pure a := ⟨a, []⟩
  bind x f := ⟨(f x.value).value, x.refusals ++ (f x.value).refusals⟩

/-- With nothing refused on the way, a computation is its continuation. -/
theorem bind_eq_of_refusals {α β : Type} {x : Recorded α} (f : α → Recorded β)
    (h : x.refusals = []) : x >>= f = f x.value := by
  change (⟨(f x.value).value, x.refusals ++ (f x.value).refusals⟩ : Recorded β) = f x.value
  rw [h, List.nil_append]

instance : LawfulMonad Recorded :=
  LawfulMonad.mk' Recorded (fun x => congrArg (Recorded.mk x.value) (List.append_nil x.refusals))
    (fun _ _ => rfl) fun _ _ _ => congrArg (Recorded.mk _) (List.append_assoc _ _ _)

/-- What is done to the value leaves the record as it is. -/
theorem map_eq {α β : Type} (f : α → β) (x : Recorded α) :
    f <$> x = ⟨f x.value, x.refusals⟩ :=
  congrArg (Recorded.mk (f x.value)) (List.append_nil x.refusals)

/-- Forgetting what was refused. -/
def erasure : MonadRelation Recorded Id where
  Rel x y := x.value = y
  rel_pure _ := rfl
  rel_bind {_ _ x y f g} hx hf := by
    obtain rfl : x.value = y := hx
    exact hf x.value

/-- Two computations that are the same if the first refuses nothing. -/
def unlessRefused : MonadRelation Recorded Recorded where
  Rel x y := x.refusals = [] → y = x
  rel_pure _ _ := rfl
  rel_bind {_ _ x y f g} hx hf h := by
    obtain ⟨hnone, hthen⟩ := List.append_eq_nil_iff.mp h
    rw [hx hnone, bind_eq_of_refusals f hnone, bind_eq_of_refusals g hnone]
    exact hf x.value hthen

end Recorded

open MonadRelation Store

/-! ## Calls -/

section

variable {m n : Type → Type} [Monad m] [Monad n]

/-- Calls the closure that was found, if any, and runs its body in these
surroundings. -/
def callFound (host : Host m) (args : List Value) : Option Closure → Eval m Value
  | none => return .undefined
  | some closure => do
    let scope ← modifyGet (·.enter closure args)
    match ← Stmt.execAll host scope closure.body with
    | .returned v => return v
    | .normal _ => return .undefined

/-- Calls a closure whose body runs in these surroundings. -/
def callInto (host : Host m) (id : ClosureId) (args : List Value) : Eval m Value := do
  callFound host args (← reading (·.closures[id]?))

/-- A call that is made is related to the same call in related surroundings, since all it does is to
read the closure, enter the call and run the body. -/
theorem callInto_related {R : MonadRelation m n} {h : Host m} {k : Host n} (hk : h.Related R k)
    (id : ClosureId) (args : List Value) : R.OnStore (callInto h id args) (callInto k id args) := by
  refine onStore_bind (onStore_reading _) fun found => ?_
  cases found with
  | none => exact onStore_pure _
  | some closure =>
    refine onStore_bind (onStore_modifyGet _) fun scope => ?_
    refine onStore_bind (Stmt.execAll_related hk scope closure.body) fun c => ?_
    cases c <;> exact onStore_pure _

end

/-- What a refused call gives, written down. -/
def refuse (id : ClosureId) (args : List Value) : Eval Recorded Value :=
  fun s => ⟨(.tooDeep, s), [⟨id, args⟩]⟩

/-- Calls a closure when that many calls may still be nested, and writes down the call
if it is one too many. -/
def callRecorded : Nat → ClosureId → List Value → Eval Recorded Value
  | 0 => refuse
  | left + 1 => callInto ⟨callRecorded left, Faults.asValues.badTarget⟩

/-- Surroundings in which that many calls may still be nested, and in which every
refused call is written down. -/
def Host.recording (left : Nat) : Host Recorded :=
  ⟨callRecorded left, Faults.asValues.badTarget⟩

/-- **Writing down changes nothing**: without the record, evaluation is the plain one. -/
theorem Host.recording_erased (left : Nat) :
    (Host.recording left).Related Recorded.erasure (Host.within left) := by
  induction left with
  | zero => exact ⟨fun _ _ _ => rfl, onStore_pure _⟩
  | succ left ih => exact ⟨callInto_related ih, onStore_pure _⟩

/-- **More calls allowed change nothing** for an evaluation that refuses none. By induction on the
calls that are left: every call that is admitted with fewer is admitted with more. -/
theorem Host.recording_mono {left left' : Nat} (h : left ≤ left') :
    (Host.recording left).Related Recorded.unlessRefused (Host.recording left') := by
  induction left generalizing left' with
  | zero => exact ⟨fun _ _ _ hnone => (nomatch hnone), onStore_pure _⟩
  | succ left ih =>
    obtain ⟨left', rfl⟩ : ∃ n, left' = n + 1 := ⟨left' - 1, by omega⟩
    exact ⟨callInto_related (ih (Nat.le_of_succ_le_succ h)), onStore_pure _⟩

/-! ## Evaluation at two depths -/

/-- From this store the limit is not seen: the recorded computations `x` and `x'` are
the plain ones `y` and `y'` with their refusals, and if `x` refuses nothing, `x'`
refuses nothing either and `y'` has the result of `y` and leaves the same store. -/
structure LimitUnseen {α : Type} (x x' : Eval Recorded α) (y y' : Eval Id α) (s : Store) :
    Prop where
  erased : (x s).value = y s
  erased' : (x' s).value = y' s
  same : (x s).refusals = [] → (x' s).refusals = [] ∧ y' s = y s

/-- Computations that are related by both relations do not see the limit. -/
theorem LimitUnseen.of_related {α : Type} {x x' : Eval Recorded α} {y y' : Eval Id α}
    (hx : Recorded.erasure.OnStore x y) (hx' : Recorded.erasure.OnStore x' y')
    (h : Recorded.unlessRefused.OnStore x x') (s : Store) : LimitUnseen x x' y y' s where
  erased := hx s
  erased' := hx' s
  same hnone := by
    have hxx' : x' s = x s := h s hnone
    have hy : (x s).value = y s := hx s
    have hy' : (x' s).value = y' s := hx' s
    exact ⟨hxx' ▸ hnone, by rw [← hy, ← hy', hxx']⟩

/-- **The limit is not seen unless it is met.** If an expression, a statement, a block,
a program or a call refuses no call when it starts at some depth, then at every lower
depth it refuses none either, and has the same result and leaves the same store. -/
theorem limit_transparent {d d' : Nat} (h : d' ≤ d) (s : Store) :
    (∀ (e : Expr) (scope : ScopeId),
      LimitUnseen (e.eval (.recording (callLimit - d)) scope)
        (e.eval (.recording (callLimit - d')) scope)
        (e.eval (.within (callLimit - d)) scope) (e.eval (.within (callLimit - d')) scope) s) ∧
    (∀ (stmt : Stmt) (scope : ScopeId),
      LimitUnseen (stmt.exec (.recording (callLimit - d)) scope)
        (stmt.exec (.recording (callLimit - d')) scope)
        (stmt.exec (.within (callLimit - d)) scope)
        (stmt.exec (.within (callLimit - d')) scope) s) ∧
    (∀ (body : List Stmt) (scope : ScopeId),
      LimitUnseen (Stmt.execAll (.recording (callLimit - d)) scope body)
        (Stmt.execAll (.recording (callLimit - d')) scope body)
        (Stmt.execAll (.within (callLimit - d)) scope body)
        (Stmt.execAll (.within (callLimit - d')) scope body) s) ∧
    (∀ (p : Program) (scope : ScopeId) (last : Completion),
      LimitUnseen (Program.exec (.recording (callLimit - d)) scope last p)
        (Program.exec (.recording (callLimit - d')) scope last p)
        (Program.exec (.within (callLimit - d)) scope last p)
        (Program.exec (.within (callLimit - d')) scope last p) s) ∧
    ∀ (id : ClosureId) (args : List Value),
      LimitUnseen ((Host.recording (callLimit - d)).call id args)
        ((Host.recording (callLimit - d')).call id args)
        ((Host.within (callLimit - d)).call id args)
        ((Host.within (callLimit - d')).call id args) s := by
  have hd := Host.recording_erased (callLimit - d)
  have hd' := Host.recording_erased (callLimit - d')
  -- at the lower depth there are more calls left
  have hmono := Host.recording_mono (Nat.sub_le_sub_left h callLimit)
  refine ⟨?_, ?_, ?_, ?_, ?_⟩
  · exact fun e scope => .of_related (Expr.eval_related hd scope e)
      (Expr.eval_related hd' scope e) (Expr.eval_related hmono scope e) s
  · exact fun stmt scope => .of_related (Stmt.exec_related hd scope stmt)
      (Stmt.exec_related hd' scope stmt) (Stmt.exec_related hmono scope stmt) s
  · exact fun body scope => .of_related (Stmt.execAll_related hd scope body)
      (Stmt.execAll_related hd' scope body) (Stmt.execAll_related hmono scope body) s
  · exact fun p scope last => .of_related (Program.exec_related hd scope last p)
      (Program.exec_related hd' scope last p) (Program.exec_related hmono scope last p) s
  · exact fun id args => .of_related (hd.call id args) (hd'.call id args) (hmono.call id args) s

/-- A function that calls another one, called where both calls are just allowed, and
from there where all calls are. One call deeper, the inner call is refused and its error
dropped: the value is the same, and only the record shows that the limit was met. -/
theorem limit_transparent_nested :
    let g : Stmt := .function "g" [] []
    let f : Stmt := .function "f" [] [.expr (.call (.name "g") [])]
    let s := (Stmt.execAll (Host.top : Host Id) globalScope [g, f] .initial).2
    let e : Expr := .call (.name "f") []
    0 ≤ 9998 ∧ (e.eval (.recording (callLimit - 9998)) globalScope s).refusals = [] ∧
      (e.eval (.recording (callLimit - 0)) globalScope s).refusals = [] ∧
      (e.eval (.within (callLimit - 0)) globalScope : Eval Id Value) s =
        (e.eval (.within (callLimit - 9998)) globalScope : Eval Id Value) s ∧
      (e.eval (.recording (callLimit - 9999)) globalScope s).refusals = [⟨0, []⟩] ∧
      ((e.eval (.within (callLimit - 9999)) globalScope : Eval Id Value) s).1 = .undefined := by
  intro g f s e
  have hnone : (e.eval (.recording (callLimit - 9998)) globalScope s).refusals = [] := by
    decide +kernel
  obtain ⟨hnone', hsame⟩ := ((limit_transparent (Nat.zero_le 9998) s).1 e globalScope).same hnone
  exact ⟨Nat.zero_le _, hnone, hnone', hsame, by decide +kernel, by decide +kernel⟩

end Scriptlet
