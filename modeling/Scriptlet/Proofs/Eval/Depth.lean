import Scriptlet.Proofs.Eval.Termination

/-!
# The counter of calls

The machine counts the calls in progress. The books are right if the counter is what it was at the
start plus the calls that the stack still waits to end, and if it is not above the limit; this is
`Balanced`, and every step keeps it. A step turns the counter in two places only: where a call is
entered, and where the body of one has completed, however it did. So the counter is never above the
limit nor below its start, and back at its start when nothing is waiting any more:
`Machine.depth_accounted`.

* `Machine.books` is the pair of the counter and the calls that are waited for. For each of the
  functions that a step is made of there is one lemma about it; those that are not about calls leave
  it as it is, whatever they do to the store.
* `Machine.step_books` collects them: a step leaves the books alone, or enters a call below the
  limit, or ends one.
* `Machine.Balanced.step` and `Machine.Balanced.steps` are the invariant for one step and for whole
  runs.
* `Machine.Accounted` adds that the run halts, which `Machine.halts` provides. The two together give
  that the counter is restored, and `Machine.depth_accounted` says so for everything that can be
  run.
-/

namespace Scriptlet

/-- Does this frame wait for the body of a call? -/
def Frame.endsCall : Frame → Bool
  | .callEnd => true
  | _ => false

namespace Machine

open Relation Store

/-- How many calls a stack waits to end. -/
def openCalls (k : List Frame) : Nat := k.countP Frame.endsCall

/-- The frame that ends a call is counted, whatever is below it. -/
theorem openCalls_callEnd (k : List Frame) : openCalls (.callEnd :: k) = openCalls k + 1 :=
  List.countP_cons_of_pos rfl

/-- The books of a run that started at depth `start` are right. -/
def Balanced (start : Nat) (m : Machine) : Prop :=
  m.depth = start + openCalls m.stack ∧ m.depth ≤ callLimit

/-! ## One step

A lemma for each of the functions that a step is made of.
-/

variable {s : Store} {d : Nat} {k : List Frame}

/-- The depth and the calls that are waited for. -/
def books (m : Machine) : Nat × Nat := (m.depth, openCalls m.stack)

/-- Beginning an expression pushes frames that wait for values, none of which ends a call. -/
theorem books_beginExpr (scope : ScopeId) (e : Expr) :
    (beginExpr scope s d k e).books = (d, openCalls k) := by
  cases e with
  | assign target value => cases target <;> rfl
  | _ => rfl

/-- A statement begins without a change of the counter: none of the frames that it pushes is an open
call. -/
theorem books_beginStmt (scope : ScopeId) (stmt : Stmt) :
    (beginStmt scope s d k stmt).books = (d, openCalls k) := by
  cases stmt with
  | ret value => cases value <;> rfl
  | _ => rfl

/-- Looking for a name in one scope goes on, or ends with a value; either way no call begins or
ends. -/
theorem books_findHere (name : String) (here : ScopeId) :
    (findHere s d k name here).books = (d, openCalls k) := by
  unfold findHere
  split
  · rfl
  · split <;> rfl

/-- A search for where to assign opens no call either, in whichever scope it has arrived. -/
theorem books_assignHere (name : String) (v : Value) (scope here : ScopeId) :
    (assignHere s d k name v scope here).books = (d, openCalls k) := by
  unfold assignHere
  split
  · rfl
  · split <;> rfl

/-- A frame that waits for a value is not the end of a call. -/
theorem books_resumeValue {v : Value} {frame : Frame} {b : Machine}
    (h : resumeValue s d v k frame = some b) : b.books = (d, openCalls (frame :: k)) := by
  cases frame with
  | blockOf | programOf | callEnd => cases h
  | memberOf | assignMember =>
    simp only [resumeValue] at h
    split at h <;> cases h <;> rfl
  | callOf =>
    simp only [resumeValue] at h
    split at h <;> cases h <;> rfl
  | testOf scope consequent alternate =>
    simp only [resumeValue] at h
    split at h
    · cases h
      rfl
    · split at h <;> cases h <;> rfl
  | _ =>
    cases h
    rfl

/-- The end of a call takes one from the counter and from the stack, and no other
frame that waits for a completion does. -/
theorem books_resumeCompletion {c : Completion} {frame : Frame} {b : Machine}
    (h : resumeCompletion s d c k frame = some b) :
    b.books = (d, openCalls (frame :: k)) ∨
      b.depth = d - 1 ∧ openCalls (frame :: k) = openCalls b.stack + 1 := by
  cases frame with
  | blockOf | programOf => cases c <;> cases h <;> exact .inl rfl
  | callEnd => cases c <;> cases h <;> exact .inr ⟨rfl, openCalls_callEnd k⟩
  | _ => cases h

/-- A call adds one to the counter and to the stack, and only below the limit. -/
theorem books_beginCall (id : ClosureId) (args : List Value) :
    (beginCall s d k id args).books = (d, openCalls k) ∨
      d < callLimit ∧ (beginCall s d k id args).books = (d + 1, openCalls k + 1) := by
  unfold beginCall
  split
  · exact .inl rfl
  · split
    · exact .inl rfl
    · refine .inr ⟨by omega, ?_⟩
      simp only [books, openCalls_callEnd]

/-- What one step does to the counter: nothing, or it enters a call below the limit,
or it ends one. -/
theorem step_books {a b : Machine} (h : a.step = some b) :
    b.books = a.books ∨
    (a.depth < callLimit ∧ b.books = (a.depth + 1, openCalls a.stack + 1)) ∨
    (b.depth = a.depth - 1 ∧ openCalls a.stack = openCalls b.stack + 1) := by
  obtain ⟨s, d, control, k⟩ := a
  cases control with
  | eval scope e => cases h; exact .inl (books_beginExpr scope e)
  | exec scope stmt => cases h; exact .inl (books_beginStmt scope stmt)
  | find name here => cases h; exact .inl (books_findHere name here)
  | assign name v scope here => cases h; exact .inl (books_assignHere name v scope here)
  | call id args => cases h; exact (books_beginCall id args).imp_right .inl
  | arguments _ _ _ rest | properties _ _ rest => cases rest <;> cases h <;> exact .inl rfl
  | block _ body | program _ _ body => cases body <;> cases h <;> exact .inl rfl
  | value v =>
    cases k with
    | nil => cases h
    | cons frame k => exact .inl (books_resumeValue h)
  | completion c =>
    cases k with
    | nil => cases h
    | cons frame k => exact (books_resumeCompletion h).imp_right .inr

/-- A step keeps the books right. -/
theorem Balanced.step {start : Nat} {a b : Machine} (ha : Balanced start a)
    (h : a.step = some b) : Balanced start b := by
  obtain ⟨hdepth, hlimit⟩ := ha
  rcases step_books h with hsame | ⟨hbelow, henter⟩ | ⟨hend, hwaits⟩
  · obtain ⟨hd, hk⟩ := Prod.mk.inj hsame
    exact ⟨by omega, by omega⟩
  · obtain ⟨hd, hk⟩ := Prod.mk.inj henter
    exact ⟨by omega, by omega⟩
  · exact ⟨by omega, by omega⟩

/-- A run keeps the books right. -/
theorem Balanced.steps {start : Nat} {a b : Machine} (ha : Balanced start a)
    (h : Steps a b) : Balanced start b := by
  induction h with
  | refl => exact ha
  | tail _ hstep ih => exact ih.step hstep

/-! ## Whole runs

What the invariant comes to when a run is at its end.
-/

/-- A run whose calls are all accounted for: it comes to an end, the counter is then
what it was, and at no moment was it below that or above the limit. -/
structure Accounted (a b : Machine) : Prop where
  halts : HaltsAt a b
  restored : b.depth = a.depth
  within_limits : ∀ m, Steps a m → a.depth ≤ m.depth ∧ m.depth ≤ callLimit

/-- A run that starts with nothing to go on with and gives back the depth is
accounted for. -/
theorem Accounted.of_halts {c c' : Control} {s' : Store} (hd : d ≤ callLimit)
    (h : HaltsAt ⟨s, d, c, []⟩ ⟨s', d, c', []⟩) : Accounted ⟨s, d, c, []⟩ ⟨s', d, c', []⟩ where
  halts := h
  restored := rfl
  within_limits m hm := by
    have hstart : Balanced d ⟨s, d, c, []⟩ := ⟨rfl, hd⟩
    obtain ⟨hdepth, hlimit⟩ := hstart.steps hm
    exact ⟨by simp only [hdepth]; omega, hlimit⟩

/-- At the limit a call is refused, and nothing else happens. -/
theorem step_call_refused (id : ClosureId) (args : List Value) :
    step ⟨s, callLimit, .call id args, k⟩ = some ⟨s, callLimit, .value .tooDeep, k⟩ := by
  simp only [step, beginCall, if_pos (Nat.le_refl callLimit)]

/-- Below the limit a call goes to the body, one call deeper. -/
theorem step_call_entered (hd : d < callLimit) {id : ClosureId} {closure : Closure}
    (h : s.closures[id]? = some closure) (args : List Value) :
    step ⟨s, d, .call id args, k⟩ =
      some ⟨(s.enter closure args).2, d + 1, .block (s.enter closure args).1 closure.body,
        .callEnd :: k⟩ := by
  simp only [step, beginCall, if_neg (Nat.not_le.mpr hd), h]

/-- The end of a body ends the call, one call less deep. -/
theorem step_callEnd (c : Completion) :
    step ⟨s, d + 1, .completion c, .callEnd :: k⟩ = some ⟨s, d, .value c.result, k⟩ := by
  cases c <;> rfl

/-- The body of a call runs to its completion at the depth of the call. -/
theorem body_completes (hs : s.WellFormed) {id : ClosureId} {closure : Closure}
    (h : s.closures[id]? = some closure) {args : List Value} (hargs : ∀ v ∈ args, s.HasValue v) :
    Completes (s.enter closure args).2 d (.block (s.enter closure args).1 closure.body)
      ((Stmt.execAll (Host.within (callLimit - d)) (s.enter closure args).1 closure.body :
        Eval Id Completion) (s.enter closure args).2) := by
  have hid : s.HasValue (.function id) := by
    intro ℓ hℓ
    obtain rfl := Option.some.inj hℓ
    exact ⟨_, Option.map_eq_some_iff.mpr ⟨closure, h, rfl⟩⟩
  obtain ⟨-, hconf, hin⟩ := (confinement Set.univ s).enter hs.confined
    (valueInside_univ.mpr hid) h fun v hv => valueInside_univ.mpr (hargs v hv)
  exact block_completes (calls_yield (callLimit - d) rfl) closure.body hconf.wellFormed hin.2

/-- **The books on calls are right.** From every well-formed store and at every depth
up to the limit, the run of every expression, statement, block, program and call is
accounted for. A call at the limit gives the error and leaves the store as it is. A
call below the limit runs the body, all of it one call deeper, and is then back at its
own depth with the value that the body returned. -/
theorem depth_accounted {s : Store} (hs : s.WellFormed) {d : Nat} (hd : d ≤ callLimit) :
    (∀ (e : Expr) (scope : ScopeId), s.Has (.scope scope) →
      let r := (e.eval (Host.within (callLimit - d)) scope : Eval Id Value) s
      Accounted ⟨s, d, .eval scope e, []⟩ ⟨r.2, d, .value r.1, []⟩) ∧
    (∀ (stmt : Stmt) (scope : ScopeId), s.Has (.scope scope) →
      let r := (stmt.exec (Host.within (callLimit - d)) scope : Eval Id Completion) s
      Accounted ⟨s, d, .exec scope stmt, []⟩ ⟨r.2, d, .completion r.1, []⟩) ∧
    (∀ (body : List Stmt) (scope : ScopeId), s.Has (.scope scope) →
      let r := (Stmt.execAll (Host.within (callLimit - d)) scope body : Eval Id Completion) s
      Accounted ⟨s, d, .block scope body, []⟩ ⟨r.2, d, .completion r.1, []⟩) ∧
    (∀ (p : Program) (scope : ScopeId), s.Has (.scope scope) →
      let r := (Program.exec (Host.within (callLimit - d)) scope (.normal .undefined) p :
        Eval Id Completion) s
      Accounted ⟨s, d, .program scope (.normal .undefined) p, []⟩
        ⟨r.2, d, .completion r.1, []⟩) ∧
    (∀ (id : ClosureId) (args : List Value), s.Has (.closure id) → (∀ v ∈ args, s.HasValue v) →
      let r := (Host.within (callLimit - d) : Host Id).call id args s
      Accounted ⟨s, d, .call id args, []⟩ ⟨r.2, d, .value r.1, []⟩) ∧
    (d = callLimit → ∀ (id : ClosureId) (args : List Value) (k : List Frame),
      let refusal : Value := .error ⟨.range, "Maximum call stack size exceeded"⟩
      step ⟨s, d, .call id args, k⟩ = some ⟨s, d, .value refusal, k⟩ ∧
        (Host.within (callLimit - d) : Host Id).call id args s = (refusal, s)) ∧
    (d < callLimit → ∀ (id : ClosureId) (closure : Closure) (args : List Value) (k : List Frame),
      s.closures[id]? = some closure → (∀ v ∈ args, s.HasValue v) →
      let inside := s.enter closure args
      let r := (Stmt.execAll (Host.within (callLimit - (d + 1))) inside.1 closure.body :
        Eval Id Completion) inside.2
      step ⟨s, d, .call id args, k⟩ =
          some ⟨inside.2, d + 1, .block inside.1 closure.body, .callEnd :: k⟩ ∧
        Steps ⟨inside.2, d + 1, .block inside.1 closure.body, .callEnd :: k⟩
          ⟨r.2, d + 1, .completion r.1, .callEnd :: k⟩ ∧
        step ⟨r.2, d + 1, .completion r.1, .callEnd :: k⟩ = some ⟨r.2, d, .value r.1.result, k⟩ ∧
        (Host.within (callLimit - d) : Host Id).call id args s = (r.1.result, r.2)) := by
  -- that all runs halt is known; what is added is the counter
  have hcall : CallsYield d := calls_yield (callLimit - d) rfl
  refine ⟨?_, ?_, ?_, ?_, ?_, ?_, ?_⟩
  · exact fun e scope hscope => .of_halts hd ⟨eval_yields hcall e hs hscope [], rfl⟩
  · exact fun stmt scope hscope => .of_halts hd ⟨exec_completes hcall stmt hs hscope [], rfl⟩
  · exact fun body scope hscope => .of_halts hd ⟨block_completes hcall body hs hscope [], rfl⟩
  · exact fun p scope hscope => .of_halts hd ⟨program_completes hcall p hs hscope [], rfl⟩
  · exact fun id args hid hargs => .of_halts hd ⟨hcall hs hid hargs [], rfl⟩
  · rintro rfl id args k
    refine ⟨step_call_refused id args, ?_⟩
    rw [Nat.sub_self]
    rfl
  · intro hlt id closure args k hclosure hargs
    refine ⟨step_call_entered hlt hclosure args, body_completes hs hclosure hargs _,
      step_callEnd _, ?_⟩
    -- inside the call there is one call less to go
    have hleft : callLimit - d = callLimit - (d + 1) + 1 := by omega
    rw [hleft, Host.call_succ hclosure]
    rfl

/-- A function that does nothing but call itself, called when only one more call may be
nested: the call inside it is refused, and the counter is back where it was. -/
theorem depth_accounted_runaway :
    let f : Stmt := .function "f" [] [.expr (.call (.name "f") [])]
    let s := (f.exec (Host.top : Host Id) globalScope .initial).2
    s.WellFormed ∧ 9999 ≤ callLimit ∧ s.Has (.scope globalScope) ∧
      ∃ b, Accounted ⟨s, 9999, .eval globalScope (.call (.name "f") []), []⟩ b ∧
        ∃ closure, s.closures[0]? = some closure ∧
          step ⟨s, 9999, .call 0 [], []⟩ =
            some ⟨(s.enter closure []).2, 10000, .block 1 [.expr (.call (.name "f") [])],
              [.callEnd]⟩ := by
  intro f s
  have hglobal : Store.initial.Has (.scope globalScope) := ⟨.scope ⟨[], none⟩, rfl⟩
  obtain ⟨hle, hs, -⟩ := Stmt.exec_grows callLimit f Store.wellFormed_initial hglobal
  have hlimit : 9999 ≤ callLimit := by decide
  have hscope := hglobal.mono hle
  obtain ⟨heval, -, -, -, -, -, hbody⟩ := depth_accounted hs hlimit
  exact ⟨hs, hlimit, hscope, _, heval _ _ hscope, _, rfl,
    (hbody (by decide) 0 _ [] [] rfl nofun).1⟩

end Machine

end Scriptlet
