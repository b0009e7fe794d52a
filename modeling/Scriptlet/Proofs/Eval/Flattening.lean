import Scriptlet.Proofs.Eval.Refusal
import Scriptlet.Proofs.Program.Flat
import Scriptlet.Script

/-!
# Blocks open no scope

A program and the same program made flat run alike. They do not leave the same store, since the
closures that the one creates have other bodies than those of the other; but nothing else differs,
not even where things live. So the run of the flat program is compared with that of the program
itself through the store made flat (`Store.flat`): what one does in a store, the other does in the
flat store, and leaves it flat (`Flattens`). A body and its flat form do the same because a block
among statements is run like the statements themselves (`Stmt.execAll_spliced`).

The module goes from the store to programs:

* every operation of the store commutes with making it flat, as none of them looks at bodies;
* `Expr.eval_flat`, `Stmt.exec_flat` and their companions say that evaluation does, in surroundings
  that do;
* calls are such surroundings, by induction on how many may still be nested (`Host.recording_flat`),
  and they also refuse the same calls;
* `Program.exec_alike` compares two programs with the same flat form through that form, and
  `blocks_transparent` is what this means for programs in every scope of every store.
-/

namespace Scriptlet

/-! ## Flat stores

Each operation of the store, done in the flat store: it gives the same result, and the store it
leaves is the flat form of the one it would have left.
-/

/-- A closure with its body made flat. -/
def Closure.flat (closure : Closure) : Closure :=
  { closure with body := Stmt.flatBody closure.body }

namespace Store

/-- The store with the bodies of all closures made flat. -/
def flat (s : Store) : Store := { s with closures := s.closures.map Closure.flat }

variable (s : Store)

/-- The closures of the flat store are the flat closures. -/
theorem closures_flat (id : ClosureId) :
    s.flat.closures[id]? = s.closures[id]?.map Closure.flat := Array.getElem?_map

/-- A closure with a flat body, made in the flat store, lives where the closure itself would. -/
theorem newClosure_flat (name : Option String) (params : List String) (body : List Stmt)
    (scope : ScopeId) :
    s.flat.newClosure name params (Stmt.flatBody body) scope =
      ((s.newClosure name params body scope).1, (s.newClosure name params body scope).2.flat) := by
  simp only [newClosure, flat, Array.size_map, Array.map_push, Closure.flat]

/-- Resolving a name looks at bindings and at the scopes around, and making a store flat leaves both
as they are. -/
theorem resolveWithin_flat (name : String) (fuel : Nat) (id : ScopeId) :
    s.flat.resolveWithin name fuel id = s.resolveWithin name fuel id := by
  induction fuel generalizing id with
  | zero => rfl
  | succ fuel ih => simp only [resolveWithin, flat, ← ih]

/-- A name has the same value in the flat store, since it is resolved to the same scope. -/
theorem lookup_flat (id : ScopeId) (name : String) :
    s.flat.lookup id name = s.lookup id name := by
  simp only [lookup, resolve, resolveWithin_flat]
  rfl

/-- Assigning finds the same scope to write to, so it can be done before the store is made flat or
afterwards. -/
theorem assign_flat (id : ScopeId) (name : String) (v : Value) :
    s.flat.assign id name v = (s.assign id name v).flat := by
  simp only [assign, resolve, resolveWithin_flat]
  rfl

/-- Parameters are bound alike, one after the other. -/
theorem bindParams_flat (id : ScopeId) (params : List String) (args : List Value) :
    s.flat.bindParams id params args = (s.bindParams id params args).flat := by
  fun_induction bindParams s id params args with
  | case1 => rfl
  | case2 s p ps ih => exact ih
  | case3 s p ps v vs ih => exact ih

/-- Entering a call needs the parameters and the captured scope of the closure, and not its body. -/
theorem enter_flat (closure : Closure) (args : List Value) :
    s.flat.enter closure.flat args =
      ((s.enter closure args).1, (s.enter closure args).2.flat) :=
  Prod.ext rfl (bindParams_flat (s.newScope closure.scope).2 _ closure.params args)

/-- Objects are not changed at all by making the store flat, and of closures only the bodies are. -/
theorem getProperty_flat (base : Value) (key : String) :
    s.flat.getProperty base key = s.getProperty base key := by
  cases base with
  | function id =>
    simp only [getProperty, properties?, closures_flat, Option.map_map]
    rfl
  | _ => rfl

theorem setProperty_flat (base : Value) (key : String) (v : Value) :
    s.flat.setProperty base key v = (s.setProperty base key v).flat := by
  cases base with
  | function id =>
    simp only [setProperty, flat, Store.mk.injEq, true_and]
    refine Array.ext_getElem? fun i => ?_
    simp only [Array.getElem?_modify, Array.getElem?_map]
    split
    · simp only [Option.map_map]
      rfl
    · rfl
  | _ => rfl

end Store

theorem Expr.describe_flat : ∀ e : Expr, e.flat.describe = e.describe
  | .literal _ | .object _ | .name _ | .function _ _ _ | .binary _ _ _ | .assign _ _ => rfl
  | .call callee _ => by simp only [Expr.flat, Expr.describe, Expr.describe_flat callee]
  | .member base key => by
    cases key with
    | literal value =>
      cases value <;> simp only [Expr.flat, Expr.describe, Expr.describe_flat base]
    | _ => simp only [Expr.flat, Expr.describe, Expr.describe_flat base]

/-! ## Blocks among statements

A block in a body can be replaced by its statements, since a `return` inside it ends the body just
the same, and what it comes to otherwise is dropped by the body anyway.
-/

variable {m : Type → Type} [Monad m] [LawfulMonad m]

/-- Statements run in two parts: the second only if the first does not return. -/
theorem Stmt.execAll_append (host : Host m) (scope : ScopeId) (b b' : List Stmt) :
    Stmt.execAll host scope (b ++ b') = (do
      match ← Stmt.execAll host scope b with
      | .returned v => return .returned v
      | .normal _ => Stmt.execAll host scope b') := by
  induction b with
  | nil => simp only [List.nil_append, Stmt.execAll, pure_bind]
  | cons stmt b ih =>
    simp only [List.cons_append, Stmt.execAll, bind_assoc]
    refine bind_congr fun c => ?_
    cases c with
    | returned v => simp only [pure_bind]
    | normal v => exact ih

/-- A statement and what stands for it in a body run alike there. -/
theorem Stmt.execAll_spliced (host : Host m) (scope : ScopeId) (stmt : Stmt) (rest : List Stmt) :
    Stmt.execAll host scope (stmt.spliced ++ rest) = Stmt.execAll host scope (stmt :: rest) := by
  cases stmt with
  | block body => exact (Stmt.execAll_append host scope body rest).trans rfl
  | _ => rfl

/-- A block among statements is run like its statements. -/
theorem Stmt.execAll_block (host : Host m) (scope : ScopeId) (before body after : List Stmt) :
    Stmt.execAll host scope (before ++ .block body :: after) =
      Stmt.execAll host scope (before ++ (body ++ after)) := by
  rw [Stmt.execAll_append, Stmt.execAll_append, ← Stmt.execAll_spliced host scope (.block body)]
  rfl

/-! ## Computations on flat stores -/

/-- `y` does in the flat store what `x` does in the store itself. -/
def Flattens {α : Type} (x y : Eval m α) : Prop :=
  ∀ s, y s.flat = (fun r => (r.1, r.2.flat)) <$> x s

section

variable {α β : Type}

/-- A value is the same in every store. -/
theorem flattens_pure (a : α) : Flattens (pure a : Eval m α) (pure a) := by
  intro s
  change (pure (a, s.flat) : m (α × Store)) = (fun r => (r.1, r.2.flat)) <$> pure (a, s)
  rw [map_pure]

/-- Computations are chained, as the store between them is flat again. -/
theorem flattens_bind {x y : Eval m α} {f g : α → Eval m β} (hx : Flattens x y)
    (hf : ∀ a, Flattens (f a) (g a)) : Flattens (x >>= f) (y >>= g) := by
  intro s
  calc (y >>= g) s.flat
      = y s.flat >>= fun r => g r.1 r.2 := rfl
    _ = x s >>= fun r => g r.1 r.2.flat := by rw [hx s, bind_map_left]
    _ = x s >>= fun r => (fun r' => (r'.1, r'.2.flat)) <$> f r.1 r.2 :=
        bind_congr fun r => hf r.1 r.2
    _ = (fun r => (r.1, r.2.flat)) <$> (x >>= f) s := (map_bind _ _ _).symm

/-- An operation of the store flattens if it commutes with making the store flat. -/
theorem flattens_modifyGet {f g : Store → α × Store}
    (h : ∀ s, g s.flat = ((f s).1, (f s).2.flat)) :
    Flattens (modifyGet f : Eval m α) (modifyGet g) := by
  intro s
  change (pure (g s.flat) : m (α × Store)) = (fun r => (r.1, r.2.flat)) <$> pure (f s)
  rw [h, map_pure]

theorem flattens_modify {f g : Store → Store} (h : ∀ s, g s.flat = (f s).flat) :
    Flattens (modify f : Eval m PUnit) (modify g) :=
  flattens_modifyGet fun s => by rw [h]

theorem flattens_reading {f : Store → α} (h : ∀ s : Store, f s.flat = f s) :
    Flattens (reading f : Eval m α) (reading f) :=
  flattens_modifyGet fun s => by rw [h]

end

/-- The second surroundings do in flat stores what the first do. -/
structure Host.Flattens (h k : Host m) : Prop where
  call : ∀ id args, Scriptlet.Flattens (h.call id args) (k.call id args)
  badTarget : Scriptlet.Flattens h.badTarget k.badTarget

section

variable {h k : Host m}

mutual

/-- A flat expression evaluates in the flat store as the expression does. -/
theorem Expr.eval_flat (hk : h.Flattens k) (scope : ScopeId) :
    ∀ e : Expr, Flattens (e.eval h scope) (e.flat.eval k scope)
  | .literal _ => flattens_pure _
  | .object properties =>
    flattens_bind (flattens_modifyGet fun _ => rfl) fun id =>
      flattens_bind (Expr.evalProperties_flat hk scope id properties) fun _ => flattens_pure _
  | .name n => flattens_reading fun s => s.lookup_flat scope n
  | .member base key =>
    flattens_bind (Expr.eval_flat hk scope base) fun object => by
      split
      · exact flattens_bind (Expr.eval_flat hk scope key) fun v =>
          flattens_reading fun s => s.getProperty_flat object v.key
      · exact flattens_pure _
  | .function n params body =>
    flattens_bind (flattens_modifyGet fun s => s.newClosure_flat n params body scope) fun _ =>
      flattens_pure _
  | .call callee args =>
    flattens_bind (Expr.eval_flat hk scope callee) fun v => by
      cases v with
      | function id =>
        exact flattens_bind (Expr.evalAll_flat hk scope args) fun values => hk.call id values
      | _ =>
        rw [Expr.describe_flat]
        exact flattens_pure _
  | .binary _ left right =>
    flattens_bind (Expr.eval_flat hk scope left) fun _ =>
      flattens_bind (Expr.eval_flat hk scope right) fun _ => flattens_pure _
  | .assign (.name n) value =>
    flattens_bind (Expr.eval_flat hk scope value) fun v =>
      flattens_bind (flattens_modify fun s => s.assign_flat scope n v) fun _ => flattens_pure _
  | .assign (.member base key) value =>
    flattens_bind (Expr.eval_flat hk scope base) fun object => by
      split
      · exact flattens_bind (Expr.eval_flat hk scope key) fun k =>
          flattens_bind (Expr.eval_flat hk scope value) fun v =>
            flattens_bind (flattens_modify fun s => s.setProperty_flat object k.key v) fun _ =>
              flattens_pure _
      · exact flattens_pure _
  | .assign (.literal _) _ | .assign (.object _) _ | .assign (.function _ _ _) _
  | .assign (.call _ _) _ | .assign (.binary _ _ _) _ | .assign (.assign _ _) _ => hk.badTarget

/-- Flat expressions evaluate in the flat store as the expressions do. -/
theorem Expr.evalAll_flat (hk : h.Flattens k) (scope : ScopeId) :
    ∀ es : List Expr,
      Flattens (Expr.evalAll h scope es) (Expr.evalAll k scope (Expr.flatAll es))
  | [] => flattens_pure _
  | e :: es =>
    flattens_bind (Expr.eval_flat hk scope e) fun _ =>
      flattens_bind (Expr.evalAll_flat hk scope es) fun _ => flattens_pure _

/-- Flat properties evaluate in the flat store as the properties do. -/
theorem Expr.evalProperties_flat (hk : h.Flattens k) (scope : ScopeId) (id : ObjectId) :
    ∀ properties : List (String × Expr),
      Flattens (Expr.evalProperties h scope id properties)
        (Expr.evalProperties k scope id (Expr.flatProperties properties))
  | [] => flattens_pure _
  | (key, e) :: properties =>
    flattens_bind (Expr.eval_flat hk scope e) fun v =>
      flattens_bind (flattens_modify fun s => s.setProperty_flat (.object id) key v) fun _ =>
        Expr.evalProperties_flat hk scope id properties

end

mutual

/-- A flat statement runs in the flat store as the statement does. -/
theorem Stmt.exec_flat (hk : h.Flattens k) (scope : ScopeId) :
    ∀ stmt : Stmt, Flattens (stmt.exec h scope) (stmt.flat.exec k scope)
  | .function name params body =>
    flattens_bind (flattens_modifyGet fun s => s.newClosure_flat (some name) params body scope)
      fun _ => flattens_bind (flattens_modify fun _ => rfl) fun _ => flattens_pure _
  | .var _ init =>
    flattens_bind (Expr.eval_flat hk scope init) fun _ =>
      flattens_bind (flattens_modify fun _ => rfl) fun _ => flattens_pure _
  | .cond test consequent none =>
    flattens_bind (Expr.eval_flat hk scope test) fun v => by
      split
      · exact Stmt.exec_flat hk scope consequent
      · exact flattens_pure _
  | .cond test consequent (some alternate) =>
    flattens_bind (Expr.eval_flat hk scope test) fun v => by
      split
      · exact Stmt.exec_flat hk scope consequent
      · exact Stmt.exec_flat hk scope alternate
  | .ret none => flattens_pure _
  | .ret (some value) =>
    flattens_bind (Expr.eval_flat hk scope value) fun _ => flattens_pure _
  | .block body => Stmt.execAll_flat hk scope body
  | .expr e => flattens_bind (Expr.eval_flat hk scope e) fun _ => flattens_pure _

/-- A flat body runs in the flat store as the body does. -/
theorem Stmt.execAll_flat (hk : h.Flattens k) (scope : ScopeId) :
    ∀ body : List Stmt,
      Flattens (Stmt.execAll h scope body) (Stmt.execAll k scope (Stmt.flatBody body))
  | [] => flattens_pure _
  | stmt :: body => by
    rw [Stmt.flatBody, Stmt.execAll_spliced]
    refine flattens_bind (Stmt.exec_flat hk scope stmt) fun c => ?_
    cases c with
    | returned v => exact flattens_pure _
    | normal v => exact Stmt.execAll_flat hk scope body

end

/-- A flat program runs in the flat store as the program does. -/
theorem Program.exec_flat (hk : h.Flattens k) (scope : ScopeId) (last : Completion)
    (p : Program) :
    Scriptlet.Flattens (Program.exec h scope last p) (Program.exec k scope last p.flat) := by
  induction p generalizing last with
  | nil => exact flattens_pure _
  | cons stmt p ih =>
    refine flattens_bind (Stmt.exec_flat hk scope stmt) fun c => ?_
    cases c with
    | returned v => exact flattens_pure _
    | normal v => exact ih (.normal v)

/-- The flat closure, called in a flat store, does what the closure does. -/
theorem callFound_flat (hk : h.Flattens k) (args : List Value) (found : Option Closure) :
    Flattens (callFound h args found) (callFound k args (found.map Closure.flat)) := by
  cases found with
  | none => exact flattens_pure _
  | some closure =>
    refine flattens_bind (flattens_modifyGet fun s => s.enter_flat closure args) fun scope => ?_
    refine flattens_bind (Stmt.execAll_flat hk scope closure.body) fun c => ?_
    cases c <;> exact flattens_pure _

/-- A call does in the flat store what it does in the store. -/
theorem callInto_flat (hk : h.Flattens k) (id : ClosureId) (args : List Value) :
    Flattens (callInto h id args) (callInto k id args) := by
  intro s
  have happly : ∀ (host : Host m) (s : Store),
      callInto host id args s = callFound host args s.closures[id]? s :=
    fun host s => pure_bind (s.closures[id]?, s) _
  rw [happly, happly, s.closures_flat]
  exact callFound_flat hk args s.closures[id]? s

end

/-- Where calls are recorded, they do in the flat store what they do in the store, and
the same calls are refused. -/
theorem Host.recording_flat (left : Nat) :
    (Host.recording left).Flattens (Host.recording left) := by
  induction left with
  | zero => exact ⟨fun _ _ _ => rfl, flattens_pure _⟩
  | succ left ih => exact ⟨callInto_flat ih, flattens_pure _⟩

/-! ## Runs that are alike

What the comparison through flat stores comes to, for two programs with the same flat form.
-/

/-- Two runs are alike: the same result, the same calls refused, and stores in which the
same things live at the same places, except that bodies of closures may differ in their
blocks. -/
structure Alike {α : Type} (x y : Recorded (α × Store)) : Prop where
  result : x.value.1 = y.value.1
  refusals : x.refusals = y.refusals
  scopes : x.value.2.scopes = y.value.2.scopes
  objects : x.value.2.objects = y.value.2.objects
  closures : x.value.2.closures.map Closure.flat = y.value.2.closures.map Closure.flat

/-- Programs with the same flat form run alike in stores with the same flat form. -/
theorem Program.exec_alike {p q : Program} (hpq : p.flat = q.flat) {s t : Store}
    (hst : s.flat = t.flat) (left : Nat) (scope : ScopeId) (last : Completion) :
    Alike (Program.exec (.recording left) scope last p s)
      (Program.exec (.recording left) scope last q t) := by
  have hp := Program.exec_flat (Host.recording_flat left) scope last p s
  have hq := Program.exec_flat (Host.recording_flat left) scope last q t
  rw [hpq, hst, hq, Recorded.map_eq, Recorded.map_eq, Recorded.mk.injEq, Prod.mk.injEq,
    Store.flat, Store.flat, Store.mk.injEq] at hp
  obtain ⟨⟨hresult, hscopes, hobjects, hclosures⟩, hrefusals⟩ := hp
  exact ⟨hresult.symm, hrefusals.symm, hscopes.symm, hobjects.symm, hclosures.symm⟩

/-- The value of a program is that of its recorded run. -/
theorem Program.run_eq_recorded (p : Program) (scope : ScopeId) (s : Store) :
    p.run scope s =
      (Program.exec (.recording callLimit) scope (.normal .undefined) p s).value.map
        Completion.value id := by
  rw [Program.run_eq]
  exact congrArg _ (Program.exec_related (Host.recording_erased callLimit) scope _ p s).symm

/-- Programs with the same flat form have the same value. -/
theorem Program.run_alike {p q : Program} (h : p.flat = q.flat) (scope : ScopeId) (s : Store) :
    (p.run scope s).1 = (q.run scope s).1 := by
  have hrun := Program.exec_alike h (rfl : s.flat = s.flat) callLimit scope (.normal .undefined)
  rw [Program.run_eq_recorded, Program.run_eq_recorded]
  exact congrArg Completion.value hrun.result

/-- **Blocks open no scope.** In every scope of every store, a program and its flat form
have the same value, refuse the same calls and leave the same scopes and objects, with
closures that differ at most in the blocks of their bodies; and so do any two programs
with the same flat form. The refused calls are read off a recorded run, which is the run of
the program if the record is left out. No block is left in a flat body. In a body, two
variables declared together are run like two declared one after the other, and the two
bodies have the same flat form. -/
theorem blocks_transparent :
    (∀ (p : Program) (scope : ScopeId) (s : Store),
      p.run scope s =
        (Program.exec (.recording callLimit) scope (.normal .undefined) p s).value.map
          Completion.value id) ∧
    (∀ (p : Program) (scope : ScopeId) (s : Store),
      (p.run scope s).1 = (p.flat.run scope s).1 ∧
      Alike (Program.exec (.recording callLimit) scope (.normal .undefined) p s)
        (Program.exec (.recording callLimit) scope (.normal .undefined) p.flat s)) ∧
    (∀ (p q : Program) (scope : ScopeId) (s : Store), p.flat = q.flat →
      (p.run scope s).1 = (q.run scope s).1 ∧
      Alike (Program.exec (.recording callLimit) scope (.normal .undefined) p s)
        (Program.exec (.recording callLimit) scope (.normal .undefined) q s)) ∧
    (∀ body : List Stmt, ∀ stmt ∈ Stmt.flatBody body, ∀ inner, stmt ≠ .block inner) ∧
    ∀ (host : Host Recorded) (scope : ScopeId) (before after : List Stmt) (a b : String)
      (x y : Expr),
      let together := before ++ .block [.var a x, .var b y] :: after
      let apart := before ++ .block [.var a x] :: .block [.var b y] :: after
      Stmt.execAll host scope together = Stmt.execAll host scope apart ∧
        Stmt.flatBody together = Stmt.flatBody apart := by
  refine ⟨Program.run_eq_recorded, ?_, ?_, Stmt.flatBody_blockless, ?_⟩
  · intro p scope s
    -- making flat twice is making flat once, so the flat program is a case of two with one flat
    -- form
    have hflat : p.flat = Program.flat p.flat := p.flat_flat.symm
    exact ⟨Program.run_alike hflat scope s, Program.exec_alike hflat rfl _ _ _⟩
  · exact fun p q scope s h => ⟨Program.run_alike h scope s, Program.exec_alike h rfl _ _ _⟩
  · intro host scope before after a b x y
    refine ⟨?_, ?_⟩
    · calc Stmt.execAll host scope (before ++ .block [.var a x, .var b y] :: after)
          = Stmt.execAll host scope (before ++ .var a x :: .var b y :: after) :=
            Stmt.execAll_block host scope before [.var a x, .var b y] after
        _ = Stmt.execAll host scope (before ++ .var a x :: .block [.var b y] :: after) := by
            have h := Stmt.execAll_block host scope (before ++ [.var a x]) [.var b y] after
            simp only [List.append_assoc, List.singleton_append] at h
            exact h.symm
        _ = Stmt.execAll host scope (before ++ .block [.var a x] :: .block [.var b y] :: after) :=
            (Stmt.execAll_block host scope before [.var a x] (.block [.var b y] :: after)).symm
    · rw [Stmt.flatBody_append, Stmt.flatBody_append]
      rfl

/-- Two functions that declare the same variables, once together and once apart in a
block of their own. -/
theorem blocks_transparent_declarations :
    let body (declarations : List Stmt) : List Stmt :=
      declarations ++ [.ret (some (.binary .add (.name "a") (.name "b")))]
    let program (declarations : List Stmt) : Program :=
      [.function "f" [] (body declarations), .expr (.call (.name "f") [])]
    let x : Expr := .literal (.string "x")
    let p := program [.block [.var "a" x, .var "b" x]]
    let q := program [.block [.block [.var "a" x], .block [.var "b" x]]]
    p.flat = q.flat ∧
      (p.run Store.globalScope .initial).1 = (q.run Store.globalScope .initial).1 := by
  intro body program x p q
  have hflat : p.flat = q.flat := rfl
  exact ⟨hflat, (blocks_transparent.2.2.1 p q Store.globalScope .initial hflat).1⟩

end Scriptlet
