import Scriptlet.Proofs.Eval.Correspondence
import Scriptlet.Proofs.Eval.Frame

/-!
# Evaluation up to renaming

Run the same code in two stores that are renamed into each other: the runs go through the same
steps, the renaming growing by a pair with every new cell. This is a correspondence
(`upToRenaming`), whatever names the code uses, and so evaluation keeps it (`Expr.eval_renamed` and
its companions). So what a run does depends only on what it can reach, and on that only up to where
it lives (`evaluation_renamed`). For calls, what can be reached is what the closure and the
arguments lead to: the scopes of the caller have no part in it, which is what makes scoping lexical.

There are two notions of renamed stores. `Store.Renamed` is the one that is kept step by step: cells
that are related are alike, and what they refer to is related again. `Store.Renames` is what a
client can observe: a bijection between what can be reached from two sets of roots. In well-formed
stores the second gives the first (`Store.Renames.renamed`), and at the end of a run the first gives
the second, with the result among the roots (`Store.Renamed.renames`).
-/

namespace Scriptlet

open Store

/-! ## Two runs side by side -/

/-- Stores that are renamed correspond, for all code. -/
def upToRenaming : Correspondence where
  Inv := Store.Renamed
  Name _ := True
  lookup hs hid _ := hs.lookup hid _
  resolve hs hid _ := hs.resolve hid _
  getProperty key hs hbase := hs.getProperty hbase key
  closure hs hid := by
    obtain ⟨a, b, ha, hb, hparams, hbody, hscope⟩ := hs.closure hid
    exact ⟨a, b, ha, hb, hparams, hbody, hscope, fun _ _ => trivial,
      Stmt.namesAll_of_forall (fun _ => trivial) a.body⟩
  alloc hs ha ha' hc _ := hs.alloc ha ha' hc
  write hs hw hw' hℓ _ hv := hs.write hw hw' hℓ hv

namespace Renaming

variable {α β : Type} {f : Renaming} {s s' : Store}

/-- From two stores, the computations end in renamed stores, for a renaming that relates
no less, and with results that are related under it. -/
def Simulates (f : Renaming) (s s' : Store) (x : Eval Id α) (x' : Eval Id β)
    (Q : Renaming → α → β → Prop) : Prop :=
  ∃ g, f ≤ g ∧ (x s).2.Renamed g (x' s').2 ∧ Q g (x s).1 (x' s').1

/-- Two closures of the same code that are made in corresponding scopes correspond. -/
theorem newClosure (hs : s.Renamed f s') {scope scope' : ScopeId}
    (hscope : f (.scope scope) = some (.scope scope')) (name : Option String)
    (params : List String) (body : List Stmt) :
    f.Simulates s s' (modifyGet (·.newClosure name params body scope))
      (modifyGet (·.newClosure name params body scope'))
      fun g id id' => g (.closure id) = some (.closure id') := by
  obtain ⟨g, hle, hid, hs'⟩ := hs.alloc (newClosure_allocates s name params body scope)
    (newClosure_allocates s' name params body scope') (.closure rfl rfl rfl hscope .nil)
  exact ⟨g, hle, hs', hid⟩

end Renaming

open Renaming

/-- Surroundings that do the same up to renaming when they are left something to do. -/
structure Host.Renames (h : Host Id) : Prop where
  call : ∀ {f : Renaming} {s s' : Store} {id id' : ClosureId} {args args' : List Value},
    s.Renamed f s' → f (.closure id) = some (.closure id') →
    List.Forall₂ (Value.Renamed f) args args' →
    f.Simulates s s' (h.call id args) (h.call id' args') Value.Renamed
  badTarget : ∀ {f : Renaming} {s s' : Store}, s.Renamed f s' →
    f.Simulates s s' h.badTarget h.badTarget Value.Renamed

/-! ## Evaluation -/

section

variable {h : Host Id} {f : Renaming} {s s' : Store} {scope scope' : ScopeId}

/-- Surroundings that do the same up to renaming keep the correspondence. -/
theorem Host.Renames.corresponds (hh : h.Renames) : h.Corresponds upToRenaming .plain :=
  ⟨hh.call, hh.badTarget⟩

/-- **Evaluation commutes with renaming**, for expressions. From renamed stores and corresponding
scopes two evaluations lead to renamed stores and corresponding values, under a renaming that
extends the one at the beginning. -/
theorem Expr.eval_renamed (hh : h.Renames) (e : Expr) (hs : s.Renamed f s')
    (hscope : f (.scope scope) = some (.scope scope')) :
    f.Simulates s s' (e.eval h scope) (e.eval h scope') Value.Renamed :=
  Expr.eval_corresponds hh.corresponds e
    (Expr.names_of_forall (fun _ => trivial) e) hs hscope

/-- **Evaluation commutes with renaming**, for statements. -/
theorem Stmt.exec_renamed (hh : h.Renames) (stmt : Stmt) (hs : s.Renamed f s')
    (hscope : f (.scope scope) = some (.scope scope')) :
    f.Simulates s s' (stmt.exec h scope) (stmt.exec h scope') Completion.Renamed :=
  Stmt.exec_corresponds hh.corresponds stmt
    (Stmt.names_of_forall (fun _ => trivial) stmt) hs hscope

theorem Stmt.execAll_renamed (hh : h.Renames) (body : List Stmt) (hs : s.Renamed f s')
    (hscope : f (.scope scope) = some (.scope scope')) :
    f.Simulates s s' (Stmt.execAll h scope body) (Stmt.execAll h scope' body)
      Completion.Renamed :=
  Stmt.execAll_corresponds hh.corresponds body
    (Stmt.namesAll_of_forall (fun _ => trivial) body) hs hscope

/-- **Evaluation commutes with renaming**, for programs. -/
theorem Program.exec_renamed (hh : h.Renames) (p : Program) {last last' : Completion}
    (hs : s.Renamed f s') (hscope : f (.scope scope) = some (.scope scope'))
    (hlast : last.Renamed f last') :
    f.Simulates s s' (Program.exec h scope last p) (Program.exec h scope' last' p)
      Completion.Renamed :=
  Program.exec_corresponds hh.corresponds p
    (Stmt.namesAll_of_forall (fun _ => trivial) p) hs hscope hlast

end

/-- **Evaluation commutes with renaming**, for calls: the body runs in a new scope
inside the captured one, and sees nothing of the caller. -/
theorem Host.within_renames (left : Nat) : (Host.within left : Host Id).Renames := by
  have hh := Host.within_corresponds (C := upToRenaming) (M := .plain) left
  exact ⟨hh.call, hh.badTarget⟩

/-! ## What a run depends on -/

/-- The renaming relates alike cells, and it relates all that can be reached from the
roots in the one store to all that can be reached from the roots in the other. -/
structure Store.Renames (f : Renaming) (s : Store) (roots : Set Loc) (s' : Store)
    (roots' : Set Loc) : Prop where
  /-- cells that are related are alike -/
  cells : ∀ {ℓ ℓ'}, f ℓ = some ℓ' →
    ∃ c c', s.cell? ℓ = some c ∧ s'.cell? ℓ' = some c' ∧ c.Renamed f c'
  /-- what can be reached in the one is related to what can be reached in the other -/
  forth : ∀ {ℓ}, s.Reachable roots ℓ → ∃ ℓ', s'.Reachable roots' ℓ' ∧ f ℓ = some ℓ'
  /-- and the other way round -/
  back : ∀ {ℓ'}, s'.Reachable roots' ℓ' → ∃ ℓ, s.Reachable roots ℓ ∧ f ℓ = some ℓ'

/-- Two results, with the stores they came with, are the same up to an extension of the
renaming. -/
def Renaming.Agree {α : Type} (f : Renaming) (Q : Renaming → α → α → Prop) (value : α → Value)
    (roots roots' : Set Loc) (r r' : α × Store) : Prop :=
  (∃ g, f ≤ g ∧ Q g r.1 r'.1 ∧
    r.2.Renames g (roots ∪ (value r.1).locs) r'.2 (roots' ∪ (value r'.1).locs)) ∧
  (value r.1).typeName = (value r'.1).typeName ∧ (value r.1).display = (value r'.1).display

/-- In a well-formed store, what a renaming relates is renamed. -/
theorem Store.Renames.renamed {f : Renaming} {s s' : Store} {roots roots' : Set Loc}
    (hs : s.WellFormed) (h : s.Renames f roots s' roots') : s.Renamed f s' where
  cells := h.cells
  chain hid := by
    obtain ⟨c, -, hc, -, -⟩ := h.cells hid
    exact hs.chain ⟨c, hc⟩

/-- Of stores that are renamed, all that can be reached from corresponding roots
corresponds. -/
theorem Store.Renamed.renames {f : Renaming} {s s' : Store} {roots roots' : Set Loc}
    (h : s.Renamed f s') (hroots : ∀ ℓ ∈ roots, ∃ ℓ' ∈ roots', f ℓ = some ℓ')
    (hroots' : ∀ ℓ' ∈ roots', ∃ ℓ ∈ roots, f ℓ = some ℓ') : s.Renames f roots s' roots' where
  cells := h.cells
  forth := h.reachable hroots
  back {ℓ'} hr := by
    have hback : ∀ y ∈ roots', ∃ z ∈ roots, f.symm y = some z := by
      intro y hy
      obtain ⟨z, hz, hf⟩ := hroots' y hy
      exact ⟨z, hz, f.eq_some_iff.mpr hf⟩
    obtain ⟨ℓ, hℓ, hf⟩ := h.symm.reachable hback hr
    exact ⟨ℓ, hℓ, f.eq_some_iff.mp hf⟩

/-- What two runs side by side end in agrees. -/
theorem Renaming.Simulates.agree {α : Type} {f : Renaming} {s s' : Store} {x x' : Eval Id α}
    {Q : Renaming → α → α → Prop} {value : α → Value} {roots roots' : Set Loc}
    (h : f.Simulates s s' x x' Q)
    (hQ : ∀ {g a a'}, Q g a a' → (value a).Renamed g (value a'))
    (hroots : ∀ ℓ ∈ roots, ∃ ℓ' ∈ roots', f ℓ = some ℓ')
    (hroots' : ∀ ℓ' ∈ roots', ∃ ℓ ∈ roots, f ℓ = some ℓ') :
    f.Agree Q value roots roots' (x s) (x' s') := by
  obtain ⟨g, hle, hs, hq⟩ := h
  have hv := hQ hq
  refine ⟨⟨g, hle, hq, hs.renames ?_ ?_⟩, hv.typeName_eq, hv.display_eq⟩
  · rintro ℓ (hℓ | hℓ)
    · obtain ⟨ℓ', hℓ', hf⟩ := hroots ℓ hℓ
      exact ⟨ℓ', .inl hℓ', hle _ _ hf⟩
    · obtain ⟨ℓ', hℓ', hf⟩ := hv.loc? hℓ
      exact ⟨ℓ', .inr hℓ', hf⟩
  · rintro ℓ' (hℓ' | hℓ')
    · obtain ⟨ℓ, hℓ, hf⟩ := hroots' ℓ' hℓ'
      exact ⟨ℓ, .inl hℓ, hle _ _ hf⟩
    · obtain ⟨ℓ, hℓ, hf⟩ := hv.symm.loc? hℓ'
      exact ⟨ℓ, .inr hℓ, g.eq_some_iff.mp hf⟩

/-- What a call starts from: its closure and what its arguments live at. -/
def callRoots (id : ClosureId) (args : List Value) : Set Loc :=
  {.closure id} ∪ { ℓ | ∃ v ∈ args, v.loc? = some ℓ }

/-- Two calls of corresponding closures with renamed arguments start from corresponding
places. -/
theorem callRoots_renamed {f : Renaming} {id id' : ClosureId} {args args' : List Value}
    (hid : f (.closure id) = some (.closure id'))
    (hargs : List.Forall₂ (Value.Renamed f) args args') :
    ∀ ℓ ∈ callRoots id args, ∃ ℓ' ∈ callRoots id' args', f ℓ = some ℓ' := by
  rintro ℓ (rfl | ⟨v, hv, hloc⟩)
  · exact ⟨_, .inl rfl, hid⟩
  · induction hargs with
    | nil => cases hv
    | @cons w w' ws ws' hw _ ih =>
      rcases List.mem_cons.mp hv with rfl | hv
      · obtain ⟨ℓ', hloc', hf⟩ := hw.loc? hloc
        exact ⟨ℓ', .inr ⟨w', List.mem_cons_self, hloc'⟩, hf⟩
      · obtain ⟨ℓ', hℓ' | ⟨v', hv', hloc'⟩, hf⟩ := ih hv
        · exact ⟨ℓ', .inl hℓ', hf⟩
        · exact ⟨ℓ', .inr ⟨v', List.mem_cons_of_mem _ hv', hloc'⟩, hf⟩

theorem callRoots_renamed_symm {f : Renaming} {id id' : ClosureId} {args args' : List Value}
    (hid : f (.closure id) = some (.closure id'))
    (hargs : List.Forall₂ (Value.Renamed f) args args') :
    ∀ ℓ' ∈ callRoots id' args', ∃ ℓ ∈ callRoots id args, f ℓ = some ℓ' := by
  intro ℓ' hℓ'
  have hargs' : List.Forall₂ (Value.Renamed f.symm) args' args :=
    (hargs.imp fun _ _ h => h.symm).flip
  obtain ⟨ℓ, hℓ, hf⟩ := callRoots_renamed (f.eq_some_iff.mpr hid) hargs' ℓ' hℓ'
  exact ⟨ℓ, hℓ, f.eq_some_iff.mp hf⟩

/-- **What a run does depends only on what it can reach, up to renaming.** In two
stores, the first of them well-formed, take two scopes and a renaming of what can be
reached from the one into what can be reached from the other. Then the same expression,
statement, block or program ends in the same way in both, with the same values and the
same stores, as far as they can be reached, up to an extension of the renaming. The
same holds of calls, with closures and arguments that are renamed in the place of the
scopes. -/
theorem evaluation_renamed {s s' : Store} (hs : s.WellFormed) (left : Nat) (f : Renaming) :
    (∀ scope scope' : ScopeId, f (.scope scope) = some (.scope scope') →
      s.Renames f {.scope scope} s' {.scope scope'} →
      (∀ e : Expr, f.Agree Value.Renamed (fun v => v) {.scope scope} {.scope scope'}
        ((e.eval (Host.within left) scope : Eval Id Value) s)
        ((e.eval (Host.within left) scope' : Eval Id Value) s')) ∧
      (∀ stmt : Stmt, f.Agree Completion.Renamed Completion.value {.scope scope} {.scope scope'}
        ((stmt.exec (Host.within left) scope : Eval Id Completion) s)
        ((stmt.exec (Host.within left) scope' : Eval Id Completion) s')) ∧
      (∀ body : List Stmt,
        f.Agree Completion.Renamed Completion.value {.scope scope} {.scope scope'}
          ((Stmt.execAll (Host.within left) scope body : Eval Id Completion) s)
          ((Stmt.execAll (Host.within left) scope' body : Eval Id Completion) s')) ∧
      (∀ p : Program,
        f.Agree Completion.Renamed Completion.value {.scope scope} {.scope scope'}
          ((Program.exec (Host.within left) scope (.normal .undefined) p : Eval Id Completion) s)
          ((Program.exec (Host.within left) scope' (.normal .undefined) p :
            Eval Id Completion) s'))) ∧
    (∀ (id id' : ClosureId) (args args' : List Value),
      f (.closure id) = some (.closure id') → List.Forall₂ (Value.Renamed f) args args' →
      s.Renames f (callRoots id args) s' (callRoots id' args') →
      f.Agree Value.Renamed (fun v => v) (callRoots id args) (callRoots id' args')
        ((Host.within left : Host Id).call id args s)
        ((Host.within left : Host Id).call id' args' s')) := by
  have hhost := Host.within_renames left
  refine ⟨?_, ?_⟩
  · intro scope scope' hscope hren
    have hroots : ∀ ℓ ∈ ({.scope scope} : Set Loc), ∃ ℓ' ∈ ({.scope scope'} : Set Loc),
        f ℓ = some ℓ' := by
      rintro _ rfl
      exact ⟨_, rfl, hscope⟩
    have hroots' : ∀ ℓ' ∈ ({.scope scope'} : Set Loc), ∃ ℓ ∈ ({.scope scope} : Set Loc),
        f ℓ = some ℓ' := by
      rintro _ rfl
      exact ⟨_, rfl, hscope⟩
    -- from what can be reached to the invariant, through the runs, and back again
    have hrenamed := hren.renamed hs
    refine ⟨fun e => ?_, fun stmt => ?_, fun body => ?_, fun p => ?_⟩
    · exact (Expr.eval_renamed hhost e hrenamed hscope).agree (fun h => h) hroots hroots'
    · exact (Stmt.exec_renamed hhost stmt hrenamed hscope).agree Completion.Renamed.value
        hroots hroots'
    · exact (Stmt.execAll_renamed hhost body hrenamed hscope).agree Completion.Renamed.value
        hroots hroots'
    · exact (Program.exec_renamed hhost p hrenamed hscope (.normal (.plain rfl))).agree
        Completion.Renamed.value hroots hroots'
  · intro id id' args args' hid hargs hren
    exact (hhost.call (hren.renamed hs) hid hargs).agree (fun h => h)
      (callRoots_renamed hid hargs) (callRoots_renamed_symm hid hargs)

/-- A function that returns `x`, made in an empty scope. Called from that scope or from
one that binds `x`, it has the same value: `x` is not defined. -/
theorem evaluation_renamed_unseen_caller :
    let body : List Stmt := [.ret (some (.name "x"))]
    let callerless : Store := .initial
    let caller : Store := ⟨#[⟨[("x", .null)], none⟩, ⟨[], none⟩], #[], #[]⟩
    let r := (Host.within 1 : Host Id).call 0 [] (callerless.newClosure none [] body 0).2
    let r' := (Host.within 1 : Host Id).call 0 [] (caller.newClosure none [] body 1).2
    caller.lookup 0 "x" = .null ∧ r.1.display = r'.1.display ∧ r'.1 = .notDefined "x" := by
  intro body callerless caller r r'
  have hglobal : callerless.Has (.scope 0) := ⟨.scope ⟨[], none⟩, rfl⟩
  have hs : (callerless.newClosure none [] body 0).2.WellFormed :=
    ((confinement _ _).newClosure none [] wellFormed_initial.confined ⟨Set.mem_univ _, hglobal⟩
      False.elim).1.wellFormed
  have hrenamed : callerless.Renamed (PEquiv.single (.scope 0) (.scope 1)) caller := by
    refine ⟨?_, ?_⟩
    · intro ℓ ℓ' hf
      obtain ⟨rfl, rfl⟩ := (PEquiv.mem_single_iff _ _ _ _).mp hf
      exact ⟨_, _, rfl, rfl, .scope .none .nil⟩
    · intro id id' hf
      obtain ⟨hid, -⟩ := (PEquiv.mem_single_iff _ _ _ _).mp hf
      obtain rfl := Loc.scope.inj hid
      exact ⟨[0], .root rfl rfl⟩
  obtain ⟨g, -, hs', hid⟩ :=
    newClosure hrenamed (PEquiv.single_apply _ _) none [] body
  have hren := hs'.renames (callRoots_renamed hid .nil) (callRoots_renamed_symm hid .nil)
  exact ⟨rfl, ((evaluation_renamed hs 1 g).2 0 0 [] [] hid .nil hren).2.2, rfl⟩

end Scriptlet
