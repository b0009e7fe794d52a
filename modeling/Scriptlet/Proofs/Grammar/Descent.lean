import Mathlib.Logic.Relation
import Scriptlet.Proofs.Grammar.Adequacy

/-!
# Matching ends

To match an expression, the matcher goes on to match its parts, here or further on in the text.
`Peg.Task.Calls` is that step, and a weight falls along it that counts characters first and levels
of the grammar next (`Peg.Task.Calls.weight_lt`). So there is no endless descent, and no rule comes
back to itself where it started. With fuel for the weight, the matcher is never exhausted, and more
fuel changes nothing (`Peg.run_of_le`).

The fuel of the matcher is an artefact of its definition. That every run with enough of it tells is
known already (`Peg.run_tells`); here it is shown to be no more than an artefact. On the one hand an
outcome that is not for want of fuel stays what it is with more of it, so that one can speak of the
outcome without saying how much fuel there was. On the other hand the descent itself, of which the
fuel counts the levels, is described without fuel and well-founded: the calls are taken from the
relation of matches, and not from the function.

* `Outcome.Stands`, `Peg.run_of_le`: more fuel changes nothing.
* `Outcome.Decided`, `Rule.run_decided`: every rule is decided at every place.
* `Peg.Task.Calls`, `Peg.Task.Calls.weight_lt`, `Peg.Task.acc_calls`: the descent, and why it ends.
* `matching_ends`: all of this together, for each rule.
-/

namespace Scriptlet

/-! ## More fuel

An induction on the fuel, along the combinators that the matcher is put together with.
-/

namespace Outcome

/-- The second outcome is the first one, unless that one is for want of fuel. The record of what was
tried is the same as well. -/
def Stands (o o' : Outcome × Attempts) : Prop := o.1 ≠ .exhausted → o' = o

variable {o o' o'' : Outcome × Attempts} {c : Cursor} {trees : List Tree} {seen : Attempts}

/-- An outcome stands as it is. -/
theorem Stands.refl (o : Outcome × Attempts) : Stands o o := fun _ => rfl

/-- If it stands with some more fuel, it stands with still more. -/
theorem Stands.trans (h : Stands o o') (h' : Stands o' o'') : Stands o o'' := by
  intro ho
  obtain rfl := h ho
  exact h' ho

/-- About an exhausted run nothing is claimed. -/
theorem stands_exhausted : Stands (.exhausted, seen) o := fun h => absurd rfl h

/-- If two outcomes agree as far as matching goes, so do they with the same match behind each. -/
theorem Stands.andThen {second second' : Cursor → List Tree → Attempts → Outcome × Attempts}
    (ho : Stands o o') (h : ∀ c trees seen, Stands (second c trees seen) (second' c trees seen)) :
    Stands (andThen o second) (andThen o' second') := by
  obtain ⟨_ | _ | _, seen⟩ := o
  · rw [ho nofun]
    exact h _ _ _
  · rw [ho nofun]
    exact .refl _
  · exact stands_exhausted

theorem Stands.orElse {second second' : Attempts → Outcome × Attempts} (ho : Stands o o')
    (h : ∀ seen, Stands (second seen) (second' seen)) :
    Stands (orElse o second) (orElse o' second') := by
  obtain ⟨_ | _ | _, seen⟩ := o
  · rw [ho nofun]
    exact .refl _
  · rw [ho nofun]
    exact h _
  · exact stands_exhausted

theorem Stands.matchRule (ho : Stands o o') (r : Rule) (ctx : Context) (before : Attempts) :
    Stands (matchRule r ctx c before o) (matchRule r ctx c before o') := by
  obtain ⟨_ | _ | _, seen⟩ := o
  · rw [ho nofun]
    exact .refl _
  · rw [ho nofun]
    exact .refl _
  · exact stands_exhausted

/-- A repetition has a count of rounds besides the fuel; a longer count does not change it
either. -/
theorem stands_iterate {step step' : Cursor → Attempts → Outcome × Attempts}
    (hstep : ∀ c seen, Stands (step c seen) (step' c seen)) (k : Nat) :
    Stands (iterate step k c trees seen) (iterate step' (k + 1) c trees seen) := by
  induction k generalizing c trees seen with
  | zero => exact stands_exhausted
  | succ k ih =>
    have hc := hstep c seen
    rw [iterate, iterate]
    rcases hs : step c seen with ⟨_ | _ | _, seen'⟩
    · rw [hc (by rw [hs]; rintro ⟨⟩), hs]
      exact ih
    · rw [hc (by rw [hs]; rintro ⟨⟩), hs]
      exact .refl _
    · exact stands_exhausted

end Outcome

open Outcome

namespace Peg

/-- **More fuel changes nothing** about what the matcher tells. One unit more is all that has to be
looked at: both runs take the same steps until the first one is exhausted. -/
theorem run_succ (fuel : Nat) (ctx : Context) (p : Peg) (c : Cursor) (seen : Attempts) :
    Stands (p.run fuel ctx c seen) (p.run (fuel + 1) ctx c seen) := by
  induction fuel generalizing ctx p c seen with
  | zero => exact stands_exhausted
  | succ fuel ih =>
    have hskip : ∀ ctx c seen, Stands (skipTrivia (run fuel · trivia) ctx c seen)
        (skipTrivia (run (fuel + 1) · trivia) ctx c seen) := by
      intro ctx c seen
      rw [skipTrivia, skipTrivia]
      split
      · exact ih _ _ _ _
      · exact .refl _
    cases p with
    | word _ | one _ | start | finish => exact .refl _
    | rule r =>
      rw [run, run]
      cases r.kind with
      | silent | trivia => exact ih _ _ _ _
      | plain | token | compound => exact (ih _ _ _ _).matchRule _ _ _
    | seq p q =>
      refine (ih ctx p c seen).andThen fun c _ seen => (hskip ctx c seen).andThen fun c _ seen => ?_
      exact (ih ctx q c seen).andThen fun _ _ _ => .refl _
    | choice p q => exact (ih ctx p c seen).orElse fun seen => ih ctx q c seen
    | many p =>
      refine ((ih ctx p c seen).andThen fun c trees seen => ?_).orElse fun _ => .refl _
      exact stands_iterate
        (fun c seen => (hskip ctx c seen).andThen fun c _ seen => ih ctx p c seen) _
    | optional p => exact (ih ctx p c seen).orElse fun _ => .refl _
    | ahead p => exact (ih _ p c seen).andThen fun _ _ _ => .refl _
    | notAhead p =>
      have hp := ih { ctx with lookahead := ctx.lookahead.inNotAhead } p c seen
      rw [run, run]
      rcases hrun : p.run fuel { ctx with lookahead := ctx.lookahead.inNotAhead } c seen with
        ⟨_ | _ | _, seen'⟩
      · rw [hp (by rw [hrun]; rintro ⟨⟩), hrun]
        exact .refl _
      · rw [hp (by rw [hrun]; rintro ⟨⟩), hrun]
        exact .refl _
      · exact stands_exhausted

/-- Any amount of further fuel is a number of single units. -/
theorem run_of_le {fuel fuel' : Nat} (h : fuel ≤ fuel') (ctx : Context) (p : Peg) (c : Cursor)
    (seen : Attempts) : Stands (p.run fuel ctx c seen) (p.run fuel' ctx c seen) := by
  induction h with
  | refl => exact .refl _
  | step _ ih => exact ih.trans (run_succ _ ctx p c seen)

end Peg

/-- With fuel for a text of that length, the run has an outcome, the same with any more fuel. This
is how to speak of the outcome of a run without its fuel. -/
def Outcome.Decided (length : Nat) (run : Nat → Outcome × Attempts) : Prop :=
  ∃ o, o.1 ≠ .exhausted ∧ ∀ fuel, parseFuel length ≤ fuel → run fuel = o

/-- A bounded expression is decided wherever the matcher tells the truth about it. -/
theorem Peg.run_decided {p : Peg} {ctx : Context} {c : Cursor}
    (hbounded : p.bounded Rule.rank ctx.spacing) (hneed : p.need Rule.rank ctx.spacing ≤ 256)
    (htells : ∀ fuel, p.TellsWithin fuel c) (seen : Attempts) :
    Decided c.rest.length fun fuel => p.run fuel ctx c seen := by
  have hne : (p.run (parseFuel c.rest.length) ctx c seen).1 ≠ .exhausted := by
    intro hexhausted
    have hrun : p.run (parseFuel c.rest.length) ctx c seen = (.exhausted, _) :=
      Prod.ext hexhausted rfl
    have hfuel := (htells _ ctx seen).exhausted hrun hbounded
    rw [parseFuel] at hfuel
    omega
  exact ⟨_, hne, fun fuel hfuel => run_of_le hfuel ctx p c seen hne⟩

/-- A script that does not start where its text does is not matched. It is the one rule that asks
where it stands, and has to be treated apart for it. -/
theorem Rule.run_script_failed {ctx : Context} {c : Cursor} (hc : c.pos ≠ 0) (fuel : Nat)
    (seen : Attempts) : ((Peg.rule .script).run (fuel + 4) ctx c seen).1 = .failed := by
  have hbody : Rule.script.body.run (fuel + 3) ctx c seen = (.failed, seen) := by
    change andThen (andThen (if c.pos = 0 then .matched c [] else .failed, seen) _) _ = _
    rw [if_neg hc]
    rfl
  rw [Peg.run]
  change (matchRule .script ctx c seen (Rule.script.body.run (fuel + 3) ctx c seen)).1 = _
  rw [hbody]
  rfl

/-- Every rule is decided, wherever and in whatever circumstances it is tried. Lookaheads are among
the circumstances, as is the way in which the parts are spaced. -/
theorem Rule.run_decided (r : Rule) (ctx : Context) (c : Cursor) (seen : Attempts) :
    Decided c.rest.length fun fuel => (Peg.rule r).run fuel ctx c seen := by
  by_cases hr : r = .script
  · subst hr
    by_cases hc : c.pos = 0
    · exact Peg.run_decided rfl (Rule.need_le _ _)
        (fun fuel => Peg.run_script_tells fuel hc) seen
    · have hne : ((Peg.rule .script).run 4 ctx c seen).1 ≠ .exhausted := by
        rw [Rule.run_script_failed hc 0 seen]
        exact nofun
      refine ⟨_, hne, fun fuel hfuel => Peg.run_of_le ?_ ctx _ c seen hne⟩
      rw [parseFuel] at hfuel
      omega
  · exact Peg.run_decided rfl (r.need_le _)
      (fun fuel => Peg.run_tells fuel (p := .rule r) (decide_eq_true hr) c) seen

/-- How much fuel is enough for the trivia between two parts is bounded by what is left, as it is
for any rule. -/
theorem skipTrivia_decided (ctx : Context) (c : Cursor) (seen : Attempts) :
    Decided c.rest.length fun fuel => skipTrivia (Peg.run fuel · trivia) ctx c seen := by
  by_cases hs : ctx.spacing = .skipped
  · have hbounded : trivia.bounded Rule.rank .token = true := by decide
    have hneed : trivia.need Rule.rank .token ≤ 256 := by decide
    have hdecided : Decided c.rest.length fun fuel =>
        trivia.run fuel { ctx with spacing := .token } c seen :=
      Peg.run_decided hbounded hneed (fun fuel => Peg.run_tells fuel (by decide) c) seen
    obtain ⟨o, ho, hrun⟩ := hdecided
    refine ⟨o, ho, fun fuel hfuel => ?_⟩
    rw [← hrun fuel hfuel]
    exact if_pos hs
  · exact ⟨(.matched c [], seen), nofun, fun fuel _ => if_neg hs⟩

/-! ## Descent

Here the matcher's calls are described by themselves. A task is an expression at a place; a part
that comes second is only called behind a match of the first, a second alternative only where the
first one fails, so the calls are those that are really made.
-/

/-- How many levels the matcher descends in a rule without consuming a character, in whatever
circumstances. Skipping between parts only adds to them, so the spacing in which trivia are skipped
gives the largest number. -/
def Rule.height (r : Rule) : Nat := Rule.rank .skipped r

/-- The body of a rule is lower than the rule, in each of its spacings. As before, this is
computed. -/
theorem Rule.body_height (r : Rule) (spacing : Spacing) :
    r.body.bounded (fun _ => Rule.height) (r.inside spacing) = true ∧
      r.body.need (fun _ => Rule.height) (r.inside spacing) ≤ r.height := by
  have h : ∀ spacing ∈ [Spacing.skipped, .compound, .token], ∀ r ∈ Rule.all,
      r.body.bounded (fun _ => Rule.height) (r.inside spacing) = true ∧
        r.body.need (fun _ => Rule.height) (r.inside spacing) ≤ r.height := by
    decide +kernel
  exact h spacing (by cases spacing <;> decide) r r.mem_all

/-- Behind one match of the expression or more, one after the other, this is left of the text. The
places at which a repetition calls its body again are those. -/
inductive Peg.Again (spacing : Spacing) (p : Peg) (s : List Char) : List Char → Prop
  | once {s₁ : List Char} {trees : List Tree} (body : p.Matches spacing s s₁ trees) :
    Again spacing p s s₁
  | more {s₁ s₂ : List Char} {trees : List Tree} (run : Again spacing p s s₁)
    (body : p.Matches spacing (spacing.skip s₁) s₂ trees) : Again spacing p s s₂

namespace Peg

/-- An expression to be matched at the beginning of a text, with the spacing it is matched in. -/
structure Task where
  spacing : Spacing
  expr : Peg
  text : List Char

namespace Task

/-- To match the first, the matcher goes on to match the second: a part of the expression, or
what is skipped between two parts, with what is left of the text when it is their turn. -/
inductive Calls : Task → Task → Prop
  | body {spacing r s} : Calls ⟨spacing, .rule r, s⟩ ⟨r.inside spacing, r.body, s⟩
  | first {spacing p q s} : Calls ⟨spacing, .seq p q, s⟩ ⟨spacing, p, s⟩
  | between {p q s s₁ trees} (first : p.Matches .skipped s s₁ trees) :
    Calls ⟨.skipped, .seq p q, s⟩ ⟨.token, trivia, s₁⟩
  | second {spacing p q s s₁ trees} (first : p.Matches spacing s s₁ trees) :
    Calls ⟨spacing, .seq p q, s⟩ ⟨spacing, q, spacing.skip s₁⟩
  | left {spacing p q s} : Calls ⟨spacing, .choice p q, s⟩ ⟨spacing, p, s⟩
  | right {spacing p q s} (first : p.Fails spacing s) :
    Calls ⟨spacing, .choice p q, s⟩ ⟨spacing, q, s⟩
  | once {spacing p s} : Calls ⟨spacing, .many p, s⟩ ⟨spacing, p, s⟩
  | gap {p s s₁} (run : p.Again .skipped s s₁) :
    Calls ⟨.skipped, .many p, s⟩ ⟨.token, trivia, s₁⟩
  | again {spacing p s s₁} (run : p.Again spacing s s₁) :
    Calls ⟨spacing, .many p, s⟩ ⟨spacing, p, spacing.skip s₁⟩
  | optional {spacing p s} : Calls ⟨spacing, .optional p, s⟩ ⟨spacing, p, s⟩
  | ahead {spacing p s} : Calls ⟨spacing, .ahead p, s⟩ ⟨spacing, p, s⟩
  | notAhead {spacing p s} : Calls ⟨spacing, .notAhead p, s⟩ ⟨spacing, p, s⟩

/-- How far the matcher may still go: 256 levels for each character, and the levels of the
expression. No expression of the grammar has more than 256 levels, so that a character outweighs all
of them. -/
def weight (t : Task) : Nat :=
  256 * t.text.length + t.expr.need (fun _ => Rule.height) t.spacing

/-- What is repeated consumes something, and no part needs more levels than a character gives. -/
def Bounded (t : Task) : Prop := t.expr.bounded (fun _ => Rule.height) t.spacing = true

end Task

/-- Behind one match or more of what consumes something, the text is shorter. -/
theorem Again.length_lt {spacing : Spacing} {p : Peg} {s s₁ : List Char}
    (h : p.Again spacing s s₁) (hp : p.consumes) : s₁.length < s.length := by
  induction h with
  | once body => exact body.length_lt hp
  | more _ body ih =>
    exact (body.length_lt hp).trans ((spacing.length_skip_le _).trans_lt ih)

namespace Task

theorem bounded_trivia (s : List Char) : Bounded ⟨.token, trivia, s⟩ := by
  change trivia.bounded (fun _ => Rule.height) .token = true
  decide

/-- The trivia and everything that is entered to skip them need no more than 16 levels of
descent. -/
theorem weight_trivia_le (s : List Char) :
    weight ⟨.token, trivia, s⟩ ≤ 256 * s.length + 16 := by
  have hneed : trivia.need (fun _ => Rule.height) .token ≤ 16 := by decide
  simp only [weight]
  omega

/-- **A call is lighter than its caller.** A part that is tried behind a match starts with fewer
characters, or is among the levels of the whole. That the weight falls rests on boundedness, so
boundedness is passed on to the call as well. -/
theorem Calls.weight_lt {t t' : Task} (h : t.Calls t') (ht : t.Bounded) :
    t'.weight < t.weight ∧ t'.Bounded := by
  -- one case for each way to call: parts at the same place lose levels, parts further on lose
  -- characters
  cases h with
  | @body spacing r s =>
    obtain ⟨hbounded, hneed⟩ := r.body_height spacing
    refine ⟨?_, hbounded⟩
    simp only [weight, need]
    omega
  | @first spacing p q s =>
    simp only [Bounded, bounded, Bool.and_eq_true] at ht
    refine ⟨?_, ht.1.1⟩
    simp only [weight, need]
    split <;> omega
  | @between p q s s₁ _ hfirst =>
    refine ⟨(weight_trivia_le s₁).trans_lt ?_, bounded_trivia s₁⟩
    simp only [weight, need, Spacing.need]
    split
    · next hp =>
      have := hfirst.length_lt hp
      omega
    · have := hfirst.suffix.length_le
      omega
  | @second spacing p q s s₁ _ hfirst =>
    simp only [Bounded, bounded, Bool.and_eq_true, decide_eq_true_eq] at ht
    refine ⟨?_, ht.1.2⟩
    have hskip := spacing.length_skip_le s₁
    simp only [weight, need]
    split
    · next hp =>
      have := hfirst.length_lt hp
      omega
    · have := hfirst.suffix.length_le
      omega
  | left =>
    simp only [Bounded, bounded, Bool.and_eq_true] at ht
    refine ⟨?_, ht.1⟩
    simp only [weight, need]
    omega
  | right _ =>
    simp only [Bounded, bounded, Bool.and_eq_true] at ht
    refine ⟨?_, ht.2⟩
    simp only [weight, need]
    omega
  | once =>
    simp only [Bounded, bounded, Bool.and_eq_true] at ht
    refine ⟨?_, ht.1.2⟩
    simp only [weight, need]
    omega
  | @gap p s s₁ run =>
    simp only [Bounded, bounded, Bool.and_eq_true] at ht
    refine ⟨(weight_trivia_le s₁).trans_lt ?_, bounded_trivia s₁⟩
    have := run.length_lt ht.1.1
    simp only [weight]
    omega
  | @again spacing p s s₁ run =>
    simp only [Bounded, bounded, Bool.and_eq_true, decide_eq_true_eq] at ht
    refine ⟨?_, ht.1.2⟩
    have := run.length_lt ht.1.1
    have := spacing.length_skip_le s₁
    simp only [weight, need]
    omega
  | optional | ahead | notAhead =>
    refine ⟨?_, ht⟩
    simp only [weight, need]
    omega

/-- The weights fall along any descent, however many calls deep it is. -/
theorem weight_lt_of_transGen {t t' : Task} (h : Relation.TransGen Calls t t') (ht : t.Bounded) :
    t'.weight < t.weight ∧ t'.Bounded := by
  induction h with
  | single h => exact h.weight_lt ht
  | tail _ h ih =>
    obtain ⟨hlt, hbounded⟩ := h.weight_lt ih.2
    exact ⟨hlt.trans ih.1, hbounded⟩

/-- There is no endless descent, as there is no endless descent of weights. -/
theorem acc_calls {t : Task} (ht : t.Bounded) : Acc (fun t' t => t.Calls t') t := by
  induction hn : t.weight using Nat.strong_induction_on generalizing t with
  | h n ih =>
    refine ⟨t, fun t' h => ?_⟩
    obtain ⟨hlt, hbounded⟩ := h.weight_lt ht
    exact ih t'.weight (hn ▸ hlt) hbounded rfl

end Task

/-- The expressions that are repeated in an expression. -/
def repeated : Peg → List Peg
  | .many p => p :: p.repeated
  | .seq p q | .choice p q => p.repeated ++ q.repeated
  | .optional p | .ahead p | .notAhead p => p.repeated
  | .word _ | .one _ | .start | .finish | .rule _ => []

/-- Whatever is repeated in a bounded expression consumes something, as being bounded asks for
it. -/
theorem consumes_of_mem_repeated {rank : Spacing → Rule → Nat} {spacing : Spacing} {p q : Peg}
    (hp : p.bounded rank spacing) (hq : q ∈ p.repeated) : q.consumes := by
  induction p with
  | word _ | one _ | start | finish | rule _ => cases hq
  | seq p₁ p₂ ih₁ ih₂ =>
    simp only [bounded, Bool.and_eq_true] at hp
    rcases List.mem_append.mp hq with hq | hq
    · exact ih₁ hp.1.1 hq
    · exact ih₂ hp.1.2 hq
  | choice p₁ p₂ ih₁ ih₂ =>
    simp only [bounded, Bool.and_eq_true] at hp
    rcases List.mem_append.mp hq with hq | hq
    · exact ih₁ hp.1 hq
    · exact ih₂ hp.2 hq
  | many p ih =>
    simp only [bounded, Bool.and_eq_true] at hp
    rcases List.mem_cons.mp hq with rfl | hq
    · exact hp.1.1
    · exact ih hp.1.2 hq
  | optional p ih | ahead p ih | notAhead p ih => exact ih hp hq

end Peg

/-- Every rule matches or fails, in every spacing and at every place, the rule of scripts
included. -/
theorem Rule.matches_or_fails (r : Rule) (spacing : Spacing) (s : List Char) :
    (∃ s' trees, (Peg.rule r).Matches spacing s s' trees) ∨ (Peg.rule r).Fails spacing s := by
  obtain ⟨o, ho, hrun⟩ := r.run_decided ⟨.none, spacing⟩ ⟨0, s⟩ .none
  have hrun := hrun (parseFuel s.length) le_rfl
  have htells := r.run_tells (parseFuel s.length) s ⟨.none, spacing⟩ .none
  obtain ⟨_ | _ | _, seen⟩ := o
  · obtain ⟨-, core, hcore, -⟩ := htells.matched hrun
    exact .inl ⟨_, _, hcore⟩
  · exact .inr (htells.failed hrun)
  · exact absurd rfl ho

/-- **Matching ends**, for every rule, at every place of every text and in all circumstances. The
run of the matcher has an outcome that no amount of fuel changes, as has skipping between parts;
and there is a match or a failure. For no descent into parts of parts is endless, none comes back
to the rule it came from unless characters were consumed, and whatever is repeated consumes some. -/
theorem matching_ends (r : Rule) :
    (∀ ctx c seen, Decided c.rest.length fun fuel => (Peg.rule r).run fuel ctx c seen) ∧
    (∀ ctx c seen, Decided c.rest.length fun fuel =>
      skipTrivia (Peg.run fuel · trivia) ctx c seen) ∧
    (∀ spacing s, (∃ s' trees, (Peg.rule r).Matches spacing s s' trees) ∨
      (Peg.rule r).Fails spacing s) ∧
    (∀ spacing s, Acc (fun t' t => t.Calls t') (⟨spacing, .rule r, s⟩ : Peg.Task)) ∧
    (∀ spacing s spacing' s', Relation.TransGen Peg.Task.Calls ⟨spacing, .rule r, s⟩
      ⟨spacing', .rule r, s'⟩ → s'.length < s.length) ∧
    ∀ q ∈ r.body.repeated ++ trivia.repeated, ∀ spacing s s' trees,
      q.Matches spacing s s' trees → s'.length < s.length := by
  refine ⟨r.run_decided, skipTrivia_decided, r.matches_or_fails,
    fun spacing s => Peg.Task.acc_calls rfl, ?_, ?_⟩
  · intro spacing s spacing' s' h
    have hlt := (Peg.Task.weight_lt_of_transGen h rfl).1
    simp only [Peg.Task.weight, Peg.need] at hlt
    omega
  · intro q hq spacing s s' trees h
    rcases List.mem_append.mp hq with hq | hq
    · exact h.length_lt (Peg.consumes_of_mem_repeated (r.body_bounded .skipped).1 hq)
    · have htrivia : trivia.bounded Rule.rank .token = true := by decide
      exact h.length_lt (Peg.consumes_of_mem_repeated htrivia hq)

end Scriptlet
