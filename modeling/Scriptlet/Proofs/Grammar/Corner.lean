import Scriptlet.Proofs.Grammar.First

/-!
# Corners

The first token of a match often tells by which rule the match begins, many levels down
(`Peg.Matches.stands`), and where one rule matches, those above it do that only add what may be left
out (`Peg.exists_matches_of_liftsWithin`). Both are computed from the grammar.

The left corner of a match is the chain of rules that begin where it does. Between an expression and
the name or the literal that it begins with there may be a dozen rules, one for each level of
precedence, and the proofs further on should not mention them. So the chain is followed by a
function with two readings: going down, the kind of the place rules out all alternatives but those
that lead to the corner; going up, what a rule asks for behind its first part is optional or
repeated, and does not fail.

It is used where a text is taken out of its context or put into another one: what begins there as
one rule begins there as another.
-/

namespace Scriptlet

namespace Peg

/-- Whether a match of the expression at a place of the kind begins with one of the rule `x`, if
`rules` says so of the rules. An alternative that does not begin with the kind need not lead
there. -/
def leads (admitted : Rule → Bool) (k : Kind) (x : Rule) (rules : Rule → Bool) : Peg → Bool
  | .rule r => r = x || rules r
  | .seq p q =>
    if p.consumes then p.leads admitted k x rules
    else k ∉ p.first (Rule.first admitted) && q.leads admitted k x rules
  | .choice p q =>
    (k ∉ p.first (Rule.first admitted) && !p.vacuous || p.leads admitted k x rules) &&
      (k ∉ q.first (Rule.first admitted) && !q.vacuous || q.leads admitted k x rules)
  | _ => false

/-- Whether the expression matches at a place of the kind if the rule `x` does, if `rules` says so
of the rules. Alternatives in front of the one that leads to `x` have to fail there. -/
def lifts (k : Kind) (x : Rule) (rules : Rule → Bool) : Peg → Bool
  | .rule r => r = x || rules r
  | .seq p (.many q) => p.lifts k x rules && (many q).told && (many q).bounded Rule.rank .skipped
  | .seq p (.optional q) =>
    p.lifts k x rules && (optional q).told && (optional q).bounded Rule.rank .skipped
  | .choice p q => p.lifts k x rules || p.solid && k ∉ p.begins && q.lifts k x rules
  | _ => false

end Peg

/-- Whether a match of the rule at a place of the kind begins with one of the rule `x`,
through so many rules inside one another. -/
def Rule.leadsWithin (admitted : Rule → Bool) (k : Kind) (x : Rule) : Nat → Rule → Bool
  | 0, _ => false
  | n + 1, r =>
    r ∉ Rule.untold && r.kinds?.isNone && r.body.leads admitted k x (leadsWithin admitted k x n)

/-- Whether the rule matches at a place of the kind if the rule `x` does, through so many rules
inside one another. -/
def Rule.liftsWithin (k : Kind) (x : Rule) : Nat → Rule → Bool
  | 0, _ => false
  | n + 1, r =>
    r ∉ Rule.untold && r.kinds?.isNone && r.body.lifts k x (liftsWithin k x n)

namespace Peg

/-- The rule matches at the place, and makes admitted nodes only. Where the match ends is left
open. -/
def Stands (admitted : Rule → Bool) (x : Rule) (s : List Char) : Prop :=
  ∃ s' trees, (rule x).Matches .skipped s s' trees ∧ ∀ t ∈ trees, t.Admitted admitted

section

variable {admitted : Rule → Bool} (hadmitted : Rule.Admission admitted) {x : Rule}
  {s s' : List Char} {trees : List Tree} (hs : dropTrivia s = s)
include hadmitted hs

/-- What an expression leads to stands where it matches, if the same is known of the rules in it. -/
theorem Matches.stands_of {rules : Rule → Bool}
    (hrules : ∀ {r : Rule} {s' : List Char} {trees : List Tree}, rules r →
      (Peg.rule r).Matches .skipped s s' trees → (∀ t ∈ trees, t.Admitted admitted) →
        Stands admitted x s)
    {p : Peg} (h : p.Matches .skipped s s' trees) (hp : p.told)
    (hleads : p.leads admitted (kind s) x rules) (htrees : ∀ t ∈ trees, t.Admitted admitted) :
    Stands admitted x s := by
  induction p generalizing s' trees with
  | rule r =>
    rcases Bool.or_eq_true_iff.mp hleads with hx | hr
    · obtain rfl : r = x := of_decide_eq_true hx
      exact ⟨s', trees, h, htrees⟩
    · exact hrules hr h htrees
  | seq p q ihp ihq =>
    obtain ⟨hp, hq⟩ := Bool.and_eq_true_iff.mp hp
    obtain ⟨s₁, trees₁, trees₂, hfirst, hsecond, rfl⟩ := matches_seq_iff.mp h
    obtain ⟨htrees, htrees'⟩ := List.forall_mem_append.mp htrees
    rw [leads] at hleads
    split at hleads
    · exact ihp hfirst hp hleads htrees
    · obtain ⟨hnot, hleads⟩ := Bool.and_eq_true_iff.mp hleads
      have hnot := of_decide_eq_true hnot
      obtain ⟨rfl, -⟩ := (hfirst.kind_mem hadmitted rfl hp hs htrees).resolve_left hnot
      -- the first part took nothing, so the second one began at the same place
      rw [Spacing.skip_of_dropTrivia rfl hs] at hsecond
      exact ihq hsecond hq hleads htrees'
  | choice p q ihp ihq =>
    obtain ⟨hp, hq⟩ := Bool.and_eq_true_iff.mp hp
    obtain ⟨hleft, hright⟩ := Bool.and_eq_true_iff.mp hleads
    rcases matches_choice_iff.mp h with h | ⟨-, h⟩
    · rcases Bool.or_eq_true_iff.mp hleft with hnot | hleft
      · rw [Bool.and_eq_true, Bool.not_eq_true', decide_eq_true_eq] at hnot
        exact absurd (h.kind_mem_first hadmitted hp hnot.2 hs htrees) hnot.1
      · exact ihp h hp hleft htrees
    · rcases Bool.or_eq_true_iff.mp hright with hnot | hright
      · rw [Bool.and_eq_true, Bool.not_eq_true', decide_eq_true_eq] at hnot
        exact absurd (h.kind_mem_first hadmitted hq hnot.2 hs htrees) hnot.1
      · exact ihq h hq hright htrees
  | word _ | one _ | start | finish | many _ _ | optional _ _ | ahead _ _ | notAhead _ _ =>
    cases hleads

/-- A match of a rule begins with one of the rule it leads to, by induction on how deep the chain
is. -/
theorem Matches.stands (n : Nat) {r : Rule} (hr : Rule.leadsWithin admitted (kind s) x n r)
    (h : (Peg.rule r).Matches .skipped s s' trees) (htrees : ∀ t ∈ trees, t.Admitted admitted) :
    Stands admitted x s := by
  induction n generalizing r s' trees with
  | zero => cases hr
  | succ n ih =>
    rw [Rule.leadsWithin, Bool.and_eq_true, Bool.and_eq_true, Option.isNone_iff_eq_none] at hr
    obtain ⟨⟨htold, hkinds⟩, hbody⟩ := hr
    have htold := of_decide_eq_true htold
    obtain ⟨inner, hinner, rfl⟩ := matches_rule_iff.mp h
    rw [Rule.inside_of_told htold hkinds] at hinner
    obtain ⟨hr, htrees⟩ := hadmitted.of_made htold htrees
    exact hinner.stands_of hadmitted hs (fun hr h => ih hr h)
      (hadmitted.closed r r.mem_all htold hr hkinds).1 hbody htrees

end

/-- An expression matches where what it is lifted from does, if the same is known of the rules in
it. -/
theorem exists_matches_of_lifts {x : Rule} {s : List Char} (hs : dropTrivia s = s)
    (hx : ∃ s' trees, (rule x).Matches .skipped s s' trees) {rules : Rule → Bool}
    (hrules : ∀ {r : Rule}, rules r → ∃ s' trees, (rule r).Matches .skipped s s' trees)
    {p : Peg} (hlifts : p.lifts (kind s) x rules) : ∃ s' trees, p.Matches .skipped s s' trees := by
  -- what may be left out or repeated never fails
  have hseq : ∀ {p q : Peg}, (∃ s' trees, p.Matches .skipped s s' trees) → q.told →
      q.bounded Rule.rank .skipped → (∀ s, ¬q.Fails .skipped s) →
        ∃ s' trees, (seq p q).Matches .skipped s s' trees := by
    rintro p q ⟨s₁, trees₁, hp⟩ htold hbounded hnever
    rcases matches_or_fails (startless_of_told htold) hbounded (Spacing.skipped.skip s₁) with
      ⟨s₂, trees₂, hq⟩ | hfails
    · exact ⟨s₂, trees₁ ++ trees₂, .seq hp hq⟩
    · exact absurd hfails (hnever _)
  fun_induction lifts (kind s) x rules p with
  | case1 r =>
    rcases Bool.or_eq_true_iff.mp hlifts with hr | hr
    · obtain rfl : r = x := of_decide_eq_true hr
      exact hx
    · exact hrules hr
  | case2 p q ih =>
    rw [Bool.and_eq_true, Bool.and_eq_true] at hlifts
    exact hseq (ih hlifts.1.1) (q := many q) hlifts.1.2 hlifts.2 fun s => nofun
  | case3 p q ih =>
    rw [Bool.and_eq_true, Bool.and_eq_true] at hlifts
    exact hseq (ih hlifts.1.1) (q := optional q) hlifts.1.2 hlifts.2 fun s => nofun
  | case4 p q ihp ihq =>
    rcases Bool.or_eq_true_iff.mp hlifts with h | h
    · obtain ⟨s', trees, h⟩ := ihp h
      exact ⟨s', trees, .left h⟩
    · rw [Bool.and_eq_true, Bool.and_eq_true] at h
      obtain ⟨s', trees, hq⟩ := ihq h.2
      exact ⟨s', trees, .right (fails_of_kind h.1.1 hs (of_decide_eq_true h.1.2)) hq⟩
  | case5 => cases hlifts

/-- A rule matches where one matches that lifts to it. That something may be left out means that the
rest of the rule matches nothing if it has to. -/
theorem exists_matches_of_liftsWithin {x : Rule} {s : List Char} (hs : dropTrivia s = s)
    (hx : ∃ s' trees, (rule x).Matches .skipped s s' trees) (n : Nat) {r : Rule}
    (hr : Rule.liftsWithin (kind s) x n r) : ∃ s' trees, (rule r).Matches .skipped s s' trees := by
  induction n generalizing r with
  | zero => cases hr
  | succ n ih =>
    rw [Rule.liftsWithin, Bool.and_eq_true, Bool.and_eq_true, Option.isNone_iff_eq_none] at hr
    obtain ⟨⟨htold, hkinds⟩, hbody⟩ := hr
    obtain ⟨s', trees, h⟩ := exists_matches_of_lifts hs hx ih hbody
    refine ⟨s', _, matches_rule_iff.mpr ⟨trees, ?_, rfl⟩⟩
    rw [Rule.inside_of_told (of_decide_eq_true htold) hkinds]
    exact h

end Peg

end Scriptlet
