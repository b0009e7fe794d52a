import Scriptlet.Proofs.Grammar.Alike
import Scriptlet.Proofs.Grammar.LineEnd

/-!
# Matches in respaced texts

The grammar reads nothing into what stands in a gap. That takes two steps. Up to a gap that a match
skips, the text is passed as `Respaced` asks: no part of a match ends inside of a comment or a
string (`Peg.Skips.leadsTo`). And respaced texts are read alike (`Regapped.alike`), so whatever
matches in a text also does in a respaced one, with the same nodes. Nothing is counted along the
way.

Both steps are instances of the general statements about texts that are read alike; what is shown
here is that gaps satisfy their conditions. The gap itself is given by the match, and not by its
looks: the same characters within a string are no gap.
-/

namespace Scriptlet

/-- A count of nothing, which stays what it is. -/
def still (n : Nat) (_ : Char) : Option Nat := some n

/-- However many characters are read, the state that never changes stays what it was. -/
theorem foldlM_still (w : List Char) (n : Nat) : w.foldlM still n = some n := by
  induction w with
  | nil => rfl
  | cons c w ih => exact ih

theorem Peg.count_still (p : Peg) (n : Nat) : p.count still n = some n := by
  induction p generalizing n with
  | word w => exact foldlM_still w n
  | one _ | start | finish | rule _ => rfl
  | seq p q ihp ihq => rw [count, ihp, Option.bind_some, ihq]
  | choice p q ihp ihq => rw [count, ihp, ihq, if_pos rfl]
  | many p ih | optional p ih => rw [count, ih, if_pos rfl]
  | ahead p ih | notAhead p ih => rw [count, ih, if_pos Option.isSome_some]

/-- A count of nothing is left as it was by every rule, so all that is said of counts applies to
it. -/
theorem steady_still : Steady still where
  body := fun _ n => Peg.count_still _ n
  other := fun _ _ _ => rfl

/-! ## The way to a gap

From the gap backwards to the beginning of the match that skips it.
-/

/-- What leads up to a gap also does with characters, comments and strings in front of it. -/
theorem Regapped.led {z z' : List Char} (hz : Regapped z z') : Led still fun _ => LeadsTo z z' where
  toSteady := steady_still
  char := fun hc hslash _ ⟨t, ht⟩ => ⟨_, .char hc hslash ht⟩
  block := fun hend ⟨t, ht⟩ => ⟨_, .block hend ht⟩
  line := by
    rintro _ body s hend hs ⟨t, ht⟩
    have hne : s ≠ [] := by
      rintro rfl
      cases ht
      exact hz.apart dropTrivia_nil
    obtain ⟨s, rfl⟩ := List.head?_eq_some_iff.mp (hs.resolve_right hne)
    generalize hline : '\n' :: s = line at ht
    cases ht with
    | here =>
      -- the gap would begin with a line break
      subst hline
      exact absurd rfl hz.inline
    | char _ _ more =>
      obtain ⟨rfl, rfl⟩ := List.cons.inj hline
      exact ⟨_, .line hend more⟩
    | block _ _ | line _ _ => cases hline
    | string hquote _ _ =>
      obtain ⟨rfl, -⟩ := List.cons.inj hline
      exact absurd hquote (by decide)
  string := fun hquote htext ⟨t, ht⟩ => ⟨_, .string hquote htext ht⟩

namespace Peg

/-- Matches are on the way to a gap: a match that ends where the text leads up to the gap begins at
such a place. -/
theorem Matches.leadsTo {z z' : List Char} (hz : Regapped z z') {spacing : Spacing} {p : Peg}
    {s s' : List Char} {trees : List Tree} (h : p.Matches spacing s s' trees)
    (hspacing : spacing = .skipped) (hp : p.sweeps) (hs : dropTrivia s = s)
    (h' : LeadsTo z z' s') : LeadsTo z z' s :=
  h.led hz.led hspacing hp (p.count_still 0) hs h'

mutual

/-- A match leads up to the gaps that it skips. The part with the gap does, and what stands before
that part is on the way. -/
theorem Skips.leadsTo {spacing : Spacing} {p : Peg} {s s' z z' : List Char} :
    p.Skips spacing s s' z → Regapped z z' → p.sweeps → dropTrivia s = s → LeadsTo z z' s
  | .between first second, hz, hp, hs => by
    obtain ⟨hp, -⟩ := Bool.and_eq_true_iff.mp hp
    rcases Bool.or_eq_true_iff.mp hp with hp | hoperator
    · exact first.leadsTo hz rfl hp hs ⟨_, .here⟩
    · obtain ⟨hp, hq⟩ := Bool.and_eq_true_iff.mp hoperator
      obtain rfl := of_decide_eq_true hp
      obtain rfl := of_decide_eq_true hq
      exact first.led_multiplication (n := 0) hz.led second hs ⟨_, .here⟩
  | .first first _, hz, hp, hs => by
    obtain ⟨hp, -⟩ := Bool.and_eq_true_iff.mp hp
    rcases Bool.or_eq_true_iff.mp hp with hp | hoperator
    · exact first.leadsTo hz hp hs
    · -- nothing is skipped inside of the operator
      obtain rfl := of_decide_eq_true (Bool.and_eq_true_iff.mp hoperator).1
      cases first with
      | rule body => exact nomatch body.spacing_eq
  | .second first second, hz, hp, hs => by
    obtain ⟨hp, hq⟩ := Bool.and_eq_true_iff.mp hp
    have hspacing := second.spacing_eq
    have hsecond := second.leadsTo hz hq (Spacing.dropTrivia_skip hspacing _)
    rw [hspacing] at hsecond
    have hmiddle := hz.led.of_dropTrivia (n := 0) hsecond
    rcases Bool.or_eq_true_iff.mp hp with hp | hoperator
    · exact first.leadsTo hz hspacing hp hs hmiddle
    · obtain ⟨hp, hq⟩ := Bool.and_eq_true_iff.mp hoperator
      obtain rfl := of_decide_eq_true hp
      obtain rfl := of_decide_eq_true hq
      obtain ⟨trees, hoperand⟩ := second.exists_matches
      rw [hspacing] at first hoperand
      exact first.led_multiplication (n := 0) hz.led hoperand hs hmiddle
  | .rule (r := r) body, hz, hp, hs => by
    have hspacing := body.spacing_eq
    rcases Rule.sweeps_skipped r r.mem_all (of_decide_eq_true hp) with
      ⟨hkind, -⟩ | rfl | rfl | ⟨-, hsweeps⟩
    · rw [Rule.inside, hkind] at hspacing
      cases hspacing
    · cases hspacing
    · cases hspacing
    · exact body.leadsTo hz hsweeps hs
  | .left first, hz, hp, hs => first.leadsTo hz (Bool.and_eq_true_iff.mp hp).1 hs
  | .right _ second, hz, hp, hs => second.leadsTo hz (Bool.and_eq_true_iff.mp hp).2 hs
  | .once first _, hz, hp, hs => first.leadsTo hz hp hs
  | .again first more, hz, hp, hs =>
    first.leadsTo hz more.spacing_eq hp hs (more.leadsTo hz hp)
  | .present body, hz, hp, hs => body.leadsTo hz hp hs

/-- A repetition leads up to the gaps that it skips, in whichever of its matches the gap is. -/
theorem SkipsAgain.leadsTo {spacing : Spacing} {p : Peg} {s s' z z' : List Char} :
    p.SkipsAgain spacing s s' z → Regapped z z' → p.sweeps → LeadsTo z z' s
  | .between _ _, _, _ => ⟨_, .here⟩
  | .body body _, hz, hp => by
    have hspacing := body.spacing_eq
    have hbody := body.leadsTo hz hp (Spacing.dropTrivia_skip hspacing _)
    rw [hspacing] at hbody
    exact hz.led.of_dropTrivia (n := 0) hbody
  | .more body more, hz, hp => by
    have hspacing := more.spacing_eq
    have hbody := body.leadsTo hz hspacing hp (Spacing.dropTrivia_skip hspacing _)
      (more.leadsTo hz hp)
    rw [hspacing] at hbody
    exact hz.led.of_dropTrivia (n := 0) hbody

end

/-- **A script leads up to the gaps that it skips.** Its statements do, from the beginning of the
text on, and around them stand nothing but the start and the end. -/
theorem Skips.leadsTo_script {s s' z z' : List Char} (hz : Regapped z z')
    (h : (Peg.rule .script).Skips .skipped s s' z) : LeadsTo z z' s := by
  have hmany : (many (Peg.rule .statement)).sweeps := by decide
  cases h with
  | rule body =>
    cases body with
    | between first _ =>
      obtain ⟨s₁, _, _, hstart, hstatements, -⟩ := matches_seq_iff.mp first
      cases hstart
      exact hz.led.of_dropTrivia (n := 0)
        (hstatements.leadsTo hz rfl hmany (dropTrivia_dropTrivia _) ⟨_, .here⟩)
    | first first _ =>
      cases first with
      | between hstart _ =>
        cases hstart
        exact ⟨_, .here⟩
      | first hstart _ => cases hstart
      | second hstart hstatements =>
        cases hstart
        exact hz.led.of_dropTrivia (n := 0) (hstatements.leadsTo hz hmany (dropTrivia_dropTrivia _))
    | second _ second =>
      cases second with
      | rule body => cases body

end Peg

/-! ## Respaced texts are read alike

The condition on beginnings, for texts that differ in a gap: where nothing is skipped there is no
gap, and the texts begin with the same character or the same string.
-/

namespace Respaced

variable {z z' s t : List Char}

/-- What respaced texts begin with where nothing is skipped. At the gap itself something is skipped,
in both. -/
theorem begins (hz : Regapped z z') (h : Respaced z z' s t)
    (hskip : dropTrivia s = s ∨ dropTrivia t = t) (n : Nat) :
    Begins still (fun _ => Aligned z z') n s t := by
  cases h with
  | here =>
    obtain ⟨c, hc, hblank⟩ := hz.blank
    obtain ⟨u, rfl⟩ := List.head?_eq_some_iff.mp hc
    have hapart := dropTrivia_ne_self (dropTrivia_blank hblank u) (Nat.lt_succ_self _)
    exact absurd hskip (not_or.mpr ⟨hz.apart, hapart⟩)
  | char hc _ more => exact .char hc fun _ _ => .inl more
  | block hend _ =>
    exact absurd hskip (not_or.mpr ⟨dropTrivia_block_ne hend _, dropTrivia_block_ne hend _⟩)
  | line hend _ =>
    exact absurd hskip (not_or.mpr ⟨dropTrivia_line_ne hend _, dropTrivia_line_ne hend _⟩)
  | string hquote htext more => exact .string hquote htext (.inl more)

end Respaced

/-- **Respaced texts are read alike.** Behind the gap they are the same text, which is read alike
anyway. -/
theorem Regapped.alike {z z' : List Char} (hz : Regapped z z') :
    ReadAlike still fun _ => Aligned z z' where
  toSteady := steady_still
  skip := by
    rintro _ s t (h | rfl)
    · exact h.skip hz
    · exact .inr rfl
  begins := by
    rintro n s t (h | rfl) hskip
    · exact h.begins hz hskip n
    · exact .same fun _ _ => .inr rfl
  lineEnd := by
    rintro _ s t (h | rfl) spacing
    · exact Peg.returnAtLineEnd_respaced hz.seam h
    · exact .rfl

/-- What is repeated in a text is repeated in a respaced one, with the same nodes. A script is a
repetition of statements, for which this is used. -/
theorem Peg.Iterates.respaced {z z' : List Char} (hz : Regapped z z') {spacing : Spacing} {p : Peg}
    {s s' t : List Char} {trees : List Tree} (h : p.Iterates spacing s s' trees)
    (hspacing : spacing ≠ .compound) (hp : p.calm spacing (spacing = .skipped))
    (hst : Aligned z z' s t) : ∃ t', p.Iterates spacing t t' trees ∧ Aligned z z' s' t' ∧
      (spacing ≠ .skipped → ∃ w, s = w ++ s' ∧ t = w ++ t') :=
  h.alike hz.alike hspacing hp (p.count_still 0) hst

end Scriptlet
