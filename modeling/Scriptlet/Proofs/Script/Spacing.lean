import Scriptlet.Proofs.Grammar.Respacing
import Scriptlet.Proofs.Script.Composition

/-!
# Spacing carries no meaning

White space and block comments within a line can be exchanged for others wherever a script
skips any: the text stays a script with the same nodes and is the same program, if it was one
(`spacing_transparent`). Only the first character behind a token must not go on with it, so
what comes instead begins with white space.
-/

namespace Scriptlet

open Peg

/-- In the match of the script `u ++ text ++ v`, the trivia `text` are skipped as a whole. -/
structure IsGap (u text v : String) : Prop where
  skips : ∃ s', (rule .script).Skips .skipped (u ++ text ++ v).toList s' (text ++ v).toList
  whole : dropTrivia (text ++ v).toList = v.toList
  nonempty : text ≠ ""

namespace Peg

/-- The statements of a script are the statements of a respaced one. -/
theorem Iterates.respaced_statements {z z' s s' t : List Char} {statements : List Tree}
    (hz : Regapped z z') (h : (Peg.rule .statement).Iterates .skipped s s' statements)
    (hs' : dropTrivia s' = []) (hst : Respaced z z' s t) :
    ∃ t', (Peg.rule .statement).Iterates .skipped t t' statements ∧ dropTrivia t' = [] := by
  obtain ⟨t', hiterates, halign, -⟩ := h.respaced hz nofun (by decide) (.inl hst)
  have hend := hz.alike.skip (n := 0) halign
  exact ⟨t', hiterates, (hz.alike.eq_nil_iff (n := 0) hend).mp hs'⟩

end Peg

/-- **Spacing and comments carry no meaning.** A script with the trivia of a gap exchanged for
others within the line is a script too, with the same rules in the same nesting and the same
texts of tokens, and it is the same program if there is one. -/
theorem spacing_transparent {u text text' v : String} (hgap : IsGap u text v)
    (htext : Inline text.toList) (htext' : Inline text'.toList)
    (hblank : ∃ c ∈ text'.toList.head?, isInlineBlank c) :
    (∃ trees trees', parseScript (u ++ text ++ v) = .ok trees ∧
      parseScript (u ++ text' ++ v) = .ok trees' ∧ Tree.coreAll trees' = Tree.coreAll trees) ∧
    ∀ p, Program.ofSource (u ++ text ++ v) = .ok p →
      Program.ofSource (u ++ text' ++ v) = .ok p := by
  obtain ⟨⟨s', hskips⟩, hwhole, hne⟩ := hgap
  rw [String.toList_append] at hwhole
  have hz : Regapped (text.toList ++ v.toList) (text'.toList ++ v.toList) :=
    htext.regapped htext' hwhole (fun hnil => hne (String.toList_eq_nil_iff.mp hnil)) hblank
  have hst : Respaced (text.toList ++ v.toList) (text'.toList ++ v.toList)
      (u ++ text ++ v).toList (u ++ text' ++ v).toList := by
    have htail : (text ++ v).toList = text.toList ++ v.toList := String.toList_append
    rw [htail] at hskips
    obtain ⟨t, ht⟩ := hskips.leadsTo_script hz
    obtain ⟨before, hs, rfl⟩ := ht.exists_before
    obtain rfl : u.toList = before := by simpa using hs
    simpa using ht
  refine ⟨?_, fun p hp => ?_⟩
  · obtain ⟨core, hmatch⟩ := hskips.exists_matches
    obtain ⟨z, statements, hiterates, hend, rfl⟩ := exists_matches_script_iff.mp ⟨s', hmatch⟩
    obtain ⟨trees, hparse, hcore⟩ := Rule.parse_of_matches hmatch
    obtain ⟨t', hiterates', hend'⟩ := hiterates.respaced_statements hz hend hst
    obtain ⟨_, hmatch'⟩ := exists_matches_script_iff.mpr ⟨t', statements, hiterates', hend', rfl⟩
    obtain ⟨trees', hparse', hcore'⟩ := Rule.parse_of_matches hmatch'
    exact ⟨trees, trees', hparse, hparse', hcore'.trans hcore.symm⟩
  · obtain ⟨z, statements, hiterates, hend, -, hlower⟩ := Program.exists_statements hp
    obtain ⟨t', hiterates', hend'⟩ := hiterates.respaced_statements hz hend hst
    exact Program.ofSource_of_statements hiterates' hend' hlower

/-- The space between two empty statements is a gap. -/
theorem isGap_semicolons : IsGap ";" " " ";" where
  skips := by
    have hskip : dropTrivia [' ', ';'] = [';'] :=
      (dropTrivia_blank (by decide) _).trans (dropTrivia_cons (by decide) (by decide) _)
    have hnil : dropTrivia [] = [] := List.suffix_nil.mp (dropTrivia_suffix [])
    have hsecond : (rule .statement).Matches .skipped (dropTrivia [' ', ';']) [] [emptyNode] := by
      rw [hskip]
      exact matches_empty []
    have hstop : (rule .statement).Iterates .skipped [] [] [] := by
      refine .stop (fails_of_kind (by decide) (dropTrivia_dropTrivia _) ?_)
      rw [Spacing.skip, hnil]
      decide
    have hstatements : (many (rule .statement)).Skips .skipped (dropTrivia [';', ' ', ';']) []
        [' ', ';'] := by
      rw [dropTrivia_cons (by decide) (by decide)]
      exact .again (matches_empty _) (.between hsecond hstop)
    have hend : (rule .endOfInput).Matches .skipped (dropTrivia []) [] [endNode] :=
      hnil.symm ▸ .rule (r := .endOfInput) .finish
    exact ⟨[], .rule (.first (.second .start hstatements) hend)⟩
  whole := (dropTrivia_blank (by decide) _).trans (dropTrivia_cons (by decide) (by decide) _)
  nonempty := by decide

/-- A space between statements may become a tab and a comment. -/
theorem spacing_transparent_semicolons :
    (∃ trees trees', parseScript (";" ++ " " ++ ";") = .ok trees ∧
      parseScript (";" ++ "\t/*;*/" ++ ";") = .ok trees' ∧
        Tree.coreAll trees' = Tree.coreAll trees) ∧
    ∀ p, Program.ofSource (";" ++ " " ++ ";") = .ok p →
      Program.ofSource (";" ++ "\t/*;*/" ++ ";") = .ok p := by
  have hcomment : Inline ('/' :: '*' :: ([';'] ++ '*' :: '/' :: [])) :=
    .comment (by decide) (by decide) (by decide) .nil
  exact spacing_transparent isGap_semicolons (.blank (by decide) .nil)
    (.blank (by decide) hcomment) ⟨'\t', rfl, by decide⟩

end Scriptlet
