import Scriptlet.Proofs.Grammar.Nesting
import Scriptlet.Proofs.Program.Precedence

/-!
# Words

A word is a name unless it is one of the reserved words as a whole; what it begins with does not
matter. This is said of the rule of identifiers, with anything behind the word that does not make it
longer, and of the script that consists of the word alone, which every other rule that begins with a
word has to let pass (`ofSource_word`).

A word is given as what may be written behind the point of an access, where reserved words may stand
as well. That a word is not taken for a keyword it begins with is due to lookaheads in the grammar,
one for each keyword; the kinds of places have done away with these already, so that little remains
to be shown.
-/

namespace Scriptlet

open Peg

/-- A token that is matched at the beginning of a text is parsed to one node, with the characters
of the match and nothing inside. -/
theorem Rule.parse_token {r : Rule} (hkind : r.kind = .token) {text rest : List Char}
    {trees : List Tree} (h : (rule r).Matches .skipped (text ++ rest) rest trees) :
    r.parse (text ++ rest) = .ok [⟨r, 0, text, []⟩] := by
  have hvisible : r.visible .skipped := by rw [Rule.visible, hkind]; rfl
  obtain ⟨nodes, hparse, -⟩ := Rule.parse_of_matches h
  obtain ⟨text', rest', -, hreads⟩ := Rule.parse_reads hparse
  obtain ⟨inner, -, hnodes⟩ := reads_rule_iff.mp hreads
  rw [Rule.nodes, if_pos hvisible] at hnodes
  subst hnodes
  obtain ⟨s', hmatch, hsplit⟩ := Rule.matches_of_parse_node hvisible hparse
  obtain ⟨rfl, -⟩ := hmatch.unique h
  obtain rfl := List.append_cancel_right hsplit
  have hfits := (Rule.parse_derived hparse _ List.mem_cons_self).here
  obtain rfl : inner = [] := hfits.token_children hkind
  exact hparse

/-- What a rule does not match is not parsed. -/
theorem Rule.parse_of_fails {r : Rule} {source : List Char} (h : (rule r).Fails .skipped source) :
    ∃ e, r.parse source = .error e := by
  rcases hparse : r.parse source with e | trees
  · exact ⟨e, rfl⟩
  · obtain ⟨s', hmatch⟩ := Rule.matches_of_parse hparse
    exact absurd h hmatch.not_fails

/-- An operand is a script of its own. -/
theorem Operand.ofSource (x : Operand) :
    Program.ofSource (String.ofList x.text) = .ok [.expr x.expr] := by
  have hfollow : Follow 0 [] :=
    ⟨nofun, .finish, by decide, dropTrivia_nil.symm ▸ ⟨dropTrivia_nil, rfl⟩⟩
  have hat := x.at hfollow.bound
  have hdenotes := ((Grouping.Ordered.operand x).denotes hfollow).2
  rw [Grouping.text_operand] at hdenotes
  rw [List.append_nil] at hat
  rw [List.append_nil, dropTrivia_nil] at hdenotes
  exact Program.ofSource_expr hat hdenotes

namespace PropertyName

variable (w : PropertyName)

/-- A word that is not reserved is a name. -/
theorem isName (hw : w.name.toList ∉ reservedWords) : IsName w.name := ⟨w.head, w.chars, hw⟩

/-- A reserved word is no identifier, whatever follows it. -/
theorem fails_identifier (hw : w.name.toList ∈ reservedWords) {t : List Char}
    (ht : ∀ c ∈ t.head?, isIdentChar c = false) :
    (rule .identifier).Fails .skipped (w.name.toList ++ t) := by
  refine (fails_iff rfl (by decide)).mpr fun s' trees hmatch => ?_
  obtain ⟨-, hfree, -⟩ := matches_identifier_iff.mp hmatch
  rw [((eq_append_iff_takeWhile w.chars).mp ⟨rfl, ht⟩).1] at hfree
  exact hfree hw

/-- A name other than `undefined` is a script of its own. -/
theorem ofSource_name (hw : w.name.toList ∉ reservedWords) (hne : w.name ≠ "undefined") :
    Program.ofSource w.name = .ok [.expr (.name w.name)] := by
  have hsource := (Operand.identifier ⟨w.name, w.isName hw, hne⟩).ofSource
  rwa [Operand.text, String.ofList_toList] at hsource

/-- A word that begins with a reserved word and goes on is not reserved, and is not `undefined`. -/
theorem free_of_begins {k : List Char} (hk : k ∈ reservedWords) (hbegins : k <+: w.name.toList)
    (hne : k ≠ w.name.toList) : w.name.toList ∉ reservedWords ∧ w.name ≠ "undefined" := by
  have hfree : ∀ k ∈ reservedWords, ¬k <+: "undefined".toList ∧
      ∀ v ∈ reservedWords, k <+: v → k = v := by decide
  obtain ⟨hundefined, hwords⟩ := hfree k hk
  exact ⟨fun hw => hne (hwords _ hw hbegins), fun hw => hundefined (hw ▸ hbegins)⟩

end PropertyName

/-- **Words are told from keywords.** The script of one word is that name, as an expression, if and
only if the word is neither reserved nor `undefined`. In front of anything that does not go on
with it, a word is matched as an identifier, with all of its characters and no more, if it is not
reserved, and is no identifier if it is. In particular a word that only begins with a reserved one
is a name. -/
theorem ofSource_word (w : PropertyName) :
    (Program.ofSource w.name = .ok [.expr (.name w.name)] ↔
      w.name.toList ∉ reservedWords ∧ w.name ≠ "undefined") ∧
    (∀ t : List Char, (∀ c ∈ t.head?, isIdentChar c = false) →
      (w.name.toList ∉ reservedWords →
        Rule.identifier.parse (w.name.toList ++ t) =
          .ok [⟨.identifier, 0, w.name.toList, []⟩]) ∧
      (w.name.toList ∈ reservedWords →
        ∃ e, Rule.identifier.parse (w.name.toList ++ t) = .error e)) ∧
    ∀ k ∈ reservedWords, k <+: w.name.toList → k ≠ w.name.toList →
      Program.ofSource w.name = .ok [.expr (.name w.name)] := by
  refine ⟨⟨fun h => ?_, fun ⟨hw, hne⟩ => w.ofSource_name hw hne⟩, fun t ht => ⟨fun hw => ?_,
    fun hw => Rule.parse_of_fails (w.fails_identifier hw ht)⟩, fun k hk hbegins hne => ?_⟩
  · obtain ⟨⟨-, hname, hne⟩, -⟩ := (Program.ofSource_writable h).legible
    exact ⟨hname.free, hne⟩
  · exact Rule.parse_token rfl ((w.isName hw).matches ht)
  · obtain ⟨hw, hne⟩ := w.free_of_begins hk hbegins hne
    exact w.ofSource_name hw hne

/-- `return` goes on in `returnValue`, and ends in front of a call of it. -/
theorem ofSource_word_returnValue :
    Program.ofSource "returnValue" = .ok [.expr (.name "returnValue")] ∧
      Rule.identifier.parse ("returnValue".toList ++ "(x)".toList) =
        .ok [⟨.identifier, 0, "returnValue".toList, []⟩] ∧
      ∃ e, Rule.identifier.parse ("return".toList ++ "(x)".toList) = .error e := by
  let value : PropertyName := ⟨"returnValue", ⟨'r', rfl, by decide⟩, by decide⟩
  let word : PropertyName := ⟨"return", ⟨'r', rfl, by decide⟩, by decide⟩
  have hcall : ∀ c ∈ "(x)".toList.head?, isIdentChar c = false := by
    rintro _ ⟨⟩
    decide
  obtain ⟨-, hvalue, hbegins⟩ := ofSource_word value
  obtain ⟨-, hword, -⟩ := ofSource_word word
  exact ⟨hbegins "return".toList (by decide) (by decide) (by decide),
    (hvalue _ hcall).1 (by decide), (hword _ hcall).2 (by decide)⟩

end Scriptlet
