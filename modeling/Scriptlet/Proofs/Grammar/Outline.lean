import Scriptlet.Proofs.Grammar.Nesting
import Scriptlet.Proofs.Number.Written
import Scriptlet.Proofs.Text.Quoted

/-!
# Outlines lose nothing

The outline of a tree has a line for each node, in which the depth of the node is an indentation and
its text is quoted. A line gives back its node but for the children (`readLine_outlineLine`), and
the depths give back the children: behind the line of a node stand its descendants, up to the next
line that is not indented further (`Tree.foldr_preorder`). So a forest is read back from its outline
alone (`readOutline_outline`).

Reading back is defined here for the proof; no part of the program does it. It goes in the opposite
order of writing. Lines are told apart first, since a quoted text has no line break in it. Then each
line is read: the indentation, the name of the rule up to the first blank, the number behind the
parenthesis, and the text between the quotes. The trees are put together last, from the end of the
outline to its beginning.

That nothing is lost rests on facts about the parts: rules have distinct names without blanks,
numbers can be read back from their digits, and quoted texts can be unquoted (`unquote_quoted`).
-/

namespace Scriptlet

namespace Rule

/-- Rules have distinct names, so a rule can be found by its name. -/
theorem ofName_name (r : Rule) : ofName? r.name = some r := by
  have h : ∀ r ∈ all, ofName? r.name = some r := by decide +kernel
  exact h r r.mem_all

/-- The name of a rule is a word: it is not empty, and has neither blanks nor line breaks in it. -/
theorem exists_name_eq (r : Rule) : ∃ word : List Char,
    r.name = String.ofList word ∧ word ≠ [] ∧ word.all fun c => c ≠ ' ' ∧ c ≠ '\n' := by
  cases r
  all_goals exact ⟨_, rfl, by decide, by decide⟩

theorem name_ne_nil (r : Rule) : r.name.toList ≠ [] := by
  obtain ⟨word, hname, hne, -⟩ := r.exists_name_eq
  rwa [hname, String.toList_ofList]

/-- The name of a rule has no blank in it, so a reader of an outline knows where it ends. -/
theorem name_chars (r : Rule) : ∀ c ∈ r.name.toList, c ≠ ' ' ∧ c ≠ '\n' := by
  obtain ⟨word, hname, -, hchars⟩ := r.exists_name_eq
  rw [hname, String.toList_ofList]
  simpa using hchars

end Rule

/-! ## Lines

A line has five parts, and each of them ends where a character stands that it does not have.
-/

namespace Tree

/-- The span of a node as it stands in its line. -/
def spanText (t : Tree) : List Char :=
  Nat.toDigits 10 t.start ++ ',' :: Nat.toDigits 10 t.stop

/-- A span is written with digits and a comma only, so what stands behind it ends it. -/
theorem isDigit_of_mem_spanText {t : Tree} {c : Char} (h : c ∈ t.spanText) :
    c.isDigit ∨ c = ',' := by
  rw [spanText, List.mem_append, List.mem_cons] at h
  rcases h with h | rfl | h
  · exact .inl (Nat.isDigit_of_mem_toDigits (by decide) (by decide) h)
  · exact .inr rfl
  · exact .inl (Nat.isDigit_of_mem_toDigits (by decide) (by decide) h)

/-- The line of a node is put together from the indentation, the rule, the span and the text, in the
order in which a reader takes them off again. -/
theorem outlineLine_eq (depth : Nat) (t : Tree) :
    t.outlineLine depth = List.replicate (2 * depth) ' ' ++ (t.rule.name.toList ++ (" => (".toList
      ++ (t.spanText ++ ") #".toList ++ quoted t.text))) := by
  simp [outlineLine, spanText]

/-- The line of a node is one line, whatever its text: line breaks are escaped in quotes. -/
theorem newline_not_mem_outlineLine (depth : Nat) (t : Tree) : '\n' ∉ t.outlineLine depth := by
  rw [outlineLine_eq]
  simp only [List.mem_append, not_or]
  refine ⟨by simp, fun h => ?_, by decide, ⟨fun h => ?_, by decide⟩, newline_not_mem_quoted t.text⟩
  · exact (t.rule.name_chars _ h).2 rfl
  · simpa using isDigit_of_mem_spanText h

end Tree

/-- Reads on behind the rule of a line: where its node starts, and the text of the node. -/
def readSpan (s : List Char) : Option (Nat × List Char) := do
  let text ← unquote (s.dropWhile (· ≠ '"'))
  return (digitsValue (s.takeWhile Char.isDigit), text)

/-- Reads on behind the indentation of a line: its node but for the children. -/
def readNode (s : List Char) : Option Tree := do
  let rule ← Rule.ofName? (String.ofList (s.takeWhile (· ≠ ' ')))
  let (start, text) ← readSpan ((s.dropWhile (· ≠ ' ')).drop " => (".toList.length)
  return ⟨rule, start, text, []⟩

/-- Reads a line: its depth, and its node but for the children. -/
def readLine (s : List Char) : Option (Nat × Tree) := do
  let node ← readNode (s.dropWhile (· = ' '))
  return ((s.takeWhile (· = ' ')).length / 2, node)

/-- The span and the text are read back. Where the node stops is not read, since it is known from
the text. -/
theorem readSpan_append (t : Tree) :
    readSpan (t.spanText ++ ") #".toList ++ quoted t.text) = some (t.start, t.text) := by
  have hdigits : ∀ c ∈ Nat.toDigits 10 t.start, c.isDigit := fun c hc =>
    Nat.isDigit_of_mem_toDigits (by decide) (by decide) hc
  obtain ⟨hstart, -⟩ := takeWhile_dropWhile_append hdigits
    (r := ',' :: Nat.toDigits 10 t.stop ++ (") #".toList ++ quoted t.text)) (by simp)
  have hvalue : digitsValue (Nat.toDigits 10 t.start) = t.start := Nat.ofDigitChars_ten_toDigits
  -- no quote stands in front of the text
  have hspan : ∀ c ∈ t.spanText, c ≠ '"' := by
    rintro c hc rfl
    simpa using Tree.isDigit_of_mem_spanText hc
  have hfront : ∀ c ∈ t.spanText ++ ") #".toList, decide (c ≠ '"') :=
    List.forall_mem_append.mpr ⟨by simpa using hspan, by simp⟩
  obtain ⟨-, htext⟩ := takeWhile_dropWhile_append hfront (r := quoted t.text) (by simp [quoted])
  rw [readSpan, htext, unquote_quoted, Tree.spanText, List.append_assoc, List.append_assoc, hstart,
    hvalue]
  rfl

/-- The node is read back without its children: its rule up to the blank, its span up to the
parenthesis and its text out of the quotes. -/
theorem readNode_append (t : Tree) :
    readNode (t.rule.name.toList ++ (" => (".toList
      ++ (t.spanText ++ ") #".toList ++ quoted t.text))) = some { t with children := [] } := by
  have hname : ∀ c ∈ t.rule.name.toList, decide (c ≠ ' ') := fun c hc =>
    decide_eq_true (t.rule.name_chars c hc).1
  obtain ⟨hrule, hrest⟩ := takeWhile_dropWhile_append hname
    (r := " => (".toList ++ (t.spanText ++ ") #".toList ++ quoted t.text)) (by simp)
  rw [readNode, hrule, hrest, String.ofList_toList, Rule.ofName_name, List.drop_left,
    readSpan_append]
  rfl

/-- **A line gives back its node but for the children**, together with its depth. The children are
on the lines below it, which are indented further. -/
theorem readLine_outlineLine (depth : Nat) (t : Tree) :
    readLine (t.outlineLine depth) = some (depth, { t with children := [] }) := by
  have hblanks : ∀ c ∈ List.replicate (2 * depth) ' ', decide (c = ' ') := by simp
  obtain ⟨hindent, hnode⟩ := takeWhile_dropWhile_append hblanks
    (r := t.rule.name.toList ++ (" => (".toList ++ (t.spanText ++ ") #".toList ++ quoted t.text)))
    (by
      intro c hc
      rw [List.head?_append_of_ne_nil _ t.rule.name_ne_nil] at hc
      exact decide_eq_false (t.rule.name_chars c (List.mem_of_mem_head? hc)).1)
  rw [Tree.outlineLine_eq, readLine, hindent, hnode, readNode_append, List.length_replicate,
    Nat.mul_div_cancel_left depth (by decide)]
  rfl

/-! ## Depths

Lines are put together to trees from the last to the first. At each point there is a forest, whose
trees have their depths; a line takes all trees from the front of the forest that are deeper.
-/

/-- Puts a node in front of what is made of the lines behind it: the trees that stand deeper, up
to the first that does not, become its children. -/
def attach (entry : Nat × Tree) (forest : List (Nat × Tree)) : List (Nat × Tree) :=
  (entry.1, { entry.2 with children := (forest.takeWhile (entry.1 < ·.1)).map Prod.snd })
    :: forest.dropWhile (entry.1 < ·.1)

namespace Tree

mutual

/-- **A tree is put together from its nodes in preorder**, in front of whatever does not stand
deeper than it. The condition keeps the forest behind the tree from becoming part of it. -/
theorem foldr_preorder (depth : Nat) (t : Tree) {forest : List (Nat × Tree)}
    (h : ∀ entry ∈ forest.head?, entry.1 ≤ depth) :
    (t.preorder depth).foldr attach forest = (depth, t) :: forest := by
  obtain ⟨rule, start, text, children⟩ := t
  have hbelow : ∀ entry ∈ children.map (depth + 1, ·), decide (depth < entry.1) := by simp
  obtain ⟨hchildren, hrest⟩ := takeWhile_dropWhile_append hbelow (r := forest) (by simpa using h)
  rw [preorder, List.foldr_cons,
    foldr_preorderAll (depth + 1) children fun entry hentry => Nat.le_succ_of_le (h entry hentry),
    attach, hchildren, hrest, List.map_map]
  exact congrArg (fun children => (depth, ⟨rule, start, text, children⟩) :: forest)
    (List.map_id children)

theorem foldr_preorderAll (depth : Nat) (ts : List Tree) {forest : List (Nat × Tree)}
    (h : ∀ entry ∈ forest.head?, entry.1 ≤ depth) :
    (preorderAll depth ts).foldr attach forest = ts.map (depth, ·) ++ forest := by
  cases ts with
  | nil => rfl
  | cons t ts =>
    -- behind the first tree stands the next one, which is as deep, or the forest
    have hnext : ∀ entry ∈ (ts.map (depth, ·) ++ forest).head?, entry.1 ≤ depth := by
      cases ts with
      | nil => exact h
      | cons u ts => simp
    rw [preorderAll, List.foldr_append, foldr_preorderAll depth ts h, foldr_preorder depth t hnext]
    rfl

end

mutual

/-- The number of nodes of a tree. -/
def size : Tree → Nat
  | ⟨_, _, _, children⟩ => sizeAll children + 1

/-- The number of nodes of several trees. -/
def sizeAll : List Tree → Nat
  | [] => 0
  | t :: ts => size t + sizeAll ts

end

mutual

/-- A preorder has as many entries as there are nodes. -/
theorem length_preorder (depth : Nat) (t : Tree) : (t.preorder depth).length = t.size := by
  obtain ⟨rule, start, text, children⟩ := t
  rw [preorder, List.length_cons, length_preorderAll, size]

theorem length_preorderAll (depth : Nat) (ts : List Tree) :
    (preorderAll depth ts).length = sizeAll ts := by
  cases ts with
  | nil => rfl
  | cons t ts => rw [preorderAll, List.length_append, length_preorder, length_preorderAll, sizeAll]

end

mutual

/-- A tree that stands deeper has the same nodes, all of them deeper. -/
theorem preorder_succ (depth : Nat) (t : Tree) :
    t.preorder (depth + 1) = (t.preorder depth).map (Prod.map Nat.succ id) := by
  obtain ⟨rule, start, text, children⟩ := t
  rw [preorder, preorder, List.map_cons, preorderAll_succ]
  rfl

/-- Trees that stand deeper have the same nodes, all of them deeper. -/
theorem preorderAll_succ (depth : Nat) (ts : List Tree) :
    preorderAll (depth + 1) ts = (preorderAll depth ts).map (Prod.map Nat.succ id) := by
  cases ts with
  | nil => rfl
  | cons t ts => rw [preorderAll, preorderAll, List.map_append, preorder_succ, preorderAll_succ]

end

end Tree

/-! ## Outlines

The outline of a forest is a line for each of its nodes; the printed text has these lines one after
the other.
-/

theorem flatMap_outline (trees : List Tree) :
    trees.flatMap Tree.outline = (Tree.preorderAll 0 trees).map fun entry =>
      entry.2.outlineLine entry.1 := by
  induction trees with
  | nil => rfl
  | cons t trees ih => rw [List.flatMap_cons, ih, Tree.preorderAll, List.map_append, Tree.outline]

/-- A line that stands deeper is indented further. -/
theorem Tree.outlineLine_succ (depth : Nat) (t : Tree) :
    t.outlineLine (depth + 1) = ' ' :: ' ' :: t.outlineLine depth := by
  rw [outlineLine_eq, outlineLine_eq, Nat.mul_succ, List.replicate_succ, List.replicate_succ]
  rfl

/-- Below the line of a tree stand the outlines of its children, indented. -/
theorem Tree.outline_eq (t : Tree) :
    t.outline = t.outlineLine 0 :: (t.children.flatMap outline).map (' ' :: ' ' :: ·) := by
  obtain ⟨rule, start, text, children⟩ := t
  rw [outline, preorder, List.map_cons, preorderAll_succ, flatMap_outline, List.map_map,
    List.map_map]
  refine congrArg (_ :: ·) (List.map_congr_left fun entry _ => ?_)
  exact entry.2.outlineLine_succ entry.1

/-- Reads the outlines of several trees. -/
def readOutline (lines : List (List Char)) : Option (List Tree) := do
  let entries ← lines.mapM readLine
  return (entries.foldr attach []).map Prod.snd

/-- **Outlines give back their trees.** There is no assumption on the trees, which need not come
from a parse. -/
theorem readOutline_outline (trees : List Tree) :
    readOutline (trees.flatMap Tree.outline) = some trees := by
  have hlines : (trees.flatMap Tree.outline).mapM readLine =
      some ((Tree.preorderAll 0 trees).map fun entry =>
        (entry.1, { entry.2 with children := [] })) := by
    rw [flatMap_outline, List.mapM_map]
    simp only [Function.comp_def, readLine_outlineLine]
    exact List.mapM_pure
  -- what a node is put in front of does not depend on the children it had
  have hforest : ((Tree.preorderAll 0 trees).map fun entry =>
      (entry.1, { entry.2 with children := [] })).foldr attach [] = trees.map (0, ·) ++ [] := by
    rw [List.foldr_map]
    exact Tree.foldr_preorderAll 0 trees (by simp)
  rw [readOutline, hlines, Option.bind_eq_bind, Option.bind_some, hforest, List.append_nil,
    List.map_map]
  exact congrArg some (List.map_id trees)

/-- No line of an outline has a line break in it. -/
theorem Tree.newline_not_mem_outline {t : Tree} {line : List Char} (h : line ∈ t.outline) :
    '\n' ∉ line := by
  obtain ⟨entry, -, rfl⟩ := List.mem_map.mp h
  exact entry.2.newline_not_mem_outlineLine entry.1

/-- A text of outlines is split into them at the ends of its lines. -/
theorem splitOn_outlineText {trees : List Tree} (h : trees ≠ []) :
    (outlineText trees).toList.splitOn '\n' = trees.flatMap Tree.outline := by
  have hne : trees.flatMap Tree.outline ≠ [] := by
    obtain ⟨t, trees, rfl⟩ := List.exists_cons_of_ne_nil h
    rw [List.flatMap_cons, t.outline_eq]
    exact List.cons_ne_nil _ _
  have hlines : ∀ line ∈ trees.flatMap Tree.outline, '\n' ∉ line := by
    intro line hline
    obtain ⟨t, -, hline⟩ := List.mem_flatMap.mp hline
    exact t.newline_not_mem_outline hline
  rw [outlineText, String.toList_ofList]
  exact List.splitOn_intercalate '\n' hlines hne

/-- **An outline loses nothing.** It has one line for each node of its tree, and the line of the
root stands above the outlines of the children, in order and indented. No two trees have the same
outline, whatever their texts hold. And the text printed for an accepted source gives back its
parse tree: split into lines, it is read without the grammar. -/
theorem outline_lossless :
    (∀ t : Tree, t.outline.length = t.size ∧ (∀ line ∈ t.outline, '\n' ∉ line) ∧
      t.outline = t.outlineLine 0 :: (t.children.flatMap Tree.outline).map (' ' :: ' ' :: ·)) ∧
    Function.Injective Tree.outline ∧
    ∀ (source : String) (trees : List Tree), parseScript source = .ok trees →
      readOutline ((outlineText trees).toList.splitOn '\n') = some trees := by
  refine ⟨fun t => ⟨?_, fun line => t.newline_not_mem_outline, t.outline_eq⟩, fun t u h => ?_,
    fun source trees h => ?_⟩
  · rw [Tree.outline, List.length_map, Tree.length_preorder]
  · have ht := readOutline_outline [t]
    have hu := readOutline_outline [u]
    rw [List.flatMap_singleton] at ht hu
    rw [h, hu] at ht
    exact (List.singleton_inj.mp (Option.some.inj ht)).symm
  · obtain ⟨t, rfl, -⟩ := parseScript_text h
    rw [splitOn_outlineText (List.cons_ne_nil _ _), readOutline_outline]

/-- The outline of a source whose comment has a line end, a quote, the signs of an outline and a
character of several bytes. -/
theorem outline_lossless_comment :
    ∃ trees, parseScript "a/*\n\"#=>é*/" = .ok trees ∧
      readOutline ((outlineText trees).toList.splitOn '\n') = some trees := by
  obtain ⟨trees, htrees⟩ : ∃ trees, parseScript "a/*\n\"#=>é*/" = .ok trees :=
    exists_ok (by decide +kernel)
  exact ⟨trees, htrees, outline_lossless.2.2 _ trees htrees⟩

end Scriptlet
