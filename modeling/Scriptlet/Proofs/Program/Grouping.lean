import Mathlib.Logic.ExistsUnique
import Scriptlet.Program.Basic

/-!
# Groupings of operands

Operands with operators between them can be grouped in many ways. In the one that the language
means, the operators in a left operand bind at least as tightly as the operator it belongs to, and
those in a right operand more tightly: `Grouping.Ordered`. There is always exactly one
(`Grouping.existsUnique_ordered`), and it is found by taking the operands in one by one from the
left (`Grouping.push`).

This says what precedence and associativity to the left mean without a grammar. The grammar has a
level for each precedence instead, and groups by the way in which its levels are nested; that it
comes to the same is shown elsewhere, by taking the operands in one by one as well. Operands are of
any type here.
-/

namespace Scriptlet

/-- How tightly an operator binds its operands. -/
def BinaryOp.precedence : BinaryOp → Nat
  | .looseEquals | .strictEquals => 0
  | .lessThan => 1
  | .add | .subtract => 2

/-- Operands with operators between them. -/
structure Chain (α : Type) where
  first : α
  /-- the other operands, each with the operator before it -/
  rest : List (BinaryOp × α)

/-- A way to group the operands of a chain. -/
inductive Grouping (α : Type) where
  | operand (x : α)
  | node (op : BinaryOp) (left right : Grouping α)

namespace Grouping

variable {α : Type}

/-- The operands and operators from left to right. -/
def chain : Grouping α → Chain α
  | .operand x => ⟨x, []⟩
  | .node op left right =>
    ⟨left.chain.first, left.chain.rest ++ (op, right.chain.first) :: right.chain.rest⟩

/-- The operator that is applied last, if there is one. -/
def top? : Grouping α → Option BinaryOp
  | .operand _ => none
  | .node op _ _ => some op

/-- Every operator has operators on its left that bind at least as tightly, and operators on its
right that bind more tightly. It is enough to say so of the operators applied last on either
side. -/
inductive Ordered : Grouping α → Prop
  | operand (x : α) : Ordered (.operand x)
  | node {op : BinaryOp} {left right : Grouping α} (hleft : Ordered left) (hright : Ordered right)
    (hle : ∀ o ∈ left.top?, op.precedence ≤ o.precedence)
    (hlt : ∀ o ∈ right.top?, op.precedence < o.precedence) : Ordered (.node op left right)

/-- The grouping with one more operand. It goes below every operator on the right that binds
less tightly than its own. -/
def push (op : BinaryOp) (y : α) : Grouping α → Grouping α
  | .operand x => .node op (.operand x) (.operand y)
  | .node o left right =>
    if op.precedence ≤ o.precedence then .node op (.node o left right) (.operand y)
    else .node o left (push op y right)

/-- The grouping with more operands. -/
def pushAll (T : Grouping α) (more : List (BinaryOp × α)) : Grouping α :=
  more.foldl (fun T step => T.push step.1 step.2) T

variable {T left right : Grouping α} {op o : BinaryOp} {y : α} {more : List (BinaryOp × α)}

/-! ## One more operand

Taking in one more operand keeps the order, and adds the operand at the end of the chain.
-/

/-- The chain becomes longer by one. -/
theorem chain_push : (T.push op y).chain = ⟨T.chain.first, T.chain.rest ++ [(op, y)]⟩ := by
  induction T with
  | operand x => rfl
  | node o left right _ ih =>
    rw [push]
    split
    · rfl
    · simp [chain, ih]

/-- An operator that binds no more tightly than any before it takes the whole grouping as its left
operand. -/
theorem push_of_le (h : ∀ o ∈ T.top?, op.precedence ≤ o.precedence) :
    T.push op y = .node op T (.operand y) := by
  cases T with
  | operand x => rfl
  | node o left right => rw [push, if_pos (h o rfl)]

/-- An operator that binds more tightly than the last one goes into the right operand of that
one. -/
theorem push_of_lt (h : op.precedence < o.precedence) :
    (Grouping.node op left right).push o y = .node op left (right.push o y) := by
  rw [push, if_neg (Nat.not_le.mpr h)]

/-- What is applied last is the new operator or what was, so a bound on both is one on it. -/
theorem top?_push {k : Nat} (hk : k < op.precedence) (h : ∀ o ∈ T.top?, k < o.precedence) :
    ∀ o ∈ (T.push op y).top?, k < o.precedence := by
  cases T with
  | operand x =>
    rintro _ ⟨⟩
    exact hk
  | node o left right =>
    rw [push]
    split
    · rintro _ ⟨⟩
      exact hk
    · exact h

theorem Ordered.push (h : T.Ordered) (op : BinaryOp) (y : α) : (T.push op y).Ordered := by
  induction h with
  | operand x => exact .node (.operand x) (.operand y) nofun nofun
  | @node o left right hleft hright hle hlt _ ih =>
    by_cases hop : op.precedence ≤ o.precedence
    · rw [push_of_le (by rintro _ ⟨⟩; exact hop)]
      refine .node (.node hleft hright hle hlt) (.operand y) ?_ nofun
      rintro _ ⟨⟩
      exact hop
    · have hop := Nat.not_le.mp hop
      rw [push_of_lt hop]
      exact .node hleft ih hle (top?_push hop hlt)

/-! ## All of the operands

Taking in all operands from the left gives an ordered grouping of the chain, and every ordered
grouping is of this form.
-/

theorem chain_pushAll : (T.pushAll more).chain = ⟨T.chain.first, T.chain.rest ++ more⟩ := by
  induction more generalizing T with
  | nil => rw [List.append_nil]; rfl
  | cons step more ih =>
    rw [pushAll, List.foldl_cons]
    refine ih.trans ?_
    rw [chain_push, List.append_assoc, List.singleton_append]

/-- Taking in more operands keeps a grouping ordered, whatever their operators. -/
theorem Ordered.pushAll (h : T.Ordered) : (T.pushAll more).Ordered := by
  induction more generalizing T with
  | nil => exact h
  | cons step more ih => exact ih (h.push step.1 step.2)

/-- Operands go below an operator if all of their own bind more tightly. So what is taken in behind
an operator is its right operand. -/
theorem pushAll_of_lt (h : ∀ step ∈ more, op.precedence < step.1.precedence) :
    (Grouping.node op left right).pushAll more = .node op left (right.pushAll more) := by
  induction more generalizing right with
  | nil => rfl
  | cons step more ih =>
    rw [List.forall_mem_cons] at h
    rw [pushAll, List.foldl_cons, push_of_lt h.1]
    exact ih h.2

/-- All operators bind as tightly as the one that is applied last. -/
theorem Ordered.le_of_mem {k : Nat} (h : T.Ordered) (hk : ∀ o ∈ T.top?, k ≤ o.precedence) :
    ∀ step ∈ T.chain.rest, k ≤ step.1.precedence := by
  induction h with
  | operand x => nofun
  | @node op left right _ _ hle hlt ihleft ihright =>
    have hop := hk op rfl
    intro step hstep
    rcases List.mem_append.mp hstep with hstep | hstep
    · exact ihleft (fun o ho => Nat.le_trans hop (hle o ho)) step hstep
    · rcases List.mem_cons.mp hstep with rfl | hstep
      · exact hop
      · exact ihright (fun o ho => Nat.le_trans hop (Nat.le_of_lt (hlt o ho))) step hstep

/-- **An ordered grouping is what its operands are grouped to** when they are taken in one by
one. -/
theorem Ordered.pushAll_chain (h : T.Ordered) :
    (Grouping.operand T.chain.first).pushAll T.chain.rest = T := by
  induction h with
  | operand x => rfl
  | @node op left right hleft hright hle hlt ihleft ihright =>
    have hbelow := hright.le_of_mem hlt
    calc (Grouping.operand left.chain.first).pushAll
          (left.chain.rest ++ (op, right.chain.first) :: right.chain.rest)
        = (((Grouping.operand left.chain.first).pushAll left.chain.rest).push op
            right.chain.first).pushAll right.chain.rest := by simp [Grouping.pushAll]
      _ = (Grouping.node op left (.operand right.chain.first)).pushAll right.chain.rest := by
        rw [ihleft, push_of_le hle]
      _ = .node op left right := by rw [pushAll_of_lt hbelow, ihright]

/-- **There is exactly one ordered grouping of a chain.** It exists as the operands can be taken in,
and is unique as it is what they are grouped to. -/
theorem existsUnique_ordered (c : Chain α) : ∃! T : Grouping α, T.Ordered ∧ T.chain = c := by
  refine ⟨(Grouping.operand c.first).pushAll c.rest, ⟨(Ordered.operand _).pushAll, ?_⟩, ?_⟩
  · exact chain_pushAll
  · rintro T ⟨hT, rfl⟩
    exact hT.pushAll_chain.symm

end Grouping

end Scriptlet
