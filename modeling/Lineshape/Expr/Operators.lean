import Lineshape.Text.Blank

/-! # Operator tables

A table lists groups of binary operators, the loosest group first, and a set of operators that
stand in front of one operand.

* `OperatorTable.ofGroups`: a table from the texts of its groups, operators separated by blanks.
* `OperatorTable.standard`: the table of model texts and formulas.
* `precedence`: the rank of a binary operator from 1 on, 0 for any other text; an operator of two
  groups belongs to the later one.
* `groupLabel`: the first operator of a group, the name of every chain of that group.
* `isSymbol`: whether a character occurs in an operator.
-/

namespace Lineshape
set_option autoImplicit false

/-- Binary operators by group, the loosest first, and operators in front of an operand. -/
structure OperatorTable where
  /-- The groups as they were written. -/
  groups : List Text
  /-- The operators of each group. -/
  levels : List (List Text)
  /-- The operators in front of one operand, in increasing order. -/
  unary : List Text
  /-- The operators of a group are the words of its text. -/
  levels_eq : levels = groups.map Text.words
deriving DecidableEq

namespace OperatorTable

/-- The table with these groups of binary operators and these unary ones. -/
def ofGroups (groups unary : List Text) : OperatorTable where
  groups := groups
  levels := groups.map Text.words
  unary := Text.sortDistinct unary
  levels_eq := rfl

/-- The table of model texts: separators, assignment, comparison, logic and arithmetic. -/
def standard : OperatorTable :=
  ofGroups
    [";".toList, ",".toList, "=".toList, "== != > < <= >=".toList, "&& || ^^".toList,
      "+ -".toList, "* /".toList, "^".toList]
    ["+".toList, "-".toList]

variable (t : OperatorTable)

/-- Whether a text is a binary operator. -/
def isBinary (op : Text) : Bool := t.levels.any (·.contains op)

/-- Whether a text is an operator in front of an operand. -/
def isUnary (op : Text) : Bool := t.unary.contains op

/-- Whether a character occurs in an operator. -/
def isSymbol (c : Char) : Bool :=
  t.levels.any (·.any (·.contains c)) || t.unary.any (·.contains c)

/-- The rank of an operator in groups that are numbered from `first` on. -/
def rankFrom (op : Text) : Nat → List (List Text) → Nat
  | _, [] => 0
  | first, ops :: later =>
    match rankFrom op (first + 1) later with
    | 0 => if ops.contains op then first else 0
    | rank => rank

/-- The rank of a binary operator, the loosest group having rank 1, and 0 for other texts. -/
def precedence (op : Text) : Nat := rankFrom op 1 t.levels

/-- The first operator of the group of a rank. -/
def groupLabel : Nat → Option Text
  | 0 => none
  | rank + 1 => t.levels[rank]?.bind List.head?

variable {t}

theorem rankFrom_eq_zero_iff {op : Text} {first : Nat} (h : 0 < first)
    {levels : List (List Text)} :
    rankFrom op first levels = 0 ↔ ∀ ops ∈ levels, op ∉ ops := by
  induction levels generalizing first with
  | nil => simp [rankFrom]
  | cons ops later ih =>
    simp only [rankFrom]
    split
    · rename_i h0
      simp only [List.contains_eq_mem, decide_eq_true_eq]
      split
      · rename_i hm
        constructor
        · intro hf; omega
        · intro hall; exact absurd hm (hall ops (by simp))
      · rename_i hm
        simp only [List.mem_cons, forall_eq_or_imp, true_iff]
        exact ⟨hm, (ih (Nat.succ_pos _)).1 h0⟩
    · rename_i hne
      constructor
      · intro h0; exact absurd h0 hne
      · intro hall
        exact absurd ((ih (Nat.succ_pos first)).2 fun o ho => hall o (by simp [ho])) hne

/-- The binary operators are the texts of positive rank. -/
theorem precedence_pos_iff {op : Text} : 0 < t.precedence op ↔ t.isBinary op = true := by
  rw [Nat.pos_iff_ne_zero, ne_eq, precedence, rankFrom_eq_zero_iff Nat.one_pos]
  simp [isBinary]

example : standard.precedence "-".toList = 6 ∧ standard.groupLabel 6 = some "+".toList
    ∧ standard.precedence "%".toList = 0 := by decide

end OperatorTable
end Lineshape
