import Lineshape.Expr.Operators
import Lineshape.Text.Numeral

/-! # Expression trees

A node has a name and terms, and remembers the operator that joins it to the term before it. The
same type serves for formulas, for lists and for whole model texts; a `Form` tells them apart.

* `Expr.empty`: the leaf that stands for blank text.
* `isLeaf`, `isEmptyMarker`, `isChain`, `isPrefixed`, `isCall`: the kinds of nodes. Which name is
  an operator depends on the table that the tree was parsed with.
* `bracketsRemoved`: the node below redundant bracket groups.
* `toList`: the terms of a chain, or the node alone.
* `variableNames`: the identifiers among the leaves; `renameAll` renames leaves.
* `outline`: the tree with one node a line.
-/

namespace Lineshape
set_option autoImplicit false

/-- A node of an expression: its name, the operator before it, and its terms. -/
structure Expr where
  /-- The text of a leaf, the label of a chain, a unary operator or the head of a call. -/
  name : Text
  /-- The operator that joins the node to the term before it, empty for a first term. -/
  op : Text
  /-- The operands, items or arguments. -/
  terms : List Expr

/-- What a node is in a model text, seen from its name. -/
inductive Form where
  /-- Members separated by semicolons. -/
  | sequence
  /-- Items separated by commas. -/
  | list
  /-- A key and its value. -/
  | assign
  /-- Brackets around one term. -/
  | group
  /-- A node without terms. -/
  | leaf
  /-- Any other node. -/
  | other
deriving DecidableEq

namespace Expr

/-! ## Induction and equality -/

/-- A property that goes from the terms of every node to the node holds of all trees. -/
@[induction_eliminator]
theorem induct {motive : Expr → Prop}
    (node : ∀ name op terms, (∀ t ∈ terms, motive t) → motive ⟨name, op, terms⟩) (e : Expr) :
    motive e :=
  Expr.rec (motive_1 := motive) (motive_2 := fun ts => ∀ t ∈ ts, motive t) node
    (by simp) (fun _ _ h hs => by simpa using ⟨h, hs⟩) e

mutual
/-- Trees are compared node by node. -/
def decEq : (a b : Expr) → Decidable (a = b)
  | ⟨n, o, ts⟩, ⟨n', o', ts'⟩ =>
    if hn : n = n' then
      if ho : o = o' then
        match decEqList ts ts' with
        | .isTrue h => .isTrue (by rw [hn, ho, h])
        | .isFalse h => .isFalse (by simp [h])
      else .isFalse (by simp [ho])
    else .isFalse (by simp [hn])
/-- Lists of trees are compared item by item. -/
def decEqList : (a b : List Expr) → Decidable (a = b)
  | [], [] => .isTrue rfl
  | [], _ :: _ => .isFalse (by simp)
  | _ :: _, [] => .isFalse (by simp)
  | a :: as, b :: bs =>
    match decEq a b with
    | .isTrue h =>
      match decEqList as bs with
      | .isTrue hs => .isTrue (by rw [h, hs])
      | .isFalse hs => .isFalse (by simp [hs])
    | .isFalse h => .isFalse (by simp [h])
end

instance : DecidableEq Expr := decEq

/-! ## Kinds of nodes -/

/-- The name of the leaf that stands for blank text. -/
def emptyName : Text := "EMPTY".toList

/-- The leaf that stands for blank text. -/
def empty : Expr := ⟨emptyName, [], []⟩

/-- A node without terms. -/
def isLeaf (e : Expr) : Bool := e.terms.isEmpty

/-- A leaf that stands for blank text. -/
def isEmptyMarker (e : Expr) : Bool := e.isLeaf && e.name = emptyName

/-- Terms joined by a binary operator. -/
def isChain (t : OperatorTable) (e : Expr) : Bool := 1 < e.terms.length && t.isBinary e.name

/-- An operator in front of its one operand. -/
def isPrefixed (t : OperatorTable) (e : Expr) : Bool :=
  e.terms.length = 1 && t.isUnary e.name

/-- A call or a bracket group. -/
def isCall (t : OperatorTable) (e : Expr) : Bool :=
  !e.isLeaf && !e.isChain t && !e.isPrefixed t

/-- What a node is in a model text. -/
def form (e : Expr) : Form :=
  if e.isLeaf then .leaf
  else if e.name = ";".toList then .sequence
  else if e.name = ",".toList then .list
  else if e.name = "=".toList then .assign
  else if e.name = [] ∧ e.terms.length = 1 then .group
  else .other

/-! ## Views -/

/-- The node below any redundant bracket groups. -/
def bracketsRemoved : Expr → Expr
  | ⟨[], _, [t]⟩ => t.bracketsRemoved
  | e => e

/-- How strongly a node binds its operands when it is written in a chain: the rank of its operator
for a chain, 0 for all else. A bracket group binds like its content. -/
def binding (t : OperatorTable) (e : Expr) : Nat :=
  let inner := e.bracketsRemoved
  if inner.isLeaf || inner.isPrefixed t then 0 else t.precedence inner.name

/-- The terms of a chain named by `separator`; any other node is a list of itself. -/
def toList (separator : Text) (e : Expr) : List Expr :=
  if e.name = separator ∧ !e.isLeaf then e.terms else [e]

/-- The node at an address, a list of positions from the root. -/
def subtreeAt : List Nat → Expr → Option Expr
  | [], e => some e
  | i :: path, e => e.terms[i]?.bind (subtreeAt path)

/-! ## Identifiers -/

/-- Whether a leaf of this name is an identifier: neither a number, a quoted string, a call
without arguments nor the empty leaf. -/
def isIdentifier (name : Text) : Bool :=
  name ≠ emptyName &&
    (match name with
      | [] => false
      | c :: _ => Text.isLetter c || c == '_') &&
    !name.contains '(' && !name.contains '"'

mutual
/-- The identifiers among the leaves, in the order of the text. -/
def identifiers : Expr → List Text
  | ⟨name, _, []⟩ => if isIdentifier name then [name] else []
  | ⟨_, _, t :: ts⟩ => t.identifiers ++ identifiersOf ts
/-- The identifiers of several trees. -/
def identifiersOf : List Expr → List Text
  | [] => []
  | t :: ts => t.identifiers ++ identifiersOf ts
end

/-- The identifiers among the leaves, in increasing order and each once. -/
def variableNames (e : Expr) : List Text := Text.sortDistinct e.identifiers

mutual
/-- The tree with every leaf of one name renamed. -/
def renameAll (old new : Text) : Expr → Expr
  | ⟨name, op, []⟩ => ⟨if name = old then new else name, op, []⟩
  | ⟨name, op, t :: ts⟩ => ⟨name, op, t.renameAll old new :: renameAllOf old new ts⟩
/-- The trees with every leaf of one name renamed. -/
def renameAllOf (old new : Text) : List Expr → List Expr
  | [] => []
  | t :: ts => t.renameAll old new :: renameAllOf old new ts
end

theorem identifiersOf_eq_flatMap (ts : List Expr) :
    identifiersOf ts = ts.flatMap identifiers := by
  induction ts with
  | nil => rfl
  | cons t ts ih => simp [identifiersOf, ih]

theorem renameAllOf_eq_map (old new : Text) (ts : List Expr) :
    renameAllOf old new ts = ts.map (renameAll old new) := by
  induction ts with
  | nil => rfl
  | cons t ts ih => simp [renameAllOf, ih]

/-! ## Outline -/

mutual
/-- The tree with one node a line, two blanks a level: the operator before a node, then its name,
in square brackets unless it is a leaf. -/
def outlineAt (depth : Nat) : Expr → Text
  | ⟨name, op, terms⟩ =>
    List.replicate (2 * depth) ' ' ++ (if op = [] then [] else op ++ [' ']) ++
      (if terms.isEmpty then name else '[' :: name ++ [']']) ++ ['\n'] ++
      outlineOf (depth + 1) terms
/-- The outlines of several trees. -/
def outlineOf (depth : Nat) : List Expr → Text
  | [] => []
  | t :: ts => t.outlineAt depth ++ outlineOf depth ts
end

/-- The tree with one node a line. -/
def outline (e : Expr) : Text := e.outlineAt 0

end Expr
end Lineshape
