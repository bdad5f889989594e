import Lineshape.Expr.Lexeme
import Lineshape.Expr.Basic

/-! # Parsing expressions

A text is parsed level by level. On each level the loosest operators split the text into terms,
which are the next level; a text without operators is an operand behind a unary operator, a call, a
bracket group or a leaf. The number of levels is limited, and the limit is what the recursion runs
on.

* `Expr.Term`: what a text without operators is.
* `Expr.parse`: the tree of a text.
-/

namespace Lineshape
set_option autoImplicit false

/-- The default limit on nesting. -/
def defaultDepth : Nat := 256

/-! ## Brackets -/

/-- The content of brackets that enclose a text, if no other opening bracket is in it. -/
def stripBrackets (s : Text) : Text :=
  match s with
  | '(' :: inner =>
    if inner.getLast? = some ')' ∧ '(' ∉ inner then Text.trim inner.dropLast else s
  | _ => s

/-- A text with its first unquoted opening bracket: the text before it and the text behind it. -/
def splitAtOpening (quoted : Bool) : Text → Option (Text × Text)
  | [] => none
  | c :: rest =>
    if c = '(' && !quoted then some ([], rest)
    else (splitAtOpening (if c = '"' then !quoted else quoted) rest).map fun (head, behind) =>
      (c :: head, behind)

/-- The text up to the partner of the bracket that `depth` more brackets are open in, and the text
behind it. -/
def splitAtClosing (depth : Nat) (quoted : Bool) : Text → Option (Text × Text)
  | [] => none
  | c :: rest =>
    if c = ')' && !quoted then
      match depth with
      | 0 => some ([], rest)
      | depth + 1 => (splitAtClosing depth quoted rest).map fun (inside, behind) =>
        (c :: inside, behind)
    else
      let depth := if c = '(' && !quoted then depth + 1 else depth
      (splitAtClosing depth (if c = '"' then !quoted else quoted) rest).map
        fun (inside, behind) => (c :: inside, behind)

/-- Cutting at the opening bracket loses nothing. -/
theorem eq_of_splitAtOpening {quoted : Bool} {s head behind : Text}
    (h : splitAtOpening quoted s = some (head, behind)) : s = head ++ '(' :: behind := by
  induction s generalizing quoted head with
  | nil => simp [splitAtOpening] at h
  | cons c rest ih =>
    simp only [splitAtOpening] at h
    split at h
    · rename_i hc; simp only [Bool.and_eq_true, decide_eq_true_eq] at hc; simp_all
    · obtain ⟨⟨head', behind'⟩, hs, he⟩ := Option.map_eq_some_iff.1 h
      cases he
      simp [ih hs]

/-- Cutting at the closing bracket loses nothing. -/
theorem eq_of_splitAtClosing {depth : Nat} {quoted : Bool} {s inside behind : Text}
    (h : splitAtClosing depth quoted s = some (inside, behind)) :
    s = inside ++ ')' :: behind := by
  induction s generalizing depth quoted inside with
  | nil => simp [splitAtClosing] at h
  | cons c rest ih =>
    simp only [splitAtClosing] at h
    split at h
    · rename_i hc
      simp only [Bool.and_eq_true, decide_eq_true_eq] at hc
      split at h
      · simp_all
      · obtain ⟨⟨inside', behind'⟩, hs, he⟩ := Option.map_eq_some_iff.1 h
        cases he
        simp [ih hs]
    · obtain ⟨⟨inside', behind'⟩, hs, he⟩ := Option.map_eq_some_iff.1 h
      cases he
      simp [ih hs]

/-! ## Unary operators -/

/-- The unary operator in front of a text and the text behind it. An operator of two characters
needs an operand behind it, and so does one of a single character. -/
def OperatorTable.leading? (t : OperatorTable) : Text → Option (Text × Text)
  | a :: b :: c :: rest =>
    if t.isSymbol a && t.isSymbol b && t.isUnary [a, b] then some ([a, b], c :: rest)
    else if t.isUnary [a] then some ([a], b :: c :: rest)
    else none
  | [a, b] => if t.isUnary [a] then some ([a], [b]) else none
  | _ => none

namespace Expr

/-! ## Levels -/

/-- What a text without binary operators is. -/
inductive Term where
  /-- A leaf with its name. -/
  | leaf (name : Text)
  /-- An operand behind a unary operator. -/
  | prefixed (op operand : Text)
  /-- Arguments behind a head, which is empty for a bracket group. -/
  | call (head arguments : Text)

/-- Tell apart the texts without binary operators. -/
def Term.ofText (t : OperatorTable) (s : Text) : Except ParseError Term :=
  match t.leading? s with
  | some (op, operand) => .ok (.prefixed op operand)
  | none =>
    if s.isEmpty then .ok (.leaf emptyName)
    else match splitAtOpening false s with
      | none => .ok (.leaf s)
      | some (head, behind) =>
        match splitAtClosing 0 false behind with
        | none => .error ⟨.unmatchedBrackets, s, head.length⟩
        | some (inside, after) =>
          if !Text.isAllBlank after then
            .error ⟨.textAfterBracket, s,
              head.length + 1 + inside.length + 1 + (after.takeWhile Text.isBlank).length⟩
          else if Text.isAllBlank inside then .ok (.leaf s)
          else .ok (.call (Text.trim head) (Text.trim inside))

/-- The node of a call. A list of arguments becomes the terms of the call; a bracket group around
a list is the list itself. -/
def callNode (head op : Text) (inner : Expr) : Expr :=
  if inner.isEmptyMarker || (inner.name = ",".toList && !inner.isLeaf) then
    if head.isEmpty then { inner with op } else ⟨head, op, inner.terms⟩
  else ⟨head, op, [inner]⟩

/-- Parse one level with the operator `op` before it, `levels` being how many are allowed. -/
def parseLevel (t : OperatorTable) (levels : Nat) (op s : Text) : Except ParseError Expr :=
  match levels with
  | 0 => .error ⟨.nestedTooDeep, s, 0⟩
  | levels + 1 => do
    let body := stripBrackets (Text.trim s)
    let lexemes ← Lexeme.ofText t body
    match Lexeme.loosest? lexemes with
    | some rank =>
      match t.groupLabel rank with
      | none => .error ⟨.unrecognizedOperator, Lexeme.text lexemes,
          (Lexeme.split rank lexemes).1.length⟩
      | some label => do
        let (first, others) := Lexeme.split rank lexemes
        let head ← parseLevel t levels [] first
        let tail ← others.mapM fun (op, term) => parseLevel t levels op term
        return ⟨label, op, head :: tail⟩
    | none =>
      match ← Term.ofText t (Text.trim (Lexeme.text lexemes)) with
      | .leaf name => return ⟨name, op, []⟩
      | .prefixed sign operand => return ⟨sign, op, [← parseLevel t levels [] operand]⟩
      | .call head arguments => return callNode head op (← parseLevel t levels [] arguments)

/-- The tree of a text, with at most `depth` levels below its root. -/
def parse (t : OperatorTable) (depth : Nat) (s : Text) : Except ParseError Expr :=
  parseLevel t (depth + 1) [] s

/-- The tree of a text in the table of model texts, within the default limit. -/
abbrev ofText (s : Text) : Except ParseError Expr := parse .standard defaultDepth s

end Expr
end Lineshape
