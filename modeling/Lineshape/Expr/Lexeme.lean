import Lineshape.Expr.Operators
import Lineshape.Text.Numeral
import Lineshape.Diagnostic

/-! # Lexemes

One level of an expression is a row of characters and of binary operators between them. `scan`
finds the operators that stand outside brackets, quotes and numbers, and refuses a text whose
brackets, quotes or operators do not fit together.

* `NumberScan`: how far a number literal has been read, so that the sign of an exponent is no
  operator.
* `Cursor`: what the scan knows between two characters.
* `Lexeme.scan`: the lexemes of a text; put together again they are the text, less a separator at
  its end (`Lexeme.makeUp_of_scan`).
* `Lexeme.loosest?` and `Lexeme.split`: the lowest rank among the operators, and the terms between
  the operators of that rank.
-/

namespace Lineshape
set_option autoImplicit false

/-! ## Errors -/

/-- What can be wrong with an expression. -/
inductive Fault where
  /-- A bracket without its partner. -/
  | unmatchedBrackets
  /-- A quote without its partner. -/
  | unmatchedQuotes
  /-- An operator with nothing behind it. -/
  | missingOperand
  /-- A symbol where the table has no operator that fits. -/
  | unrecognizedOperator
  /-- Something behind the brackets of a call. -/
  | textAfterBracket
  /-- More levels than the limit allows. -/
  | nestedTooDeep
deriving DecidableEq

/-- The wording of each fault. -/
def Fault.message : Fault → Text
  | .unmatchedBrackets => "Unmatched brackets".toList
  | .unmatchedQuotes => "Unmatched quotes".toList
  | .missingOperand => "Syntax error".toList
  | .unrecognizedOperator => "Unrecognized operator".toList
  | .textAfterBracket => "Unexpected text after closing bracket".toList
  | .nestedTooDeep => "Expression nesting exceeds maximum depth".toList

/-- A fault, the text it was found in, and the number of characters before it. -/
structure ParseError where
  /-- What is wrong. -/
  fault : Fault
  /-- The part of the input that was being read. -/
  text : Text
  /-- The number of characters before the offending one. -/
  position : Nat
deriving DecidableEq

/-- The diagnostic of a parse error. -/
def ParseError.diagnostic (e : ParseError) : Diagnostic :=
  ⟨e.fault.message, e.text, some e.position⟩

/-! ## Numbers -/

/-- How far a number literal has been read. -/
inductive NumberScan where
  /-- No number is being read. -/
  | outside
  /-- Inside a number, with what may still come: a point, an exponent mark, a sign. -/
  | inside (point mark sign : Bool)
deriving DecidableEq

/-- Whether a number is being read. -/
def NumberScan.isInside : NumberScan → Bool
  | .outside => false
  | .inside .. => true

/-- Read the next character. A number begins with a digit that does not continue a name. -/
def NumberScan.feed (number : NumberScan) (previous : Option Char) (c : Char) : NumberScan :=
  match number with
  | .inside point mark sign =>
    if c.isDigit then .inside point mark false
    else if c = '.' && point then .inside false mark sign
    else if (c = 'e' || c = 'E') && mark then .inside false false true
    else if (c = '+' || c = '-') && sign then .inside point mark false
    else .outside
  | .outside =>
    if c.isDigit && !previous.any Text.continuesName then .inside true true false else .outside

/-! ## Scanning -/

/-- A piece of one level of an expression. -/
inductive Lexeme where
  /-- A character of a term. -/
  | letter (c : Char)
  /-- A binary operator between two terms, with its rank. -/
  | operator (op : Text) (rank : Nat)
deriving DecidableEq

/-- What is known between two characters of a level. -/
structure Cursor where
  /-- The number of characters read. -/
  position : Nat := 0
  /-- The positions of the open brackets, the innermost first. -/
  opened : List Nat := []
  /-- The position of the open quote. -/
  quoted : Option Nat := none
  /-- The number being read. -/
  number : NumberScan := .outside
  /-- Whether a term has begun, so that an operator can be a binary one. -/
  afterTerm : Bool := false
  /-- The character read last. -/
  previous : Option Char := none

namespace Cursor

/-- Step over an operator of one or two characters. -/
def skip (cursor : Cursor) (op : Text) (afterTerm : Bool) : Cursor :=
  { cursor with
    position := cursor.position + op.length
    afterTerm := afterTerm
    previous := op.getLast? }

/-- Step over a character of a term. -/
def advance (cursor : Cursor) (c : Char) : Cursor :=
  cursor.skip [c] (cursor.afterTerm || !Text.isBlank c)

/-- Step over a character within quotes, which a quote ends. -/
def stepQuoted (cursor : Cursor) (c : Char) : Cursor :=
  let cursor := if c = '"' then { cursor with quoted := none } else cursor
  cursor.skip [c] cursor.afterTerm

/-- Whether an operator can stand at the character just taken note of. -/
def isTopLevel (cursor : Cursor) : Bool := cursor.opened.isEmpty && !cursor.number.isInside

/-- Take note of what a character outside quotes means to numbers, quotes and brackets; none for a
closing bracket that closes nothing. -/
def note (cursor : Cursor) (c : Char) : Option Cursor :=
  let cursor := { cursor with number := cursor.number.feed cursor.previous c }
  if c = '"' then some { cursor with quoted := some cursor.position }
  else if c = '(' then some { cursor with opened := cursor.position :: cursor.opened }
  else if c = ')' then
    match cursor.opened with
    | [] => none
    | _ :: outer => some { cursor with opened := outer }
  else some cursor

/-- The fault at the end of a text: a quote or a bracket that is still open. Of several brackets
the outermost is reported. -/
def finish (cursor : Cursor) : Except (Fault × Nat) Unit :=
  match cursor.quoted, cursor.opened.getLast? with
  | some position, _ => .error (.unmatchedQuotes, position)
  | none, some position => .error (.unmatchedBrackets, position)
  | none, none => .ok ()

/-- A text can end where nothing is open. -/
theorem finish_eq_ok {cursor : Cursor} {u : Unit} :
    cursor.finish = .ok u ↔ cursor.opened = [] ∧ cursor.quoted = none := by
  rw [finish.eq_def, ← List.getLast?_eq_none_iff]
  split
  · rename_i hq
    simp [hq]
  · rename_i ho
    simp [ho]
  · rename_i hq ho
    simp [hq, ho]

theorem map_finish_eq_ok {α : Type} {cursor : Cursor} {a b : α} :
    (cursor.finish.map fun _ => a) = .ok b ↔ a = b ∧ cursor.opened = [] ∧ cursor.quoted = none := by
  rw [← finish_eq_ok (u := ())]
  cases cursor.finish with
  | error e => simp [Except.map]
  | ok u => simp [Except.map]

end Cursor

/-- The number of characters of an operator. -/
inductive OperatorLength where
  | one | two
deriving DecidableEq

namespace OperatorTable

/-- How long the operator is that begins with `c` and perhaps goes on with `d`. The longer one is
taken if there is a choice. -/
def longest? (t : OperatorTable) (isOperator : Text → Bool) (c d : Char) :
    Option OperatorLength :=
  if t.isSymbol d && isOperator [c, d] then some .two
  else if isOperator [c] then some .one
  else none

end OperatorTable

namespace Lexeme

/-- Whether a character at the end of a text is a separator that may be left out. -/
def isSeparator (c : Char) : Bool := c = ',' || c = ';'

/-- The lexemes of an operator just read: a binary operator is one of its own, a unary operator
belongs to the term behind it. -/
def written (isBinary : Bool) (t : OperatorTable) (op : Text) : List Lexeme :=
  if isBinary then [operator op (t.precedence op)] else op.map letter

/-- The lexemes of the rest of a level, from the cursor on. -/
def scan (t : OperatorTable) (cursor : Cursor) : Text → Except (Fault × Nat) (List Lexeme)
  | [] => cursor.finish.map fun _ => []
  | c :: rest =>
    if cursor.quoted.isSome then
      (scan t (cursor.stepQuoted c) rest).map (letter c :: ·)
    else
      match cursor.note c with
      | none => .error (.unmatchedBrackets, cursor.position)
      | some cursor =>
        if cursor.isTopLevel && t.isSymbol c then
          match rest with
          | [] => if isSeparator c then .ok [] else .error (.missingOperand, cursor.position)
          | d :: rest' =>
            match t.longest? (if cursor.afterTerm then t.isBinary else t.isUnary) c d with
            | none => .error (.unrecognizedOperator, cursor.position)
            | some .one =>
              (scan t (cursor.skip [c] false) (d :: rest')).map
                (written cursor.afterTerm t [c] ++ ·)
            | some .two =>
              if cursor.afterTerm && rest'.isEmpty then .error (.missingOperand, cursor.position)
              else (scan t (cursor.skip [c, d] false) rest').map
                (written cursor.afterTerm t [c, d] ++ ·)
        else (scan t (cursor.advance c) rest).map (letter c :: ·)

/-- The lexemes of one level. -/
def ofText (t : OperatorTable) (s : Text) : Except ParseError (List Lexeme) :=
  match scan t {} s with
  | .ok lexemes => .ok lexemes
  | .error (fault, position) => .error ⟨fault, s, position⟩

/-! ## Splitting -/

/-- The text of one lexeme. -/
def toText : Lexeme → Text
  | letter c => [c]
  | operator op _ => op

/-- The text of a row of lexemes. -/
def text (lexemes : List Lexeme) : Text := lexemes.flatMap toText

/-- The lowest rank among the operators. -/
def loosest? : List Lexeme → Option Nat
  | [] => none
  | letter _ :: more => loosest? more
  | operator _ rank :: more => some ((loosest? more).elim rank (min rank))

/-- The text before the first operator of a rank, and each such operator with the text behind it
up to the next. -/
def split (rank : Nat) : List Lexeme → Text × List (Text × Text)
  | [] => ([], [])
  | letter c :: more =>
    let (first, others) := split rank more
    (c :: first, others)
  | operator op r :: more =>
    let (first, others) := split rank more
    if r = rank then ([], (op, first) :: others) else (op ++ first, others)

/-- Splitting loses nothing. -/
theorem split_text (rank : Nat) (lexemes : List Lexeme) :
    (split rank lexemes).1 ++ (split rank lexemes).2.flatMap (fun p => p.1 ++ p.2) =
      text lexemes := by
  induction lexemes with
  | nil => rfl
  | cons lexeme more ih =>
    cases lexeme with
    | letter c => simpa [split, text, toText] using ih
    | operator op r =>
      simp only [split, text, List.flatMap_cons, toText] at ih ⊢
      split <;> simp [← ih]

/-- There are no operators exactly if no rank is the lowest. -/
theorem loosest?_eq_none_iff {lexemes : List Lexeme} :
    loosest? lexemes = none ↔ ∀ op rank, operator op rank ∉ lexemes := by
  induction lexemes with
  | nil => simp [loosest?]
  | cons lexeme more ih =>
    cases lexeme with
    | letter c => simp [loosest?, ih]
    | operator op r =>
      simp only [loosest?, reduceCtorEq, false_iff]
      exact fun h => h op r (by simp)

/-! ## What scanning keeps -/

theorem text_append (front back : List Lexeme) :
    text (front ++ back) = text front ++ text back := by simp [text]

theorem text_map_letter (s : Text) : text (s.map letter) = s := by
  induction s with
  | nil => rfl
  | cons c s ih => simpa [text, toText] using ih

theorem text_written (isBinary : Bool) (t : OperatorTable) (op : Text) :
    text (written isBinary t op) = op := by
  cases isBinary with
  | false => exact text_map_letter op
  | true => simp [written, text, toText]

/-- Lexemes make up a text if they are the text, or the text less a separator at its end. -/
def MakeUp (lexemes : List Lexeme) (s : Text) : Prop :=
  s = text lexemes ∨ ∃ c, isSeparator c = true ∧ s = text lexemes ++ [c]

theorem MakeUp.append {front back : List Lexeme} {s : Text} (h : MakeUp back s) :
    MakeUp (front ++ back) (text front ++ s) := by
  rcases h with h | ⟨c, hc, h⟩
  · exact .inl (by rw [text_append, h])
  · exact .inr ⟨c, hc, by rw [text_append, h, List.append_assoc]⟩

/-- If what a computation gives makes up the rest of a text, then with something in front it makes
up the whole. -/
theorem makeUp_of_map {front lexemes : List Lexeme} {p rest : Text} (hp : text front = p)
    {result : Except (Fault × Nat) (List Lexeme)}
    (hr : ∀ back, result = .ok back → MakeUp back rest)
    (hm : result.map (front ++ ·) = .ok lexemes) : MakeUp lexemes (p ++ rest) := by
  cases result with
  | error e => cases hm
  | ok back =>
    cases hm
    exact hp ▸ (hr back rfl).append

/-- Scanning leaves nothing out but a separator at the end. -/
theorem makeUp_of_scan {t : OperatorTable} {cursor : Cursor} {s : Text} {lexemes : List Lexeme}
    (h : scan t cursor s = .ok lexemes) : MakeUp lexemes s := by
  fun_induction scan t cursor s generalizing lexemes with
  | case1 cursor =>
    obtain ⟨rfl, -⟩ := Cursor.map_finish_eq_ok.1 h
    exact .inl rfl
  | case2 _ c _ _ ih =>
    exact makeUp_of_map (p := [c]) (text_map_letter [c]) (fun _ => ih) h
  | case4 _ c _ _ _ _ hs => cases h; exact .inr ⟨c, hs, rfl⟩
  | case7 _ c _ _ _ _ _ _ _ ih =>
    exact makeUp_of_map (p := [c]) (text_written _ t [c]) (fun _ => ih) h
  | case9 _ c _ _ _ _ d _ _ _ ih =>
    exact makeUp_of_map (p := [c, d]) (text_written _ t [c, d]) (fun _ => ih) h
  | case10 _ c _ _ _ _ _ ih =>
    exact makeUp_of_map (p := [c]) (text_map_letter [c]) (fun _ => ih) h
  | case3 | case5 | case6 | case8 => cases h

end Lexeme
end Lineshape
