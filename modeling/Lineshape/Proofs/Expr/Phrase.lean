import Lineshape.Proofs.Expr.Split
import Lineshape.Proofs.Expr.Words

/-! # Phrases

A phrase is a text of an expression together with the way it is put together: words, signs, calls,
brackets, and terms joined by operators. `Phrase.Valid` says that the parts fit, so that no bracket
is missing. The parser reads a valid phrase as the tree that `Phrase.tree` names, brackets included,
if it may go down as many levels as `Phrase.levels` counts (`Phrase.parseLevel_eq`). -/

namespace Lineshape
set_option autoImplicit false

/-- A text of an expression as it is put together. -/
inductive Phrase where
  /-- A leaf; an open one leaves room for the sign of an exponent. -/
  | word (s : Text) (isOpen : Bool)
  /-- Brackets around nothing. -/
  | hollow
  /-- An operand behind a sign. -/
  | signed (sign : Text) (operand : Phrase)
  /-- An argument in brackets behind a head. -/
  | call (head : Text) (argument : Phrase)
  /-- Brackets. -/
  | bracketed (inner : Phrase)
  /-- Brackets around a phrase and a separator behind it. -/
  | closed (inner : Phrase)
  /-- One more term behind an operator, perhaps with a blank between them. -/
  | joined (front : Phrase) (op : Text) (spaced : Bool) (term : Phrase)

namespace Phrase

/-- The blank behind an operator. -/
def gap (spaced : Bool) : Text := if spaced then [' '] else []

/-- The characters of a phrase. -/
def text : Phrase → Text
  | word s _ => s
  | hollow => ['(', ')']
  | signed sign operand => sign ++ operand.text
  | call head argument => head ++ ('(' :: argument.text ++ [')'])
  | bracketed inner => '(' :: inner.text ++ [')']
  | closed inner => '(' :: (inner.text ++ [';']) ++ [')']
  | joined front op spaced term => front.text ++ (op ++ (gap spaced ++ term.text))

/-- The rank of the last operator outside brackets, 0 if there is none. -/
def rank : Phrase → Nat
  | joined _ op _ _ => OperatorTable.standard.precedence op
  | _ => 0

/-- Whether a sign at the end would be taken for one of an exponent. -/
def isOpen : Phrase → Bool
  | word _ isOpen => isOpen
  | signed _ operand => operand.isOpen
  | joined _ _ _ term => term.isOpen
  | _ => false

/-- The lexemes of a phrase. -/
def lexemes : Phrase → List Lexeme
  | joined front op spaced term =>
    front.lexemes ++ (.operator op (OperatorTable.standard.precedence op) ::
      ((gap spaced).map .letter ++ term.lexemes))
  | p => p.text.map .letter

/-- The number of levels that reading a phrase takes. -/
def levels : Phrase → Nat
  | word .. => 1
  | hollow => 1
  | signed _ operand => operand.levels + 1
  | call _ argument => argument.levels + 1
  | bracketed inner => if '(' ∈ inner.text then inner.levels + 1 else inner.levels
  | closed inner => inner.levels
  | joined front op _ term =>
    max (if front.rank = OperatorTable.standard.precedence op then front.levels
      else front.levels + 1) (term.levels + 1)

/-- The name of a chain with this operator. -/
def label (op : Text) : Text :=
  (OperatorTable.standard.groupLabel (OperatorTable.standard.precedence op)).getD []

/-- The tree of a phrase behind an operator. -/
def tree (op : Text) : Phrase → Expr
  | word s _ => ⟨s, op, []⟩
  | hollow => ⟨Expr.emptyName, op, []⟩
  | signed sign operand => ⟨sign, op, [operand.tree []]⟩
  | call head argument => Expr.callNode head op (argument.tree [])
  | bracketed inner =>
    if '(' ∈ inner.text then Expr.callNode [] op (inner.tree []) else inner.tree op
  | closed inner => inner.tree op
  | joined front o _ term =>
    ⟨label o, op, (if front.rank = OperatorTable.standard.precedence o then (front.tree []).terms
      else [front.tree []]) ++ [term.tree o]⟩

/-- The parts of a phrase fit together. -/
def Valid : Phrase → Prop
  | word s isOpen => Word isOpen s
  | hollow => True
  | signed sign operand =>
    OperatorTable.standard.isUnary sign = true ∧ operand.Valid ∧ operand.rank = 0
  | call head argument => isDotted head = true ∧ argument.Valid
  | bracketed inner => inner.Valid
  | closed inner => inner.Valid ∧ '(' ∉ inner.text
  | joined front op _ term =>
    OperatorTable.standard.isBinary op = true ∧ front.Valid ∧ term.Valid ∧
      (front.rank = 0 ∨ OperatorTable.standard.precedence op ≤ front.rank) ∧
      (term.rank = 0 ∨ OperatorTable.standard.precedence op < term.rank) ∧
      (front.isOpen = true → op ≠ ['+'] ∧ op ≠ ['-'])

/-! ## The text of a phrase -/

theorem mayFollow_of_not_isSymbol {c : Char} (h : OperatorTable.standard.isSymbol c = false) :
    OperatorTable.MayFollow c := by
  intro hc
  rw [h] at hc
  cases hc

theorem exists_sign {sign : Text} (h : OperatorTable.standard.isUnary sign = true) :
    ∃ c, sign = [c] ∧ (c = '+' ∨ c = '-') := by
  rcases OperatorTable.isUnary_iff.1 h with rfl | rfl
  · exact ⟨'+', rfl, .inl rfl⟩
  · exact ⟨'-', rfl, .inr rfl⟩

theorem exists_first {p : Phrase} (h : p.Valid) :
    ∃ c rest, p.text = c :: rest ∧ OperatorTable.MayFollow c := by
  induction p with
  | word s o =>
    obtain ⟨c, rest, hs, hc, -⟩ := h.first
    exact ⟨c, rest, hs, mayFollow_of_not_isSymbol hc⟩
  | hollow => exact ⟨'(', [')'], rfl, mayFollow_of_not_isSymbol (by decide)⟩
  | signed sign operand =>
    obtain ⟨c, rfl, hc⟩ := exists_sign h.1
    exact ⟨c, operand.text, rfl, fun _ => hc⟩
  | call head argument =>
    obtain ⟨c, rest, hs, hc, -⟩ := (Word.of_dotted h.1).first
    exact ⟨c, rest ++ ('(' :: argument.text ++ [')']), by simp [text, hs],
      mayFollow_of_not_isSymbol hc⟩
  | bracketed inner => exact ⟨'(', _, rfl, mayFollow_of_not_isSymbol (by decide)⟩
  | closed inner => exact ⟨'(', _, rfl, mayFollow_of_not_isSymbol (by decide)⟩
  | joined front op spaced term ihf _ =>
    obtain ⟨c, rest, hs, hc⟩ := ihf h.2.1
    exact ⟨c, rest ++ (op ++ (gap spaced ++ term.text)), by simp [text, hs], hc⟩

theorem text_ne_nil {p : Phrase} (h : p.Valid) : p.text ≠ [] := by
  obtain ⟨c, rest, hs, -⟩ := exists_first h
  rw [hs]
  exact List.cons_ne_nil c rest

theorem balanced_op {op : Text} (h : OperatorTable.standard.isBinary op = true) :
    Balanced op := by
  refine Balanced.of_plain fun c hc => ?_
  have hsymbol : OperatorTable.standard.isSymbol c = true := by
    obtain ⟨d, rfl, hd⟩ | ⟨d, d', rfl, hd, hd'⟩ := OperatorTable.binary_shape h
    · cases List.mem_singleton.1 hc
      exact hd
    · simp only [List.mem_cons, List.not_mem_nil, or_false] at hc
      rcases hc with rfl | rfl
      · exact hd
      · exact hd'
  obtain ⟨ho, hcl, hq, -⟩ := OperatorTable.symbol_facts hsymbol
  exact ⟨hq, ho, hcl⟩

theorem balanced_gap (spaced : Bool) : Balanced (gap spaced) := by
  cases spaced <;> decide

theorem balanced {p : Phrase} (h : p.Valid) : Balanced p.text := by
  induction p with
  | word s o => exact h.balanced
  | hollow => exact rfl
  | signed sign operand ih =>
    have hs : Balanced sign := by
      rcases OperatorTable.isUnary_iff.1 h.1 with rfl | rfl <;> decide
    exact hs.append (ih h.2.1)
  | call head argument ih => exact (Word.of_dotted h.1).balanced.append (ih h.2).bracketed
  | bracketed inner ih => exact (ih h).bracketed
  | closed inner ih => exact ((ih h.1).append (t := [';']) rfl).bracketed
  | joined front op spaced term ihf iht =>
    exact (ihf h.2.1).append ((balanced_op h.1).append ((balanced_gap spaced).append (iht h.2.2.1)))

theorem trimmed {p : Phrase} (h : p.Valid) : Text.Trimmed p.text := by
  have hbracket : ∀ s : Text, Text.Trimmed ('(' :: s ++ [')']) := by
    intro s
    refine ⟨?_, ?_⟩
    · intro c hc
      cases hc
      decide
    · intro c hc
      rw [List.getLast?_append] at hc
      cases hc
      decide
  induction p with
  | word s o => exact h.trimmed
  | hollow => exact hbracket []
  | signed sign operand ih =>
    obtain ⟨c, rfl, hc⟩ := exists_sign h.1
    have hs : Text.Trimmed [c] := by
      rcases hc with rfl | rfl <;> decide
    exact hs.append (ih h.2.1) (List.cons_ne_nil _ _) (text_ne_nil h.2.1)
  | call head argument ih =>
    exact (Word.of_dotted h.1).trimmed.append (hbracket _) (dotted_ne_nil h.1)
      (List.cons_ne_nil _ _)
  | bracketed inner ih => exact hbracket _
  | closed inner ih => exact hbracket _
  | joined front op spaced term ihf iht =>
    have hf := ihf h.2.1
    have ht := iht h.2.2.1
    have hfne := text_ne_nil h.2.1
    have htne := text_ne_nil h.2.2.1
    refine ⟨?_, ?_⟩
    · intro c hc
      rw [text, List.head?_append, List.head?_eq_some_head hfne, Option.some_or] at hc
      exact hf.1 c (List.head?_eq_some_head hfne ▸ hc)
    · intro c hc
      rw [text, List.getLast?_append, List.getLast?_append, List.getLast?_append,
        List.getLast?_eq_some_getLast htne, Option.some_or, Option.some_or, Option.some_or] at hc
      exact ht.2 c (List.getLast?_eq_some_getLast htne ▸ hc)

/-! ## The lexemes of a phrase -/

theorem lexemes_of_rank {p : Phrase} (h : p.Valid) (hr : p.rank = 0) :
    p.lexemes = p.text.map .letter := by
  cases p with
  | joined front op spaced term =>
    have hpos := OperatorTable.precedence_pos_iff.2 h.1
    rw [rank] at hr
    omega
  | _ => rfl

theorem text_lexemes (p : Phrase) : Lexeme.text p.lexemes = p.text := by
  induction p with
  | joined front op spaced term ihf iht =>
    rw [lexemes, Lexeme.text_append, ihf, Lexeme.text, List.flatMap_cons, ← Lexeme.text,
      Lexeme.text_append, Lexeme.text_map_letter, iht]
    rfl
  | _ => exact Lexeme.text_map_letter _

/-- A phrase is scanned as its lexemes wherever a term can begin. -/
theorem reads {p : Phrase} (h : p.Valid) {a : Cursor} (ha : a.Fresh) :
    ∃ b, Lexeme.Reads .standard a p.text p.lexemes b ∧ b.Settled ∧
      (p.isOpen = false → b.number.expectsSign = false) := by
  induction p generalizing a with
  | word s o => exact h.reads a ha
  | hollow =>
    obtain ⟨b, hread, hb, hn⟩ := Lexeme.reads_brackets ha.opened ha.quoted Balanced.nil
    exact ⟨b, hread, hb, fun _ => by rw [hn]; rfl⟩
  | signed sign operand ih =>
    obtain ⟨b, hb, hsign⟩ := Lexeme.reads_sign ha h.1
    obtain ⟨c, hread, hc⟩ := ih h.2.1 hb
    refine ⟨c, ?_, hc⟩
    intro rest
    obtain ⟨d, rest', hs, -⟩ := exists_first h.2.1
    have hin := hread rest
    rw [lexemes_of_rank h.2.1 h.2.2, hs, List.cons_append] at hin
    have hl : (signed sign operand).lexemes = (sign ++ operand.text).map .letter := rfl
    rw [hl, text, hs, List.append_assoc, List.cons_append, hsign, hin, Lexeme.map_append_map,
      ← List.map_append]
  | call head argument ih =>
    obtain ⟨b, hread, hb, -⟩ := (Word.of_dotted h.1).reads a ha
    obtain ⟨c, hread', hc, hn⟩ := Lexeme.reads_brackets hb.opened hb.quoted (balanced h.2)
    refine ⟨c, ?_, hc, fun _ => by rw [hn]; rfl⟩
    have hall := hread.trans hread'
    rwa [← List.map_append] at hall
  | bracketed inner ih =>
    obtain ⟨b, hread, hb, hn⟩ := Lexeme.reads_brackets ha.opened ha.quoted (balanced (p := inner) h)
    exact ⟨b, hread, hb, fun _ => by rw [hn]; rfl⟩
  | closed inner ih =>
    have hinside : Balanced (inner.text ++ [';']) := (balanced h.1).append rfl
    obtain ⟨b, hread, hb, hn⟩ := Lexeme.reads_brackets ha.opened ha.quoted hinside
    exact ⟨b, hread, hb, fun _ => by rw [hn]; rfl⟩
  | joined front op spaced term ihf iht =>
    obtain ⟨hop, hfront, hterm, -, -, hsign⟩ := h
    obtain ⟨b, hread, hb, hnumber⟩ := ihf hfront ha
    have hs : op = ['+'] ∨ op = ['-'] → b.number.expectsSign = false := by
      intro hop
      refine hnumber ?_
      by_contra ho
      rw [Bool.not_eq_false] at ho
      rcases hop with hop | hop
      · exact (hsign ho).1 hop
      · exact (hsign ho).2 hop
    obtain ⟨c, hc, hscan⟩ := Lexeme.reads_operator hb hop hs
    have hgap : ∃ d : Cursor, d.Fresh ∧
        Lexeme.Reads .standard c (gap spaced) ((gap spaced).map .letter) d := by
      cases spaced with
      | false => exact ⟨c, hc, Lexeme.Reads.nil c⟩
      | true => exact Lexeme.reads_blank (by decide) (by decide) hc
    obtain ⟨d, hd, hblank⟩ := hgap
    obtain ⟨e, hread', he⟩ := iht hterm hd
    have hrest := hblank.trans hread'
    have hfirst : ∃ x rest, gap spaced ++ term.text = x :: rest ∧ OperatorTable.MayFollow x := by
      cases spaced with
      | false => exact exists_first hterm
      | true => exact ⟨' ', term.text, rfl, mayFollow_of_not_isSymbol (by decide)⟩
    obtain ⟨x, rest', hx, hfollow⟩ := hfirst
    refine ⟨e, hread.trans ?_, he⟩
    intro rest
    have hin := hrest rest
    rw [hx, List.cons_append] at hin
    rw [hx, List.append_assoc, List.cons_append, hscan _ _ hfollow, hin]
    cases Lexeme.scan .standard e rest with
    | error _ => rfl
    | ok _ => rfl

/-! ## Splitting -/

theorem operator_mem_lexemes {p : Phrase} (h : p.Valid) {op : Text} {k : Nat}
    (hm : Lexeme.operator op k ∈ p.lexemes) : p.rank ≠ 0 ∧ p.rank ≤ k := by
  induction p with
  | joined front op' spaced term ihf iht =>
    obtain ⟨hop, hfront, hterm, hfr, htr, -⟩ := h
    have hpos := OperatorTable.precedence_pos_iff.2 hop
    rw [rank]
    rw [lexemes, List.mem_append, List.mem_cons, List.mem_append] at hm
    rcases hm with hm | hm | hm | hm
    · have := ihf hfront hm
      omega
    · cases hm
      omega
    · simp at hm
    · have := iht hterm hm
      omega
  | _ => simp [lexemes] at hm

end Phrase

end Lineshape
