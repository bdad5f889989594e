import Lineshape.Expr.Lexeme
import Lineshape.Proofs.Text.Trim

/-! # The symbols of the standard table

Which characters and operators the table of model texts has. A symbol is no bracket, quote, blank
or identifier character, and neither is any identifier character a blank, a bracket or a quote. -/

namespace Lineshape
set_option autoImplicit false
set_option maxRecDepth 4000

namespace OperatorTable

/-- The characters of the operators of the standard table. -/
def symbols : Text := (standard.levels.flatten ++ standard.unary).flatten

theorem isSymbol_iff {c : Char} : standard.isSymbol c = true ↔ c ∈ symbols := by
  simp only [isSymbol, symbols, Bool.or_eq_true, List.any_eq_true, List.contains_eq_mem,
    decide_eq_true_eq, List.mem_flatten, List.mem_append]
  constructor
  · rintro (⟨ops, hops, op, hop, hc⟩ | ⟨op, hop, hc⟩)
    · exact ⟨op, .inl ⟨ops, hops, hop⟩, hc⟩
    · exact ⟨op, .inr hop, hc⟩
  · rintro ⟨op, ⟨ops, hops, hop⟩ | hop, hc⟩
    · exact .inl ⟨ops, hops, op, hop, hc⟩
    · exact .inr ⟨op, hop, hc⟩

/-- The binary operators of the standard table. -/
def binaries : List Text := standard.levels.flatten

theorem isBinary_iff {op : Text} : standard.isBinary op = true ↔ op ∈ binaries := by
  simp [isBinary, binaries]

theorem isUnary_iff {op : Text} : standard.isUnary op = true ↔ op = ['+'] ∨ op = ['-'] := by
  have hu : standard.unary = [['+'], ['-']] := by decide
  simp [isUnary, hu]

/-! ## Characters -/

theorem symbol_facts {c : Char} (h : standard.isSymbol c = true) :
    c ≠ '(' ∧ c ≠ ')' ∧ c ≠ '"' ∧ c ≠ '.' ∧ c ≠ 'e' ∧ c ≠ 'E' ∧ c.isDigit = false ∧
      Text.isBlank c = false ∧ Text.continuesName c = false := by
  have hall : symbols.all (fun c => c ≠ '(' ∧ c ≠ ')' ∧ c ≠ '"' ∧ c ≠ '.' ∧ c ≠ 'e' ∧ c ≠ 'E' ∧
      c.isDigit = false ∧ Text.isBlank c = false ∧ Text.continuesName c = false) = true := by decide
  exact of_decide_eq_true (List.all_eq_true.1 hall c (isSymbol_iff.1 h))

theorem isSymbol_of_continuesName {c : Char} (h : Text.continuesName c = true) :
    standard.isSymbol c = false := by
  cases hs : standard.isSymbol c with
  | false => rfl
  | true =>
    have hc := (symbol_facts hs).2.2.2.2.2.2.2.2
    rw [h] at hc
    cases hc

theorem isSymbol_of_isBlank {c : Char} (h : Text.isBlank c = true) :
    standard.isSymbol c = false := by
  cases hs : standard.isSymbol c with
  | false => rfl
  | true =>
    have hc := (symbol_facts hs).2.2.2.2.2.2.2.1
    rw [h] at hc
    cases hc

end OperatorTable

theorem Lexeme.isSeparator_iff {c : Char} : isSeparator c = true ↔ c = ',' ∨ c = ';' := by
  rw [isSeparator, Bool.or_eq_true, decide_eq_true_eq, decide_eq_true_eq]

namespace Text

theorem continuesName_of_isDigit {c : Char} (h : c.isDigit = true) : continuesName c = true := by
  simp [continuesName, isNumeral, h]

/-- No blank goes on with an identifier. -/
theorem continuesName_of_isBlank {c : Char} (h : isBlank c = true) : continuesName c = false := by
  have hcode : c.toNat ∈ [9, 10, 11, 12, 13, 0x20, 0x85, 0xa0, 0x1680, 0x2000, 0x2001, 0x2002,
      0x2003, 0x2004, 0x2005, 0x2006, 0x2007, 0x2008, 0x2009, 0x200a, 0x2028, 0x2029, 0x202f,
      0x205f, 0x3000] := by
    obtain ⟨r, hr, hlow, hhigh⟩ := Ranges.exists_of_holds h
    simp only [blankRanges, List.mem_cons, List.not_mem_nil, or_false] at hr
    rcases hr with rfl | rfl | rfl | rfl | rfl | rfl | rfl | rfl | rfl | rfl <;>
      simp only at hlow hhigh <;> simp only [List.mem_cons, List.not_mem_nil, or_false] <;> omega
  have hall : ∀ n ∈ [9, 10, 11, 12, 13, 0x20, 0x85, 0xa0, 0x1680, 0x2000, 0x2001, 0x2002,
      0x2003, 0x2004, 0x2005, 0x2006, 0x2007, 0x2008, 0x2009, 0x200a, 0x2028, 0x2029, 0x202f,
      0x205f, 0x3000], continuesName (Char.ofNat n) = false := by decide +kernel
  have hc := hall c.toNat hcode
  rwa [Char.ofNat_toNat] at hc

theorem isBlank_of_continuesName {c : Char} (h : continuesName c = true) : isBlank c = false := by
  cases hb : isBlank c with
  | false => rfl
  | true =>
    have hc := continuesName_of_isBlank hb
    rw [h] at hc
    cases hc

/-- No bracket or quote is a blank. -/
theorem ne_of_isBlank {c : Char} (h : isBlank c = true) : c ≠ '"' ∧ c ≠ '(' ∧ c ≠ ')' := by
  refine ⟨?_, ?_, ?_⟩ <;> rintro rfl <;> exact absurd h (by decide)

/-- No bracket, quote or point goes on with an identifier. -/
theorem ne_of_continuesName {c : Char} (h : continuesName c = true) :
    c ≠ '(' ∧ c ≠ ')' ∧ c ≠ '"' ∧ c ≠ '.' := by
  refine ⟨?_, ?_, ?_, ?_⟩ <;> rintro rfl <;> exact absurd h (by decide)

end Text

namespace OperatorTable

/-! ## Operators -/

/-- An operator has one or two characters, all of them symbols. -/
theorem binary_shape {op : Text} (h : standard.isBinary op = true) :
    (∃ c, op = [c] ∧ standard.isSymbol c = true) ∨
      ∃ c d, op = [c, d] ∧ standard.isSymbol c = true ∧ standard.isSymbol d = true := by
  have hall : ∀ op ∈ binaries, (op.length = 1 ∨ op.length = 2) ∧
      op.all standard.isSymbol = true := by decide
  obtain ⟨hlen, hsym⟩ := hall op (isBinary_iff.1 h)
  rw [List.all_eq_true] at hsym
  rcases hlen with hlen | hlen
  · obtain ⟨c, rfl⟩ := List.length_eq_one_iff.1 hlen
    exact .inl ⟨c, rfl, hsym c (by simp)⟩
  · obtain ⟨c, d, rfl⟩ : ∃ c d, op = [c, d] := by
      match op, hlen with
      | [c, d], _ => exact ⟨c, d, rfl⟩
    exact .inr ⟨c, d, rfl, hsym c (by simp), hsym d (by simp)⟩

/-- The group of every operator has a label, which is an operator of that group. -/
theorem exists_groupLabel {op : Text} (h : standard.isBinary op = true) :
    ∃ label, standard.groupLabel (standard.precedence op) = some label ∧
      standard.isBinary label = true ∧ standard.precedence label = standard.precedence op := by
  have hall : ∀ op ∈ binaries, ∃ label ∈ binaries,
      standard.groupLabel (standard.precedence op) = some label ∧
        standard.precedence label = standard.precedence op := by decide +kernel
  obtain ⟨label, hm, hl, hp⟩ := hall op (isBinary_iff.1 h)
  exact ⟨label, hl, isBinary_iff.2 hm, hp⟩

/-- What may stand behind an operator: no symbol but a sign. -/
def MayFollow (d : Char) : Prop := standard.isSymbol d = true → d = '+' ∨ d = '-'

theorem longest?_one {c d : Char} (h : standard.isBinary [c] = true) (hd : MayFollow d) :
    standard.longest? standard.isBinary c d = some .one := by
  have hall : ∀ op ∈ binaries, op.getLast? ≠ some '+' ∧ op.getLast? ≠ some '-' ∨ op.length = 1 := by
    decide
  have hno : (standard.isSymbol d && standard.isBinary [c, d]) = false := by
    cases hs : standard.isSymbol d with
    | false => rfl
    | true =>
      cases hb : standard.isBinary [c, d] with
      | false => rfl
      | true =>
        have := hall _ (isBinary_iff.1 hb)
        rcases hd hs with rfl | rfl <;> simp at this
  rw [longest?, hno, h]
  rfl

theorem longest?_two {c d : Char} (h : standard.isBinary [c, d] = true) :
    standard.longest? standard.isBinary c d = some .two := by
  obtain ⟨_, hc, -⟩ | ⟨_, _, hc, -, hd⟩ := binary_shape h
  · simp at hc
  · cases hc
    rw [longest?, hd, h]
    rfl

theorem longest?_unary {c : Char} (h : standard.isUnary [c] = true) (d : Char) :
    standard.longest? standard.isUnary c d = some .one := by
  have hno : standard.isUnary [c, d] = false := by
    rw [← Bool.not_eq_true, isUnary_iff]
    simp
  rw [longest?, hno, h]
  simp

end OperatorTable
end Lineshape
