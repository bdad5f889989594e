import Lineshape.Text.Ranges
import Lineshape.Text.Basic

/-! # Blanks

The white space characters, and what it means to leave them out.

* `Text.isBlank`: the property White_Space of the character standard.
* `Text.trim`: a text without the blanks at its ends.
* `Text.words`: the blank-free pieces of a text, in order.
-/

namespace Lineshape
set_option autoImplicit false

/-- The characters with the property White_Space. -/
def blankRanges : Ranges :=
  [(0x9, 0xd), (0x20, 0x20), (0x85, 0x85), (0xa0, 0xa0), (0x1680, 0x1680), (0x2000, 0x200a),
    (0x2028, 0x2029), (0x202f, 0x202f), (0x205f, 0x205f), (0x3000, 0x3000)]

namespace Text

/-- Whether a character is white space. -/
def isBlank (c : Char) : Bool := blankRanges.holds c.toNat

/-- The text without the blanks in front. -/
def trimStart (s : Text) : Text := s.dropWhile isBlank

/-- The text without the blanks at the end. -/
def trimEnd (s : Text) : Text := (s.reverse.dropWhile isBlank).reverse

/-- The text without the blanks at both ends. -/
def trim (s : Text) : Text := trimEnd (trimStart s)

/-- Whether a text has nothing but blanks. -/
def isAllBlank (s : Text) : Bool := s.all isBlank

/-- The blank-free pieces of a text. -/
def words (s : Text) : List Text := (fields isBlank s).filter (· ≠ [])

/-- Trimming at the end only takes blanks away. -/
theorem exists_trimEnd_append (s : Text) :
    ∃ tail, s = trimEnd s ++ tail ∧ ∀ c ∈ tail, isBlank c = true := by
  refine ⟨(s.reverse.takeWhile isBlank).reverse, ?_, ?_⟩
  · rw [trimEnd, ← List.reverse_append, List.takeWhile_append_dropWhile, List.reverse_reverse]
  · intro c hc
    rw [List.mem_reverse] at hc
    exact List.all_eq_true.1 List.all_takeWhile c hc

/-- A trimmed text is a part of the text between two runs of blanks. -/
theorem exists_trim (s : Text) :
    ∃ head tail, s = head ++ trim s ++ tail ∧ (∀ c ∈ head, isBlank c = true) ∧
      ∀ c ∈ tail, isBlank c = true := by
  obtain ⟨tail, ht, hb⟩ := exists_trimEnd_append (trimStart s)
  refine ⟨s.takeWhile isBlank, tail, ?_, ?_, hb⟩
  · rw [trim, List.append_assoc, ← ht, trimStart, List.takeWhile_append_dropWhile]
  · exact fun c hc => List.all_eq_true.1 List.all_takeWhile c hc

example : trim "  a b ".toList = "a b".toList := by decide
example : words "+\t- \n*".toList = ["+".toList, "-".toList, "*".toList] := by decide

end Text
end Lineshape
