import Mathlib.Data.List.TakeWhile
import Lineshape.Diagnostic

/-! # Where the caret of a diagnostic stands

A rendering cuts the text before and behind a window around the offending character, the one that the
byte belongs to, and puts the caret as many characters from the left as the excerpt has before that
character (`Diagnostic.render_ofByte`). That is its column as long as no line break is shown before
it (`column_eq_length_iff`). -/

namespace Lineshape
set_option autoImplicit false

/-- The number of characters of a text behind its last line break. -/
def Text.column (s : Text) : Nat := (s.reverse.takeWhile (· ≠ '\n')).length

/-- A text ends in the column of its length exactly if it is a single line. -/
theorem Text.column_eq_length_iff {s : Text} : column s = s.length ↔ '\n' ∉ s := by
  have hlength : s.length = s.reverse.length := List.length_reverse.symm
  rw [column, hlength, ← List.mem_reverse]
  generalize s.reverse = s
  constructor
  · intro h hm
    have hall := (List.takeWhile_prefix (l := s) (· ≠ '\n')).eq_of_length h
    have hno := List.mem_takeWhile_imp (hall ▸ hm)
    exact absurd rfl (of_decide_eq_true hno)
  · intro h
    rw [List.takeWhile_eq_self_iff.2]
    rintro c hc
    exact decide_eq_true fun he => h (he ▸ hc)

/-- The first character that does not end within some bytes reaches beyond them. -/
theorem Text.lt_of_mem_drop_charsWithin (bytes : Nat) (s : Text) :
    ∀ c ∈ (s.drop (charsWithin bytes s)).head?,
      bytes < byteSize (s.take (charsWithin bytes s)) + c.utf8Size := by
  induction s generalizing bytes with
  | nil => exact fun c hc => absurd hc (Option.not_mem_none c)
  | cons d s ih =>
    intro c hc
    rw [charsWithin] at hc ⊢
    split at hc
    · rename_i hfits
      rw [if_pos hfits]
      have hrest := ih (bytes - d.utf8Size) c hc
      rw [List.take_succ_cons, byteSize_cons]
      omega
    · rename_i hbeyond
      cases hc
      rw [if_neg hbeyond, List.take_zero, byteSize_nil]
      omega

namespace Diagnostic

/-- What stands for a part of a text that is left out. -/
def ellipsis (omitted : Text) : Text := if omitted = [] then [] else "...".toList

theorem ellipsis_take (front : Text) :
    ellipsis (front.take (front.length - window)) =
      if window < front.length then "...".toList else [] := by
  rw [ellipsis]
  by_cases h : window < front.length
  · rw [if_pos h, if_neg fun hnil => ?_]
    have hlength := congrArg List.length hnil
    rw [List.length_take, List.length_nil] at hlength
    omega
  · rw [if_neg h, if_pos]
    rw [Nat.sub_eq_zero_of_le (Nat.le_of_not_lt h), List.take_zero]

theorem ellipsis_drop (back : Text) :
    ellipsis (back.drop (window + 1)) = if window + 1 < back.length then "...".toList else [] := by
  rw [ellipsis]
  by_cases h : window + 1 < back.length
  · rw [if_pos h, if_neg fun hnil => ?_]
    exact absurd (List.drop_eq_nil_iff.1 hnil) (Nat.not_le_of_lt h)
  · rw [if_neg h, if_pos (List.drop_eq_nil_iff.2 (Nat.le_of_not_lt h))]

theorem not_mem_ellipsis (omitted : Text) : '\n' ∉ ellipsis omitted := by
  rw [ellipsis]
  split <;> decide

theorem excerpt_eq (text : Text) (position : Nat) :
    excerpt text position =
      ellipsis ((text.take position).take ((text.take position).length - window)) ++
        (text.take position).drop ((text.take position).length - window) ++
        (text.drop position).take (window + 1) ++ ellipsis ((text.drop position).drop (window + 1)) := by
  rw [excerpt, ellipsis_take, ellipsis_drop]

theorem caretColumn_eq (text : Text) (position : Nat) :
    caretColumn text position =
      (ellipsis ((text.take position).take ((text.take position).length - window)) ++
        (text.take position).drop ((text.take position).length - window)).length := by
  rw [caretColumn, ellipsis_take, List.length_append, List.length_drop]
  split
  · rename_i h
    rw [Nat.sub_sub_self h.le]
    rfl
  · rename_i h
    rw [List.length_nil]
    omega

/-- The parts of a text around the character that a byte belongs to, or around its end if the byte is
behind it: the parts that a rendering leaves out, and what it shows before the character and from
the character on. -/
structure Window (text : Text) (offset : Nat) (omittedBefore before behind omittedBehind : Text) :
    Prop where
  /-- The parts are the text. -/
  text_eq : text = omittedBefore ++ before ++ behind ++ omittedBehind
  /-- The byte does not lie before the character. -/
  start_le : Text.byteSize (omittedBefore ++ before) ≤ offset
  /-- Nor does it lie behind the character. -/
  lt_stop : ∀ c ∈ behind.head?, offset < Text.byteSize (omittedBefore ++ before) + c.utf8Size
  /-- No more than ten characters are shown before the character, and ten if some are left out. -/
  length_before : before.length ≤ 10 ∧ (omittedBefore ≠ [] → before.length = 10)
  /-- No more than ten characters are shown behind the character, and ten if some are left out. -/
  length_behind : behind.tail.length ≤ 10 ∧ (omittedBehind ≠ [] → behind.tail.length = 10)

/-- The window of a byte. -/
theorem window_ofByte (text : Text) (offset : Nat) :
    let front := text.take (Text.charsWithin offset text)
    let back := text.drop (Text.charsWithin offset text)
    Window text offset (front.take (front.length - window)) (front.drop (front.length - window))
      (back.take (window + 1)) (back.drop (window + 1)) := by
  intro front back
  refine ⟨?_, ?_, fun c hc => ?_, ?_, ?_⟩
  · rw [List.take_append_drop, List.append_assoc, List.take_append_drop]
    exact (List.take_append_drop _ text).symm
  · rw [List.take_append_drop]
    exact Text.byteSize_take_charsWithin offset text
  · rw [List.take_append_drop]
    rw [List.head?_take, if_neg (Nat.succ_ne_zero window)] at hc
    exact Text.lt_of_mem_drop_charsWithin offset text c hc
  · have hlength : (front.drop (front.length - window)).length = front.length - (front.length - window) :=
      List.length_drop
    rw [hlength]
    refine ⟨by rw [window]; omega, fun hne => ?_⟩
    have hmore : 0 < front.length - window := by
      refine Nat.pos_of_ne_zero fun h0 => hne ?_
      rw [h0, List.take_zero]
    rw [window] at hmore ⊢
    omega
  · rw [List.length_tail, List.length_take]
    refine ⟨by rw [window]; omega, fun hne => ?_⟩
    have hmore : window + 1 < back.length := Nat.lt_of_not_le fun h => hne (List.drop_eq_nil_iff.2 h)
    rw [window] at hmore ⊢
    omega

/-- A rendering shows a window around the offending character, with an ellipsis on each side exactly
if text is left out there, and the caret below it: as many characters from the left as the excerpt has
before the character. This is the column that the character has in its own line of the excerpt exactly
if no line break is shown before it. -/
theorem render_ofByte (message text : Text) (offset : Nat) :
    ∃ omittedBefore before behind omittedBehind,
      Window text offset omittedBefore before behind omittedBehind ∧
      (ofByte message text offset).offset? = some (Text.byteSize (omittedBefore ++ before)) ∧
      (ofByte message text offset).render = message ++ " at\n\n".toList ++
        (ellipsis omittedBefore ++ before ++ behind ++ ellipsis omittedBehind) ++
        '\n' :: List.replicate (ellipsis omittedBefore ++ before).length ' ' ++ ['^'] ∧
      ((ellipsis omittedBefore ++ before).length = Text.column (ellipsis omittedBefore ++ before) ↔
        '\n' ∉ before) := by
  refine ⟨_, _, _, _, window_ofByte text offset, ?_, ?_, ?_⟩
  · rw [List.take_append_drop]
    rfl
  · rw [← caretColumn_eq, ← excerpt_eq]
    rfl
  · rw [eq_comm, Text.column_eq_length_iff, List.mem_append, or_iff_right (not_mem_ellipsis _)]

/-- Behind a line break the caret stands too far to the right: here below nothing, in the fourth
column, while the character is in the second one of its line. -/
theorem exists_misplaced_caret :
    (ofByte "Syntax error".toList "a\nb+".toList 3).render = "Syntax error at\n\na\nb+\n   ^".toList ∧
      Window "a\nb+".toList 3 [] "a\nb".toList "+".toList [] ∧
      Text.column (ellipsis [] ++ "a\nb".toList) = 1 := by
  refine ⟨by decide, ⟨by decide, by decide, by decide, by decide, by decide⟩, by decide⟩

end Diagnostic
end Lineshape
