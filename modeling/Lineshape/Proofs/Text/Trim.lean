import Lineshape.Text.Blank
import Mathlib.Data.List.TakeWhile

/-! # Trimming

A text that neither begins nor ends with a blank is its own trimmed text. Blanks in front of a text
or behind it do not change what trimming leaves. -/

namespace Lineshape.Text
set_option autoImplicit false

/-- A text without a blank at either end. -/
def Trimmed (s : Text) : Prop :=
  (∀ c ∈ s.head?, isBlank c = false) ∧ ∀ c ∈ s.getLast?, isBlank c = false

/-- Only the two ends of a text decide whether it is trimmed. -/
theorem trimmed_iff {s : Text} : Trimmed s ↔
    (s.head?.all (!isBlank ·) && s.getLast?.all (!isBlank ·)) = true := by
  simp [Trimmed, Option.all_eq_true]

instance (s : Text) : Decidable (Trimmed s) := decidable_of_iff _ trimmed_iff.symm

theorem dropWhile_eq_self {p : Char → Bool} {s : Text} (h : ∀ c ∈ s.head?, p c = false) :
    s.dropWhile p = s := by
  cases s with
  | nil => rfl
  | cons c s =>
    have hc : p c = false := h c rfl
    rw [List.dropWhile_cons_of_neg (by simp [hc])]

theorem head?_dropWhile {p : Char → Bool} (s : Text) :
    ∀ c ∈ (s.dropWhile p).head?, p c = false := by
  intro c hc
  have h := List.head?_dropWhile_not p s
  rw [Option.mem_def.1 hc] at h
  exact h

theorem trimEnd_eq_self {s : Text} (h : ∀ c ∈ s.getLast?, isBlank c = false) :
    trimEnd s = s := by
  rw [trimEnd, dropWhile_eq_self (by simpa using h), List.reverse_reverse]

theorem getLast?_trimEnd (s : Text) : ∀ c ∈ (trimEnd s).getLast?, isBlank c = false := by
  rw [trimEnd, List.getLast?_reverse]
  exact head?_dropWhile _

theorem Trimmed.trim_eq {s : Text} (h : Trimmed s) : trim s = s := by
  rw [trim, trimStart, dropWhile_eq_self h.1, trimEnd_eq_self h.2]

theorem trimmed_trim (s : Text) : Trimmed (trim s) := by
  refine ⟨?_, getLast?_trimEnd _⟩
  obtain ⟨tail, ht, -⟩ := exists_trimEnd_append (trimStart s)
  intro c hc
  refine head?_dropWhile (p := isBlank) s c ?_
  change c ∈ (trimStart s).head?
  rw [ht, List.head?_append]
  change (trimEnd (trimStart s)).head? = some c at hc
  simp [hc]

theorem trim_trim (s : Text) : trim (trim s) = trim s := (trimmed_trim s).trim_eq

theorem trim_cons_blank {c : Char} (h : isBlank c = true) (s : Text) :
    trim (c :: s) = trim s := by
  rw [trim, trim, trimStart, List.dropWhile_cons_of_pos h]
  rfl

theorem trim_eq_nil_iff {s : Text} : trim s = [] ↔ isAllBlank s = true := by
  constructor
  · intro h
    obtain ⟨head, tail, hs, hh, ht⟩ := exists_trim s
    rw [hs, h]
    simp only [isAllBlank, List.all_eq_true, List.append_nil, List.mem_append]
    rintro c (hc | hc)
    · exact hh c hc
    · exact ht c hc
  · intro h
    have hs : s.dropWhile isBlank = [] := List.dropWhile_eq_nil_iff.2 (List.all_eq_true.1 h)
    rw [trim, trimStart, hs]
    rfl

theorem Trimmed.isAllBlank_eq {s : Text} (h : Trimmed s) (hne : s ≠ []) :
    isAllBlank s = false := by
  cases hb : isAllBlank s with
  | false => rfl
  | true => exact absurd (h.trim_eq ▸ trim_eq_nil_iff.2 hb) hne

theorem trim_cons {c : Char} (h : isBlank c = false) (s : Text) :
    ∃ rest tail, trim (c :: s) = c :: rest ∧ c :: s = c :: rest ++ tail := by
  have hstart : trimStart (c :: s) = c :: s := dropWhile_eq_self (by simpa using h)
  obtain ⟨tail, hs, hb⟩ := exists_trimEnd_append (c :: s)
  rw [trim, hstart]
  cases he : trimEnd (c :: s) with
  | nil =>
    rw [he, List.nil_append] at hs
    have hc := hb c (hs ▸ List.mem_cons_self)
    rw [h] at hc
    cases hc
  | cons d rest =>
    rw [he] at hs
    cases hs
    exact ⟨rest, tail, rfl, rfl⟩

/-- A text that does not begin with a blank begins with its trimmed text. -/
theorem exists_tail_of_head {s : Text} (h : ∀ c ∈ s.head?, isBlank c = false) :
    ∃ tail, s = trim s ++ tail := by
  cases s with
  | nil => exact ⟨[], rfl⟩
  | cons c s =>
    obtain ⟨rest, tail, ht, hs⟩ := trim_cons (h c rfl) s
    exact ⟨tail, ht ▸ hs⟩

/-- Blanks in front of a text do not matter. -/
theorem trim_blanks_append {blanks : Text} (h : ∀ c ∈ blanks, isBlank c = true) (s : Text) :
    trim (blanks ++ s) = trim s := by
  rw [trim, trim, trimStart, List.dropWhile_append_of_pos h]
  rfl

/-- Blanks behind a text do not matter. -/
theorem trim_append_blanks {blanks : Text} (h : ∀ c ∈ blanks, isBlank c = true) (s : Text) :
    trim (s ++ blanks) = trim s := by
  have hdrop : blanks.dropWhile isBlank = [] := List.dropWhile_eq_nil_iff.2 h
  have hend : ∀ s : Text, trimEnd (s ++ blanks) = trimEnd s := by
    intro s
    rw [trimEnd, List.reverse_append,
      List.dropWhile_append_of_pos fun c hc => h c (List.mem_reverse.1 hc)]
    rfl
  rw [trim, trim, trimStart, List.dropWhile_append]
  split
  · rename_i hnil
    rw [hdrop, trimStart, List.isEmpty_iff.1 hnil]
  · exact hend _

/-! ## Texts put together -/

theorem Trimmed.append {s t : Text} (hs : Trimmed s) (ht : Trimmed t) (hsne : s ≠ [])
    (htne : t ≠ []) : Trimmed (s ++ t) := by
  constructor
  · intro c hc
    rw [List.head?_append, List.head?_eq_some_head hsne, Option.some_or] at hc
    exact hs.1 c (List.head?_eq_some_head hsne ▸ hc)
  · intro c hc
    rw [List.getLast?_append, List.getLast?_eq_some_getLast htne, Option.some_or] at hc
    exact ht.2 c (List.getLast?_eq_some_getLast htne ▸ hc)

/-- What stands between two trimmed texts does not matter. -/
theorem Trimmed.around {s t : Text} (hs : Trimmed s) (ht : Trimmed t) (hsne : s ≠ []) (htne : t ≠ [])
    (middle : Text) : Trimmed (s ++ (middle ++ t)) := by
  constructor
  · intro c hc
    rw [List.head?_append, List.head?_eq_some_head hsne, Option.some_or] at hc
    exact hs.1 c (List.head?_eq_some_head hsne ▸ hc)
  · intro c hc
    rw [List.getLast?_append, List.getLast?_append, List.getLast?_eq_some_getLast htne,
      Option.some_or, Option.some_or] at hc
    exact ht.2 c (List.getLast?_eq_some_getLast htne ▸ hc)

end Lineshape.Text
