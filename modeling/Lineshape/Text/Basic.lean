/-! # Text

Model texts are read and written one character at a time, so a text is a list of characters.

* `Text.byteSize`: the size of a text in its eight-bit encoding.
* `Text.charsWithin`: how many leading characters end inside a given number of bytes.
* `Text.fields`: the pieces of a text between separators; joined again they are the text less its
  separators (`Text.flatten_fields`).
* `Text.ofNat`, `Text.ofInt`: decimal notation of whole numbers.
* `Text.sortDistinct`: a list of texts in increasing order, each written once.
-/

namespace Lineshape
set_option autoImplicit false

/-- A text is the list of its characters. -/
abbrev Text := List Char

namespace Text

/-- Whether all characters of a text have a property is decided along the text, not by running through
all characters there are. -/
instance {P : Char → Prop} [DecidablePred P] (s : Text) : Decidable (∀ c ∈ s, P c) :=
  s.decidableBAll P

instance {P : Char → Prop} [DecidablePred P] (c? : Option Char) : Decidable (∀ c ∈ c?, P c) :=
  c?.decidableForallMem

/-! ## Positions -/

/-- The number of bytes of the encoded text. -/
def byteSize : Text → Nat
  | [] => 0
  | c :: s => c.utf8Size + byteSize s

@[simp] theorem byteSize_nil : byteSize [] = 0 := rfl

@[simp] theorem byteSize_cons (c : Char) (s : Text) :
    byteSize (c :: s) = c.utf8Size + byteSize s := rfl

@[simp] theorem byteSize_append (s t : Text) : byteSize (s ++ t) = byteSize s + byteSize t := by
  induction s with
  | nil => simp
  | cons c s ih => simp [ih, Nat.add_assoc]

/-- The number of leading characters that lie within the first `bytes` bytes. -/
def charsWithin (bytes : Nat) : Text → Nat
  | [] => 0
  | c :: s => if c.utf8Size ≤ bytes then charsWithin (bytes - c.utf8Size) s + 1 else 0

/-- The characters counted by `charsWithin` do fit. -/
theorem byteSize_take_charsWithin (bytes : Nat) (s : Text) :
    byteSize (s.take (charsWithin bytes s)) ≤ bytes := by
  induction s generalizing bytes with
  | nil => simp [charsWithin]
  | cons c s ih =>
    simp only [charsWithin]
    split
    · rename_i h
      have := ih (bytes - c.utf8Size)
      simp only [List.take_succ_cons, byteSize_cons]
      omega
    · simp

/-! ## Pieces -/

/-- The pieces of a text between the characters that `separates` holds of. -/
def fields (separates : Char → Bool) : Text → List Text
  | [] => [[]]
  | c :: s =>
    if separates c then [] :: fields separates s
    else match fields separates s with
      | [] => [[c]]
      | piece :: pieces => (c :: piece) :: pieces

/-- Only the separators are left out. -/
theorem flatten_fields (separates : Char → Bool) (s : Text) :
    (fields separates s).flatten = s.filter (! separates ·) := by
  induction s with
  | nil => rfl
  | cons c s ih =>
    simp only [fields]
    split
    · rename_i h; simp [h, ih]
    · rename_i h
      split <;> rename_i e <;> rw [e] at ih <;> simp_all

/-! ## Whole numbers -/

/-- Decimal notation of a natural number. -/
def ofNat (n : Nat) : Text := Nat.toDigits 10 n

/-- Decimal notation of an integer, with a sign if it is negative. -/
def ofInt : Int → Text
  | .ofNat n => ofNat n
  | .negSucc n => '-' :: ofNat (n + 1)

/-! ## Order -/

/-- Put a text into an increasing list, unless it is there already. -/
def insertDistinct (s : Text) : List Text → List Text
  | [] => [s]
  | t :: ts => if s < t then s :: t :: ts else if s = t then t :: ts else t :: insertDistinct s ts

/-- The texts of a list in increasing order, each once. -/
def sortDistinct (texts : List Text) : List Text := texts.foldr insertDistinct []

theorem mem_insertDistinct {s x : Text} {texts : List Text} :
    x ∈ insertDistinct s texts ↔ x = s ∨ x ∈ texts := by
  induction texts with
  | nil => simp [insertDistinct]
  | cons t ts ih =>
    simp only [insertDistinct]
    split
    · simp
    · split
      · rename_i h; subst h; simp
      · simp only [List.mem_cons, ih]; grind

/-- Sorting keeps exactly the texts of the list. -/
theorem mem_sortDistinct {x : Text} {texts : List Text} : x ∈ sortDistinct texts ↔ x ∈ texts := by
  induction texts with
  | nil => simp [sortDistinct]
  | cons t ts ih => simpa [sortDistinct, mem_insertDistinct] using or_congr_right ih

end Text
end Lineshape
