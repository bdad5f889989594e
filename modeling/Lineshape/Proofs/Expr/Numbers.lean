import Lineshape.Number.Shortest
import Lineshape.Proofs.Expr.Canonical

/-! # Numbers in expressions

The text of a number is a word, perhaps behind a sign, and the parser gives it back whole
(`Number.phrase`). Decimal notation of whole numbers reads back (`Whole.natural?_ofNat`). -/

namespace Lineshape
set_option autoImplicit false

/-! ## Whole numbers -/

theorem Whole.natural?_ofNat (n : Nat) : natural? (Text.ofNat n) = some n := by
  have hne : Text.ofNat n ≠ [] := Nat.toDigits_ne_nil
  have hdigits : (Text.ofNat n).all Char.isDigit = true := by
    rw [List.all_eq_true]
    intro c hc
    exact Nat.isDigit_of_mem_toDigits (by decide) (by decide) hc
  have hvalue : value (Text.ofNat n) = n := Nat.ofDigitChars_ten_toDigits
  rw [natural?, if_pos ⟨hne, hdigits⟩, hvalue]

theorem Text.all_isDigit_ofNat (n : Nat) : (Text.ofNat n).all Char.isDigit = true :=
  (Literal.natural?_eq_some (Whole.natural?_ofNat n)).2

/-! ## Words for numbers -/

namespace Literal

/-- The texts that stand for numbers without digits. -/
def words : List Text := ["inf".toList, "infinity".toList, "nan".toList]

theorem isAlpha_of_toLower {c : Char} (h : c.toLower.isAlpha = true) : c.isAlpha = true := by
  by_cases hupper : c.isUpper = true
  · change (c.isUpper || c.isLower) = true
    rw [hupper, Bool.true_or]
  · have hself : c.toLower = c := dif_neg fun hc => hupper (decide_eq_true hc)
    rw [hself] at h
    exact h

/-- An unsigned number is a decimal or, but for the case of its letters, one of the words. -/
theorem magnitude_shape {s : Text} {x : Float} (h : magnitude? s = some x) :
    (decimal? s).isSome = true ∨ s.map Char.toLower ∈ words := by
  rw [magnitude?] at h
  split at h
  · rename_i hdecimal
    rw [hdecimal]
    exact .inl rfl
  · right
    simp only [words, List.mem_cons, List.not_mem_nil, or_false]
    dsimp only at h
    split at h
    · rename_i hword
      tauto
    · split at h
      · rename_i hword
        exact .inr (.inr hword)
      · cases h

theorem isAlpha_of_word {s : Text} (h : s.map Char.toLower ∈ words) :
    s ≠ [] ∧ ∀ c ∈ s, c.isAlpha = true := by
  have hwords : ∀ w ∈ words, w ≠ [] ∧ w.all Char.isAlpha = true := by decide
  obtain ⟨hne, hall⟩ := hwords _ h
  refine ⟨?_, ?_⟩
  · rintro rfl
    exact hne rfl
  · intro c hc
    exact isAlpha_of_toLower (List.all_eq_true.1 hall _ (List.mem_map_of_mem hc))

end Literal

theorem Text.fields_of_forall {separates : Char → Bool} {s : Text}
    (h : ∀ c ∈ s, separates c = false) : Text.fields separates s = [s] := by
  induction s with
  | nil => rfl
  | cons c s ih =>
    rw [Text.fields, h c List.mem_cons_self, ih fun d hd => h d (List.mem_cons_of_mem c hd)]
    rfl

theorem Text.fields_append {separates : Char → Bool} {front : Text} {c : Char} (back : Text)
    (hf : ∀ c ∈ front, separates c = false) (hc : separates c = true) :
    Text.fields separates (front ++ c :: back) = front :: Text.fields separates back := by
  induction front with
  | nil => rw [List.nil_append, fields, if_pos hc]
  | cons d front ih =>
    have hd := hf d List.mem_cons_self
    rw [List.cons_append, fields, if_neg (by rw [hd]; exact Bool.false_ne_true),
      ih fun c hc => hf c (List.mem_cons_of_mem d hc)]

theorem isDotted_of_isSegment {s : Text} (h : isSegment s = true) : isDotted s = true := by
  have hplain : ∀ c ∈ s, (c == '.') = false := by
    intro c hc
    have hname : Text.continuesName c = true := by
      cases s with
      | nil => cases hc
      | cons d s =>
        rw [isSegment, Bool.and_eq_true] at h
        rcases List.mem_cons.1 hc with rfl | hc
        · exact continuesName_of_start h.1
        · exact List.all_eq_true.1 h.2 c hc
    have := (Text.ne_of_continuesName hname).2.2.2
    rwa [beq_eq_false_iff_ne]
  rw [isDotted, Text.fields_of_forall hplain, List.all_cons, h, List.all_nil]
  rfl

theorem isDotted_of_isAlpha {s : Text} (hne : s ≠ []) (h : ∀ c ∈ s, c.isAlpha = true) :
    isDotted s = true := by
  refine isDotted_of_isSegment ?_
  have hletter : ∀ c ∈ s, Text.isLetter c = true := fun c hc => Text.isLetter_of_isAlpha (h c hc)
  cases s with
  | nil => exact absurd rfl hne
  | cons c s =>
    rw [isSegment, hletter c List.mem_cons_self, Bool.true_or, Bool.true_and, List.all_eq_true]
    intro d hd
    rw [Text.continuesName, hletter d (List.mem_cons_of_mem c hd), Bool.true_or, Bool.true_or]

/-- A decimal begins with a digit or a point. -/
theorem Literal.head_of_decimal {s : Text} (h : (decimal? s).isSome = true) :
    ∃ c rest, s = c :: rest ∧ (c.isDigit = true ∨ c = '.') := by
  obtain ⟨d, hd⟩ := Option.isSome_iff_exists.1 h
  obtain ⟨whole, fraction, rest, e, hwhole, -, -, ⟨rfl, hne⟩ | ⟨rfl, -⟩⟩ := decimal_shape hd
  · obtain ⟨c, whole, rfl⟩ := List.exists_cons_of_ne_nil hne
    rw [List.all_cons, Bool.and_eq_true] at hwhole
    exact ⟨c, whole ++ rest, rfl, .inl hwhole.1⟩
  · cases whole with
    | nil => exact ⟨'.', fraction ++ rest, rfl, .inr rfl⟩
    | cons c whole =>
      rw [List.all_cons, Bool.and_eq_true] at hwhole
      exact ⟨c, whole ++ '.' :: (fraction ++ rest), rfl, .inl hwhole.1⟩

theorem Literal.isIdentifier_of_decimal {s : Text} (h : (decimal? s).isSome = true) :
    Expr.isIdentifier s = false := by
  obtain ⟨c, rest, rfl, hc⟩ := head_of_decimal h
  have hstart : (Text.isLetter c || c == '_') = false := by
    rw [← Bool.not_eq_true]
    intro hstart
    rcases hc with hdigit | rfl
    · rw [not_isDigit_of_isLetter hstart] at hdigit
      cases hdigit
    · exact absurd hstart (by decide)
  rw [Expr.isIdentifier]
  simp only [hstart, Bool.and_false, Bool.false_and]

theorem Literal.magnitude_word {s : Text} {x : Float} (h : magnitude? s = some x) :
    Word false s ∧ s ≠ Expr.emptyName := by
  rcases magnitude_shape h with hdecimal | hword
  · exact ⟨Word.of_decimal hdecimal, Expr.PlainLeaf.ne_empty (.inl hdecimal)⟩
  · obtain ⟨hne, hall⟩ := isAlpha_of_word hword
    refine ⟨Word.of_dotted (isDotted_of_isAlpha hne hall), ?_⟩
    rintro rfl
    exact absurd hword (by decide)

namespace Number

theorem read?_cases {s : Text} {x : Float} (h : read? s = some x) :
    ∃ rest y, Literal.magnitude? rest = some y ∧
      (s = '-' :: rest ∨ s = '+' :: rest ∨ s = rest) := by
  rw [read?.eq_def] at h
  split at h
  · rename_i rest
    obtain ⟨y, hy, -⟩ := Option.map_eq_some_iff.1 h
    exact ⟨rest, y, hy, .inl rfl⟩
  · rename_i rest
    exact ⟨rest, x, h, .inr (.inl rfl)⟩
  · exact ⟨_, x, h, .inr (.inr rfl)⟩

theorem read_decimal {name : Text} {x : Float} (h : read? name = some x)
    (hhead : (name.head?.any fun c => c.isDigit || c == '.') = true) :
    (Literal.decimal? name).isSome = true := by
  have hsign : ∀ c ∈ name.head?, (c.isDigit || c == '.') = true := by
    intro c hc
    rw [Option.mem_def.1 hc] at hhead
    exact hhead
  obtain ⟨rest, y, hmagnitude, rfl | rfl | rfl⟩ := read?_cases h
  · exact absurd (hsign '-' rfl) (by decide)
  · exact absurd (hsign '+' rfl) (by decide)
  · rcases Literal.magnitude_shape hmagnitude with hdecimal | hword
    · exact hdecimal
    · obtain ⟨hne, hall⟩ := Literal.isAlpha_of_word hword
      obtain ⟨c, s, rfl⟩ := List.exists_cons_of_ne_nil hne
      have hletter : Text.isLetter c = true := Text.isLetter_of_isAlpha (hall c List.mem_cons_self)
      have hdigit : c.isDigit = false := not_isDigit_of_isLetter (by rw [hletter]; rfl)
      have hpoint : c ≠ '.' := by
        rintro rfl
        exact absurd (hall '.' List.mem_cons_self) (by decide)
      have hc := hsign c rfl
      rw [hdigit, beq_false_of_ne hpoint] at hc
      cases hc

/-- The text of a number as a phrase: a word, perhaps behind a sign. -/
def phrase : Text → Phrase
  | '-' :: rest => .signed ['-'] (.word rest false)
  | '+' :: rest => .signed ['+'] (.word rest false)
  | s => .word s false

theorem levels_phrase (s : Text) : (phrase s).levels ≤ 2 := by
  rw [phrase.eq_def]
  split
  · exact Nat.le_refl 2
  · exact Nat.le_refl 2
  · exact Nat.le_succ 1

theorem text_leaf {name op : Text} (h : name ≠ Expr.emptyName) :
    Expr.text ⟨name, op, []⟩ = name := by
  rw [Expr.text, Expr.render, if_neg h]

/-- The phrase of a number is read as a tree that is written as the number. -/
theorem phrase_spec {s : Text} {x : Float} (h : read? s = some x) :
    (phrase s).Valid ∧ (phrase s).text = s ∧ (phrase s).rank = 0 ∧ (phrase s).isOpen = false ∧
      ∀ op, ((phrase s).tree op).text = s := by
  rw [read?.eq_def] at h
  have hsigned : ∀ (c : Char) (rest : Text) (y : Float), Literal.magnitude? rest = some y →
      OperatorTable.standard.isUnary [c] = true →
      (Phrase.signed [c] (.word rest false)).Valid ∧
        ∀ op, ((Phrase.signed [c] (.word rest false)).tree op).text = c :: rest := by
    intro c rest y hy hc
    obtain ⟨hword, hne⟩ := Literal.magnitude_word hy
    refine ⟨⟨hc, hword, rfl⟩, fun op => ?_⟩
    rw [Phrase.tree, Phrase.tree, Expr.text_prefixed hc, Expr.binding_leaf, text_leaf hne]
    rfl
  split at h
  · rename_i rest
    obtain ⟨y, hy, -⟩ := Option.map_eq_some_iff.1 h
    obtain ⟨hvalid, htree⟩ := hsigned '-' rest y hy (by decide)
    exact ⟨hvalid, rfl, rfl, rfl, htree⟩
  · rename_i rest
    obtain ⟨hvalid, htree⟩ := hsigned '+' rest x h (by decide)
    exact ⟨hvalid, rfl, rfl, rfl, htree⟩
  · rename_i hminus hplus
    obtain ⟨hword, hne⟩ := Literal.magnitude_word h
    have hphrase : phrase s = .word s false := by
      rw [phrase.eq_def]
      split
      · exact absurd rfl (hminus _)
      · exact absurd rfl (hplus _)
      · rfl
    rw [hphrase]
    exact ⟨hword, rfl, rfl, rfl, fun op => text_leaf hne⟩

end Number

/-! ## Every number is written as one -/

namespace Literal

theorem value_zeros (k : Nat) (digits : Text) :
    Whole.value (List.replicate k '0' ++ digits) = Whole.value digits := by
  induction k with
  | zero => rfl
  | succ k ih =>
    rw [List.replicate_succ, List.cons_append]
    exact ih

theorem value_append_zeros (digits : Text) (k : Nat) :
    Whole.value (digits ++ List.replicate k '0') = Whole.value digits * Nat.pow 10 k := by
  induction k with
  | zero => rw [List.replicate_zero, List.append_nil, Nat.pow, Nat.mul_one]
  | succ k ih =>
    rw [List.replicate_succ', ← List.append_assoc, Whole.value, List.foldl_append, ← Whole.value, ih]
    change 10 * (Whole.value digits * Nat.pow 10 k) = Whole.value digits * (Nat.pow 10 k * 10)
    rw [← Nat.mul_assoc (Whole.value digits), Nat.mul_comm 10]

theorem decimal?_whole {whole : Text} (hw : whole.all Char.isDigit = true) (hne : whole ≠ []) :
    decimal? whole = some (Whole.value whole, 0) := by
  have htake : whole.takeWhile Char.isDigit = whole := List.takeWhile_eq_self_iff.2 (List.all_eq_true.1 hw)
  have hdrop : whole.dropWhile Char.isDigit = [] := List.dropWhile_eq_nil_iff.2 (List.all_eq_true.1 hw)
  simp [decimal?, htake, hdrop, hne, exponent?]

theorem decimal?_point {whole fraction : Text} (hw : whole.all Char.isDigit = true)
    (hf : fraction.all Char.isDigit = true) (hne : whole ≠ []) :
    decimal? (whole ++ '.' :: fraction) =
      some (Whole.value (whole ++ fraction), -(fraction.length : Int)) := by
  have htake : (whole ++ '.' :: fraction).takeWhile Char.isDigit = whole := by
    rw [List.takeWhile_append_of_pos (List.all_eq_true.1 hw), List.takeWhile_cons_of_neg (by decide),
      List.append_nil]
  have hdrop : (whole ++ '.' :: fraction).dropWhile Char.isDigit = '.' :: fraction := by
    rw [List.dropWhile_append_of_pos (List.all_eq_true.1 hw), List.dropWhile_cons_of_neg (by decide)]
  have htake' : fraction.takeWhile Char.isDigit = fraction :=
    List.takeWhile_eq_self_iff.2 (List.all_eq_true.1 hf)
  have hdrop' : fraction.dropWhile Char.isDigit = [] :=
    List.dropWhile_eq_nil_iff.2 (List.all_eq_true.1 hf)
  simp [decimal?, htake, hdrop, htake', hdrop', hne, exponent?]

/-- A decimal is read back from its text in full, with the zeros behind a whole number in its
digits. -/
theorem decimal?_write {digits : Text} (hd : digits.all Char.isDigit = true) (hne : digits ≠ [])
    (exponent : Int) : decimal? (Layout.plain.write digits exponent) =
      some (Whole.value digits * Nat.pow 10 exponent.toNat, min exponent 0) := by
  have hzeros : ∀ n, (List.replicate n '0').all Char.isDigit = true := fun n =>
    List.all_eq_true.2 fun c hc => List.eq_of_mem_replicate hc ▸ rfl
  have hpart : ∀ part : Text, part ⊆ digits → part.all Char.isDigit = true := fun part hpart =>
    List.all_eq_true.2 fun c hc => List.all_eq_true.1 hd c (hpart hc)
  change decimal? (Layout.plain.positional digits exponent) = _
  rw [Layout.positional.eq_def]
  split
  · rename_i zeros
    change decimal? (digits ++ List.replicate zeros '0' ++ []) = _
    rw [List.append_nil, decimal?_whole, value_append_zeros]
    · exact congrArg some (Prod.ext rfl (Int.min_eq_right (Int.natCast_nonneg zeros)).symm)
    · rw [List.all_append, hd, hzeros]
      rfl
    · simp [hne]
  · rename_i n
    dsimp only
    split
    · rename_i hplaces
      rw [decimal?_point (hpart _ (List.take_subset _ _)) (hpart _ (List.drop_subset _ _)),
        List.take_append_drop]
      · simp
        omega
      · rw [Ne, List.take_eq_nil_iff, not_or]
        exact ⟨by omega, hne⟩
    · have hzero : "0.".toList ++ List.replicate (n + 1 - digits.length) '0' ++ digits =
          ['0'] ++ '.' :: (List.replicate (n + 1 - digits.length) '0' ++ digits) := rfl
      have hvalue : Whole.value (['0'] ++ (List.replicate (n + 1 - digits.length) '0' ++ digits)) =
          Whole.value digits := (value_zeros 1 _).trans (value_zeros _ _)
      rw [hzero, decimal?_point rfl _ (List.cons_ne_nil _ _), hvalue]
      · simp
        omega
      · rw [List.all_append, hzeros, hd]
        rfl

end Literal

namespace Number

theorem exists_magnitude_text (x : Float) :
    ∃ y, Literal.magnitude? (magnitudeText .plain x) = some y := by
  have hdecimal : ∀ s, (Literal.decimal? s).isSome = true → ∃ y, Literal.magnitude? s = some y := by
    intro s hs
    obtain ⟨d, hd⟩ := Option.isSome_iff_exists.1 hs
    exact ⟨_, by rw [Literal.magnitude?, hd]⟩
  rw [magnitudeText]
  split
  · exact ⟨_, rfl⟩
  · exact ⟨_, rfl⟩
  · exact hdecimal _ (by decide)
  · refine hdecimal _ ?_
    rw [Literal.decimal?_write (Text.all_isDigit_ofNat _)
      (Literal.natural?_eq_some (Whole.natural?_ofNat _)).1]
    rfl

/-- A number without a sign is read as what it is. -/
theorem read?_of_magnitude {s : Text} {y : Float} (h : Literal.magnitude? s = some y) :
    read? s = some y := by
  obtain ⟨c, rest, hs, hc, -⟩ := (Literal.magnitude_word h).1.first
  rw [read?.eq_def]
  split
  · cases hs
    cases hc
  · cases hs
    cases hc
  · exact h

/-- Every double is written as some number, though not always as itself. -/
theorem exists_read_plain (x : Float) : ∃ y, read? (plain x) = some y := by
  obtain ⟨y, hy⟩ := exists_magnitude_text x
  rw [plain, text]
  split
  · exact ⟨_, congrArg (Option.map Float.neg) hy⟩
  · exact ⟨y, read?_of_magnitude hy⟩

/-- The number that is read from the text of a number. -/
def reread (x : Float) : Float := (read? (plain x)).getD x

theorem read?_plain (x : Float) : read? (plain x) = some (reread x) := by
  obtain ⟨y, hy⟩ := exists_read_plain x
  rw [reread, hy]
  rfl

theorem reread_eq {x : Float} (h : read? (plain x) = some x) : reread x = x := by
  rw [reread, h]
  rfl

end Number
end Lineshape
