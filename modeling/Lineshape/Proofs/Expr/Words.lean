import Lineshape.Number.Literal
import Lineshape.Proofs.Expr.Scan

/-! # Words

The texts that are leaves of an expression wherever they stand: dotted identifiers, decimal
numbers, quoted texts, and calls without arguments. `Word` gathers what the parser needs to know of
one. A quoted text may have more quotes in it, as long as they pair up around parts that continue a
word (`Text.Quotable`). -/

namespace Lineshape
set_option autoImplicit false

/-- A text that is a leaf wherever it stands; an open one may be taken for a number whose exponent
has not come yet, so that no sign may follow. -/
structure Word (isOpen : Bool) (s : Text) : Prop where
  reads : ∀ a : Cursor, a.Fresh → ∃ b, Lexeme.Reads .standard a s (s.map .letter) b ∧ b.Settled ∧
    (isOpen = false → b.number.expectsSign = false)
  leaf : Expr.Term.ofText .standard s = .ok (.leaf s)
  trimmed : Text.Trimmed s
  balanced : Balanced s
  first : ∃ c rest, s = c :: rest ∧ OperatorTable.standard.isSymbol c = false ∧ c ≠ '('

/-! ## Leaves -/

namespace Expr

theorem leading?_of_first {c : Char} (h : OperatorTable.standard.isSymbol c = false)
    (rest : Text) : OperatorTable.standard.leading? (c :: rest) = none := by
  have hu : OperatorTable.standard.isUnary [c] = false := by
    rw [← Bool.not_eq_true, OperatorTable.isUnary_iff]
    rintro (hc | hc)
    · cases hc
      exact absurd h (by decide)
    · cases hc
      exact absurd h (by decide)
  match rest with
  | [] => rfl
  | [b] => simp [OperatorTable.leading?, hu]
  | b :: d :: rest => simp [OperatorTable.leading?, hu, h]

theorem ofText_eq_leaf {c : Char} {rest : Text} (hc : OperatorTable.standard.isSymbol c = false)
    (h : splitAtOpening false (c :: rest) = none) :
    Term.ofText .standard (c :: rest) = .ok (.leaf (c :: rest)) := by
  rw [Term.ofText, leading?_of_first hc]
  simp [h]

/-- A text that ends with the partner of its first bracket is a call, or a leaf if nothing stands
between the brackets. -/
theorem ofText_brackets {head inside : Text} (hh : ∀ c ∈ head, c ≠ '"' ∧ c ≠ '(')
    (hl : OperatorTable.standard.leading? (head ++ ('(' :: inside ++ [')'])) = none)
    (hi : Balanced inside) :
    Term.ofText .standard (head ++ ('(' :: inside ++ [')'])) =
      .ok (if Text.isAllBlank inside then .leaf (head ++ ('(' :: inside ++ [')']))
        else .call (Text.trim head) (Text.trim inside)) := by
  have hopen := splitAtOpening_append hh (inside ++ [')'])
  have hclose := splitAtClosing_of_balanced hi []
  have hne : (head ++ '(' :: (inside ++ [')'])).isEmpty = false := by simp
  rw [List.cons_append] at hl ⊢
  rw [Term.ofText, hl, hopen]
  simp only [hne, hclose]
  cases Text.isAllBlank inside with
  | false => rfl
  | true => rfl

end Expr

theorem splitAtOpening_eq_none {quoted : Bool} {s : Text} (h : '(' ∉ s) :
    splitAtOpening quoted s = none := by
  induction s generalizing quoted with
  | nil => rfl
  | cons c s ih =>
    have hc : c ≠ '(' := fun hc => h (hc ▸ List.mem_cons_self)
    simp [splitAtOpening, hc, ih fun hm => h (List.mem_cons_of_mem _ hm)]

theorem splitAtOpening_quotes {s rest : Text} (h : '"' ∉ s)
    (hrest : splitAtOpening false rest = none) :
    splitAtOpening true (s ++ '"' :: rest) = none := by
  induction s with
  | nil => simp [splitAtOpening, hrest]
  | cons c s ih =>
    have hc : c ≠ '"' := fun hc => h (hc ▸ List.mem_cons_self)
    simp [splitAtOpening, hc, ih fun hm => h (List.mem_cons_of_mem _ hm)]

theorem splitAtOpening_plain {s rest : Text} (h : ∀ c ∈ s, c ≠ '"' ∧ c ≠ '(')
    (hrest : splitAtOpening false rest = none) : splitAtOpening false (s ++ rest) = none := by
  induction s with
  | nil => exact hrest
  | cons c s ih =>
    obtain ⟨hquote, hopen⟩ := h c List.mem_cons_self
    simp [splitAtOpening, hquote, hopen, ih fun d hd => h d (List.mem_cons_of_mem c hd)]

/-! ## Words of one row of characters -/

namespace Lexeme

theorem trace_cons {number n : NumberScan} {previous : Option Char} {c : Char} {s : Text}
    (h : trace number previous (c :: s) = some n) :
    c ≠ '(' ∧ c ≠ ')' ∧ c ≠ '"' ∧
      (OperatorTable.standard.isSymbol c = true → (number.feed previous c).isInside = true) ∧
      trace (number.feed previous c) (some c) s = some n := by
  simp only [trace] at h
  split at h
  · cases h
  · rename_i hc
    simp only [not_or, not_and, Bool.not_eq_false] at hc
    exact ⟨hc.1, hc.2.1, hc.2.2.1, hc.2.2.2, h⟩

theorem plain_of_trace {number n : NumberScan} {previous : Option Char} {s : Text}
    (h : trace number previous s = some n) : ∀ c ∈ s, c ≠ '"' ∧ c ≠ '(' ∧ c ≠ ')' := by
  induction s generalizing number previous with
  | nil => simp
  | cons c s ih =>
    obtain ⟨ho, hc, hq, -, hs⟩ := trace_cons h
    intro d hd
    rcases List.mem_cons.1 hd with rfl | hd
    · exact ⟨hq, ho, hc⟩
    · exact ih hs d hd

theorem trace_append {number middle : NumberScan} {previous : Option Char} {s t : Text}
    (h : trace number previous s = some middle) :
    trace number previous (s ++ t) = trace middle (s.getLast?.or previous) t := by
  induction s generalizing number previous with
  | nil => cases h; rfl
  | cons c s ih =>
    obtain ⟨ho, hc, hq, hsym, hs⟩ := trace_cons h
    have hnot : ¬ (c = '(' ∨ c = ')' ∨ c = '"' ∨ (OperatorTable.standard.isSymbol c = true ∧
        (number.feed previous c).isInside = false)) := by
      rintro (h1 | h1 | h1 | ⟨h1, h2⟩)
      · exact ho h1
      · exact hc h1
      · exact hq h1
      · rw [hsym h1] at h2
        cases h2
    have hlast : (c :: s).getLast?.or previous = s.getLast?.or (some c) := by
      cases hl : s.getLast? with
      | none => simp [List.getLast?_cons, hl]
      | some d => simp [List.getLast?_cons, hl]
    rw [List.cons_append, trace, if_neg hnot, ih hs, hlast]

theorem trace_inside (point mark sign : Bool) (p q : Option Char) (s : Text) :
    trace (.inside point mark sign) p s = trace (.inside point mark sign) q s := by
  cases s with
  | nil => rfl
  | cons c s => rfl

/-- A character that is no symbol, bracket, quote or digit leaves the scan outside numbers. -/
theorem trace_step {previous : Option Char} {c : Char} {s : Text}
    (hs : OperatorTable.standard.isSymbol c = false) (hb : c ≠ '(' ∧ c ≠ ')' ∧ c ≠ '"')
    (hd : c.isDigit = true → previous.any Text.continuesName = true) :
    trace .outside previous (c :: s) = trace .outside (some c) s := by
  have hf : NumberScan.outside.feed previous c = .outside := by
    cases hdigit : c.isDigit with
    | false => simp [NumberScan.feed, hdigit]
    | true => simp [NumberScan.feed, hd hdigit]
  simp [trace, hf, hs, hb]

end Lexeme

/-- A row of characters that the scan takes as one term is a word. -/
theorem Word.of_trace {isOpen : Bool} {s : Text} {n : NumberScan}
    (h : Lexeme.trace .outside none s = some n) (hs : s ≠ []) (ht : Text.Trimmed s)
    (hn : isOpen = false → n.expectsSign = false) : Word isOpen s := by
  obtain ⟨c, rest, rfl⟩ := List.exists_cons_of_ne_nil hs
  obtain ⟨hopen, -, -, hsym, -⟩ := Lexeme.trace_cons h
  have hplain := Lexeme.plain_of_trace h
  have hc : OperatorTable.standard.isSymbol c = false := by
    cases hc : OperatorTable.standard.isSymbol c with
    | false => rfl
    | true =>
      have hin := hsym hc
      have hdigit := (OperatorTable.symbol_facts hc).2.2.2.2.2.2.1
      simp [NumberScan.feed, hdigit, NumberScan.isInside] at hin
  refine ⟨?_, ?_, ht, Balanced.of_plain hplain, c, rest, rfl, hc, hopen⟩
  · intro a ha
    obtain ⟨b, hread, hb, hnumber⟩ := Lexeme.reads_word (fun _ _ hc => hc) ha h (ht.isAllBlank_eq hs)
    exact ⟨b, hread, hb, fun ho => by rw [hnumber]; exact hn ho⟩
  · exact Expr.ofText_eq_leaf hc
      (splitAtOpening_eq_none fun hm => (hplain '(' hm).2.1 rfl)

/-! ## Quoted texts -/

/-- A text without quotes, brackets and characters of operators. -/
def Text.Wordlike (s : Text) : Prop :=
  ∀ c ∈ s, c ≠ '"' ∧ c ≠ '(' ∧ c ≠ ')' ∧ OperatorTable.standard.isSymbol c = false

instance (s : Text) : Decidable s.Wordlike :=
  inferInstanceAs (Decidable (∀ c ∈ s, _))

theorem Text.Wordlike.balanced {s : Text} (h : s.Wordlike) : Balanced s :=
  .of_plain fun c hc => ⟨(h c hc).1, (h c hc).2.1, (h c hc).2.2.1⟩

theorem Lexeme.exists_trace_of_wordlike {s : Text} (h : s.Wordlike) (number : NumberScan)
    (previous : Option Char) : ∃ n, trace number previous s = some n := by
  induction s generalizing number previous with
  | nil => exact ⟨number, rfl⟩
  | cons c s ih =>
    obtain ⟨hquote, hopen, hclose, hsymbol⟩ := h c List.mem_cons_self
    obtain ⟨n, hn⟩ := ih (fun d hd => h d (List.mem_cons_of_mem c hd)) (number.feed previous c) (some c)
    exact ⟨n, by simp [trace, hquote, hopen, hclose, hsymbol, hn]⟩

/-- A text that is a single leaf when quotes are put around it. Either no quote is in it, or the quotes
in it enclose parts that continue a word, and these are then the parts outside of quotes. -/
inductive Text.Quotable : Text → Prop
  | free {s : Text} : '"' ∉ s → Quotable s
  | paired {front middle back : Text} : '"' ∉ front → Wordlike middle → Quotable back →
    Quotable (front ++ '"' :: (middle ++ '"' :: back))

theorem Text.quoted_paired (front middle back : Text) :
    '"' :: (front ++ '"' :: (middle ++ '"' :: back)) ++ ['"'] =
      ('"' :: front ++ ['"']) ++ (middle ++ ('"' :: back ++ ['"'])) := by
  simp

namespace Text.Quotable

variable {s : Text}

theorem balanced (h : Quotable s) : Balanced ('"' :: s ++ ['"']) := by
  induction h with
  | free hs => exact .quoted hs
  | paired hfront hmiddle _ ih =>
    rw [quoted_paired]
    exact (Balanced.quoted hfront).append (hmiddle.balanced.append ih)

theorem splitAtOpening_eq_none (h : Quotable s) :
    splitAtOpening false ('"' :: s ++ ['"']) = none := by
  suffices hinside : splitAtOpening true (s ++ ['"']) = none by simp [splitAtOpening, hinside]
  induction h with
  | free hs => exact splitAtOpening_quotes hs rfl
  | @paired front middle back hfront hmiddle _ ih =>
    have hback : splitAtOpening false ('"' :: (back ++ ['"'])) = none := by
      simp [splitAtOpening, ih]
    have hplain : splitAtOpening false (middle ++ '"' :: (back ++ ['"'])) = none :=
      splitAtOpening_plain (fun c hc => ⟨(hmiddle c hc).1, (hmiddle c hc).2.1⟩) hback
    simpa using splitAtOpening_quotes hfront hplain

/-- Each quoted part is read to its end, and what stands between two of them continues the term. -/
theorem reads (h : Quotable s) {a : Cursor} (ho : a.opened = []) (hq : a.quoted = none) :
    ∃ b, Lexeme.Reads .standard a ('"' :: s ++ ['"']) (('"' :: s ++ ['"']).map .letter) b ∧
      b.Settled ∧ b.number = .outside := by
  induction h generalizing a with
  | free hs => exact Lexeme.reads_quotes ho hq hs
  | @paired front middle back hfront hmiddle _ ih =>
    obtain ⟨b, hread, hb, -⟩ := Lexeme.reads_quotes ho hq hfront
    obtain ⟨n, htrace⟩ := Lexeme.exists_trace_of_wordlike hmiddle b.number b.previous
    obtain ⟨c, hread', hopened, hquoted, -, -⟩ :=
      Lexeme.reads_of_trace (fun _ _ hsymbol => hsymbol) htrace hb.opened hb.quoted
    obtain ⟨d, hread'', hd⟩ := ih hopened hquoted
    have hall := hread.trans (hread'.trans hread'')
    rw [← List.map_append, ← List.map_append, ← quoted_paired] at hall
    exact ⟨d, hall, hd⟩

end Text.Quotable

/-- Between quotes a quotable text is a word. -/
theorem Word.of_quotable {s : Text} (h : s.Quotable) : Word false ('"' :: s ++ ['"']) := by
  have hsymbol : OperatorTable.standard.isSymbol '"' = false := by decide
  have hblank : Text.isBlank '"' = false := by decide
  refine ⟨?_, ?_, ⟨?_, ?_⟩, h.balanced, '"', s ++ ['"'], rfl, hsymbol, by decide⟩
  · intro a ha
    obtain ⟨b, hread, hb, hn⟩ := h.reads ha.opened ha.quoted
    refine ⟨b, hread, hb, fun _ => ?_⟩
    rw [hn]
    rfl
  · exact Expr.ofText_eq_leaf hsymbol h.splitAtOpening_eq_none
  · intro c hc
    cases hc
    exact hblank
  · intro c hc
    rw [List.getLast?_append] at hc
    cases hc
    exact hblank

/-- A quoted text without inner quotes is a word. -/
theorem Word.of_quotes {s : Text} (h : '"' ∉ s) : Word false ('"' :: s ++ ['"']) :=
  .of_quotable (.free h)

/-! ## Dotted identifiers -/

/-- A segment of a dotted identifier: it begins with a letter or an underscore. -/
def isSegment : Text → Bool
  | [] => false
  | c :: s => (Text.isLetter c || c == '_') && s.all Text.continuesName

/-- Whether a text is a dotted identifier: segments with points between them. -/
def isDotted (s : Text) : Bool := (Text.fields (· == '.') s).all isSegment

theorem not_isDigit_of_isLetter {c : Char} (h : (Text.isLetter c || c == '_') = true) :
    c.isDigit = false := by
  cases hd : c.isDigit with
  | false => rfl
  | true =>
    have hcode : 48 ≤ c.toNat ∧ c.toNat ≤ 57 := by
      simp only [Char.isDigit, Bool.and_eq_true, decide_eq_true_eq, ge_iff_le,
        UInt32.le_iff_toNat_le] at hd
      exact hd
    have hlt : c.toNat < 0x80 := by omega
    rw [Text.isLetter_of_lt hlt] at h
    have hall : ∀ n ∈ [48, 49, 50, 51, 52, 53, 54, 55, 56, 57],
        ((Char.ofNat n).isAlpha || Char.ofNat n == '_') = false := by decide
    have hm : c.toNat ∈ [48, 49, 50, 51, 52, 53, 54, 55, 56, 57] := by
      simp only [List.mem_cons, List.not_mem_nil, or_false]
      omega
    have := hall _ hm
    rw [Char.ofNat_toNat, h] at this
    cases this

theorem continuesName_of_start {c : Char} (h : (Text.isLetter c || c == '_') = true) :
    Text.continuesName c = true := by
  rw [Bool.or_eq_true] at h
  rcases h with h | h <;> simp [Text.continuesName, h]

theorem trace_dotted (s : Text) :
    (∀ previous, isDotted s = true → Lexeme.trace .outside previous s = some .outside) ∧
    ∀ previous piece pieces, Text.fields (· == '.') s = piece :: pieces →
      piece.all Text.continuesName = true → pieces.all isSegment = true →
      previous.any Text.continuesName = true →
      Lexeme.trace .outside previous s = some .outside := by
  induction s with
  | nil =>
    refine ⟨?_, fun _ _ _ _ _ _ _ => rfl⟩
    intro previous h
    cases h
  | cons c s ih =>
    obtain ⟨ihstart, ihinside⟩ := ih
    by_cases hc : c = '.'
    · subst hc
      have hdot : ∀ previous, Lexeme.trace .outside previous ('.' :: s) =
          Lexeme.trace .outside (some '.') s := by
        intro previous
        exact Lexeme.trace_step (by decide) (by decide) (fun h => absurd h (by decide))
      have hfields : Text.fields (· == '.') ('.' :: s) = [] :: Text.fields (· == '.') s := by
        simp [Text.fields]
      constructor
      · intro previous h
        rw [isDotted, hfields] at h
        simp [isSegment] at h
      · intro previous piece pieces hp _ hpieces _
        rw [hfields] at hp
        cases hp
        rw [hdot]
        exact ihstart _ hpieces
    · obtain ⟨piece', pieces', hp'⟩ : ∃ piece pieces, Text.fields (· == '.') s = piece :: pieces := by
        cases s with
        | nil => exact ⟨[], [], rfl⟩
        | cons d s =>
          simp only [Text.fields]
          split
          · exact ⟨_, _, rfl⟩
          · split <;> exact ⟨_, _, rfl⟩
      have hfields : Text.fields (· == '.') (c :: s) = (c :: piece') :: pieces' := by
        simp [Text.fields, hc, hp']
      constructor
      · intro previous h
        rw [isDotted, hfields, List.all_cons, Bool.and_eq_true, isSegment, Bool.and_eq_true] at h
        obtain ⟨⟨hstart, hpiece⟩, hpieces⟩ := h
        have hcont := continuesName_of_start hstart
        have hne := Text.ne_of_continuesName hcont
        have hdigit := not_isDigit_of_isLetter hstart
        rw [Lexeme.trace_step (OperatorTable.isSymbol_of_continuesName hcont)
          ⟨hne.1, hne.2.1, hne.2.2.1⟩ (fun hd => by rw [hdigit] at hd; cases hd)]
        exact ihinside _ piece' pieces' hp' hpiece hpieces (by simpa using hcont)
      · intro previous piece pieces hp hpiece hpieces hprevious
        rw [hfields] at hp
        cases hp
        rw [List.all_cons, Bool.and_eq_true] at hpiece
        have hne := Text.ne_of_continuesName hpiece.1
        rw [Lexeme.trace_step (OperatorTable.isSymbol_of_continuesName hpiece.1)
          ⟨hne.1, hne.2.1, hne.2.2.1⟩ (fun _ => hprevious)]
        exact ihinside _ piece' pieces' hp' hpiece.2 hpieces (by simpa using hpiece.1)

theorem dotted_char {s : Text} (h : isDotted s = true) {c : Char} (hc : c ∈ s) :
    Text.continuesName c = true ∨ c = '.' := by
  by_cases hdot : c = '.'
  · exact .inr hdot
  · left
    have hm : c ∈ (Text.fields (· == '.') s).flatten := by
      rw [Text.flatten_fields]
      simp [hc, hdot]
    obtain ⟨piece, hpiece, hcp⟩ := List.mem_flatten.1 hm
    have hseg := List.all_eq_true.1 h piece hpiece
    cases piece with
    | nil => cases hcp
    | cons d piece =>
      rw [isSegment, Bool.and_eq_true] at hseg
      rcases List.mem_cons.1 hcp with rfl | hcp
      · exact continuesName_of_start hseg.1
      · exact List.all_eq_true.1 hseg.2 c hcp

theorem isBlank_of_dotted {s : Text} (h : isDotted s = true) {c : Char} (hc : c ∈ s) :
    Text.isBlank c = false := by
  rcases dotted_char h hc with hcont | rfl
  · exact Text.isBlank_of_continuesName hcont
  · decide

theorem dotted_ne_nil {s : Text} (h : isDotted s = true) : s ≠ [] := by
  rintro rfl
  cases h

theorem Word.of_dotted {s : Text} (h : isDotted s = true) : Word false s := by
  have ht := (trace_dotted s).1 none h
  refine Word.of_trace ht (dotted_ne_nil h) ⟨?_, ?_⟩ fun _ => rfl
  · exact fun c hc => isBlank_of_dotted h (List.mem_of_mem_head? hc)
  · exact fun c hc => isBlank_of_dotted h (List.mem_of_getLast? hc)

/-! ## Numbers -/

namespace Lexeme

theorem isSymbol_of_isDigit {c : Char} (h : c.isDigit = true) :
    OperatorTable.standard.isSymbol c = false :=
  OperatorTable.isSymbol_of_continuesName (Text.continuesName_of_isDigit h)

theorem trace_inside_step {point mark sign : Bool} (next : NumberScan) {previous : Option Char}
    {c : Char} {s : Text} (hf : (NumberScan.inside point mark sign).feed previous c = next)
    (hn : next.isInside = true) (hc : c ≠ '(' ∧ c ≠ ')' ∧ c ≠ '"') :
    trace (.inside point mark sign) previous (c :: s) = trace next (some c) s := by
  simp [trace, hf, hn, hc]

theorem digit_ne {c : Char} (h : c.isDigit = true) : c ≠ '(' ∧ c ≠ ')' ∧ c ≠ '"' := by
  have hne := Text.ne_of_continuesName (Text.continuesName_of_isDigit h)
  exact ⟨hne.1, hne.2.1, hne.2.2.1⟩

theorem trace_digits {point mark : Bool} {previous : Option Char} {s t : Text}
    (hs : s.all Char.isDigit = true) :
    trace (.inside point mark false) previous (s ++ t) =
      trace (.inside point mark false) none t := by
  induction s generalizing previous with
  | nil => exact trace_inside _ _ _ _ _ _
  | cons c s ih =>
    rw [List.all_cons, Bool.and_eq_true] at hs
    have hf : (NumberScan.inside point mark false).feed previous c = .inside point mark false := by
      simp [NumberScan.feed, hs.1]
    rw [List.cons_append, trace_inside_step _ hf rfl (digit_ne hs.1)]
    exact ih hs.2

/-- Digits after the sign of an exponent, or in its place. -/
theorem trace_exponent_digits {sign : Bool} {previous : Option Char} {s : Text}
    (hs : s.all Char.isDigit = true) (hne : s ≠ []) :
    trace (.inside false false sign) previous s = some (.inside false false false) := by
  obtain ⟨c, s, rfl⟩ := List.exists_cons_of_ne_nil hne
  rw [List.all_cons, Bool.and_eq_true] at hs
  have hf : (NumberScan.inside false false sign).feed previous c = .inside false false false := by
    simp [NumberScan.feed, hs.1]
  rw [trace_inside_step _ hf rfl (digit_ne hs.1)]
  have hrest : trace (.inside false false false) (some c) (s ++ []) =
      trace (.inside false false false) none [] := trace_digits hs.2
  rw [List.append_nil] at hrest
  rw [hrest]
  rfl

theorem trace_first_digits {previous : Option Char} {s t : Text}
    (hs : s.all Char.isDigit = true) (hne : s ≠ [])
    (hp : previous.any Text.continuesName = false) :
    trace .outside previous (s ++ t) = trace (.inside true true false) none t := by
  obtain ⟨c, s, rfl⟩ := List.exists_cons_of_ne_nil hne
  rw [List.all_cons, Bool.and_eq_true] at hs
  have hf : NumberScan.outside.feed previous c = .inside true true false := by
    simp [NumberScan.feed, hs.1, hp]
  have hc := digit_ne hs.1
  rw [List.cons_append, trace]
  simp only [hf, hc, NumberScan.isInside, Bool.true_eq_false, and_false, or_false, if_false]
  exact trace_digits hs.2

end Lexeme

namespace Literal

theorem natural?_eq_some {s : Text} {n : Nat} (h : Whole.natural? s = some n) :
    s ≠ [] ∧ s.all Char.isDigit = true := by
  rw [Whole.natural?] at h
  split at h
  · assumption
  · cases h

/-- An exponent is empty, or a mark, perhaps a sign, and digits. -/
theorem exponent_shape {s : Text} {e : Int} (h : exponent? s = some e) :
    s = [] ∨ ∃ mark sign digits, s = mark :: (sign ++ digits) ∧ (mark = 'e' ∨ mark = 'E') ∧
      (sign = [] ∨ sign = ['-'] ∨ sign = ['+']) ∧ digits ≠ [] ∧
      digits.all Char.isDigit = true := by
  cases s with
  | nil => exact .inl rfl
  | cons mark s =>
    right
    rw [exponent?.eq_def] at h
    simp only at h
    split at h
    · rename_i hmark
      split at h
      · rename_i digits
        obtain ⟨n, hn, -⟩ := Option.map_eq_some_iff.1 h
        obtain ⟨k, hk, -⟩ := Option.bind_eq_some_iff.1 hn
        exact ⟨mark, ['-'], digits, rfl, hmark, .inr (.inl rfl), natural?_eq_some hk⟩
      · rename_i digits
        obtain ⟨n, hn, -⟩ := Option.map_eq_some_iff.1 h
        exact ⟨mark, ['+'], digits, rfl, hmark, .inr (.inr rfl), natural?_eq_some hn⟩
      · obtain ⟨n, hn, -⟩ := Option.map_eq_some_iff.1 h
        exact ⟨mark, [], s, rfl, hmark, .inl rfl, natural?_eq_some hn⟩
    · cases h

/-- A decimal is digits, perhaps a point and digits, and an exponent. -/
theorem decimal_shape {s : Text} {d : Nat × Int} (h : decimal? s = some d) :
    ∃ whole fraction rest e, whole.all Char.isDigit = true ∧ fraction.all Char.isDigit = true ∧
      exponent? rest = some e ∧ ((s = whole ++ rest ∧ whole ≠ []) ∨
        (s = whole ++ '.' :: (fraction ++ rest) ∧ (whole ≠ [] ∨ fraction ≠ []))) := by
  have hwhole : (s.takeWhile Char.isDigit).all Char.isDigit = true := List.all_takeWhile
  have hsplit : s = s.takeWhile Char.isDigit ++ s.dropWhile Char.isDigit :=
    (List.takeWhile_append_dropWhile).symm
  rw [decimal?] at h
  generalize s.takeWhile Char.isDigit = whole at h hwhole hsplit
  generalize s.dropWhile Char.isDigit = after at h hsplit
  subst hsplit
  split at h
  rename_i fraction rest hafter
  split at h
  · cases h
  · rename_i hsome
    obtain ⟨e, he, -⟩ := Option.map_eq_some_iff.1 h
    split at hafter
    · rename_i digits
      cases hafter
      refine ⟨whole, digits.takeWhile Char.isDigit, digits.dropWhile Char.isDigit, e, hwhole,
        List.all_takeWhile, he, .inr ⟨?_, ?_⟩⟩
      · rw [List.takeWhile_append_dropWhile]
      · by_cases hw : whole = []
        · exact .inr fun hf => hsome ⟨hw, hf⟩
        · exact .inl hw
    · cases hafter
      exact ⟨whole, [], _, e, hwhole, rfl, he, .inl ⟨rfl, fun hw => hsome ⟨hw, rfl⟩⟩⟩

theorem isBlank_of_isDigit {c : Char} (h : c.isDigit = true) : Text.isBlank c = false :=
  Text.isBlank_of_continuesName (Text.continuesName_of_isDigit h)

theorem mem_of_exponent {s : Text} {e : Int} (h : exponent? s = some e) {c : Char} (hc : c ∈ s) :
    c.isDigit = true ∨ c ∈ ['.', 'e', 'E', '-', '+'] := by
  rcases exponent_shape h with rfl | ⟨mark, sign, digits, rfl, hmark, hsign, -, hdigits⟩
  · cases hc
  · rcases List.mem_cons.1 hc with rfl | hc
    · rcases hmark with rfl | rfl <;> decide
    · rcases List.mem_append.1 hc with hc | hc
      · rcases hsign with rfl | rfl | rfl
        · cases hc
        · rw [List.mem_singleton.1 hc]
          decide
        · rw [List.mem_singleton.1 hc]
          decide
      · exact .inl (List.all_eq_true.1 hdigits c hc)

theorem mem_of_decimal {s : Text} {d : Nat × Int} (h : decimal? s = some d) {c : Char} (hc : c ∈ s) :
    c.isDigit = true ∨ c ∈ ['.', 'e', 'E', '-', '+'] := by
  obtain ⟨whole, fraction, rest, e, hwhole, hfraction, he, hs⟩ := decimal_shape h
  obtain ⟨rfl, -⟩ | ⟨rfl, -⟩ := hs
  · rcases List.mem_append.1 hc with hc | hc
    · exact .inl (List.all_eq_true.1 hwhole c hc)
    · exact mem_of_exponent he hc
  · rcases List.mem_append.1 hc with hc | hc
    · exact .inl (List.all_eq_true.1 hwhole c hc)
    · rcases List.mem_cons.1 hc with rfl | hc
      · decide
      · rcases List.mem_append.1 hc with hc | hc
        · exact .inl (List.all_eq_true.1 hfraction c hc)
        · exact mem_of_exponent he hc

theorem isBlank_of_decimal {s : Text} {d : Nat × Int} (h : decimal? s = some d) :
    ∀ c ∈ s, Text.isBlank c = false := by
  intro c hc
  have hmarks : ∀ c ∈ ['.', 'e', 'E', '-', '+'], Text.isBlank c = false := by decide
  exact (mem_of_decimal h hc).elim isBlank_of_isDigit (hmarks c)

end Literal

namespace Lexeme

theorem trace_exponent {point : Bool} {s : Text} {e : Int}
    (h : Literal.exponent? s = some e) :
    ∃ n, trace (.inside point true false) none s = some n ∧ n.expectsSign = false := by
  rcases Literal.exponent_shape h with rfl | ⟨mark, sign, digits, rfl, hmark, hsign, hne, hdigits⟩
  · exact ⟨_, rfl, rfl⟩
  · have hfirst : trace (.inside point true false) none (mark :: (sign ++ digits)) =
        trace (.inside false false true) (some mark) (sign ++ digits) := by
      refine trace_inside_step _ ?_ rfl ?_
      · rcases hmark with rfl | rfl <;> rfl
      · rcases hmark with rfl | rfl <;> decide
    refine ⟨.inside false false false, ?_, rfl⟩
    rw [hfirst]
    rcases hsign with rfl | rfl | rfl
    · exact trace_exponent_digits hdigits hne
    · rw [List.singleton_append, trace_inside_step (.inside false false false) rfl rfl (by decide)]
      exact trace_exponent_digits hdigits hne
    · rw [List.singleton_append, trace_inside_step (.inside false false false) rfl rfl (by decide)]
      exact trace_exponent_digits hdigits hne

/-- A decimal number is scanned as one number, with the sign of its exponent. -/
theorem trace_decimal {s : Text} {d : Nat × Int} (h : Literal.decimal? s = some d) :
    ∃ n, trace .outside none s = some n ∧ n.expectsSign = false := by
  obtain ⟨whole, fraction, rest, e, hwhole, hfraction, he, hs⟩ := Literal.decimal_shape h
  obtain ⟨rfl, hw⟩ | ⟨rfl, hsome⟩ := hs
  · rw [trace_first_digits hwhole hw rfl]
    exact trace_exponent he
  · by_cases hw : whole = []
    · subst hw
      have hf : fraction ≠ [] := hsome.resolve_left fun h => h rfl
      rw [List.nil_append, trace_step (by decide) (by decide) (fun hd => absurd hd (by decide)),
        trace_first_digits hfraction hf (by decide)]
      exact trace_exponent he
    · rw [trace_first_digits hwhole hw rfl,
        trace_inside_step (.inside false true false) rfl rfl (by decide), trace_digits hfraction]
      exact trace_exponent he

end Lexeme

theorem Word.of_decimal {s : Text} (h : (Literal.decimal? s).isSome = true) : Word false s := by
  obtain ⟨d, hd⟩ := Option.isSome_iff_exists.1 h
  obtain ⟨n, ht, hn⟩ := Lexeme.trace_decimal hd
  have hblank := Literal.isBlank_of_decimal hd
  have hne : s ≠ [] := by
    rintro rfl
    cases hd
  refine Word.of_trace ht hne ⟨?_, ?_⟩ fun _ => hn
  · exact fun c hc => hblank c (List.mem_of_mem_head? hc)
  · exact fun c hc => hblank c (List.mem_of_getLast? hc)

/-! ## Calls without arguments -/

theorem trace_blanks {number : NumberScan} {previous : Option Char} {s : Text}
    (hn : number = .outside) (hs : Text.isAllBlank s = true) :
    Lexeme.trace number previous s = some .outside := by
  subst hn
  induction s generalizing previous with
  | nil => rfl
  | cons c s ih =>
    rw [Text.isAllBlank, List.all_cons, Bool.and_eq_true] at hs
    obtain ⟨hquote, hopen, hclose⟩ := Text.ne_of_isBlank hs.1
    have hdigit : c.isDigit = true → previous.any Text.continuesName = true := by
      intro hd
      have hb := Literal.isBlank_of_isDigit hd
      rw [hs.1] at hb
      cases hb
    rw [Lexeme.trace_step (OperatorTable.isSymbol_of_isBlank hs.1) ⟨hopen, hclose, hquote⟩ hdigit]
    exact ih hs.2

/-- A dotted identifier and brackets around nothing are a word. -/
theorem Word.of_call {head gap inside : Text} (h : isDotted head = true)
    (hg : Text.isAllBlank gap = true) (hi : Text.isAllBlank inside = true) :
    Word false (head ++ gap ++ ('(' :: inside ++ [')'])) := by
  have hhead := (trace_dotted head).1 none h
  have hfront : Lexeme.trace .outside none (head ++ gap) = some .outside := by
    rw [Lexeme.trace_append hhead]
    exact trace_blanks rfl hg
  have hplain := Lexeme.plain_of_trace hfront
  have hblanks : Lexeme.trace .outside none inside = some .outside := trace_blanks rfl hi
  have hinside : Balanced inside := Balanced.of_plain (Lexeme.plain_of_trace hblanks)
  obtain ⟨c, rest, rfl⟩ := List.exists_cons_of_ne_nil (dotted_ne_nil h)
  have hword := Word.of_dotted h
  obtain ⟨c', rest', he, hsymbol, hopen⟩ := hword.first
  cases he
  refine ⟨?_, ?_, ?_, (Balanced.of_plain hplain).append hinside.bracketed, c, _, rfl, hsymbol,
    hopen⟩
  · intro a ha
    have ht : Lexeme.trace a.number a.previous (c :: rest ++ gap) = some .outside := by
      rw [ha.number, ← hfront]
      exact Lexeme.trace_congr ha.previous
    obtain ⟨b, hread, ho, hq, -⟩ := Lexeme.reads_of_trace (fun _ _ hc => hc) ht ha.opened ha.quoted
    obtain ⟨b', hread', hb', hn'⟩ := Lexeme.reads_brackets ho hq hinside
    refine ⟨b', ?_, hb', fun _ => by rw [hn']; rfl⟩
    have hall := hread.trans hread'
    rwa [← List.map_append] at hall
  · have hcall := Expr.ofText_brackets (fun d hd => ⟨(hplain d hd).1, (hplain d hd).2.1⟩)
      (Expr.leading?_of_first hsymbol _) hinside
    rwa [if_pos hi] at hcall
  · refine ⟨?_, ?_⟩
    · intro d hd
      cases hd
      exact isBlank_of_dotted h List.mem_cons_self
    · intro d hd
      rw [List.getLast?_append, List.getLast?_append] at hd
      cases hd
      decide

end Lineshape
