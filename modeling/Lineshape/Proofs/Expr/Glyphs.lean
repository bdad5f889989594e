import Lineshape.Proofs.Expr.Nesting
import Lineshape.Proofs.Expr.Symbols

/-! # The solid part of a text

A glyph is a character that knows whether it is quoted. The solid part of a text is what is left
without unquoted blanks. Two texts are read off it: `Text.bare`, which leaves out the unquoted
brackets, and `Text.written`, which leaves out the separators at the end of a list, too.

At most two separators are left out at one end: the one that ends the members of a model, and before
it the one that ends the items of the last member. So `Glyph.kept` remembers, for each open bracket,
whether a semicolon stands in it (`Glyph.behind`). Where there is no semicolon, only the separators
that nothing follows are left out (`Glyph.kept_eq_followed`). -/

namespace Lineshape
set_option autoImplicit false

/-- A character of a text, and whether it belongs to a quoted part of it, the quotes included. -/
structure Glyph where
  /-- The character. -/
  char : Char
  /-- Whether it belongs to a quoted part. -/
  quoted : Bool
deriving DecidableEq

namespace Glyph

/-- An unquoted opening bracket. -/
def isOpening (g : Glyph) : Bool := !g.quoted && g.char = '('

/-- An unquoted closing bracket. -/
def isClosing (g : Glyph) : Bool := !g.quoted && g.char = ')'

/-- An unquoted bracket. -/
def isBracket (g : Glyph) : Bool := g.isOpening || g.isClosing

/-- An unquoted separator. -/
def isSeparator (g : Glyph) : Bool := !g.quoted && Lexeme.isSeparator g.char

/-- Whether nothing more stands within the same brackets. -/
def ends : List Glyph → Bool
  | [] => true
  | g :: _ => g.isClosing

/-- Whether a separator comes next and nothing more stands behind it within the same brackets. -/
def endsSeparated : List Glyph → Bool
  | [] => false
  | g :: rest => g.isSeparator && ends rest

/-- Whether a glyph is a separator at an end: the last one of a list, or behind a semicolon a comma
before the last one. -/
def isLast (sequence : Bool) (g : Glyph) (rest : List Glyph) : Bool :=
  g.isSeparator && (ends rest || sequence && g.char = ',' && endsSeparated rest)

/-- What is known behind a glyph about each open bracket, the innermost first: whether a semicolon
stands in it. The last entry is about what stands outside brackets. -/
def behind (sequences : List Bool) (g : Glyph) : List Bool :=
  if g.isOpening then false :: sequences
  else if g.isClosing then sequences.tail
  else if g.isSeparator && g.char = ';' then true :: sequences.tail
  else sequences

/-- The characters without brackets and without the separators at an end. -/
def kept (sequences : List Bool) : List Glyph → Text
  | [] => []
  | g :: rest =>
    (if g.isBracket || g.isLast (sequences.headD false) rest then [] else [g.char]) ++
      kept (g.behind sequences) rest

/-- The characters without brackets and without the separators that nothing follows. -/
def followed : List Glyph → Text
  | [] => []
  | g :: rest => (if g.isBracket || g.isLast false rest then [] else [g.char]) ++ followed rest

/-- The number of open brackets behind a glyph; none if it is a bracket that closes nothing. -/
def step (depth : Nat) (g : Glyph) : Option Nat :=
  if g.isOpening then some (depth + 1)
  else if g.isClosing then
    match depth with
    | 0 => none
    | depth + 1 => some depth
  else some depth

/-- The number of open brackets behind glyphs. -/
def run (depth : Nat) : List Glyph → Option Nat
  | [] => some depth
  | g :: rest => (g.step depth).bind fun d => run d rest

variable {g : Glyph} {rest front back : List Glyph}

theorem isClosing_of_isOpening (h : g.isOpening = true) : g.isClosing = false := by
  obtain ⟨c, q⟩ := g
  simp only [isOpening, Bool.and_eq_true, decide_eq_true_eq] at h
  simp [isClosing, h.2]

theorem isClosing_of_isSeparator (h : g.isSeparator = true) : g.isClosing = false := by
  obtain ⟨c, q⟩ := g
  simp only [isSeparator, Lexeme.isSeparator, Bool.and_eq_true, Bool.or_eq_true,
    decide_eq_true_eq] at h
  rcases h.2 with h | h <;> simp [isClosing, h]

theorem isOpening_of_isSeparator (h : g.isSeparator = true) : g.isOpening = false := by
  obtain ⟨c, q⟩ := g
  simp only [isSeparator, Lexeme.isSeparator, Bool.and_eq_true, Bool.or_eq_true,
    decide_eq_true_eq] at h
  rcases h.2 with h | h <;> simp [isOpening, h]

/-! ## Separators at an end -/

/-- No separator stands at the end of glyphs. -/
def Closed (glyphs : List Glyph) : Prop := ∀ g ∈ glyphs.getLast?, g.isSeparator = false

theorem Closed.nil : Closed [] := nofun

theorem Closed.tail (h : Closed (g :: rest)) : Closed rest := by
  cases rest with
  | nil => exact Closed.nil
  | cons g' rest => exact fun x hx => h x (by rwa [List.getLast?_cons_cons])

theorem ends_append (h : rest ≠ [] ∨ ends back = true) : ends (rest ++ back) = ends rest := by
  cases rest with
  | nil => exact h.resolve_left (fun h => h rfl)
  | cons g rest => rfl

theorem endsSeparated_of_ends (h : ends rest = true) : endsSeparated rest = false := by
  cases rest with
  | nil => rfl
  | cons g rest =>
    cases hs : g.isSeparator with
    | false => rw [endsSeparated, hs, Bool.false_and]
    | true =>
      have hc : g.isClosing = true := h
      rw [isClosing_of_isSeparator hs] at hc
      cases hc

/-- What stands behind glyphs has no part in what is at an end among them, if a separator is not the
last of them or an end comes next. -/
theorem isLast_append (sequence : Bool) (h : Closed (g :: rest) ∨ ends back = true) :
    g.isLast sequence (rest ++ back) = g.isLast sequence rest := by
  cases hg : g.isSeparator with
  | false => rw [isLast, isLast, hg, Bool.false_and, Bool.false_and]
  | true =>
    have hrest : rest ≠ [] ∨ ends back = true := by
      refine h.imp_left ?_
      rintro hclosed rfl
      rw [hclosed g rfl] at hg
      cases hg
    have hnext : endsSeparated (rest ++ back) = endsSeparated rest := by
      cases rest with
      | nil =>
        rw [List.nil_append, endsSeparated_of_ends (hrest.resolve_left fun h => h rfl)]
        rfl
      | cons g' rest =>
        rw [List.cons_append, endsSeparated, endsSeparated]
        cases hg' : g'.isSeparator with
        | false => rfl
        | true =>
          rw [ends_append]
          refine h.imp_left ?_
          rintro hclosed rfl
          rw [hclosed g' rfl] at hg'
          cases hg'
    rw [isLast, isLast, ends_append hrest, hnext]

theorem kept_append (sequences : List Bool) (h : Closed front ∨ ends back = true) :
    kept sequences (front ++ back) =
      kept sequences front ++ kept (front.foldl behind sequences) back := by
  induction front generalizing sequences with
  | nil => rfl
  | cons g front ih =>
    rw [List.cons_append, kept, kept, isLast_append _ h, ih _ (h.imp_left Closed.tail),
      List.foldl_cons, List.append_assoc]

/-- Glyphs that are brackets and separators nowhere are all kept. -/
theorem kept_plain (sequences : List Bool) (back : List Glyph)
    (h : ∀ g ∈ front, g.isBracket = false ∧ g.isSeparator = false) :
    kept sequences (front ++ back) = front.map Glyph.char ++ kept sequences back := by
  induction front with
  | nil => rfl
  | cons g front ih =>
    obtain ⟨hb, hs⟩ := h g List.mem_cons_self
    have hb' := hb
    rw [isBracket, Bool.or_eq_false_iff] at hb'
    rw [List.cons_append, kept, isLast, behind, hb, hs, hb'.1, hb'.2]
    simp only [Bool.false_and, Bool.or_self, Bool.false_eq_true, if_false]
    rw [ih fun x hx => h x (List.mem_cons_of_mem g hx)]
    rfl

/-- Without semicolons no more than one separator is left out at an end. -/
theorem kept_eq_followed {sequences : List Bool} (hs : ∀ b ∈ sequences, b = false)
    (h : ∀ g ∈ front, (g.isSeparator && g.char = ';') = false) :
    kept sequences front = followed front := by
  induction front generalizing sequences with
  | nil => rfl
  | cons g front ih =>
    have hhead : sequences.headD false = false := by
      cases sequences with
      | nil => rfl
      | cons b sequences => exact hs b List.mem_cons_self
    have hbehind : ∀ b ∈ g.behind sequences, b = false := by
      intro b hb
      rw [behind, h g List.mem_cons_self] at hb
      split at hb
      · rcases List.mem_cons.1 hb with hb | hb
        · exact hb
        · exact hs b hb
      · split at hb
        · exact hs b (List.mem_of_mem_tail hb)
        · exact hs b hb
    rw [kept, followed, hhead, ih hbehind fun g hg => h g (List.mem_cons_of_mem _ hg)]

/-! ## Brackets -/

theorem run_cons {d d' : Nat} (h : run d (g :: rest) = some d') :
    ∃ d₁, g.step d = some d₁ ∧ run d₁ rest = some d' := by
  rw [run, Option.bind_eq_some_iff] at h
  exact h

theorem step_cases {d d' : Nat} (h : g.step d = some d') :
    (g.isOpening = true ∧ g.isClosing = false ∧ d' = d + 1) ∨
    (g.isOpening = false ∧ g.isClosing = true ∧ d = d' + 1) ∨
    (g.isOpening = false ∧ g.isClosing = false ∧ d' = d) := by
  rw [step.eq_def] at h
  cases ho : g.isOpening with
  | true =>
    rw [ho] at h
    cases h
    exact .inl ⟨rfl, isClosing_of_isOpening ho, rfl⟩
  | false =>
    cases hc : g.isClosing with
    | true =>
      rw [ho, hc] at h
      cases d with
      | zero => cases h
      | succ d =>
        cases h
        exact .inr (.inl ⟨rfl, rfl, rfl⟩)
    | false =>
      rw [ho, hc] at h
      cases h
      exact .inr (.inr ⟨rfl, rfl, rfl⟩)

/-- Balanced glyphs do not begin with a bracket that closes nothing. -/
theorem ends_of_run {d : Nat} (h : run 0 (g :: rest) = some d) : ends (g :: rest) = false := by
  obtain ⟨d₁, hstep, -⟩ := run_cons h
  obtain ⟨-, hc, -⟩ | ⟨-, -, hd⟩ | ⟨-, hc, -⟩ := step_cases hstep
  · exact hc
  · cases hd
  · exact hc

/-- In balanced glyphs without a separator at their end no end is near. -/
theorem endsSeparated_of_run {d : Nat} (h : run 0 rest = some d) (hc : Closed rest) :
    endsSeparated rest = false := by
  cases rest with
  | nil => rfl
  | cons g rest =>
    cases hs : g.isSeparator with
    | false => rw [endsSeparated, hs, Bool.false_and]
    | true =>
      cases rest with
      | nil =>
        rw [hc g rfl] at hs
        cases hs
      | cons g' rest =>
        obtain ⟨d₁, hstep, hrun⟩ := run_cons h
        rw [step, isOpening_of_isSeparator hs, isClosing_of_isSeparator hs] at hstep
        cases hstep
        rw [endsSeparated, ends_of_run hrun, Bool.and_false]

/-- A glyph within brackets, or one that is no separator, leaves alone what is known about the text
around the brackets. -/
theorem exists_behind {d d' : Nat} (h : g.step d = some d') (hs : d = 0 → g.isSeparator = false)
    {inner : List Bool} (hd : inner.length = d) (b : Bool) (marks : List Bool) :
    ∃ inner', inner'.length = d' ∧ g.behind (inner ++ b :: marks) = inner' ++ b :: marks := by
  rw [behind]
  obtain ⟨ho, -, rfl⟩ | ⟨ho, hc, rfl⟩ | ⟨ho, hc, rfl⟩ := step_cases h
  · exact ⟨false :: inner, congrArg (· + 1) hd, by rw [if_pos ho]; rfl⟩
  · obtain ⟨i, inner, rfl⟩ := List.exists_cons_of_length_eq_add_one hd
    exact ⟨inner, Nat.succ.inj hd, by simp [ho, hc]⟩
  · cases inner with
    | nil => exact ⟨[], hd, by simp [ho, hc, hs hd.symm]⟩
    | cons i inner =>
      rw [ho, hc]
      simp only [Bool.false_eq_true, if_false]
      split
      · exact ⟨true :: inner, hd, rfl⟩
      · exact ⟨i :: inner, hd, rfl⟩

/-- Whether a semicolon stands before balanced glyphs outside of their brackets matters only to a
separator at the end of them. -/
theorem kept_congr (inner : List Bool) {marks marks' : List Bool} {b b' : Bool}
    (hd : run inner.length front = some 0) (h : b = b' ∨ Closed front) :
    kept (inner ++ b :: marks) front = kept (inner ++ b' :: marks') front := by
  induction front generalizing inner b b' with
  | nil => rfl
  | cons g front ih =>
    have htail : b = b' ∨ Closed front := h.imp_right Closed.tail
    obtain ⟨d₁, hstep, hrun⟩ := run_cons hd
    rw [kept, kept, behind, behind, isBracket]
    obtain ⟨ho, -, rfl⟩ | ⟨ho, hc, hlen⟩ | ⟨ho, hc, rfl⟩ := step_cases hstep
    · have hrest := ih (false :: inner) hrun htail
      simp only [ho, Bool.true_or, if_true]
      exact congrArg ([] ++ ·) hrest
    · obtain ⟨i, inner, rfl⟩ := List.exists_cons_of_length_eq_add_one hlen
      have hd₁ : inner.length = d₁ := by simpa using hlen
      have hrest := ih inner (hd₁ ▸ hrun) htail
      simp only [ho, hc, Bool.or_true, Bool.true_or, if_true, Bool.false_eq_true, if_false]
      exact congrArg ([] ++ ·) hrest
    · have hlast : g.isLast ((inner ++ b :: marks).headD false) front =
          g.isLast ((inner ++ b' :: marks').headD false) front := by
        cases inner with
        | cons i inner => rfl
        | nil =>
          rcases h with rfl | h
          · rfl
          · rw [isLast, isLast, endsSeparated_of_run hrun h.tail, Bool.and_false, Bool.and_false]
      rw [hlast]
      simp only [ho, hc, Bool.false_eq_true, if_false]
      congr 1
      split
      · cases inner with
        | nil => exact ih [] hrun (.inl rfl)
        | cons i inner => exact ih (true :: inner) hrun htail
      · exact ih inner hrun htail

end Glyph

/-! ## Texts put together -/

theorem Nesting.quoted_of_step {d d' : Nat} {q q' : Bool} {c : Char}
    (h : Nesting.step d q c = some (d', q')) : (q != decide (c = '"')) = q' := by
  obtain ⟨rfl, rfl, rfl⟩ | ⟨rfl, rfl, rfl, rfl⟩ | ⟨rfl, rfl, rfl, rfl⟩ | ⟨rfl, rfl, rfl, rfl⟩ |
    ⟨rfl, hq, ho, hc, rfl, rfl⟩ := Nesting.step_cases h
  · by_cases hc : c = '"' <;> simp [hc]
  · rfl
  · rfl
  · rfl
  · simp [hq]

namespace Text

/-- The glyphs of a text without the unquoted blanks. -/
def solid (quoted : Bool) : Text → List Glyph
  | [] => []
  | c :: s =>
    (if !quoted && isBlank c then [] else [⟨c, quoted || c = '"'⟩]) ++
      solid (quoted != decide (c = '"')) s

/-- The text without unquoted blanks and brackets. -/
def bare (s : Text) : Text := ((solid false s).filter (!·.isBracket)).map Glyph.char

/-- The text without unquoted blanks and brackets and without the separators at an end. -/
def written (s : Text) : Text := Glyph.kept [false] (solid false s)

/-- The text without unquoted blanks and brackets and without the separators that nothing
follows. -/
def followed (s : Text) : Text := Glyph.followed (solid false s)

theorem solid_append {quoted : Bool} {d d' : Nat} {quoted' : Bool} {s : Text}
    (h : Nesting.run d quoted s = some (d', quoted')) (t : Text) :
    solid quoted (s ++ t) = solid quoted s ++ solid quoted' t := by
  induction s generalizing d quoted with
  | nil =>
    cases h
    rfl
  | cons c s ih =>
    obtain ⟨d₁, q₁, hstep, hrun⟩ := Nesting.run_cons h
    have hq : (quoted != decide (c = '"')) = q₁ := Nesting.quoted_of_step hstep
    rw [List.cons_append, solid, solid, hq, ih hrun, List.append_assoc]

theorem solid_balanced {s : Text} (h : Balanced s) (t : Text) :
    solid false (s ++ t) = solid false s ++ solid false t := solid_append h t

theorem solid_blanks {s : Text} (h : ∀ c ∈ s, isBlank c = true) : solid false s = [] := by
  induction s with
  | nil => rfl
  | cons c s ih =>
    have hc := h c List.mem_cons_self
    have hs := ih fun d hd => h d (List.mem_cons_of_mem c hd)
    rw [solid, hc, decide_eq_false (ne_of_isBlank hc).1]
    exact hs

theorem run_blanks {s : Text} (h : ∀ c ∈ s, isBlank c = true) (d : Nat) (q : Bool) :
    Nesting.run d q s = some (d, q) := by
  induction s with
  | nil => rfl
  | cons c s ih =>
    obtain ⟨hq, ho, hc⟩ := ne_of_isBlank (h c List.mem_cons_self)
    have hstep : Nesting.step d q c = some (d, q) := by
      cases q <;> simp [Nesting.step, hq, ho, hc]
    rw [Nesting.run, hstep]
    exact ih fun d hd => h d (List.mem_cons_of_mem c hd)

theorem balanced_trim {s : Text} : Balanced (trim s) ↔ Balanced s := by
  obtain ⟨front, tail, hs, hfront, htail⟩ := exists_trim s
  have hrun := congrArg (Nesting.run 0 false) hs
  rw [List.append_assoc, Nesting.run_append, run_blanks hfront, Option.bind_some,
    Nesting.run_append] at hrun
  have htrim : Nesting.run 0 false s = Nesting.run 0 false (trim s) := by
    rw [hrun]
    cases Nesting.run 0 false (trim s) with
    | none => rfl
    | some p => exact run_blanks htail p.1 p.2
  rw [Balanced, Balanced, htrim]

theorem solid_trim {s : Text} (h : Balanced s) : solid false (trim s) = solid false s := by
  obtain ⟨front, tail, hs, hfront, htail⟩ := exists_trim s
  have hsolid := congrArg (solid false) hs
  rw [List.append_assoc, solid_append (run_blanks hfront 0 false),
    solid_balanced (balanced_trim.2 h), solid_blanks hfront, solid_blanks htail, List.nil_append,
    List.append_nil] at hsolid
  exact hsolid.symm

theorem written_trim {s : Text} (h : Balanced s) : written (trim s) = written s := by
  rw [written, written, solid_trim h]

/-- The glyph of a character, unless it is an unquoted blank, and the glyphs behind it. -/
theorem solid_cons {d d' : Nat} {q q' : Bool} {c : Char} (h : Nesting.step d q c = some (d', q'))
    (s : Text) :
    solid q (c :: s) = (if !q && isBlank c then [] else [⟨c, q || c = '"'⟩]) ++ solid q' s := by
  rw [solid, Nesting.quoted_of_step h]

theorem step_glyph {d d' : Nat} {q q' : Bool} {c : Char}
    (h : Nesting.step d q c = some (d', q')) : Glyph.step d ⟨c, q || c = '"'⟩ = some d' := by
  obtain ⟨rfl, rfl, -⟩ | ⟨rfl, rfl, rfl, -⟩ | ⟨rfl, rfl, rfl, -⟩ | ⟨rfl, rfl, rfl, -⟩ |
    ⟨rfl, hq, ho, hc, rfl, -⟩ := Nesting.step_cases h
  · rfl
  · rfl
  · rfl
  · rfl
  · simp [Glyph.step, Glyph.isOpening, Glyph.isClosing, ho, hc]

theorem step_blank {d d' : Nat} {q q' : Bool} {c : Char}
    (h : Nesting.step d q c = some (d', q')) (hb : (!q && isBlank c) = true) :
    d' = d ∧ q' = q := by
  rw [Bool.and_eq_true] at hb
  have hrun := run_blanks (s := [c]) (by simpa using hb.2) d q
  rw [Nesting.run, h] at hrun
  cases hrun
  exact ⟨rfl, rfl⟩

/-- The solid part of a text is bracketed like the text. -/
theorem run_solid {d d' : Nat} {q q' : Bool} {s : Text}
    (h : Nesting.run d q s = some (d', q')) : Glyph.run d (solid q s) = some d' := by
  induction s generalizing d q with
  | nil =>
    cases h
    rfl
  | cons c s ih =>
    obtain ⟨d₁, q₁, hstep, hrun⟩ := Nesting.run_cons h
    rw [solid_cons hstep]
    split
    · rename_i hb
      obtain ⟨rfl, rfl⟩ := step_blank hstep hb
      exact ih hrun
    · rw [List.singleton_append, Glyph.run, step_glyph hstep]
      exact ih hrun

theorem mem_of_mem_solid {q : Bool} {s : Text} {g : Glyph} (h : g ∈ solid q s) : g.char ∈ s := by
  induction s generalizing q with
  | nil => cases h
  | cons c s ih =>
    rw [solid, List.mem_append] at h
    rcases h with h | h
    · split at h
      · cases h
      · rw [List.mem_singleton.1 h]
        exact List.mem_cons_self
    · exact List.mem_cons_of_mem c (ih h)

theorem solid_ne_nil {s : Text} {c : Char} (hs : s.getLast? = some c) (hc : isBlank c = false)
    (q : Bool) : solid q s ≠ [] := by
  induction s generalizing q with
  | nil => cases hs
  | cons d s ih =>
    rw [solid, ne_eq, List.append_eq_nil_iff, not_and]
    intro hd
    cases s with
    | nil =>
      obtain rfl : d = c := Option.some.inj hs
      rw [hc, Bool.and_false] at hd
      cases hd
    | cons d' s => exact ih (by rwa [List.getLast?_cons_cons] at hs) _

/-- A character that is no blank, no bracket and no quote. -/
def IsPlain (c : Char) : Prop := isBlank c = false ∧ c ≠ '"' ∧ c ≠ '(' ∧ c ≠ ')'

theorem solid_plain {s : Text} (h : ∀ c ∈ s, IsPlain c) :
    solid false s = s.map (⟨·, false⟩) := by
  induction s with
  | nil => rfl
  | cons c s ih =>
    obtain ⟨hb, hq, -⟩ := h c List.mem_cons_self
    rw [solid, hb, decide_eq_false hq]
    exact congrArg (⟨c, false⟩ :: ·) (ih fun d hd => h d (List.mem_cons_of_mem c hd))

theorem solid_bracketed {s : Text} (h : Balanced s) (t : Text) :
    solid false ('(' :: (s ++ ')' :: t)) =
      ⟨'(', false⟩ :: (solid false s ++ ⟨')', false⟩ :: solid false t) := by
  have hopen : isBlank '(' = false := by decide
  have hclose : isBlank ')' = false := by decide
  rw [solid, hopen]
  change ⟨'(', false⟩ :: solid false (s ++ ')' :: t) = _
  rw [solid_balanced h, solid, hclose]
  rfl

/-- What is kept of a balanced text does not depend on what stands before it, unless the text ends
with a separator. -/
theorem kept_solid {s : Text} (h : Balanced s) (hc : Glyph.Closed (solid false s)) (b : Bool)
    (marks : List Bool) : Glyph.kept (b :: marks) (solid false s) = written s :=
  Glyph.kept_congr [] (run_solid h) (.inr hc)

/-! ## Bare texts -/

theorem bare_append {s : Text} (h : Balanced s) (t : Text) : bare (s ++ t) = bare s ++ bare t := by
  rw [bare, solid_balanced h, List.filter_append, List.map_append]
  rfl

theorem bare_blanks {s : Text} (h : ∀ c ∈ s, isBlank c = true) : bare s = [] := by
  rw [bare, solid_blanks h]
  rfl

theorem bare_plain {s : Text} (h : ∀ c ∈ s, IsPlain c) : bare s = s := by
  have hfilter : (s.map (⟨·, false⟩ : Char → Glyph)).filter (!·.isBracket) =
      s.map (⟨·, false⟩) := by
    rw [List.filter_eq_self]
    intro g hg
    obtain ⟨c, hc, rfl⟩ := List.mem_map.1 hg
    obtain ⟨-, -, ho, hcl⟩ := h c hc
    simp [Glyph.isBracket, Glyph.isOpening, Glyph.isClosing, ho, hcl]
  rw [bare, solid_plain h, hfilter, List.map_map]
  exact List.map_id s

theorem bare_bracketed {s : Text} (h : Balanced s) : bare ('(' :: s ++ [')']) = bare s := by
  rw [bare, List.cons_append, solid_bracketed h]
  have hopen : Glyph.isBracket ⟨'(', false⟩ = true := by decide
  have hclose : Glyph.isBracket ⟨')', false⟩ = true := by decide
  simp [hopen, hclose, bare, solid]

end Text
end Lineshape
