import Lineshape.Proofs.Expr.Glyphs
import Lineshape.Proofs.Expr.Pieces

/-! # Rows of terms

What a scan accepts, said about the text and its lexemes alone: `Row` is a row of terms with
operators between them, and every scanned text is one (`Lexeme.row_of_scan`). Outside brackets and
quotes separators are operators; an operator has something in front of it and something behind it;
only a separator at the end of the text is no part of its lexemes. -/

namespace Lineshape
set_option autoImplicit false

namespace Lexeme

/-- A text and its lexemes, with a number of brackets open and perhaps a quote, when a term has
begun or not. -/
inductive Row : Nat → Bool → Bool → Text → List Lexeme → Prop
  | nil {started : Bool} : Row 0 false started [] []
  | cut {started : Bool} {c : Char} : isSeparator c = true → Row 0 false started [c] []
  | letter {depth depth' : Nat} {quoted quoted' started started' : Bool} {c : Char} {s : Text}
    {lexemes : List Lexeme} : Nesting.step depth quoted c = some (depth', quoted') →
    (depth = 0 → quoted = false → isSeparator c = false) →
    (started' = true → started = true ∨ Text.isBlank c = false) →
    Row depth' quoted' started' s lexemes → Row depth quoted started (c :: s) (letter c :: lexemes)
  | operator {op s : Text} {lexemes : List Lexeme} :
    OperatorTable.standard.isBinary op = true → s ≠ [] → Row 0 false false s lexemes →
    Row 0 false true (op ++ s) (operator op (OperatorTable.standard.precedence op) :: lexemes)

/-- Taking note of a character counts brackets and quotes. -/
theorem step_of_note {a a' : Cursor} {c : Char} (hq : ¬ a.quoted.isSome = true)
    (h : a.note c = some a') :
    Nesting.step a.opened.length false c = some (a'.opened.length, a'.quoted.isSome) ∧
      a'.afterTerm = a.afterTerm := by
  have hnone : a.quoted.isSome = false := by simpa using hq
  by_cases hquote : c = '"'
  · subst hquote
    rw [Cursor.note_quote] at h
    cases h
    exact ⟨rfl, rfl⟩
  · by_cases hopen : c = '('
    · subst hopen
      rw [Cursor.note_open] at h
      cases h
      exact ⟨by simp [Nesting.step, Cursor.fed, hnone], rfl⟩
    · by_cases hclose : c = ')'
      · subst hclose
        cases hopened : a.opened with
        | nil =>
          have hno : a.note ')' = none := by simp [Cursor.note, hopened]
          rw [hno] at h
          cases h
        | cons p outer =>
          rw [Cursor.note_close a hopened] at h
          cases h
          exact ⟨by simp [Nesting.step, Cursor.fed, hnone], rfl⟩
      · rw [Cursor.note_plain a c hquote hopen hclose] at h
        cases h
        exact ⟨by simp [Nesting.step, Cursor.fed, hnone, hquote, hopen, hclose], rfl⟩

theorem isSymbol_of_isSeparator {c : Char} (h : isSeparator c = true) :
    OperatorTable.standard.isSymbol c = true ∧ c ≠ '+' ∧ c ≠ '-' := by
  rcases isSeparator_iff.1 h with rfl | rfl <;> decide

/-- Outside brackets a separator is read as an operator. -/
theorem isTopLevel_of_isSeparator {a a' : Cursor} {c : Char} (hn : a.note c = some a')
    (hopened : a.opened.length = 0) (hc : isSeparator c = true) :
    (a'.isTopLevel && OperatorTable.standard.isSymbol c) = true := by
  obtain ⟨hsymbol, hplus, hminus⟩ := isSymbol_of_isSeparator hc
  rw [note_symbol hsymbol] at hn
  cases hn
  have hnumber : (a.fed c).number = .outside := feed_symbol hsymbol fun h => by
    rcases h with h | h
    · exact absurd h hplus
    · exact absurd h hminus
  have hnil : (a.fed c).opened = [] := List.length_eq_zero_iff.1 hopened
  rw [isTopLevel_of_outside hnil hnumber, hsymbol]
  rfl

/-- Where an operator can stand, nothing is open. -/
theorem opened_of_isTopLevel {a a' : Cursor} {c : Char} (hn : a.note c = some a')
    (htop : (a'.isTopLevel && OperatorTable.standard.isSymbol c) = true) :
    a.opened = [] ∧ a'.opened = [] ∧ a'.quoted = a.quoted ∧
      OperatorTable.standard.isSymbol c = true := by
  rw [Bool.and_eq_true] at htop
  have hopened := htop.1
  rw [Cursor.isTopLevel, Bool.and_eq_true, List.isEmpty_iff] at hopened
  rw [note_symbol htop.2] at hn
  cases hn
  exact ⟨hopened.1, hopened.1, rfl, htop.2⟩

/-- An operator that a scan has found stands behind a term and is one of the table; a sign belongs
to the term behind it. -/
theorem Row.written {isBinary : Bool} {op s : Text} {lexemes : List Lexeme} (hs : s ≠ [])
    (hop : (if isBinary = true then OperatorTable.standard.isBinary
      else OperatorTable.standard.isUnary) op = true) (h : Row 0 false false s lexemes) :
    Row 0 false isBinary (op ++ s) (Lexeme.written isBinary .standard op ++ lexemes) := by
  cases isBinary with
  | true => exact .operator hop hs h
  | false =>
    have hsign : ∀ c, c = '+' ∨ c = '-' → Row 0 false false (c :: s) (Lexeme.letter c :: lexemes) := by
      intro c hc
      refine .letter ?_ ?_ ?_ h
      · rcases hc with rfl | rfl <;> rfl
      · rcases hc with rfl | rfl <;> exact fun _ _ => rfl
      · nofun
    rcases OperatorTable.isUnary_iff.1 hop with rfl | rfl
    · exact hsign _ (.inl rfl)
    · exact hsign _ (.inr rfl)

theorem row_of_scan {a : Cursor} {s : Text} {lexemes : List Lexeme}
    (h : scan .standard a s = .ok lexemes) :
    Row a.opened.length a.quoted.isSome a.afterTerm s lexemes := by
  -- behind an operator nothing is open
  have hbehind : ∀ {a a' : Cursor} {c : Char} (op : Text) {s : Text}
      {lexemes : List Lexeme}, ¬ a.quoted.isSome = true → a.note c = some a' →
      (a'.isTopLevel && OperatorTable.standard.isSymbol c) = true → s ≠ [] →
      (if a'.afterTerm = true then OperatorTable.standard.isBinary
        else OperatorTable.standard.isUnary) op = true →
      Row (a'.skip op false).opened.length (a'.skip op false).quoted.isSome false s lexemes →
      Row a.opened.length a.quoted.isSome a.afterTerm (op ++ s)
        (Lexeme.written a'.afterTerm .standard op ++ lexemes) := by
    intro a a' c op s lexemes hq hnote htop hs hop hrow
    obtain ⟨hopened, hopened', hquoted, -⟩ := opened_of_isTopLevel hnote htop
    have hafter := (step_of_note hq hnote).2
    have hq' : a.quoted.isSome = false := by simpa using hq
    rw [Cursor.skip, hopened', hquoted, hq'] at hrow
    rw [hopened, hq', ← hafter]
    exact Row.written hs hop hrow
  rw [scan_eq_ok] at h
  induction h with
  | done ho hq =>
    rw [hq, ho]
    exact .nil
  | @quoted a c rest back hq _ ih =>
    have hstep : Nesting.step a.opened.length a.quoted.isSome c =
        some ((a.stepQuoted c).opened.length, (a.stepQuoted c).quoted.isSome) := by
      rw [hq]
      by_cases hc : c = '"' <;> simp [Nesting.step, Cursor.stepQuoted, Cursor.skip, hc, hq]
    have hafter : (a.stepQuoted c).afterTerm = a.afterTerm := by
      by_cases hc : c = '"' <;> simp [Cursor.stepQuoted, Cursor.skip, hc]
    refine .letter hstep ?_ ?_ ih
    · rw [hq]
      intro _ hquoted
      cases hquoted
    · rw [hafter]
      exact .inl
  | @separator a cursor c hq hnote htop hsep =>
    have hq' : a.quoted.isSome = false := by simpa using hq
    rw [(opened_of_isTopLevel hnote htop).1, hq']
    exact .cut hsep
  | @one a cursor c d rest back hq hnote htop hlong _ ih =>
    have hop := (OperatorTable.longest?_spec hlong).1 rfl
    exact hbehind [c] hq hnote htop (List.cons_ne_nil d rest) hop ih
  | @two a cursor c d rest back hq hnote htop hlong hne _ ih =>
    have hop := (OperatorTable.longest?_spec hlong).2 rfl
    refine hbehind [c, d] hq hnote htop ?_ hop ih
    rintro rfl
    cases hafter : cursor.afterTerm with
    | true =>
      rw [hafter] at hne
      exact hne rfl
    | false =>
      rw [hafter] at hop
      rcases OperatorTable.isUnary_iff.1 hop with hop | hop <;> cases hop
  | @letter a cursor c rest back hq hnote htop _ ih =>
    obtain ⟨hstep, hafter⟩ := step_of_note hq hnote
    have hq' : a.quoted.isSome = false := by simpa using hq
    rw [hq']
    refine .letter hstep ?_ ?_ ih
    · intro hopened _
      cases hsep : isSeparator c with
      | false => rfl
      | true => exact absurd (isTopLevel_of_isSeparator hnote hopened hsep) htop
    · rw [← hafter, Cursor.advance_afterTerm, Bool.or_eq_true, Bool.not_eq_true']
      exact id

/-! ## The text of a row -/

theorem isPlain_of_isBinary {op : Text} (h : OperatorTable.standard.isBinary op = true) :
    ∀ c ∈ op, Text.IsPlain c := by
  have hsymbol : ∀ c, OperatorTable.standard.isSymbol c = true → Text.IsPlain c := by
    intro c hc
    obtain ⟨ho, hcl, hq, -, -, -, -, hb, -⟩ := OperatorTable.symbol_facts hc
    exact ⟨hb, hq, ho, hcl⟩
  intro c hc
  obtain ⟨d, rfl, hd⟩ | ⟨d, d', rfl, hd, hd'⟩ := OperatorTable.binary_shape h
  · rw [List.mem_singleton.1 hc]
    exact hsymbol d hd
  · rcases List.mem_pair.1 hc with rfl | rfl
    · exact hsymbol _ hd
    · exact hsymbol _ hd'

theorem balanced_of_isBinary {op : Text} (h : OperatorTable.standard.isBinary op = true) :
    Balanced op := Balanced.of_plain fun c hc => (isPlain_of_isBinary h c hc).2

variable {d : Nat} {q started : Bool} {s : Text} {lexemes front back : List Lexeme}

theorem Row.makeUp (h : Row d q started s lexemes) : MakeUp lexemes s := by
  induction h with
  | nil => exact .inl rfl
  | cut hc => exact .inr ⟨_, hc, rfl⟩
  | @letter _ _ _ _ _ _ c _ _ _ _ _ _ ih => exact @MakeUp.append [Lexeme.letter c] _ _ ih
  | @operator op _ _ _ _ _ ih =>
    have happend :=
      @MakeUp.append [Lexeme.operator op (OperatorTable.standard.precedence op)] _ _ ih
    rwa [text, List.flatMap_singleton] at happend

theorem Row.run_text (h : Row d q started s lexemes) :
    Nesting.run d q (text lexemes) = some (0, false) := by
  induction h with
  | nil => rfl
  | cut => rfl
  | letter hstep _ _ _ ih =>
    change Nesting.run _ _ (_ :: text _) = _
    rw [Nesting.run, hstep]
    exact ih
  | operator hop _ _ ih =>
    exact (balanced_of_isBinary hop).append ih

theorem Row.run_self (h : Row d q started s lexemes) :
    Nesting.run d q s = some (0, false) := by
  have hrun := h.run_text
  rcases h.makeUp with hs | ⟨c, hc, hs⟩
  · rw [hs, hrun]
  · rw [hs, Nesting.run_append, hrun]
    rcases isSeparator_iff.1 hc with rfl | rfl <;> rfl

/-- The part of a row behind an operator. -/
theorem Row.behind {op : Text} {k : Nat}
    (h : Row d q started s (front ++ Lexeme.operator op k :: back)) :
    ∃ t, s = text front ++ (op ++ t) ∧ t ≠ [] ∧ Row 0 false false t back ∧
      OperatorTable.standard.isBinary op = true ∧ k = OperatorTable.standard.precedence op := by
  induction front generalizing d q started s with
  | nil =>
    cases h with
    | operator hop hs hrow => exact ⟨_, rfl, hs, hrow, hop, rfl⟩
  | cons l front ih =>
    cases h with
    | letter hstep hsep hstart hrow =>
      obtain ⟨t, rfl, ht⟩ := ih hrow
      exact ⟨t, rfl, ht⟩
    | operator hop' hs hrow =>
      obtain ⟨t, rfl, ht⟩ := ih hrow
      refine ⟨t, ?_, ht⟩
      rw [← List.append_assoc]
      rfl

/-! ## The end of a term -/

theorem isSeparator_glyph {c : Char} (h : q = false → isSeparator c = false) :
    Glyph.isSeparator ⟨c, q || c = '"'⟩ = false := by
  cases q with
  | true => rfl
  | false => rw [Glyph.isSeparator, h rfl, Bool.and_false]

/-- The last character of a term closes a bracket or stands outside of brackets. -/
theorem isSeparator_last {q' : Bool} {c : Char} (h : Nesting.step d q c = some (0, q'))
    (hsep : d = 0 → q = false → isSeparator c = false) :
    Glyph.isSeparator ⟨c, q || c = '"'⟩ = false := by
  obtain ⟨-, -, hd⟩ | ⟨-, hclose, -⟩ | ⟨-, -, hd⟩ := Glyph.step_cases (Text.step_glyph h)
  · cases hd
  · cases hs : Glyph.isSeparator ⟨c, q || c = '"'⟩ with
    | false => rfl
    | true =>
      rw [Glyph.isClosing_of_isSeparator hs] at hclose
      cases hclose
  · exact isSeparator_glyph (hsep hd.symm)

theorem closed_append {front back : List Glyph} (h : Glyph.Closed back) (hne : back ≠ []) :
    Glyph.Closed (front ++ back) := by
  intro g hg
  rw [List.getLast?_append, List.getLast?_eq_some_getLast hne, Option.some_or] at hg
  exact h g (List.getLast?_eq_some_getLast hne ▸ hg)

/-- The part of a row up to an operator or to its end does not end with a separator, and an operator
has something in front of it. -/
theorem Row.ending (h : Row d q started s (front ++ back))
    (hback : (back = [] ∧ ∀ op k, Lexeme.operator op k ∉ front) ∨
      ∃ op k more, back = Lexeme.operator op k :: more) :
    Nesting.run d q (text front) = some (0, false) ∧ Glyph.Closed (Text.solid q (text front)) ∧
      (back ≠ [] → Text.solid q (text front) = [] → started = true) := by
  induction front generalizing d q started s with
  | nil =>
    rcases hback with ⟨rfl, -⟩ | ⟨op, k, more, rfl⟩
    · cases h with
      | nil => exact ⟨rfl, Glyph.Closed.nil, fun h => absurd rfl h⟩
      | cut => exact ⟨rfl, Glyph.Closed.nil, fun h => absurd rfl h⟩
    · cases h with
      | operator => exact ⟨rfl, Glyph.Closed.nil, fun _ _ => rfl⟩
  | cons l front ih =>
    cases h with
    | @letter _ d' _ q' _ started' c _ _ hstep hsep hstart hrow =>
      obtain ⟨hrun, hclosed, hbegun⟩ := ih hrow (hback.imp_left fun ⟨hb, hno⟩ =>
        ⟨hb, fun op k hm => hno op k (List.mem_cons_of_mem _ hm)⟩)
      change Nesting.run d q (c :: text front) = _ ∧ Glyph.Closed (Text.solid q (c :: text front)) ∧
        (_ → Text.solid q (c :: text front) = [] → _)
      refine ⟨by rw [Nesting.run, hstep]; exact hrun, ?_, ?_⟩
      · rw [Text.solid_cons hstep]
        cases hrest : Text.solid q' (text front) with
        | cons g rest => exact closed_append (hrest ▸ hclosed) (List.cons_ne_nil g rest)
        | nil =>
          have hdepth := Text.run_solid hrun
          rw [hrest] at hdepth
          cases hdepth
          rw [List.append_nil]
          split
          · exact Glyph.Closed.nil
          · intro g hg
            cases hg
            exact isSeparator_last hstep hsep
      · intro hne hnil
        rw [Text.solid_cons hstep, List.append_eq_nil_iff] at hnil
        obtain ⟨hglyph, hrest⟩ := hnil
        refine (hstart (hbegun hne hrest)).resolve_right ?_
        intro hblank
        rw [hblank, Bool.and_false] at hglyph
        cases hglyph
    | @operator op _ _ hop hs hrow =>
      obtain ⟨k, more, hmore⟩ : ∃ op k, ∃ more, back = Lexeme.operator op k :: more := by
        refine hback.resolve_left ?_
        rintro ⟨-, hno⟩
        exact hno _ _ List.mem_cons_self
      obtain ⟨hrun, hclosed, hbegun⟩ := ih hrow (.inr ⟨k, more, hmore⟩)
      have hbalanced := balanced_of_isBinary hop
      have hne : Text.solid false (text front) ≠ [] := by
        intro hnil
        have hback' : back ≠ [] := by
          obtain ⟨_, rfl⟩ := hmore
          exact List.cons_ne_nil _ _
        cases hbegun hback' hnil
      change Nesting.run 0 false (op ++ text front) = _ ∧
        Glyph.Closed (Text.solid false (op ++ text front)) ∧ _
      refine ⟨hbalanced.append hrun, ?_, fun _ _ => rfl⟩
      rw [Text.solid_balanced hbalanced]
      exact closed_append hclosed hne

theorem Row.closed_of_letters (h : Row d q started s lexemes)
    (hno : ∀ op k, Lexeme.operator op k ∉ lexemes) :
    Glyph.Closed (Text.solid q (text lexemes)) := by
  rw [← List.append_nil lexemes] at h
  exact (h.ending (.inl ⟨rfl, hno⟩)).2.1

/-- Behind an operator it is known whether it was a semicolon. -/
theorem foldl_behind_operator {op : Text} (h : OperatorTable.standard.isBinary op = true) (b : Bool)
    (marks : List Bool) :
    (Text.solid false op).foldl Glyph.behind (b :: marks) = (b || op = [';']) :: marks := by
  have hall : ∀ op ∈ OperatorTable.binaries, op = [';'] ∨ ';' ∉ op := by decide
  have hplain := isPlain_of_isBinary h
  have hop := hall op (OperatorTable.isBinary_iff.1 h)
  rw [Text.solid_plain hplain]
  rcases hop with rfl | hop
  · rw [Bool.or_eq_true_iff.2 (.inr (decide_eq_true rfl))]
    rfl
  · have hne : op ≠ [';'] := by
      rintro rfl
      exact hop List.mem_cons_self
    rw [decide_eq_false hne, Bool.or_false]
    clear hall h hne
    induction op with
    | nil => rfl
    | cons c op ih =>
      obtain ⟨-, -, ho, hc⟩ := hplain c List.mem_cons_self
      rw [List.mem_cons, not_or] at hop
      have hstep : Glyph.behind (b :: marks) ⟨c, false⟩ = b :: marks := by
        simp [Glyph.behind, Glyph.isOpening, Glyph.isClosing, ho, hc, Ne.symm hop.1]
      rw [List.map_cons, List.foldl_cons, hstep]
      exact ih (fun c hc => hplain c (List.mem_cons_of_mem _ hc)) hop.2

/-- As long as no semicolon joins terms, none stands outside brackets. -/
theorem Row.foldl_behind (h : Row d q started s (front ++ back))
    (hno : ∀ k, Lexeme.operator [';'] k ∉ front)
    (hrun : Nesting.run d q (text front) = some (0, false)) {inner : List Bool}
    (hd : inner.length = d) (b : Bool) (marks : List Bool) :
    (Text.solid q (text front)).foldl Glyph.behind (inner ++ b :: marks) = b :: marks := by
  induction front generalizing d q started s inner with
  | nil =>
    cases hrun
    rw [List.length_eq_zero_iff.1 hd]
    rfl
  | cons l front ih =>
    have hno' : ∀ k, Lexeme.operator [';'] k ∉ front := fun k hm =>
      hno k (List.mem_cons_of_mem _ hm)
    cases h with
    | @letter _ d' _ q' _ started' c _ _ hstep hsep hstart hrow =>
      obtain ⟨d₁, q₁, hstep₁, hrun₁⟩ := Nesting.run_cons hrun
      rw [hstep] at hstep₁
      cases hstep₁
      change (Text.solid q (c :: text front)).foldl _ _ = _
      rw [Text.solid_cons hstep]
      split
      · rename_i hb
        obtain ⟨rfl, rfl⟩ := Text.step_blank hstep hb
        exact ih hrow hno' hrun₁ hd
      · obtain ⟨inner', hd', hbehind⟩ := Glyph.exists_behind (Text.step_glyph hstep)
          (fun h0 => isSeparator_glyph (hsep h0)) hd b marks
        rw [List.singleton_append, List.foldl_cons, hbehind]
        exact ih hrow hno' hrun₁ hd'
    | @operator op _ _ hop hs hrow =>
      have hne : op ≠ [';'] := by
        rintro rfl
        exact hno _ List.mem_cons_self
      change (Text.solid false (op ++ text front)).foldl _ _ = _
      rw [Text.solid_balanced (balanced_of_isBinary hop), List.foldl_append,
        List.length_eq_zero_iff.1 hd, List.nil_append, foldl_behind_operator hop,
        decide_eq_false hne, Bool.or_false]
      refine ih hrow hno' ?_ List.length_nil
      have hop' : Nesting.run 0 false op = some (0, false) := balanced_of_isBinary hop
      change Nesting.run 0 false (op ++ text front) = _ at hrun
      rwa [Nesting.run_append, hop'] at hrun

/-- Letters without brackets have no separator among them. -/
theorem Row.plain {u : Text} (h : Row 0 q started s (u.map Lexeme.letter ++ back))
    (hopen : ∀ g ∈ Text.solid q u, g.isOpening = false) :
    ∀ g ∈ Text.solid q u, g.isBracket = false ∧ g.isSeparator = false := by
  induction u generalizing q started s with
  | nil => exact nofun
  | cons c u ih =>
    cases h with
    | @letter _ d' _ q' _ _ _ _ _ hstep hsep hstart hrow =>
      rw [Text.solid_cons hstep] at hopen ⊢
      split at hopen
      · rename_i hb
        rw [if_pos hb]
        obtain ⟨rfl, rfl⟩ := Text.step_blank hstep hb
        exact ih hrow hopen
      · rename_i hb
        rw [if_neg hb, List.singleton_append]
        rw [List.singleton_append, List.forall_mem_cons] at hopen
        have hsep' := isSeparator_glyph (hsep rfl)
        obtain ⟨ho, -⟩ | ⟨-, -, hd⟩ | ⟨ho, hc, rfl⟩ := Glyph.step_cases (Text.step_glyph hstep)
        · rw [ho] at hopen
          cases hopen.1
        · cases hd
        · rw [List.forall_mem_cons]
          refine ⟨⟨?_, hsep'⟩, ih hrow hopen.2⟩
          rw [Glyph.isBracket, ho, hc]
          rfl

/-! ## What is kept of a row -/

theorem rank_of_semicolon {op : Text} (h : OperatorTable.standard.isBinary op = true) :
    OperatorTable.standard.precedence op = 1 ↔ op = [';'] := by
  have hall : ∀ op ∈ OperatorTable.binaries,
      OperatorTable.standard.precedence op = 1 ↔ op = [';'] := by decide +kernel
  exact hall op (OperatorTable.isBinary_iff.1 h)

theorem rank_of_comma : OperatorTable.standard.precedence [','] = 2 := by decide

theorem kept_separator {c : Char} (hc : isSeparator c = true) (sequences : List Bool) :
    Glyph.kept sequences (Text.solid false [c]) = [] := by
  rcases isSeparator_iff.1 hc with rfl | rfl <;> rfl

theorem operator_cases {op : Text} (h : OperatorTable.standard.isBinary op = true) :
    op = [';'] ∨ op = [','] ∨ ∀ c ∈ op, isSeparator c = false := by
  have hall : ∀ op ∈ OperatorTable.binaries, op = [';'] ∨ op = [','] ∨
      op.any isSeparator = false := by decide
  refine (hall op (OperatorTable.isBinary_iff.1 h)).imp_right fun hop => hop.imp_right fun hop => ?_
  simpa using hop

/-- Behind a semicolon the comma before the last separator is left out with it. -/
theorem kept_comma_separator {c : Char} (hc : isSeparator c = true) (marks : List Bool) :
    Glyph.kept (true :: marks) (Text.solid false [','] ++ Text.solid false [c]) = [] := by
  rcases isSeparator_iff.1 hc with rfl | rfl <;> rfl

/-- An operator is kept if it is no separator at an end. -/
theorem kept_operator {op : Text} (h : OperatorTable.standard.isBinary op = true) {b : Bool}
    {rest : List Glyph} (hends : Glyph.ends rest = false)
    (hcomma : op = [','] → b = true → Glyph.endsSeparated rest = false) (marks : List Bool) :
    Glyph.kept (b :: marks) (Text.solid false op ++ rest) =
      op ++ Glyph.kept ((b || op = [';']) :: marks) rest := by
  have hplain := isPlain_of_isBinary h
  rcases operator_cases h with rfl | rfl | hop
  · have hlast : Glyph.isLast b ⟨';', false⟩ rest = false := by
      rw [Glyph.isLast, hends]
      simp
    rw [Bool.or_eq_true_iff.2 (.inr (decide_eq_true rfl)), Text.solid_plain hplain]
    change Glyph.kept (b :: marks) (⟨';', false⟩ :: rest) = _
    rw [Glyph.kept, List.headD_cons, hlast]
    rfl
  · have hlast : Glyph.isLast b ⟨',', false⟩ rest = false := by
      rw [Glyph.isLast, hends]
      cases b with
      | false => simp
      | true => simp [hcomma rfl rfl]
    rw [Text.solid_plain hplain]
    change Glyph.kept (b :: marks) (⟨',', false⟩ :: rest) = _
    rw [Glyph.kept, List.headD_cons, hlast, decide_eq_false (by decide), Bool.or_false b]
    rfl
  · have hne : op ≠ [';'] := by
      rintro rfl
      exact absurd (hop _ List.mem_cons_self) (by decide)
    rw [Text.solid_plain hplain, Glyph.kept_plain, List.map_map, decide_eq_false hne, Bool.or_false]
    · exact congrArg (· ++ _) (List.map_id op)
    · intro g hg
      obtain ⟨c, hc, rfl⟩ := List.mem_map.1 hg
      obtain ⟨-, -, ho, hcl⟩ := hplain c hc
      simp [Glyph.isBracket, Glyph.isOpening, Glyph.isClosing, Glyph.isSeparator, ho, hcl, hop c hc]

theorem closed_operator {op : Text} (h : OperatorTable.standard.isBinary op = true)
    (hs : op ≠ [';']) (hc : op ≠ [',']) : Glyph.Closed (Text.solid false op) := by
  have hop := ((operator_cases h).resolve_left hs).resolve_left hc
  intro g hg
  have hmem := List.mem_of_getLast? hg
  rw [Text.solid_plain (isPlain_of_isBinary h)] at hmem
  obtain ⟨c, hm, rfl⟩ := List.mem_map.1 hmem
  rw [Glyph.isSeparator, hop c hm, Bool.and_false]

theorem solid_operator_ne_nil {op : Text} (h : OperatorTable.standard.isBinary op = true) :
    Text.solid false op ≠ [] := by
  rw [Text.solid_plain (isPlain_of_isBinary h), ne_eq, List.map_eq_nil_iff]
  rintro rfl
  exact absurd h (by decide)

/-- A row that does not end with an operator is kept up to the separator at its end. -/
theorem Row.kept_closed (h : Row 0 false started s lexemes)
    (hclosed : Glyph.Closed (Text.solid false (text lexemes))) (b : Bool) (marks : List Bool) :
    Glyph.kept (b :: marks) (Text.solid false s) = Text.written (text lexemes) := by
  have hbalanced : Balanced (text lexemes) := h.run_text
  rcases h.makeUp with hs | ⟨c, hc, hs⟩
  · rw [hs, Text.kept_solid hbalanced hclosed]
  · rw [hs, Text.solid_balanced hbalanced, Glyph.kept_append _ (.inl hclosed),
      Text.kept_solid hbalanced hclosed, kept_separator hc, List.append_nil]

/-- A row of lexemes has no operator or a last one. -/
theorem last_operator (lexemes : List Lexeme) :
    (∀ op k, Lexeme.operator op k ∉ lexemes) ∨
      ∃ front op k back, lexemes = front ++ Lexeme.operator op k :: back ∧
        ∀ op k, Lexeme.operator op k ∉ back := by
  induction lexemes with
  | nil => exact .inl fun _ _ => nofun
  | cons l lexemes ih =>
    rcases ih with hno | ⟨front, op, k, back, rfl, hno⟩
    · cases l with
      | letter c =>
        refine .inl fun op k hm => ?_
        rcases List.mem_cons.1 hm with hm | hm
        · cases hm
        · exact hno op k hm
      | operator op k => exact .inr ⟨[], op, k, lexemes, rfl, hno⟩
    · exact .inr ⟨l :: front, op, k, back, rfl, hno⟩

theorem Row.rank_of_mem (h : Row d q started s lexemes) {op : Text} {k : Nat}
    (hm : Lexeme.operator op k ∈ lexemes) :
    OperatorTable.standard.isBinary op = true ∧ k = OperatorTable.standard.precedence op := by
  obtain ⟨front, back, rfl⟩ := List.append_of_mem hm
  obtain ⟨-, -, -, -, hop, hk⟩ := h.behind
  exact ⟨hop, hk⟩

/-- No semicolon joins terms where all operators are of higher rank. -/
theorem Row.no_semicolon (h : Row d q started s lexemes) {r : Nat} (hr : 1 ≤ r)
    {inside : List Lexeme} (hin : ∀ l ∈ inside, l ∈ lexemes)
    (hrank : ∀ op k, Lexeme.operator op k ∈ inside → r < k) (k : Nat) :
    Lexeme.operator [';'] k ∉ inside := by
  intro hm
  obtain ⟨hop, hk⟩ := h.rank_of_mem (hin _ hm)
  have hlt := hrank _ _ hm
  rw [hk, (rank_of_semicolon hop).2 rfl] at hlt
  omega

/-- What is kept of the last term of a level: what is written in it, read on its own. -/
theorem Row.kept_last (h : Row 0 false false s lexemes) {r : Nat} (hr : 1 ≤ r)
    (hrank : ∀ op k, Lexeme.operator op k ∈ lexemes → r < k)
    (hlast : ∀ c ∈ s.getLast?, Text.isBlank c = false) {b : Bool} (hb : b = true ∨ r ≠ 1)
    (marks : List Bool) :
    Glyph.kept (b :: marks) (Text.solid false s) = Text.written (text lexemes) := by
  rcases last_operator lexemes with hno | ⟨front, op, k, back, rfl, hno⟩
  · exact h.kept_closed (h.closed_of_letters hno) b marks
  · obtain ⟨hrun, hclosed, hbegun⟩ := Row.ending h (.inr ⟨op, k, back, rfl⟩)
    obtain ⟨t, hs, ht, hrow, hop, hk⟩ := h.behind
    have hback := hrow.closed_of_letters hno
    have htext : text (front ++ Lexeme.operator op k :: back) =
        text front ++ (op ++ text back) := by
      rw [text_append]
      rfl
    have hsolid : Text.solid false (text (front ++ Lexeme.operator op k :: back)) =
        Text.solid false (text front) ++ (Text.solid false op ++ Text.solid false (text back)) := by
      rw [htext, Text.solid_balanced hrun, Text.solid_balanced (balanced_of_isBinary hop)]
    cases hrest : Text.solid false (text back) with
    | cons g rest =>
      refine h.kept_closed ?_ b marks
      have hne := List.cons_ne_nil g rest
      rw [← hrest] at hne
      rw [hsolid]
      exact closed_append (closed_append hback hne) (List.append_ne_nil_of_right_ne_nil _ hne)
    | nil =>
      obtain ⟨c, hc, ht'⟩ : ∃ c, isSeparator c = true ∧ t = text back ++ [c] := by
        refine hrow.makeUp.resolve_left fun htext => ?_
        have hgetLast := List.getLast?_eq_some_getLast ht
        refine Text.solid_ne_nil hgetLast (hlast _ ?_) false (htext ▸ hrest)
        rw [hs, List.getLast?_append, List.getLast?_append, hgetLast]
        rfl
      rw [hrest, List.append_nil] at hsolid
      by_cases hcomma : op = [',']
      · subst hcomma
        have hlt := hrank _ k (List.mem_append_right front List.mem_cons_self)
        rw [hk, rank_of_comma] at hlt
        obtain rfl : b = true := hb.resolve_right (by omega)
        have hfront := h.foldl_behind (h.no_semicolon hr (fun l hl => List.mem_append_left _ hl)
          fun op k hm => hrank op k (List.mem_append_left _ hm)) hrun
          (List.length_nil) true marks
        have hwritten : Text.written (text (front ++ Lexeme.operator [','] k :: back)) =
            Text.written (text front) := by
          rw [Text.written, hsolid, Glyph.kept_append _ (.inl hclosed), kept_separator rfl,
            List.append_nil]
          rfl
        have hends : Text.solid false s = Text.solid false (text front) ++
            (Text.solid false [','] ++ Text.solid false [c]) := by
          rw [hs, ht', Text.solid_balanced hrun, Text.solid_balanced (balanced_of_isBinary hop),
            Text.solid_balanced hrow.run_text, hrest, List.nil_append]
        rw [List.nil_append] at hfront
        rw [hends, Glyph.kept_append _ (.inl hclosed), Text.kept_solid hrun hclosed, hfront,
          kept_comma_separator hc, List.append_nil, hwritten]
      · refine h.kept_closed ?_ b marks
        have hsemicolon : op ≠ [';'] := by
          rintro rfl
          exact h.no_semicolon hr (fun _ hl => hl) hrank k
            (List.mem_append_right front List.mem_cons_self)
        rw [hsolid]
        exact closed_append (closed_operator hop hsemicolon hcomma) (solid_operator_ne_nil hop)

/-- What is kept of a level: what is written in its terms, read one by one, with the operators
between them. -/
theorem Row.kept_split (h : Row 0 false false s lexemes) {r : Nat} (hr : 1 ≤ r)
    (hrank : ∀ op k, Lexeme.operator op k ∈ lexemes → r ≤ k)
    (hlast : ∀ c ∈ s.getLast?, Text.isBlank c = false) {b : Bool} (hb : b = true → r = 1)
    (hmore : b = true ∨ r ≠ 1 ∨ (split r lexemes).2 ≠ []) (marks : List Bool) :
    Glyph.kept (b :: marks) (Text.solid false s) = Text.written (split r lexemes).1 ++
      (split r lexemes).2.flatMap fun p => p.1 ++ Text.written p.2 := by
  induction hn : lexemes.length using Nat.strong_induction_on generalizing lexemes s b with
  | _ n ih =>
    obtain ⟨seg, rest, rfl, htext, hpiece⟩ := first_of_split r lexemes
    have hseg : ∀ op k, Lexeme.operator op k ∈ seg → r < k := fun op k hm =>
      lt_of_le_of_ne (hrank op k (List.mem_append_left rest hm)) (hpiece.inside op k hm).symm
    rcases hpiece.behind with rfl | ⟨op, more, rfl⟩
    · rw [List.append_nil] at h hmore ⊢
      rw [split_of_ne hpiece.inside] at hmore ⊢
      rw [h.kept_last hr hseg hlast (hmore.imp_right fun h => h.resolve_right fun h => h rfl),
        List.flatMap_nil, List.append_nil]
    · obtain ⟨t, hs, ht, hrow, hop, hk⟩ := h.behind
      obtain ⟨hrun, hclosed, -⟩ := h.ending (.inr ⟨op, r, more, rfl⟩)
      have hgetLast := List.getLast?_eq_some_getLast ht
      have hlast' : ∀ c ∈ t.getLast?, Text.isBlank c = false := by
        intro c hc
        refine hlast c ?_
        rw [hs, List.getLast?_append, List.getLast?_append, Option.mem_def.1 hc]
        rfl
      have hsemicolon : (b || op = [';']) = true ↔ r = 1 := by
        rw [Bool.or_eq_true, decide_eq_true_eq, ← rank_of_semicolon hop, ← hk]
        exact or_iff_right_of_imp hb
      have htail := ih more.length (by simp only [← hn, List.length_append, List.length_cons]; omega)
        hrow (fun op k hm => hrank op k (List.mem_append_right seg (List.mem_cons_of_mem _ hm)))
        hlast' hsemicolon.1 (by rw [hsemicolon]; tauto) rfl
      have hends : Glyph.ends (Text.solid false t) = false := by
        have hrun' := Text.run_solid hrow.run_self
        obtain ⟨g, rest, hsolid⟩ := List.exists_cons_of_ne_nil
          (Text.solid_ne_nil hgetLast (hlast' _ hgetLast) false)
        rw [hsolid] at hrun' ⊢
        exact Glyph.ends_of_run hrun'
      have hcomma : op = [','] → b = true → Glyph.endsSeparated (Text.solid false t) = false := by
        rintro rfl hbegun
        rw [hb hbegun, rank_of_comma] at hk
        cases hk
      have hfront := h.foldl_behind (h.no_semicolon hr (fun l hl => List.mem_append_left _ hl) hseg)
        hrun List.length_nil b marks
      rw [List.nil_append] at hfront
      rw [split_append, split_of_ne hpiece.inside, List.nil_append, List.flatMap_cons, hs,
        Text.solid_balanced hrun, Text.solid_balanced (balanced_of_isBinary hop),
        Glyph.kept_append _ (.inl hclosed), Text.kept_solid hrun hclosed, hfront,
        kept_operator hop hends hcomma, htail, List.append_assoc]

end Lexeme
end Lineshape
