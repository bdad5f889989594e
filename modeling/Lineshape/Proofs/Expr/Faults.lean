import Lineshape.Proofs.Expr.Written
import Mathlib.Logic.Relation

/-! # Faults of brackets and quotes

Only the scan of the whole text can find that brackets or quotes do not fit together: what is cut out
of a text that was scanned is balanced, however it is cut out (`Expr.balanced_of_below`), and in a
balanced text the scan finds no such fault and every bracket has its partner
(`Expr.nesting_fault_of_parse`). This holds for every table of operators without brackets and quotes. -/

namespace Lineshape
set_option autoImplicit false

/-- Whether a fault is one of brackets or quotes. -/
def Fault.ofNesting : Fault → Bool
  | .unmatchedBrackets | .unmatchedQuotes => true
  | _ => false

namespace OperatorTable

variable {t : OperatorTable}

/-- No operator has a bracket or a quote in it. -/
def Unbracketed (t : OperatorTable) : Prop :=
  t.isSymbol '"' = false ∧ t.isSymbol '(' = false ∧ t.isSymbol ')' = false

instance (t : OperatorTable) : Decidable t.Unbracketed := inferInstanceAs (Decidable (_ ∧ _ ∧ _))

theorem Unbracketed.ne {c : Char} (ht : t.Unbracketed) (hc : t.isSymbol c = true) :
    c ≠ '"' ∧ c ≠ '(' ∧ c ≠ ')' := by
  refine ⟨?_, ?_, ?_⟩
  · rintro rfl
    exact absurd hc (by rw [ht.1]; exact Bool.false_ne_true)
  · rintro rfl
    exact absurd hc (by rw [ht.2.1]; exact Bool.false_ne_true)
  · rintro rfl
    exact absurd hc (by rw [ht.2.2]; exact Bool.false_ne_true)

theorem isSymbol_of_mem {op : Text} {c : Char} (h : t.isBinary op = true ∨ t.isUnary op = true)
    (hc : c ∈ op) : t.isSymbol c = true := by
  rw [isSymbol, Bool.or_eq_true]
  rcases h with h | h
  · obtain ⟨ops, hops, hop⟩ := List.any_eq_true.1 h
    exact .inl (List.any_eq_true.2 ⟨ops, hops, List.any_eq_true.2
      ⟨op, List.contains_iff_mem.1 hop, List.contains_iff_mem.2 hc⟩⟩)
  · exact .inr (List.any_eq_true.2
      ⟨op, List.contains_iff_mem.1 h, List.contains_iff_mem.2 hc⟩)

theorem Unbracketed.balanced {op : Text} (ht : t.Unbracketed)
    (h : t.isBinary op = true ∨ t.isUnary op = true) : Balanced op :=
  .of_plain fun _ hc => ht.ne (isSymbol_of_mem h hc)

/-- Every rank that an operator has is the rank of a group with a first operator. -/
theorem exists_label_of_isBinary {op : Text} (h : t.isBinary op = true) :
    ∃ label, t.groupLabel (t.precedence op) = some label := by
  have hgroup : ∀ (levels : List (List Text)) (first : Nat), 0 < rankFrom op first levels →
      ∃ i ops, rankFrom op first levels = first + i ∧ levels[i]? = some ops ∧ op ∈ ops := by
    intro levels
    induction levels with
    | nil => exact fun first h => absurd h (Nat.lt_irrefl 0)
    | cons ops later ih =>
      intro first hpos
      rw [rankFrom] at hpos ⊢
      split at hpos
      · split at hpos
        · rename_i hop
          exact ⟨0, ops, if_pos hop, rfl, List.contains_iff_mem.1 hop⟩
        · exact absurd hpos (Nat.lt_irrefl 0)
      · rename_i hlater
        obtain ⟨i, ops', hrank, hget, hop⟩ := ih (first + 1) (Nat.pos_of_ne_zero hlater)
        exact ⟨i + 1, ops', by omega, hget, hop⟩
  obtain ⟨i, ops, hrank, hget, hop⟩ := hgroup t.levels 1 (precedence_pos_iff.2 h)
  obtain ⟨label, rest, rfl⟩ := List.exists_cons_of_ne_nil (List.ne_nil_of_mem hop)
  refine ⟨label, ?_⟩
  rw [precedence, hrank, Nat.add_comm, groupLabel, hget]
  rfl

end OperatorTable

/-! ## Balanced parts -/

namespace Nesting

theorem step_plain {c : Char} (h : c ≠ '"' ∧ c ≠ '(' ∧ c ≠ ')') (depth : Nat) :
    step depth false c = some (depth, false) := by
  simp [step, h]

/-- Without an opening bracket a bracket that stays open was not needed. -/
theorem run_pred {depth : Nat} {quoted quoted' : Bool} {s : Text} (hs : '(' ∉ s)
    (h : run (depth + 1) quoted s = some (depth + 1, quoted')) :
    run depth quoted s = some (depth, quoted') := by
  induction s generalizing quoted with
  | nil =>
    cases h
    rfl
  | cons c s ih =>
    obtain ⟨d, q, hstep, hrun⟩ := run_cons h
    have hrest : '(' ∉ s := fun hm => hs (List.mem_cons_of_mem _ hm)
    have hc : c ≠ '(' := fun hc => hs (hc ▸ List.mem_cons_self)
    have hle := run_le hrun hrest
    obtain ⟨rfl, rfl, rfl⟩ | ⟨rfl, rfl, rfl, rfl⟩ | ⟨rfl, rfl, -, -⟩ | ⟨-, -, hd, -⟩ |
      ⟨rfl, hq, ho, hclose, rfl, rfl⟩ := step_cases hstep
    · exact ih hrest hrun
    · exact ih hrest hrun
    · exact absurd rfl hc
    · omega
    · rw [run, step_plain ⟨hq, ho, hclose⟩]
      exact ih hrest hrun

/-- Where a text closes one bracket more than it opens, this bracket has its partner in the text. -/
theorem exists_splitAtClosing {depth : Nat} {quoted : Bool} {s : Text}
    (h : run (depth + 1) quoted s = some (0, false)) :
    ∃ inside after, splitAtClosing depth quoted s = some (inside, after) ∧
      run depth quoted inside = some (0, false) := by
  induction s generalizing depth quoted with
  | nil => cases h
  | cons c s ih =>
    obtain ⟨d, q, hstep, hrun⟩ := run_cons h
    rw [splitAtClosing.eq_def]
    obtain ⟨rfl, rfl, rfl⟩ | ⟨rfl, rfl, rfl, rfl⟩ | ⟨rfl, rfl, rfl, rfl⟩ | ⟨rfl, rfl, hd, rfl⟩ |
      ⟨rfl, hq, ho, hc, rfl, rfl⟩ := step_cases hstep
    · obtain ⟨inside, after, hsplit, hinside⟩ := ih hrun
      refine ⟨c :: inside, after, ?_, ?_⟩
      · have hquote : (if c = '"' then !true else true) = (c != '"') := by
          by_cases hc : c = '"' <;> simp [hc]
        simp only [Bool.not_true, Bool.and_false, Bool.false_eq_true, if_false]
        rw [← Bool.not_true, hquote, hsplit]
        rfl
      · exact hinside
    · obtain ⟨inside, after, hsplit, hinside⟩ := ih hrun
      exact ⟨'"' :: inside, after, by simp [hsplit], hinside⟩
    · obtain ⟨inside, after, hsplit, hinside⟩ := ih hrun
      exact ⟨'(' :: inside, after, by simp [hsplit], hinside⟩
    · obtain rfl : depth = d := Nat.succ.inj hd
      cases depth with
      | zero => exact ⟨[], s, rfl, rfl⟩
      | succ depth =>
        obtain ⟨inside, after, hsplit, hinside⟩ := ih hrun
        exact ⟨')' :: inside, after, by simp [hsplit], hinside⟩
    · obtain ⟨inside, after, hsplit, hinside⟩ := ih hrun
      refine ⟨c :: inside, after, by simp [hq, ho, hc, hsplit], ?_⟩
      rw [run, step_plain ⟨hq, ho, hc⟩]
      exact hinside

/-- Up to the first opening bracket no bracket is open. -/
theorem run_of_splitAtOpening {quoted quoted' : Bool} {s head behind : Text}
    (h : splitAtOpening quoted s = some (head, behind)) (hs : run 0 quoted s = some (0, quoted')) :
    run 1 false behind = some (0, quoted') := by
  induction s generalizing quoted head with
  | nil => cases h
  | cons c s ih =>
    obtain ⟨d, q, hstep, hrun⟩ := run_cons hs
    rw [splitAtOpening] at h
    split at h
    · rename_i hopen
      rw [Bool.and_eq_true, decide_eq_true_eq, Bool.not_eq_true'] at hopen
      obtain ⟨rfl, rfl⟩ := hopen
      cases h
      cases hstep
      exact hrun
    · rename_i hopen
      obtain ⟨⟨head', behind'⟩, hsplit, he⟩ := Option.map_eq_some_iff.1 h
      cases he
      obtain ⟨rfl, rfl, rfl⟩ | ⟨rfl, rfl, rfl, rfl⟩ | ⟨rfl, rfl, -, -⟩ | ⟨-, -, hd, -⟩ |
        ⟨rfl, hq, ho, hc, rfl, rfl⟩ := step_cases hstep
      · have hquote : (if c = '"' then !true else true) = (c != '"') := by
          by_cases hc : c = '"' <;> simp [hc]
        rw [hquote] at hsplit
        exact ih hsplit hrun
      · exact ih hsplit hrun
      · exact absurd rfl hopen
      · exact absurd hd (Nat.succ_ne_zero d).symm
      · rw [if_neg hq] at hsplit
        exact ih hsplit hrun

/-- Within brackets at least one bracket is open. -/
theorem exists_depth_of_prefix {depth : Nat} {quoted : Bool} {s front : Text} {p : Nat × Bool}
    (h : run depth quoted s = some p) (hfront : front <+: s) :
    ∃ depth' quoted', run (depth + 1) quoted front = some (depth' + 1, quoted') := by
  obtain ⟨back, rfl⟩ := hfront
  rw [run_append] at h
  obtain ⟨⟨depth', quoted'⟩, hrun, -⟩ := Option.bind_eq_some_iff.1 h
  exact ⟨depth', quoted', run_add hrun 1⟩

end Nesting

/-- Brackets are taken off a balanced text only if they belong together. -/
theorem Balanced.stripBrackets {s : Text} (h : Balanced s) : Balanced (stripBrackets s) := by
  rcases stripBrackets_cases s with hs | ⟨inside, rfl, hno, hs⟩
  · rw [hs]
    exact h
  · rw [hs, Text.balanced_trim]
    have hrun : Nesting.run 1 false (inside ++ [')']) = some (0, false) := h
    rw [Nesting.run_append] at hrun
    obtain ⟨⟨d, q⟩, hinside, hlast⟩ := Option.bind_eq_some_iff.1 hrun
    cases q with
    | true => cases hlast
    | false =>
      cases d with
      | zero => cases hlast
      | succ d =>
        have hd : d = 0 := by
          have hclose : Nesting.run (d + 1) false [')'] = some (d, false) := rfl
          rw [hclose] at hlast
          exact congrArg Prod.fst (Option.some.inj hlast)
        subst hd
        exact Nesting.run_pred hno hinside

/-! ## Scans -/

namespace Lexeme

variable {t : OperatorTable} {d : Nat} {q : Bool} {lexemes : List Lexeme}

/-- The brackets and quotes of a row of lexemes fit together, and its operators stand outside all of
them. -/
inductive Nested (t : OperatorTable) : Nat → Bool → List Lexeme → Prop
  | nil : Nested t 0 false []
  | letter {d d' : Nat} {q q' : Bool} {c : Char} {lexemes : List Lexeme} :
    Nesting.step d q c = some (d', q') → Nested t d' q' lexemes → Nested t d q (letter c :: lexemes)
  | operator {op : Text} {lexemes : List Lexeme} : t.isBinary op = true → Nested t 0 false lexemes →
    Nested t 0 false (operator op (t.precedence op) :: lexemes)

theorem Nested.written {isBinary : Bool} {op : Text} (ht : t.Unbracketed)
    (hop : (if isBinary = true then t.isBinary else t.isUnary) op = true)
    (h : Nested t 0 false lexemes) : Nested t 0 false (written isBinary t op ++ lexemes) := by
  cases isBinary with
  | true => exact .operator hop h
  | false =>
    have hletters : ∀ s : Text, (∀ c ∈ s, c ≠ '"' ∧ c ≠ '(' ∧ c ≠ ')') →
        Nested t 0 false (s.map Lexeme.letter ++ lexemes) := by
      intro s hs
      induction s with
      | nil => exact h
      | cons c s ih =>
        exact .letter (Nesting.step_plain (hs c List.mem_cons_self) 0)
          (ih fun c' hc' => hs c' (List.mem_cons_of_mem _ hc'))
    exact hletters op fun c hc => ht.ne (OperatorTable.isSymbol_of_mem (.inr hop) hc)

/-- Where an operator can begin nothing is open, and its first character opens nothing. -/
theorem closed_of_symbol {a a' : Cursor} {c : Char} (ht : t.Unbracketed) (hn : a.note c = some a')
    (htop : (a'.isTopLevel && t.isSymbol c) = true) :
    a.opened = [] ∧ a'.opened = [] ∧ a'.quoted = a.quoted := by
  rw [Bool.and_eq_true] at htop
  have hopened := htop.1
  rw [Cursor.isTopLevel, Bool.and_eq_true, List.isEmpty_iff] at hopened
  obtain ⟨hq, ho, hc⟩ := ht.ne htop.2
  rw [Cursor.note_plain a c hq ho hc] at hn
  cases hn
  exact ⟨hopened.1, hopened.1, rfl⟩

theorem closed_of_note {a : Cursor} {c : Char} (h : a.note c = none) : a.opened = [] ∧ c = ')' := by
  rw [Cursor.note] at h
  split at h
  · cases h
  · split at h
    · cases h
    · split at h
      · rename_i hc
        split at h
        · rename_i hopened
          exact ⟨hopened, hc⟩
        · cases h
      · cases h

theorem step_stepQuoted {a : Cursor} (hq : a.quoted.isSome = true) (c : Char) :
    Nesting.step a.opened.length a.quoted.isSome c =
      some ((a.stepQuoted c).opened.length, (a.stepQuoted c).quoted.isSome) := by
  rw [hq]
  by_cases hc : c = '"' <;> simp [Nesting.step, Cursor.stepQuoted, Cursor.skip, hc, hq]

theorem nested_of_scan (ht : t.Unbracketed) {a : Cursor} {s : Text}
    (h : scan t a s = .ok lexemes) : Nested t a.opened.length a.quoted.isSome lexemes := by
  -- behind an operator nothing is open
  have hbehind : ∀ {a a' : Cursor} {c : Char} (op : Text) {lexemes : List Lexeme},
      ¬ a.quoted.isSome = true → a.note c = some a' → (a'.isTopLevel && t.isSymbol c) = true →
      (if a'.afterTerm = true then t.isBinary else t.isUnary) op = true →
      Nested t (a'.skip op false).opened.length (a'.skip op false).quoted.isSome lexemes →
      Nested t a.opened.length a.quoted.isSome (Lexeme.written a'.afterTerm t op ++ lexemes) := by
    intro a a' c op lexemes hq hnote htop hop hnested
    obtain ⟨hopened, hopened', hquoted⟩ := closed_of_symbol ht hnote htop
    have hq' : a.quoted.isSome = false := by simpa using hq
    rw [Cursor.skip, hopened', hquoted, hq'] at hnested
    rw [hopened, hq']
    exact Nested.written ht hop hnested
  rw [scan_eq_ok] at h
  induction h with
  | done ho hq =>
    rw [hq, ho]
    exact .nil
  | @separator a cursor c hq hnote htop hsep =>
    have hq' : a.quoted.isSome = false := by simpa using hq
    rw [(closed_of_symbol ht hnote htop).1, hq']
    exact .nil
  | @quoted a c rest back hq _ ih => exact .letter (step_stepQuoted hq c) ih
  | @one a cursor c d rest back hq hnote htop hlong _ ih =>
    exact hbehind [c] hq hnote htop ((OperatorTable.longest?_spec hlong).1 rfl) ih
  | @two a cursor c d rest back hq hnote htop hlong _ _ ih =>
    exact hbehind [c, d] hq hnote htop ((OperatorTable.longest?_spec hlong).2 rfl) ih
  | @letter a cursor c rest back hq hnote _ _ ih =>
    have hq' : a.quoted.isSome = false := by simpa using hq
    rw [hq']
    exact .letter (step_of_note hq hnote).1 ih

/-- In a balanced text the scan finds no fault of brackets or quotes. -/
theorem ofNesting_of_scan (ht : t.Unbracketed) {a : Cursor} {s : Text} {e : Fault × Nat}
    (hs : Nesting.run a.opened.length a.quoted.isSome s = some (0, false))
    (h : scan t a s = .error e) : e.1.ofNesting = false := by
  -- an operator has no bracket and no quote in it
  have hbehind : ∀ {a a' : Cursor} {c : Char} {op rest : Text} , ¬ a.quoted.isSome = true →
      a.note c = some a' → (a'.isTopLevel && t.isSymbol c) = true →
      (if a'.afterTerm = true then t.isBinary else t.isUnary) op = true →
      Nesting.run a.opened.length a.quoted.isSome (op ++ rest) = some (0, false) →
      Nesting.run (a'.skip op false).opened.length (a'.skip op false).quoted.isSome rest =
        some (0, false) := by
    intro a a' c op rest hq hnote htop hop hrun
    obtain ⟨hopened, hopened', hquoted⟩ := closed_of_symbol ht hnote htop
    have hq' : a.quoted.isSome = false := by simpa using hq
    have hbalanced : Balanced op := by
      cases hafter : a'.afterTerm with
      | true =>
        rw [hafter] at hop
        exact ht.balanced (.inl hop)
      | false =>
        rw [hafter] at hop
        exact ht.balanced (.inr hop)
    rw [hopened, hq', Nesting.run_append, Nesting.run_of_balanced hbalanced] at hrun
    rw [Cursor.skip, hopened', hquoted, hq']
    exact hrun
  fun_induction scan t a s with
  | case1 a =>
    obtain ⟨hopened, hquoted⟩ := Prod.mk.inj (Option.some.inj hs)
    have hfinish := Result.map_eq_error.1 h
    have hq : a.quoted = none := Option.isSome_eq_false_iff.1 hquoted |> Option.isNone_iff_eq_none.1
    rw [Cursor.finish, List.eq_nil_of_length_eq_zero hopened, hq] at hfinish
    cases hfinish
  | case2 a c rest hq ih =>
    obtain ⟨d, q, hstep, hrun⟩ := Nesting.run_cons hs
    rw [step_stepQuoted hq] at hstep
    cases hstep
    exact ih hrun (Result.map_eq_error.1 h)
  | case3 a c rest hq hnote =>
    obtain ⟨hopened, rfl⟩ := closed_of_note hnote
    have hq' : a.quoted.isSome = false := by simpa using hq
    rw [hopened, hq'] at hs
    cases hs
  | case4 => cases h
  | case5 | case6 | case8 =>
    cases h
    rfl
  | case7 a c hq cursor hnote htop d rest hlong ih =>
    exact ih (hbehind hq hnote htop ((OperatorTable.longest?_spec hlong).1 rfl) hs) (Result.map_eq_error.1 h)
  | case9 a c hq cursor hnote htop d rest hlong hne ih =>
    exact ih (hbehind hq hnote htop ((OperatorTable.longest?_spec hlong).2 rfl) hs) (Result.map_eq_error.1 h)
  | case10 a c rest hq cursor hnote htop ih =>
    obtain ⟨d, q, hstep, hrun⟩ := Nesting.run_cons hs
    have hq' : a.quoted.isSome = false := by simpa using hq
    rw [hq', (step_of_note hq hnote).1] at hstep
    cases hstep
    exact ih hrun (Result.map_eq_error.1 h)

theorem Nested.run_text (ht : t.Unbracketed) (h : Nested t d q lexemes) :
    Nesting.run d q (text lexemes) = some (0, false) := by
  induction h with
  | nil => rfl
  | @letter d d' q q' c lexemes hstep _ ih =>
    change Nesting.run d q (c :: text lexemes) = _
    rw [Nesting.run, hstep]
    exact ih
  | @operator op lexemes hop _ ih => exact (ht.balanced (.inl hop)).append ih

/-- The terms between operators are balanced. -/
theorem Nested.run_split (ht : t.Unbracketed) (h : Nested t d q lexemes) (r : Nat) :
    Nesting.run d q (split r lexemes).1 = some (0, false) ∧
      ∀ p ∈ (split r lexemes).2, Balanced p.2 := by
  induction h with
  | nil => exact ⟨rfl, nofun⟩
  | @letter d d' q q' c lexemes hstep _ ih =>
    refine ⟨?_, ih.2⟩
    change Nesting.run d q (c :: (split r lexemes).1) = _
    rw [Nesting.run, hstep]
    exact ih.1
  | @operator op lexemes hop _ ih =>
    simp only [split]
    split
    · refine ⟨rfl, fun p hp => ?_⟩
      rcases List.mem_cons.1 hp with rfl | hp
      · exact ih.1
      · exact ih.2 p hp
    · exact ⟨(ht.balanced (.inl hop)).append ih.1, ih.2⟩

end Lexeme

/-! ## Levels -/

namespace Expr

variable {t : OperatorTable}

/-- The text of a level as it is scanned: trimmed, and without brackets around it. -/
def levelText (s : Text) : Text := stripBrackets (Text.trim s)

/-- The levels right below a level: the terms between its loosest operators, the operand behind a
sign, the arguments of a call. -/
inductive Below (t : OperatorTable) (s : Text) : Text → Prop
  | first {lexemes : List Lexeme} {rank : Nat} :
    Lexeme.ofText t (levelText s) = .ok lexemes → Lexeme.loosest? lexemes = some rank →
    Below t s (Lexeme.split rank lexemes).1
  | later {lexemes : List Lexeme} {rank : Nat} {op term : Text} :
    Lexeme.ofText t (levelText s) = .ok lexemes → Lexeme.loosest? lexemes = some rank →
    (op, term) ∈ (Lexeme.split rank lexemes).2 → Below t s term
  | operand {lexemes : List Lexeme} {sign operand : Text} :
    Lexeme.ofText t (levelText s) = .ok lexemes → Lexeme.loosest? lexemes = none →
    Term.ofText t (Text.trim (Lexeme.text lexemes)) = .ok (.prefixed sign operand) → Below t s operand
  | arguments {lexemes : List Lexeme} {head arguments : Text} :
    Lexeme.ofText t (levelText s) = .ok lexemes → Lexeme.loosest? lexemes = none →
    Term.ofText t (Text.trim (Lexeme.text lexemes)) = .ok (.call head arguments) →
    Below t s arguments

/-- The loosest operators of a scanned level are those of a group with a first operator. -/
theorem exists_label_of_loosest? {s : Text} {lexemes : List Lexeme} {rank : Nat}
    (hscan : Lexeme.ofText t s = .ok lexemes) (hrank : Lexeme.loosest? lexemes = some rank) :
    ∃ label, t.groupLabel rank = some label := by
  obtain ⟨op, hop⟩ := (Lexeme.loosest?_spec hrank).1
  obtain ⟨hbinary, rfl⟩ := Lexeme.operator_of_scan (ofText_eq_ok.1 hscan) hop
  exact OperatorTable.exists_label_of_isBinary hbinary

/-- Where a level that is not too deep takes its error from: the scan of its text, the one term that
it is, or a level right below it. -/
inductive Reports (t : OperatorTable) (n : Nat) (s : Text) (e : ParseError) : Prop
  | scan : Lexeme.ofText t (levelText s) = .error e → Reports t n s e
  | term {lexemes : List Lexeme} :
    Lexeme.ofText t (levelText s) = .ok lexemes → Lexeme.loosest? lexemes = none →
    Term.ofText t (Text.trim (Lexeme.text lexemes)) = .error e → Reports t n s e
  | below {op u : Text} : Below t s u → parseLevel t n op u = .error e → Reports t n s e

theorem reports_of_parseLevel {n : Nat} {op s : Text} {e : ParseError}
    (h : parseLevel t (n + 1) op s = .error e) : Reports t n s e := by
  rw [parseLevel] at h
  rcases Result.bind_eq_error.1 h with hscan | ⟨lexemes, hscan, h⟩
  · exact .scan hscan
  · split at h
    · rename_i rank hrank
      obtain ⟨label, hlabel⟩ := exists_label_of_loosest? hscan hrank
      rw [hlabel] at h
      rcases Result.bind_eq_error.1 h with hfirst | ⟨head, -, h⟩
      · exact .below (.first hscan hrank) hfirst
      · rcases Result.bind_eq_error.1 h with hlater | ⟨tail, -, h⟩
        · obtain ⟨⟨op', term⟩, hmem, hterm⟩ := Result.exists_error_of_mapM hlater
          exact .below (.later hscan hrank hmem) hterm
        · cases h
    · rename_i hrank
      rcases Result.bind_eq_error.1 h with hterm | ⟨term, hterm, h⟩
      · exact .term hscan hrank hterm
      · cases term with
        | leaf name => cases h
        | prefixed sign operand =>
          rcases Result.bind_eq_error.1 h with hoperand | ⟨inner, -, h⟩
          · exact .below (.operand hscan hrank hterm) hoperand
          · cases h
        | call head arguments =>
          rcases Result.bind_eq_error.1 h with harguments | ⟨inner, -, h⟩
          · exact .below (.arguments hscan hrank hterm) harguments
          · cases h

/-- What a sign stands in front of is balanced if both together are. -/
theorem balanced_of_leading? (ht : t.Unbracketed) {s sign operand : Text} (hs : Balanced s)
    (h : t.leading? s = some (sign, operand)) : Balanced operand := by
  have hone : ∀ {a : Char} {rest : Text}, (a ≠ '"' ∧ a ≠ '(' ∧ a ≠ ')') → Balanced (a :: rest) →
      Balanced rest := by
    intro a rest ha hs
    rw [Balanced, Nesting.run, Nesting.step_plain ha] at hs
    exact hs
  have hunary : ∀ {a : Char}, t.isUnary [a] = true → a ≠ '"' ∧ a ≠ '(' ∧ a ≠ ')' :=
    fun h => ht.ne (OperatorTable.isSymbol_of_mem (.inr h) (List.mem_singleton_self _))
  rw [OperatorTable.leading?.eq_def] at h
  split at h
  · split at h
    · rename_i htwo
      rw [Bool.and_eq_true, Bool.and_eq_true] at htwo
      cases h
      exact hone (ht.ne htwo.1.2) (hone (ht.ne htwo.1.1) hs)
    · split at h
      · rename_i hunary'
        cases h
        exact hone (hunary hunary') hs
      · cases h
  · split at h
    · rename_i hunary'
      cases h
      exact hone (hunary hunary') hs
    · cases h
  · cases h

/-- The first bracket of a balanced text has a partner, with a balanced text between. -/
theorem exists_partner {s head behind : Text} (hs : Balanced s)
    (h : splitAtOpening false s = some (head, behind)) :
    ∃ inside after, splitAtClosing 0 false behind = some (inside, after) ∧ Balanced inside :=
  Nesting.exists_splitAtClosing (Nesting.run_of_splitAtOpening h hs)

theorem balanced_of_call {s head arguments : Text} (hs : Balanced s)
    (h : Term.ofText t s = .ok (.call head arguments)) : Balanced arguments := by
  obtain ⟨front, behind, inside, after, hopening, hclosing, -, -, rfl⟩ := ofText_call_spec h
  obtain ⟨inside', after', hclosing', hinside⟩ := exists_partner hs hopening
  rw [hclosing] at hclosing'
  cases hclosing'
  exact Text.balanced_trim.2 hinside

theorem nested_of_ofText (ht : t.Unbracketed) {s : Text} {lexemes : List Lexeme}
    (h : Lexeme.ofText t s = .ok lexemes) : Lexeme.Nested t 0 false lexemes := by
  exact Lexeme.nested_of_scan ht (ofText_eq_ok.1 h)

theorem balanced_trim_of_ofText (ht : t.Unbracketed) {s : Text} {lexemes : List Lexeme}
    (h : Lexeme.ofText t s = .ok lexemes) : Balanced (Text.trim (Lexeme.text lexemes)) :=
  Text.balanced_trim.2 ((nested_of_ofText ht h).run_text ht)

/-- Every level below a text that was scanned is balanced. -/
theorem balanced_of_below (ht : t.Unbracketed) {s u : Text} (h : Below t s u) : Balanced u := by
  cases h with
  | first hscan _ => exact ((nested_of_ofText ht hscan).run_split ht _).1
  | later hscan _ hmem => exact ((nested_of_ofText ht hscan).run_split ht _).2 _ hmem
  | operand hscan _ hterm =>
    exact balanced_of_leading? ht (balanced_trim_of_ofText ht hscan) (ofText_prefixed_cases hterm)
  | arguments hscan _ hterm => exact balanced_of_call (balanced_trim_of_ofText ht hscan) hterm

/-! ## Faults -/

/-- A level at which brackets and quotes cannot fail any more: the scan finds no such fault, the
loosest operators have a group with a name, and the bracket of a call has a partner, with at least
one bracket open up to there. -/
structure Closes (t : OperatorTable) (s : Text) : Prop where
  scan : ∀ e, Lexeme.ofText t (levelText s) = .error e → e.fault.ofNesting = false
  label : ∀ lexemes rank, Lexeme.ofText t (levelText s) = .ok lexemes →
    Lexeme.loosest? lexemes = some rank → ∃ label, t.groupLabel rank = some label
  partner : ∀ lexemes head behind, Lexeme.ofText t (levelText s) = .ok lexemes →
    splitAtOpening false (Text.trim (Lexeme.text lexemes)) = some (head, behind) →
    ∃ inside after, splitAtClosing 0 false behind = some (inside, after) ∧
      ∀ front, front <+: inside →
        ∃ depth quoted, Nesting.run 1 false front = some (depth + 1, quoted)

theorem closes_of_scan (ht : t.Unbracketed) {s : Text}
    (h : ∀ e, Lexeme.ofText t (levelText s) = .error e → e.fault.ofNesting = false) :
    Closes t s where
  scan := h
  label _ _ hscan hrank := exists_label_of_loosest? hscan hrank
  partner lexemes head behind hscan hopening := by
    obtain ⟨inside, after, hclosing, hinside⟩ :=
      exists_partner (balanced_trim_of_ofText ht hscan) hopening
    exact ⟨inside, after, hclosing, fun front => Nesting.exists_depth_of_prefix hinside⟩

theorem closes_of_balanced (ht : t.Unbracketed) {s : Text} (hs : Balanced s) : Closes t s := by
  refine closes_of_scan ht fun e he => ?_
  have hlevel : Balanced (levelText s) := (Text.balanced_trim.2 hs).stripBrackets
  rw [Lexeme.ofText] at he
  split at he
  · cases he
  · rename_i fault position hscan
    cases he
    exact Lexeme.ofNesting_of_scan ht (a := {}) hlevel hscan

theorem ofNesting_of_ofText {s : Text} {e : ParseError}
    (hpartner : ∀ head behind, splitAtOpening false s = some (head, behind) →
      ∃ inside after, splitAtClosing 0 false behind = some (inside, after))
    (h : Term.ofText t s = .error e) : e.fault.ofNesting = false := by
  rw [Term.ofText] at h
  split at h
  · cases h
  · split at h
    · cases h
    · split at h
      · cases h
      · rename_i head behind hopening
        obtain ⟨inside, after, hclosing⟩ := hpartner head behind hopening
        rw [hclosing] at h
        dsimp only at h
        split at h
        · cases h
          rfl
        · split at h
          · cases h
          · cases h

theorem ofNesting_of_parseLevel (ht : t.Unbracketed) {n : Nat} {op s : Text} {e : ParseError}
    (hs : Closes t s) (h : parseLevel t n op s = .error e) : e.fault.ofNesting = false := by
  induction n generalizing op s e with
  | zero =>
    cases h
    rfl
  | succ n ih =>
    cases reports_of_parseLevel h with
    | scan hscan => exact hs.scan e hscan
    | @term lexemes hscan _ hterm =>
      refine ofNesting_of_ofText (fun head behind hopening => ?_) hterm
      obtain ⟨inside, after, hclosing, -⟩ := hs.partner lexemes head behind hscan hopening
      exact ⟨inside, after, hclosing⟩
    | below hu he => exact ih (closes_of_balanced ht (balanced_of_below ht hu)) he

/-- A fault of brackets or quotes comes from the scan of the whole text and is reported with it. If
this scan succeeds, then at no level at or below the text can brackets or quotes fail, nor can the
parser of such a level report it. -/
theorem nesting_fault_of_parse (ht : t.Unbracketed) (depth : Nat) (s : Text) :
    (∀ e, parse t depth s = .error e → e.fault.ofNesting = true →
      Lexeme.ofText t (levelText s) = .error e ∧ e.text = levelText s) ∧
    ∀ lexemes, Lexeme.ofText t (levelText s) = .ok lexemes →
      ∀ u, Relation.ReflTransGen (Below t) s u → Closes t u ∧
        ∀ n op e, parseLevel t n op u = .error e → e.fault.ofNesting = false := by
  have hbelow : ∀ lexemes, Lexeme.ofText t (levelText s) = .ok lexemes →
      ∀ u, Relation.ReflTransGen (Below t) s u → Closes t u := by
    intro lexemes hscan u hu
    rcases Relation.ReflTransGen.cases_tail hu with rfl | ⟨v, -, hv⟩
    · refine closes_of_scan ht fun e he => ?_
      rw [hscan] at he
      cases he
    · exact closes_of_balanced ht (balanced_of_below ht hv)
  constructor
  · intro e he hfault
    cases hscan : Lexeme.ofText t (levelText s) with
    | ok lexemes =>
      have hcloses := hbelow lexemes hscan s .refl
      rw [ofNesting_of_parseLevel ht hcloses he] at hfault
      cases hfault
    | error e' =>
      rw [parse, parseLevel] at he
      change Lexeme.ofText t (levelText s) >>= _ = _ at he
      rw [hscan] at he
      cases he
      refine ⟨rfl, ?_⟩
      rw [Lexeme.ofText] at hscan
      split at hscan
      · cases hscan
      · cases hscan
        rfl
  · intro lexemes hscan u hu
    have hcloses := hbelow lexemes hscan u hu
    exact ⟨hcloses, fun n op e => ofNesting_of_parseLevel ht hcloses⟩

/-- Logical operators, a quoted bracket, and brackets behind a sign. An open bracket is reported with
the whole text. -/
theorem nesting_fault_of_parse_logic :
    let t := OperatorTable.ofGroups ["|".toList, "&".toList] ["!".toList]
    let s := "f(a,\")\")&!((b)|c)".toList
    t.Unbracketed ∧ Below t s "!((b)|c)".toList ∧ Closes t "!((b)|c)".toList ∧
      ∃ e, parse t 5 "a|(b&(c)".toList = .error e ∧ e.text = "a|(b&(c)".toList := by
  intro t s
  have ht : t.Unbracketed := by decide
  have hcheck : (Lexeme.ofText t (levelText s)).toOption.any (fun lexemes =>
      Lexeme.loosest? lexemes = some 2 ∧
        (['&'], "!((b)|c)".toList) ∈ (Lexeme.split 2 lexemes).2) = true := by decide +kernel
  obtain ⟨lexemes, hscan, hlexemes⟩ := Result.exists_of_any hcheck
  obtain ⟨hrank, hmem⟩ := of_decide_eq_true hlexemes
  have hbelow : Below t s "!((b)|c)".toList := .later hscan hrank hmem
  have hcloses := ((nesting_fault_of_parse ht 5 s).2 lexemes hscan _ (.single hbelow)).1
  have herror : parse t 5 "a|(b&(c)".toList =
      .error ⟨.unmatchedBrackets, "a|(b&(c)".toList, 2⟩ := by decide +kernel
  have htext := ((nesting_fault_of_parse ht 5 "a|(b&(c)".toList).1 _ herror rfl).2
  exact ⟨ht, hbelow, hcloses, _, herror, htext⟩

end Expr
end Lineshape
