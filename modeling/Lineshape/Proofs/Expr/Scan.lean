import Lineshape.Proofs.Expr.Nesting
import Lineshape.Proofs.Expr.ScanSteps
import Lineshape.Proofs.Expr.Symbols

/-! # Scanning a part of a text

`Reads a s lexemes b` says that a scan from the cursor `a` on takes `s` as `lexemes` and goes on
from `b`, whatever stands behind. A cursor is fresh where a term can begin and settled where one
can end. The parts of a term are read from one to the other: words, quoted texts and brackets. An
operator leads back to a fresh cursor. -/

namespace Lineshape
set_option autoImplicit false

/-- Whether the sign of an exponent may come next. -/
def NumberScan.expectsSign : NumberScan → Bool
  | .outside => false
  | .inside _ _ sign => sign

/-- A place where a term can begin. -/
structure Cursor.Fresh (a : Cursor) : Prop where
  opened : a.opened = []
  quoted : a.quoted = none
  number : a.number = .outside
  afterTerm : a.afterTerm = false
  previous : a.previous.any Text.continuesName = false

/-- A place where a term can end. -/
structure Cursor.Settled (b : Cursor) : Prop where
  opened : b.opened = []
  quoted : b.quoted = none
  afterTerm : b.afterTerm = true

namespace Cursor

theorem fresh_start : Fresh {} := ⟨rfl, rfl, rfl, rfl, rfl⟩

variable (a : Cursor) (c : Char)

@[simp] theorem advance_opened : (a.advance c).opened = a.opened := rfl

@[simp] theorem advance_quoted : (a.advance c).quoted = a.quoted := rfl

@[simp] theorem advance_number : (a.advance c).number = a.number := rfl

@[simp] theorem advance_afterTerm :
    (a.advance c).afterTerm = (a.afterTerm || !Text.isBlank c) := rfl

@[simp] theorem advance_previous : (a.advance c).previous = some c := rfl

/-- The cursor with the number read on. -/
def fed : Cursor := { a with number := a.number.feed a.previous c }

theorem note_quote : a.note '"' = some { a.fed '"' with quoted := some a.position } := rfl

theorem note_open : a.note '(' = some { a.fed '(' with opened := a.position :: a.opened } := rfl

theorem note_close {p : Nat} {outer : List Nat} (h : a.opened = p :: outer) :
    a.note ')' = some { a.fed ')' with opened := outer } := by
  simp [note, h, fed]

theorem note_plain (hq : c ≠ '"') (ho : c ≠ '(') (hc : c ≠ ')') : a.note c = some (a.fed c) := by
  simp [note, hq, ho, hc, fed]

end Cursor

namespace Lexeme

/-- From `a` on the scan takes `s` as `lexemes` and goes on from `b`. -/
def Reads (t : OperatorTable) (a : Cursor) (s : Text) (lexemes : List Lexeme) (b : Cursor) : Prop :=
  ∀ rest, scan t a (s ++ rest) = (scan t b rest).map (lexemes ++ ·)

variable {t : OperatorTable}

theorem map_append_map (front back : List Lexeme)
    (result : Except (Fault × Nat) (List Lexeme)) :
    (result.map (back ++ ·)).map (front ++ ·) = result.map (front ++ back ++ ·) := by
  cases result with
  | error e => rfl
  | ok lexemes => simp [Except.map]

theorem Reads.nil (a : Cursor) : Reads t a [] [] a := by
  intro rest
  rw [List.nil_append]
  cases scan t a rest with
  | error e => rfl
  | ok lexemes => rfl

theorem Reads.trans {a b c : Cursor} {s s' : Text} {front back : List Lexeme}
    (h : Reads t a s front b) (h' : Reads t b s' back c) :
    Reads t a (s ++ s') (front ++ back) c := by
  intro rest
  rw [List.append_assoc, h, h', map_append_map]

theorem Reads.cons {a b c : Cursor} {x : Char} {s : Text} {back : List Lexeme}
    (h : Reads t a [x] [letter x] b) (h' : Reads t b s back c) :
    Reads t a (x :: s) (letter x :: back) c := h.trans h'

/-- A part that is read up to a cursor where nothing is open is a whole text, too. -/
theorem Reads.scan_eq {a b : Cursor} {s : Text} {lexemes : List Lexeme}
    (h : Reads t a s lexemes b) (hb : b.Settled) : scan t a s = .ok lexemes := by
  have hs := h []
  rw [List.append_nil] at hs
  rw [hs, scan, Cursor.finish, hb.quoted, hb.opened]
  simp [Except.map]

/-! ## Single characters -/

theorem reads_quoted_char {a : Cursor} (h : a.quoted.isSome = true) (c : Char) :
    Reads t a [c] [letter c] (a.stepQuoted c) := fun _ => scan_quoted h

theorem reads_letter {a b : Cursor} {c : Char} (hq : a.quoted = none) (hn : a.note c = some b)
    (hs : (b.isTopLevel && t.isSymbol c) = false) :
    Reads t a [c] [letter c] (b.advance c) := fun _ =>
  scan_letter (by rw [hq]; exact Bool.false_ne_true) hn (Bool.eq_false_iff.1 hs)

/-! ## Brackets -/

/-- Within brackets a character belongs to the term. -/
theorem reads_inside {outer depth d : Nat} {q k : Bool} {c : Char} {a : Cursor}
    (h : Nesting.step depth q c = some (d, k)) (ho : a.opened.length = outer + 1 + depth)
    (hq : a.quoted.isSome = q) :
    ∃ b, Reads t a [c] [letter c] b ∧ b.opened.length = outer + 1 + d ∧ b.quoted.isSome = k ∧
      (a.afterTerm = true → b.afterTerm = true) := by
  have hnot : ∀ b : Cursor, b.opened.length = outer + 1 + d →
      (b.isTopLevel && t.isSymbol c) = false := by
    intro b hb
    have hne : b.opened.isEmpty = false := by
      rw [List.isEmpty_eq_false_iff_exists_mem]
      exact List.length_pos_iff_exists_mem.1 (by omega)
    rw [Cursor.isTopLevel, hne]
    rfl
  obtain ⟨rfl, rfl, rfl⟩ | ⟨rfl, rfl, rfl, rfl⟩ | ⟨rfl, rfl, rfl, rfl⟩ |
    ⟨rfl, rfl, rfl, rfl⟩ | ⟨rfl, hquote, hopen, hclose, rfl, rfl⟩ := Nesting.step_cases h
  · refine ⟨_, reads_quoted_char hq c, ?_⟩
    by_cases hc : c = '"'
    · simp [Cursor.stepQuoted, Cursor.skip, hc, ho]
    · simp [Cursor.stepQuoted, Cursor.skip, hc, ho, hq]
  · have hnone : a.quoted = none := by simpa using hq
    refine ⟨_, reads_letter hnone a.note_quote (hnot _ ho), ho, rfl, ?_⟩
    simp +contextual [Cursor.fed]
  · have hnone : a.quoted = none := by simpa using hq
    have hlen : (a.position :: a.opened).length = outer + 1 + (depth + 1) := by
      simp [ho, Nat.add_assoc]
    refine ⟨_, reads_letter hnone a.note_open (hnot _ hlen), hlen, hq, ?_⟩
    simp +contextual [Cursor.fed]
  · have hnone : a.quoted = none := by simpa using hq
    obtain ⟨p, opened, hopened⟩ : ∃ p opened, a.opened = p :: opened := by
      refine List.exists_cons_of_length_pos ?_
      omega
    have hlen : opened.length = outer + 1 + d := by
      rw [hopened, List.length_cons] at ho
      omega
    refine ⟨_, reads_letter hnone (a.note_close hopened) (hnot _ hlen), hlen, hq, ?_⟩
    simp +contextual [Cursor.fed]
  · have hnone : a.quoted = none := by simpa using hq
    refine ⟨_, reads_letter hnone (a.note_plain c hquote hopen hclose) (hnot _ ho), ho, hq, ?_⟩
    simp +contextual [Cursor.fed]

/-- Within brackets every character belongs to the term. -/
theorem reads_enclosed (outer : Nat) {depth depth' : Nat} {q q' : Bool} {s : Text} {a : Cursor}
    (h : Nesting.run depth q s = some (depth', q')) (ho : a.opened.length = outer + 1 + depth)
    (hq : a.quoted.isSome = q) :
    ∃ b, Reads t a s (s.map letter) b ∧ b.opened.length = outer + 1 + depth' ∧
      b.quoted.isSome = q' ∧ (a.afterTerm = true → b.afterTerm = true) := by
  induction s generalizing depth q a with
  | nil =>
    cases h
    exact ⟨a, Reads.nil a, ho, hq, id⟩
  | cons c s ih =>
    obtain ⟨d, k, hstep, hrun⟩ := Nesting.run_cons h
    obtain ⟨b, hread, hopened, hquoted, hafter⟩ := reads_inside hstep ho hq
    obtain ⟨b', hread', hopened', hquoted', hafter'⟩ := ih hrun hopened hquoted
    exact ⟨b', hread.cons hread', hopened', hquoted', fun ha => hafter' (hafter ha)⟩

/-- A bracket or a quote ends a number. -/
theorem feed_eq_outside {number : NumberScan} {previous : Option Char} {c : Char}
    (h : c = '(' ∨ c = ')' ∨ c = '"') : number.feed previous c = .outside := by
  rcases h with rfl | rfl | rfl <;> cases number <;> rfl

/-- A balanced text in brackets is read as part of a term, unless brackets are operators. -/
theorem reads_group {a : Cursor} {s : Text} (hsymbol : t.isSymbol ')' = false) (ho : a.opened = [])
    (hq : a.quoted = none) (hs : Balanced s) :
    ∃ b, Reads t a ('(' :: s ++ [')']) (('(' :: s ++ [')']).map letter) b ∧ b.Settled ∧
      b.number = .outside := by
  have hblank : Text.isBlank '(' = false := by decide
  have hopen := reads_letter (t := t) hq a.note_open (by simp [Cursor.isTopLevel])
  obtain ⟨b, hin, hopened, hquoted, hafter⟩ :=
    reads_enclosed (t := t) 0 hs (by simp [ho]) (by simp [Cursor.fed, hq])
      (a := Cursor.advance { a.fed '(' with opened := a.position :: a.opened } '(')
  have hnone : b.quoted = none := by simpa using hquoted
  have hterm : b.afterTerm = true := hafter (by simp [hblank])
  obtain ⟨p, hp⟩ : ∃ p, b.opened = [p] := List.length_eq_one_iff.1 (by simpa using hopened)
  have hclose := reads_letter (t := t) hnone (b.note_close hp) (by rw [hsymbol, Bool.and_false])
  refine ⟨Cursor.advance { b.fed ')' with opened := [] } ')', ?_, ⟨rfl, hnone, ?_⟩, ?_⟩
  · have hall := hopen.cons (hin.trans hclose)
    simpa using hall
  · simp [Cursor.fed, hterm]
  · simp [Cursor.fed, feed_eq_outside]

theorem reads_brackets {a : Cursor} {s : Text} (ho : a.opened = []) (hq : a.quoted = none)
    (hs : Balanced s) :
    ∃ b, Reads .standard a ('(' :: s ++ [')']) (('(' :: s ++ [')']).map letter) b ∧ b.Settled ∧
      b.number = .outside := reads_group (by decide) ho hq hs

/-- A quoted text is read as part of a term. -/
theorem reads_quotes {a : Cursor} {s : Text} (ho : a.opened = []) (hq : a.quoted = none)
    (hs : '"' ∉ s) :
    ∃ b, Reads .standard a ('"' :: s ++ ['"']) (('"' :: s ++ ['"']).map letter) b ∧ b.Settled ∧
      b.number = .outside := by
  have hrun : ∀ (s : Text) (a : Cursor), '"' ∉ s → a.opened = [] → a.quoted.isSome = true →
      a.afterTerm = true → a.number = .outside →
      ∃ b, Reads .standard a (s ++ ['"']) ((s ++ ['"']).map letter) b ∧ b.Settled ∧
        b.number = .outside := by
    intro s
    induction s with
    | nil =>
      intro a _ ho hq hafter hn
      refine ⟨_, reads_quoted_char hq '"', ⟨ho, ?_, hafter⟩, hn⟩
      simp [Cursor.stepQuoted, Cursor.skip]
    | cons c s ih =>
      intro a hs ho hq hafter hn
      have hc : c ≠ '"' := fun hc => hs (hc ▸ List.mem_cons_self)
      have hstep : a.stepQuoted c = a.skip [c] a.afterTerm := by simp [Cursor.stepQuoted, hc]
      obtain ⟨b, hread, hb⟩ := ih (a.stepQuoted c) (fun hm => hs (List.mem_cons_of_mem _ hm))
        (by rw [hstep]; exact ho) (by rw [hstep]; exact hq) (by rw [hstep]; exact hafter)
        (by rw [hstep]; exact hn)
      exact ⟨b, (reads_quoted_char hq c).cons hread, hb⟩
  have hblank : Text.isBlank '"' = false := by decide
  have hopen := reads_letter hq a.note_quote (by
    have hsymbol : OperatorTable.standard.isSymbol '"' = false := by decide
    rw [hsymbol, Bool.and_false])
  obtain ⟨b, hread, hb⟩ := hrun s (Cursor.advance
    { a.fed '"' with quoted := some a.position } '"') hs (by simp [Cursor.fed, ho]) (by simp)
    (by simp [hblank]) (by simp [Cursor.fed, feed_eq_outside])
  exact ⟨b, hopen.cons hread, hb⟩

/-! ## Words -/

/-- How far a number has been read behind a text, none if the text holds a bracket, a quote or an
operator. -/
def trace (number : NumberScan) (previous : Option Char) : Text → Option NumberScan
  | [] => some number
  | c :: s =>
    let next := number.feed previous c
    if c = '(' ∨ c = ')' ∨ c = '"' ∨ (OperatorTable.standard.isSymbol c = true ∧
      next.isInside = false) then none
    else trace next (some c) s

theorem trace_congr {number : NumberScan} {p q : Option Char} {s : Text}
    (h : p.any Text.continuesName = q.any Text.continuesName) :
    trace number p s = trace number q s := by
  cases s with
  | nil => rfl
  | cons c s =>
    have hf : number.feed p c = number.feed q c := by
      cases number with
      | outside => simp [NumberScan.feed, h]
      | inside point mark sign => rfl
    simp only [trace, hf]

/-- A text without brackets, quotes and operators is read as part of a term, whatever the table, if
the table has no symbols in it but those of the standard one. -/
theorem reads_of_trace {a : Cursor} {s : Text} {n : NumberScan}
    (hsymbols : ∀ c ∈ s, t.isSymbol c = true → OperatorTable.standard.isSymbol c = true)
    (h : trace a.number a.previous s = some n) (ho : a.opened = []) (hq : a.quoted = none) :
    ∃ b, Reads t a s (s.map letter) b ∧ b.opened = [] ∧ b.quoted = none ∧ b.number = n ∧
      b.afterTerm = (a.afterTerm || !Text.isAllBlank s) := by
  induction s generalizing a with
  | nil =>
    cases h
    exact ⟨a, Reads.nil a, ho, hq, rfl, by simp [Text.isAllBlank]⟩
  | cons c s ih =>
    simp only [trace] at h
    split at h
    · cases h
    · rename_i hc
      simp only [not_or, not_and] at hc
      obtain ⟨hopen, hclose, hquote, hsymbol⟩ := hc
      have hnot : ((a.fed c).isTopLevel && t.isSymbol c) = false := by
        cases hs : t.isSymbol c with
        | false => simp
        | true =>
          have hin := hsymbol (hsymbols c List.mem_cons_self hs)
          simp only [Bool.not_eq_false] at hin
          simp [Cursor.isTopLevel, Cursor.fed, hin]
      have hone := reads_letter hq (a.note_plain c hquote hopen hclose) hnot
      obtain ⟨b, hread, hb⟩ := ih (a := (a.fed c).advance c)
        (fun d hd => hsymbols d (List.mem_cons_of_mem c hd)) h ho hq
      refine ⟨b, hone.cons hread, hb.1, hb.2.1, hb.2.2.1, ?_⟩
      rw [hb.2.2.2]
      simp [Cursor.fed, Text.isAllBlank, Bool.or_assoc, Bool.not_and]

/-- A word is read from a fresh cursor to a settled one. -/
theorem reads_word {a : Cursor} {s : Text} {n : NumberScan}
    (hsymbols : ∀ c ∈ s, t.isSymbol c = true → OperatorTable.standard.isSymbol c = true)
    (ha : a.Fresh) (h : trace .outside none s = some n) (hs : Text.isAllBlank s = false) :
    ∃ b, Reads t a s (s.map letter) b ∧ b.Settled ∧ b.number = n := by
  have ht : trace a.number a.previous s = some n := by
    rw [ha.number, ← h]
    exact trace_congr ha.previous
  obtain ⟨b, hread, ho, hq, hn, hafter⟩ := reads_of_trace hsymbols ht ha.opened ha.quoted
  exact ⟨b, hread, ⟨ho, hq, by simp [hafter, hs]⟩, hn⟩

/-! ## Operators -/

/-- A symbol ends a number, unless it is the sign of an exponent. -/
theorem feed_symbol {number : NumberScan} {previous : Option Char} {c : Char}
    (hc : OperatorTable.standard.isSymbol c = true)
    (hs : c = '+' ∨ c = '-' → number.expectsSign = false) :
    number.feed previous c = .outside := by
  obtain ⟨-, -, -, hdot, he, hE, hdigit, -⟩ := OperatorTable.symbol_facts hc
  cases number with
  | outside => simp [NumberScan.feed, hdigit]
  | inside point mark sign =>
    simp only [NumberScan.feed, hdigit, hdot, he, hE]
    by_cases hsign : c = '+' ∨ c = '-'
    · have hno : sign = false := hs hsign
      simp [hno]
    · simp [hsign]

theorem note_symbol {a : Cursor} {c : Char} (hc : OperatorTable.standard.isSymbol c = true) :
    a.note c = some (a.fed c) := by
  obtain ⟨ho, hcl, hq, -⟩ := OperatorTable.symbol_facts hc
  exact a.note_plain c hq ho hcl

theorem isTopLevel_of_outside {a : Cursor} (ho : a.opened = []) (hn : a.number = .outside) :
    a.isTopLevel = true := by
  rw [Cursor.isTopLevel, ho, hn]
  rfl

/-- A separator at the end of a text is left out. -/
theorem scan_separator {b : Cursor} (ho : b.opened = []) (hq : b.quoted = none) {c : Char}
    (hc : isSeparator c = true) : scan .standard b [c] = .ok [] := by
  have hsymbol : OperatorTable.standard.isSymbol c = true ∧ c ≠ '+' ∧ c ≠ '-' := by
    rcases isSeparator_iff.1 hc with rfl | rfl <;> decide
  obtain ⟨hs, hplus, hminus⟩ := hsymbol
  have hnumber : (b.fed c).number = .outside :=
    feed_symbol hs fun h => (h.elim hplus hminus).elim
  have htop : (b.fed c).isTopLevel = true := isTopLevel_of_outside ho hnumber
  exact scan_lone_separator (by rw [hq]; exact Bool.false_ne_true) (note_symbol hs)
    (Bool.and_eq_true_iff.2 ⟨htop, hs⟩) hc

theorem fresh_skip {a : Cursor} {op : Text} {c : Char} (ho : a.opened = [])
    (hq : a.quoted = none) (hn : a.number = .outside) (hop : op.getLast? = some c)
    (hc : Text.continuesName c = false) : (a.skip op false).Fresh := by
  refine ⟨ho, hq, hn, rfl, ?_⟩
  simp [Cursor.skip, hop, hc]

/-- Behind a term an operator is read, and a term can begin behind it. -/
theorem reads_operator {b : Cursor} (hb : b.Settled) {op : Text}
    (hop : OperatorTable.standard.isBinary op = true)
    (hs : op = ['+'] ∨ op = ['-'] → b.number.expectsSign = false) :
    ∃ a : Cursor, a.Fresh ∧ ∀ d rest, OperatorTable.MayFollow d →
      scan .standard b (op ++ d :: rest) =
        (scan .standard a (d :: rest)).map
          (operator op (OperatorTable.standard.precedence op) :: ·) := by
  obtain ⟨c, rfl, hc⟩ | ⟨c, c', rfl, hc, hc'⟩ := OperatorTable.binary_shape hop
  · have hfed : (b.fed c).number = .outside := feed_symbol hc fun h => hs (by simpa using h)
    have hcont := (OperatorTable.symbol_facts hc).2.2.2.2.2.2.2.2
    refine ⟨(b.fed c).skip [c] false, fresh_skip hb.opened hb.quoted hfed rfl hcont, ?_⟩
    intro d rest hd
    have htop := isTopLevel_of_outside (a := b.fed c) hb.opened hfed
    have hlong := OperatorTable.longest?_one hop hd
    have hafter : (b.fed c).afterTerm = true := hb.afterTerm
    rw [List.singleton_append, scan.eq_def]
    simp [hb.quoted, note_symbol hc, htop, hc, hafter, hlong, written]
  · have hsign : ¬ (c = '+' ∨ c = '-') := by
      intro h
      have hall : ∀ op ∈ OperatorTable.binaries, op.length = 2 →
          op.head? ≠ some '+' ∧ op.head? ≠ some '-' := by decide
      have := hall _ (OperatorTable.isBinary_iff.1 hop) rfl
      rcases h with rfl | rfl <;> simp at this
    have hfed : (b.fed c).number = .outside := feed_symbol hc fun h => absurd h hsign
    have hcont := (OperatorTable.symbol_facts hc').2.2.2.2.2.2.2.2
    refine ⟨(b.fed c).skip [c, c'] false, fresh_skip hb.opened hb.quoted hfed rfl hcont, ?_⟩
    intro d rest hd
    have htop := isTopLevel_of_outside (a := b.fed c) hb.opened hfed
    have hlong := OperatorTable.longest?_two hop
    have hafter : (b.fed c).afterTerm = true := hb.afterTerm
    rw [List.cons_append, List.singleton_append, scan.eq_def]
    simp [hb.quoted, note_symbol hc, htop, hc, hafter, hlong, written]

/-- Where a term can begin a sign is read as part of it. -/
theorem reads_sign {a : Cursor} (ha : a.Fresh) {sign : Text}
    (hsign : OperatorTable.standard.isUnary sign = true) :
    ∃ b : Cursor, b.Fresh ∧ ∀ d rest, scan .standard a (sign ++ d :: rest) =
      (scan .standard b (d :: rest)).map (sign.map letter ++ ·) := by
  obtain ⟨c, rfl, hc, hu⟩ : ∃ c, sign = [c] ∧ OperatorTable.standard.isSymbol c = true ∧
      OperatorTable.standard.isUnary [c] = true := by
    rcases OperatorTable.isUnary_iff.1 hsign with rfl | rfl
    · exact ⟨'+', rfl, by decide, by decide⟩
    · exact ⟨'-', rfl, by decide, by decide⟩
  have hfed : (a.fed c).number = .outside := by
    refine feed_symbol hc fun _ => ?_
    rw [ha.number]
    rfl
  have hcont := (OperatorTable.symbol_facts hc).2.2.2.2.2.2.2.2
  refine ⟨(a.fed c).skip [c] false, fresh_skip ha.opened ha.quoted hfed rfl hcont, ?_⟩
  intro d rest
  have htop := isTopLevel_of_outside (a := a.fed c) ha.opened hfed
  have hlong := OperatorTable.longest?_unary hu d
  have hafter : (a.fed c).afterTerm = false := ha.afterTerm
  rw [List.singleton_append, scan.eq_def]
  simp [ha.quoted, note_symbol hc, htop, hc, hafter, hlong, written]

/-- A blank in front of a term does not change where a term can begin. -/
theorem reads_blank {a : Cursor} {c : Char} (hsymbol : t.isSymbol c = false)
    (hc : Text.isBlank c = true) (ha : a.Fresh) :
    ∃ b : Cursor, b.Fresh ∧ Reads t a [c] [letter c] b := by
  obtain ⟨hquote, hopen, hclose⟩ := Text.ne_of_isBlank hc
  have hcont := Text.continuesName_of_isBlank hc
  have hdigit : c.isDigit = false := by
    rw [← Bool.not_eq_true]
    intro hd
    rw [Text.continuesName_of_isDigit hd] at hcont
    cases hcont
  have hread := reads_letter (a := a) (c := c) ha.quoted (a.note_plain c hquote hopen hclose)
    (by rw [hsymbol, Bool.and_false])
  refine ⟨(a.fed c).advance c, ⟨ha.opened, ha.quoted, ?_, ?_, ?_⟩, hread⟩
  · simp [Cursor.fed, ha.number, NumberScan.feed, hdigit]
  · simp [Cursor.fed, ha.afterTerm, hc]
  · simp [hcont]

theorem reads_blanks {a : Cursor} {s : Text} (hs : ∀ c ∈ s, Text.isBlank c = true) (ha : a.Fresh) :
    ∃ b : Cursor, b.Fresh ∧ Reads .standard a s (s.map letter) b := by
  induction s generalizing a with
  | nil => exact ⟨a, ha, Reads.nil a⟩
  | cons c s ih =>
    have hc := hs c List.mem_cons_self
    obtain ⟨b, hb, hread⟩ := reads_blank (OperatorTable.isSymbol_of_isBlank hc) hc ha
    obtain ⟨b', hb', hread'⟩ := ih (fun d hd => hs d (List.mem_cons_of_mem c hd)) hb
    exact ⟨b', hb', hread.cons hread'⟩

end Lexeme
end Lineshape
