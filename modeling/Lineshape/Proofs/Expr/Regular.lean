import Lineshape.Proofs.Expr.Faults

/-! # Regular tables

A table is regular if its operators are one or two marks long and no binary operator belongs to two
groups or twice to one. Whatever such a table is, a text that is read as a term (`Lexeme.ReadsAs`)
can be put behind an operator or a sign, unless the operator and the first character behind it are
an operator together (`OperatorTable.merges`). -/

namespace Lineshape
set_option autoImplicit false

/-- A character that operators can be made of: no bracket, quote, point or blank, and none that
goes on with an identifier. -/
def Text.isMark (c : Char) : Bool :=
  !continuesName c && !isBlank c && !"().\"".toList.contains c

theorem Text.mark_facts {c : Char} (h : Text.isMark c = true) :
    Text.continuesName c = false ∧ Text.isBlank c = false ∧ c.isDigit = false ∧
      c ≠ '"' ∧ c ≠ '(' ∧ c ≠ ')' ∧ c ≠ '.' := by
  rw [Text.isMark, Bool.and_eq_true, Bool.and_eq_true, Bool.not_eq_true', Bool.not_eq_true',
    Bool.not_eq_true', ← Bool.not_eq_true, ← Bool.not_eq_true] at h
  obtain ⟨⟨hname, hblank⟩, hother⟩ := h
  have hdigit : c.isDigit = false := by
    rw [← Bool.not_eq_true]
    exact fun hd => hname (Text.continuesName_of_isDigit hd)
  refine ⟨by simpa using hname, by simpa using hblank, hdigit, ?_, ?_, ?_, ?_⟩ <;>
    rintro rfl <;> simp at hother

namespace OperatorTable

/-- No binary operator is listed twice, and every operator is one or two marks long. -/
structure Regular (t : OperatorTable) : Prop where
  distinct : t.levels.flatten.Nodup
  length : ∀ op ∈ t.levels.flatten ++ t.unary, op.length = 1 ∨ op.length = 2
  marks : ∀ op ∈ t.levels.flatten ++ t.unary, ∀ c ∈ op, Text.isMark c = true

instance (t : OperatorTable) : Decidable t.Regular :=
  decidable_of_iff
    (t.levels.flatten.Nodup ∧ (∀ op ∈ t.levels.flatten ++ t.unary, op.length = 1 ∨ op.length = 2) ∧
      ∀ op ∈ t.levels.flatten ++ t.unary, ∀ c ∈ op, Text.isMark c = true)
    ⟨fun ⟨h, h', h''⟩ => ⟨h, h', h''⟩, fun ⟨h, h', h''⟩ => ⟨h, h', h''⟩⟩

variable {t : OperatorTable} {op : Text} {c d : Char}

/-! ## Groups -/

/-- In a table without repetitions the rank of an operator says where its group stands. -/
theorem rankFrom_eq {levels : List (List Text)} {ops : List Text} {i : Nat}
    (h : levels.flatten.Nodup) (hget : levels[i]? = some ops) (hop : op ∈ ops) (first : Nat) :
    rankFrom op (first + 1) levels = first + 1 + i := by
  induction levels generalizing first i with
  | nil => cases hget
  | cons ops' later ih =>
    rw [List.flatten_cons, List.nodup_append] at h
    obtain ⟨-, hlater, hdisjoint⟩ := h
    cases i with
    | zero =>
      cases hget
      have hzero : rankFrom op (first + 1 + 1) later = 0 :=
        (rankFrom_eq_zero_iff (Nat.succ_pos _)).2 fun ops' hops' hop' =>
          hdisjoint op hop op (List.mem_flatten.2 ⟨ops', hops', hop'⟩) rfl
      rw [rankFrom, hzero]
      exact if_pos (List.contains_iff_mem.2 hop)
    | succ i =>
      have hrank := ih hlater hget (first + 1)
      rw [rankFrom, hrank, Nat.add_right_comm (first + 1) 1 i]
      rfl

theorem Regular.label (ht : t.Regular) {rank : Nat} {label : Text}
    (h : t.groupLabel rank = some label) : t.isBinary label = true ∧ t.precedence label = rank := by
  cases rank with
  | zero => cases h
  | succ i =>
    obtain ⟨ops, hops, hhead⟩ := Option.bind_eq_some_iff.1 h
    have hlabel : label ∈ ops := List.mem_of_mem_head? hhead
    have hrank : t.precedence label = 0 + 1 + i := rankFrom_eq ht.distinct hops hlabel 0
    have hpos : 0 < t.precedence label := by omega
    exact ⟨precedence_pos_iff.1 hpos, by omega⟩

/-! ## Operators -/

theorem mem_of_isOperator (h : t.isBinary op = true ∨ t.isUnary op = true) :
    op ∈ t.levels.flatten ++ t.unary := by
  rw [List.mem_append]
  rcases h with h | h
  · obtain ⟨ops, hops, hop⟩ := List.any_eq_true.1 h
    exact .inl (List.mem_flatten.2 ⟨ops, hops, List.contains_iff_mem.1 hop⟩)
  · exact .inr (List.contains_iff_mem.1 h)

theorem Regular.shape (ht : t.Regular) (h : t.isBinary op = true ∨ t.isUnary op = true) :
    (∃ c, op = [c]) ∨ ∃ c d, op = [c, d] := by
  rcases ht.length op (mem_of_isOperator h) with hlength | hlength
  · exact .inl (List.length_eq_one_iff.1 hlength)
  · exact .inr (List.length_eq_two.1 hlength)

theorem Regular.ne_nil (ht : t.Regular) (h : t.isBinary op = true ∨ t.isUnary op = true) :
    op ≠ [] := by
  obtain ⟨c, rfl⟩ | ⟨c, d, rfl⟩ := ht.shape h
  · exact List.cons_ne_nil c []
  · exact List.cons_ne_nil c [d]

theorem Regular.isMark (ht : t.Regular) (h : t.isSymbol c = true) : Text.isMark c = true := by
  rw [isSymbol, Bool.or_eq_true] at h
  rcases h with h | h
  · obtain ⟨ops, hops, h⟩ := List.any_eq_true.1 h
    obtain ⟨op, hop, hc⟩ := List.any_eq_true.1 h
    exact ht.marks op (List.mem_append_left _ (List.mem_flatten.2 ⟨ops, hops, hop⟩)) c
      (List.contains_iff_mem.1 hc)
  · obtain ⟨op, hop, hc⟩ := List.any_eq_true.1 h
    exact ht.marks op (List.mem_append_right _ hop) c (List.contains_iff_mem.1 hc)

theorem Regular.isSymbol_eq_false (ht : t.Regular) (h : Text.isMark c = false) :
    t.isSymbol c = false := by
  rw [← Bool.not_eq_true] at h ⊢
  exact fun hc => h (ht.isMark hc)

theorem Regular.unbracketed (ht : t.Regular) : t.Unbracketed :=
  ⟨ht.isSymbol_eq_false (by decide), ht.isSymbol_eq_false (by decide),
    ht.isSymbol_eq_false (by decide)⟩

/-- A dotted identifier has no operators in it. -/
theorem Regular.isSymbol_of_dotted (ht : t.Regular) {name : Text} (hname : isDotted name = true)
    (hc : c ∈ name) : t.isSymbol c = false := by
  refine ht.isSymbol_eq_false ?_
  rcases dotted_char hname hc with hcont | rfl
  · rw [Text.isMark, hcont]
    rfl
  · decide

/-! ## Operators that merge -/

/-- Whether an operator of one character is another operator together with the first character
behind it. -/
def merges (isOperator : Text → Bool) (op behind : Text) : Bool :=
  op.length = 1 && behind.head?.any fun d => isOperator (op ++ [d])

theorem longest?_eq_one {isOperator : Text → Bool} (h : isOperator [c] = true)
    (hd : isOperator [c, d] = false) : t.longest? isOperator c d = some .one := by
  rw [longest?, hd, Bool.and_false, h]
  rfl

theorem longest?_eq_two {isOperator : Text → Bool} (h : isOperator [c, d] = true)
    (hd : t.isSymbol d = true) : t.longest? isOperator c d = some .two := by
  rw [longest?, hd, h]
  rfl

end OperatorTable

namespace Lexeme

variable {t : OperatorTable} {s w : Text} {front back : List Lexeme}

/-! ## Texts that are read as terms -/

/-- Wherever a term can begin, the text is read as one, and no number is left open behind it. -/
structure ReadsAs (t : OperatorTable) (s : Text) (lexemes : List Lexeme) : Prop where
  nonempty : s ≠ []
  reads : ∀ a : Cursor, a.Fresh →
    ∃ b, Reads t a s lexemes b ∧ b.Settled ∧ b.number = .outside

theorem ReadsAs.ofText {lexemes : List Lexeme} (h : ReadsAs t s lexemes) :
    ofText t s = .ok lexemes := by
  obtain ⟨b, hread, hsettled, -⟩ := h.reads {} Cursor.fresh_start
  rw [Lexeme.ofText, hread.scan_eq hsettled]

/-- A mark ends a number that is not being read any more. -/
theorem feed_mark {a : Cursor} {c : Char} (hc : Text.isMark c = true) (hn : a.number = .outside) :
    (a.fed c).number = .outside := by
  rw [Cursor.fed, hn]
  simp [NumberScan.feed, (Text.mark_facts hc).2.2.1]

/-- An operator is read with the term behind it, a binary one behind a term and a sign elsewhere. -/
theorem reads_written (ht : t.Regular) {a : Cursor} (ho : a.opened = []) (hq : a.quoted = none)
    (hn : a.number = .outside) {op : Text}
    (hop : (if a.afterTerm = true then t.isBinary else t.isUnary) op = true)
    (hmerges : OperatorTable.merges (if a.afterTerm = true then t.isBinary else t.isUnary) op w =
      false) (hw : ReadsAs t w back) :
    ∃ b, Reads t a (op ++ w) (written a.afterTerm t op ++ back) b ∧ b.Settled ∧
      b.number = .outside := by
  have hoperator : t.isBinary op = true ∨ t.isUnary op = true := by
    split at hop
    · exact .inl hop
    · exact .inr hop
  have hsymbol : ∀ c ∈ op, t.isSymbol c = true := fun c =>
    OperatorTable.isSymbol_of_mem hoperator
  have hquoted : ¬ a.quoted.isSome = true := by rw [hq]; exact Bool.false_ne_true
  -- what is true of the first character of an operator, and of the cursor behind its last one
  have hfirst : ∀ c, t.isSymbol c = true → a.note c = some (a.fed c) ∧
      ((a.fed c).isTopLevel && t.isSymbol c) = true := by
    intro c hc
    obtain ⟨-, -, -, hquote, hopen, hclose, -⟩ := Text.mark_facts (ht.isMark hc)
    refine ⟨a.note_plain c hquote hopen hclose, ?_⟩
    rw [hc, isTopLevel_of_outside (a := a.fed c) ho (feed_mark (ht.isMark hc) hn)]
    rfl
  have hfresh : ∀ c d, t.isSymbol c = true → t.isSymbol d = true → op.getLast? = some d →
      ((a.fed c).skip op false).Fresh := fun c d hc hd hlast =>
    fresh_skip ho hq (feed_mark (ht.isMark hc) hn) hlast (Text.mark_facts (ht.isMark hd)).1
  obtain ⟨c, rfl⟩ | ⟨c, d, rfl⟩ := ht.shape hoperator
  · obtain ⟨x, w, rfl⟩ := List.exists_cons_of_ne_nil hw.nonempty
    have hc := hsymbol c List.mem_cons_self
    obtain ⟨hnote, htop⟩ := hfirst c hc
    obtain ⟨b, hread, hb⟩ := hw.reads _ (hfresh c c hc hc rfl)
    refine ⟨b, fun rest => ?_, hb⟩
    have hlong := OperatorTable.longest?_eq_one (t := t) (d := x) hop
      (by simpa [OperatorTable.merges] using hmerges)
    rw [List.append_assoc, List.singleton_append, List.cons_append,
      scan_one hquoted hnote htop hlong]
    rw [← List.cons_append, hread, map_append_map]
    rfl
  · have hc := hsymbol c List.mem_cons_self
    have hd := hsymbol d (List.mem_cons_of_mem c List.mem_cons_self)
    obtain ⟨hnote, htop⟩ := hfirst c hc
    obtain ⟨b, hread, hb⟩ := hw.reads _ (hfresh c d hc hd rfl)
    refine ⟨b, fun rest => ?_, hb⟩
    have hlong := OperatorTable.longest?_eq_two (t := t) hop hd
    have hmore : ((a.fed c).afterTerm && (w ++ rest).isEmpty) = false := by
      rw [List.isEmpty_eq_false_iff.2 (List.append_ne_nil_of_left_ne_nil hw.nonempty rest),
        Bool.and_false]
    rw [List.append_assoc, List.cons_append, List.singleton_append,
      scan_two hquoted hnote htop hlong, hmore]
    rw [if_neg Bool.false_ne_true, hread, map_append_map]
    rfl

/-- A term, an operator and another term, if the operator does not merge with that term. -/
theorem ReadsAs.operator (ht : t.Regular) (hs : ReadsAs t s front) {op : Text}
    (hop : t.isBinary op = true) (hmerges : OperatorTable.merges t.isBinary op w = false)
    (hw : ReadsAs t w back) :
    ReadsAs t (s ++ (op ++ w)) (front ++ Lexeme.operator op (t.precedence op) :: back) := by
  refine ⟨List.append_ne_nil_of_left_ne_nil hs.nonempty _, fun a ha => ?_⟩
  obtain ⟨b, hread, hb, hn⟩ := hs.reads a ha
  have hafter := hb.afterTerm
  obtain ⟨b', hread', hb'⟩ := reads_written ht hb.opened hb.quoted hn
    (by rw [if_pos hafter]; exact hop) (by rw [if_pos hafter]; exact hmerges) hw
  rw [hafter] at hread'
  exact ⟨b', hread.trans hread', hb'⟩

/-- A sign and the term behind it, if the sign does not merge with that term. -/
theorem ReadsAs.sign (ht : t.Regular) {sign : Text} (hsign : t.isUnary sign = true)
    (hmerges : OperatorTable.merges t.isUnary sign w = false) (hw : ReadsAs t w back) :
    ReadsAs t (sign ++ w) (sign.map letter ++ back) := by
  refine ⟨List.append_ne_nil_of_right_ne_nil sign hw.nonempty, fun a ha => ?_⟩
  have hafter : ¬ a.afterTerm = true := by rw [ha.afterTerm]; exact Bool.false_ne_true
  obtain ⟨b, hread, hb⟩ := reads_written ht ha.opened ha.quoted ha.number
    (by rw [if_neg hafter]; exact hsign) (by rw [if_neg hafter]; exact hmerges) hw
  rw [ha.afterTerm] at hread
  exact ⟨b, hread, hb⟩

theorem ReadsAs.blank (ht : t.Regular) (hw : ReadsAs t w back) :
    ReadsAs t (' ' :: w) (letter ' ' :: back) := by
  refine ⟨List.cons_ne_nil _ _, fun a ha => ?_⟩
  obtain ⟨b, hfresh, hread⟩ := reads_blank (c := ' ') (ht.isSymbol_eq_false (by decide)) (by decide) ha
  obtain ⟨b', hread', hb'⟩ := hw.reads b hfresh
  exact ⟨b', hread.cons hread', hb'⟩

theorem ReadsAs.group (ht : t.Regular) (hs : Balanced s) :
    ReadsAs t ('(' :: s ++ [')']) (('(' :: s ++ [')']).map letter) :=
  ⟨List.cons_ne_nil _ _, fun _ ha => reads_group ht.unbracketed.2.2 ha.opened ha.quoted hs⟩

theorem ReadsAs.dotted (ht : t.Regular) {name : Text} (h : isDotted name = true) :
    ReadsAs t name (name.map letter) := by
  have hne := dotted_ne_nil h
  refine ⟨hne, fun a ha => reads_word (fun c hc hsymbol => ?_) ha ((trace_dotted name).1 none h) ?_⟩
  · rw [ht.isSymbol_of_dotted h hc] at hsymbol
    cases hsymbol
  · obtain ⟨c, rest, rfl⟩ := List.exists_cons_of_ne_nil hne
    rw [Text.isAllBlank, List.all_cons, isBlank_of_dotted h List.mem_cons_self]
    rfl

end Lexeme
end Lineshape
