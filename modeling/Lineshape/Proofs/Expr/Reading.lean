import Lineshape.Proofs.Expr.Level
import Lineshape.Proofs.Expr.Phrase

/-! # Reading phrases

The parser takes a valid phrase apart where it was put together. Brackets without brackets inside
are taken off on the level they stand on; all other brackets, calls, signs and chains take a level of
their own. -/

namespace Lineshape
set_option autoImplicit false

namespace Phrase

theorem levels_pos (p : Phrase) : 0 < p.levels := by
  induction p with
  | word | hollow => exact Nat.one_pos
  | signed sign operand ih => rw [levels]; omega
  | call head argument ih => rw [levels]; omega
  | bracketed inner ih => rw [levels]; split <;> omega
  | closed inner ih => exact ih
  | joined front op spaced term ihf iht => rw [levels]; split <;> omega

theorem ofText_signed {sign operand : Text}
    (h : OperatorTable.standard.isUnary sign = true) (hne : operand ≠ []) :
    Expr.Term.ofText .standard (sign ++ operand) = .ok (.prefixed sign operand) := by
  obtain ⟨a, rfl, -⟩ := exists_sign h
  obtain ⟨b, rest, rfl⟩ := List.exists_cons_of_ne_nil hne
  have htwo : ∀ b, OperatorTable.standard.isUnary [a, b] = false := by
    intro b
    rw [← Bool.not_eq_true, OperatorTable.isUnary_iff]
    simp
  have hlead : OperatorTable.standard.leading? ([a] ++ b :: rest) = some ([a], b :: rest) := by
    cases rest with
    | nil => simp [OperatorTable.leading?, h]
    | cons c rest => simp [OperatorTable.leading?, h, htwo]
  rw [Expr.Term.ofText, hlead]

/-- The text that is left of a phrase when its level is entered: brackets without brackets inside
are taken off. -/
theorem stripBrackets_text {p : Phrase} (h : p.Valid)
    (hp : ∀ inner, (p = bracketed inner → '(' ∈ inner.text) ∧ p ≠ closed inner) (hh : p ≠ hollow) :
    stripBrackets p.text = p.text := by
  cases p with
  | word s o =>
    obtain ⟨c, rest, hs, -, hc⟩ := h.first
    refine stripBrackets_of_head ?_
    simpa [text, hs] using hc
  | hollow => exact absurd rfl hh
  | signed sign operand =>
    obtain ⟨c, rfl, hc⟩ := exists_sign h.1
    refine stripBrackets_of_head ?_
    rcases hc with rfl | rfl <;> simp [text]
  | call head argument =>
    obtain ⟨c, rest, hs, -, hc⟩ := (Word.of_dotted h.1).first
    refine stripBrackets_of_head ?_
    simpa [text, hs] using hc
  | bracketed inner =>
    refine stripBrackets_of_mem ?_
    exact List.mem_append_left _ ((hp inner).1 rfl)
  | closed inner => exact absurd rfl (hp inner).2
  | joined front op spaced term =>
    have hne : op ++ (gap spaced ++ term.text) ≠ [] := by
      intro he
      exact text_ne_nil h.2.2.1 (List.append_eq_nil_iff.1 (List.append_eq_nil_iff.1 he).2).2
    exact stripBrackets_append (text_ne_nil h.2.1) hne
      ((balanced_op h.1).append ((balanced_gap spaced).append (balanced h.2.2.1)))

theorem scan_text {p : Phrase} (h : p.Valid) :
    Lexeme.scan .standard {} p.text = .ok p.lexemes := by
  obtain ⟨b, hread, hb, -⟩ := reads h Cursor.fresh_start
  exact hread.scan_eq hb

theorem trim_lexemes {p : Phrase} (h : p.Valid) :
    Text.trim (Lexeme.text p.lexemes) = p.text := by
  rw [text_lexemes, (trimmed h).trim_eq]

theorem loosest?_letters (s : Text) : Lexeme.loosest? (s.map .letter) = none := by
  rw [Lexeme.loosest?_eq_none_iff]
  intro op k hm
  simp at hm

/-- The trees of a phrase as terms of a chain of rank `r`. -/
def termsAt (r : Nat) (p : Phrase) : List Expr :=
  if p.rank = r then (p.tree []).terms else [p.tree []]

theorem termsAt_joined {r : Nat} {front term : Phrase} {op : Text} {spaced : Bool}
    (h : OperatorTable.standard.precedence op = r) :
    (joined front op spaced term).termsAt r = front.termsAt r ++ [term.tree op] := by
  rw [termsAt, if_pos (show (joined front op spaced term).rank = r from h), tree, h]
  rfl

theorem split_single {n r : Nat} {p : Phrase}
    (ih : ∀ (q : Phrase) op s, q.Valid → q.levels ≤ n → Text.trim s = q.text →
      Expr.parseLevel .standard n op s = .ok (q.tree op))
    (h : p.Valid) (hr : p.rank ≠ r) (hno : ∀ op k, Lexeme.operator op k ∈ p.lexemes → k ≠ r)
    (hl : p.levels + 1 ≤ n + 1) :
    ∃ first more, Expr.parseLevel .standard n [] (Lexeme.split r p.lexemes).1 = .ok first ∧
      List.Forall₂ (fun q e => Expr.parseLevel .standard n q.1 q.2 = .ok e)
        (Lexeme.split r p.lexemes).2 more ∧ p.termsAt r = first :: more := by
  refine ⟨p.tree [], [], ?_, ?_, ?_⟩
  · rw [Lexeme.split_of_ne hno, text_lexemes]
    exact ih p [] _ h (by omega) (trimmed h).trim_eq
  · rw [Lexeme.split_of_ne hno]
    exact .nil
  · rw [termsAt, if_neg hr]

/-- If every valid phrase of at most `n` levels is read, then so are the terms of a chain. -/
theorem split_terms {n r : Nat} {p : Phrase}
    (ih : ∀ (q : Phrase) op s, q.Valid → q.levels ≤ n → Text.trim s = q.text →
      Expr.parseLevel .standard n op s = .ok (q.tree op))
    (h : p.Valid) (hr : r ≠ 0) (hrank : p.rank = 0 ∨ r ≤ p.rank)
    (hl : (if p.rank = r then p.levels else p.levels + 1) ≤ n + 1) :
    ∃ first more, Expr.parseLevel .standard n [] (Lexeme.split r p.lexemes).1 = .ok first ∧
      List.Forall₂ (fun q e => Expr.parseLevel .standard n q.1 q.2 = .ok e)
        (Lexeme.split r p.lexemes).2 more ∧ p.termsAt r = first :: more := by
  induction p with
  | joined front op spaced term ihf iht =>
    by_cases hk : OperatorTable.standard.precedence op = r
    · obtain ⟨hop, hfront, hterm, hfr, htr, -⟩ := h
      have hkr : (joined front op spaced term).rank = r := hk
      rw [if_pos hkr, levels, hk] at hl
      have hfl : (if front.rank = r then front.levels else front.levels + 1) ≤ n + 1 := by omega
      have htl : term.levels ≤ n := by omega
      obtain ⟨first, more, hfirst, hmore, hterms⟩ := ihf hfront (by omega) hfl
      have hno : ∀ op k, Lexeme.operator op k ∈ (gap spaced).map .letter ++ term.lexemes →
          k ≠ r := by
        intro op' k hm
        rcases List.mem_append.1 hm with hm | hm
        · simp at hm
        · have := operator_mem_lexemes hterm hm
          omega
      have htext : Lexeme.text ((gap spaced).map .letter ++ term.lexemes) =
          gap spaced ++ term.text := by
        rw [Lexeme.text_append, Lexeme.text_map_letter, text_lexemes]
      have htrim : Text.trim (gap spaced ++ term.text) = term.text := by
        cases spaced with
        | false => exact (trimmed hterm).trim_eq
        | true =>
          have hblank : Text.isBlank ' ' = true := by decide
          exact (Text.trim_cons_blank hblank _).trans (trimmed hterm).trim_eq
      refine ⟨first, more ++ [term.tree op], ?_, ?_, ?_⟩
      · rw [lexemes, hk, Lexeme.split_append]
        exact hfirst
      · rw [lexemes, hk, Lexeme.split_append, Lexeme.split_of_ne hno, htext]
        exact List.rel_append hmore (.cons (ih term op _ hterm htl htrim) .nil)
      · rw [termsAt_joined hk, hterms]
        rfl
    · have hno : ∀ op' k, Lexeme.operator op' k ∈ (joined front op spaced term).lexemes → k ≠ r := by
        intro op' k hm
        have := operator_mem_lexemes h hm
        have hpos := OperatorTable.precedence_pos_iff.2 h.1
        simp only [rank] at hrank this
        omega
      have hrk : (joined front op spaced term).rank ≠ r := hk
      rw [if_neg hrk] at hl
      exact split_single ih h hrk hno hl
  | _ =>
    have hr0 : ¬ 0 = r := fun h => hr h.symm
    change (if 0 = r then _ else _) ≤ n + 1 at hl
    rw [if_neg hr0] at hl
    exact split_single ih h hr0 (by simp [lexemes]) hl

theorem label_eq {op : Text} (h : OperatorTable.standard.isBinary op = true) :
    OperatorTable.standard.groupLabel (OperatorTable.standard.precedence op) =
      some (label op) := by
  obtain ⟨l, hl, -⟩ := OperatorTable.exists_groupLabel h
  rw [label, hl]
  rfl

theorem mem_lexemes_joined {front term : Phrase} {op : Text} {spaced : Bool} :
    Lexeme.operator op (OperatorTable.standard.precedence op) ∈
      (joined front op spaced term).lexemes := by
  rw [lexemes]
  exact List.mem_append_right _ List.mem_cons_self

theorem parseLevel_hollow {n : Nat} {op s : Text} (hs : Text.trim s = ['(', ')']) :
    Expr.parseLevel .standard (n + 1) op s = .ok (hollow.tree op) := by
  have hbody : stripBrackets (Text.trim s) = [] := by
    rw [hs]
    rfl
  have hl : Lexeme.scan .standard {} (stripBrackets (Text.trim s)) = .ok [] := by
    rw [hbody]
    rfl
  exact Expr.parseLevel_iff.2 ⟨[], hl, .leaf rfl rfl⟩

/-- What the induction on the levels needs of a phrase whose own brackets stay. -/
theorem parseLevel_unstripped {n : Nat} {p : Phrase} {op s : Text}
    (ih : ∀ (q : Phrase) op s, q.Valid → q.levels ≤ n → Text.trim s = q.text →
      Expr.parseLevel .standard n op s = .ok (q.tree op))
    (h : p.Valid) (hl : p.levels ≤ n + 1) (hs : Text.trim s = p.text)
    (hp : ∀ inner, (p = bracketed inner → '(' ∈ inner.text) ∧ p ≠ closed inner) :
    Expr.parseLevel .standard (n + 1) op s = .ok (p.tree op) := by
  by_cases hh : p = hollow
  · subst hh
    exact parseLevel_hollow hs
  have hbody : stripBrackets (Text.trim s) = p.text := by
    rw [hs, stripBrackets_text h hp hh]
  have hscan : Lexeme.scan .standard {} (stripBrackets (Text.trim s)) = .ok p.lexemes := by
    rw [hbody, scan_text h]
  have htrim := trim_lexemes h
  cases p with
  | word w o =>
    refine Expr.parseLevel_iff.2 ⟨_, hscan, .leaf (loosest?_letters _) ?_⟩
    rw [htrim]
    exact h.leaf
  | hollow => exact absurd rfl hh
  | signed sign operand =>
    obtain ⟨hsign, hoperand, hrank⟩ := h
    rw [levels] at hl
    have hin := ih operand [] operand.text hoperand (by omega) (trimmed hoperand).trim_eq
    refine Expr.parseLevel_iff.2 ⟨_, hscan, .prefixed (loosest?_letters _) ?_ hin⟩
    rw [htrim, text]
    exact ofText_signed hsign (text_ne_nil hoperand)
  | call head argument =>
    obtain ⟨hhead, hargument⟩ := h
    rw [levels] at hl
    have hin := ih argument [] argument.text hargument (by omega) (trimmed hargument).trim_eq
    refine Expr.parseLevel_iff.2 ⟨_, hscan, .call (loosest?_letters _) ?_ hin⟩
    have hword := Word.of_dotted hhead
    have hplain : ∀ c ∈ head, c ≠ '"' ∧ c ≠ '(' := by
      have hall := Lexeme.plain_of_trace ((trace_dotted head).1 none hhead)
      exact fun c hc => ⟨(hall c hc).1, (hall c hc).2.1⟩
    have hlead : OperatorTable.standard.leading? (head ++ ('(' :: argument.text ++ [')'])) = none := by
      obtain ⟨c, rest, he, hc, -⟩ := hword.first
      rw [he]
      exact Expr.leading?_of_first hc _
    rw [htrim, text, Expr.ofText_brackets hplain hlead (balanced hargument),
      (trimmed hargument).isAllBlank_eq (text_ne_nil hargument), hword.trimmed.trim_eq,
      (trimmed hargument).trim_eq]
    rfl
  | closed inner => exact absurd rfl (hp inner).2
  | bracketed inner =>
    have hmem := (hp inner).1 rfl
    rw [levels, if_pos hmem] at hl
    have hinner : inner.Valid := h
    have hin := ih inner [] inner.text hinner (by omega) (trimmed hinner).trim_eq
    rw [tree, if_pos hmem]
    refine Expr.parseLevel_iff.2 ⟨_, hscan, .call (loosest?_letters _) ?_ hin⟩
    have hlead : OperatorTable.standard.leading? ([] ++ ('(' :: inner.text ++ [')'])) = none :=
      Expr.leading?_of_first (by decide) _
    rw [htrim, text]
    have hcall := Expr.ofText_brackets (by simp) hlead (balanced hinner)
    rw [(trimmed hinner).isAllBlank_eq (text_ne_nil hinner), (trimmed hinner).trim_eq] at hcall
    exact hcall
  | joined front o spaced term =>
    have hpos := OperatorTable.precedence_pos_iff.2 h.1
    have hloosest : Lexeme.loosest? (joined front o spaced term).lexemes =
        some (OperatorTable.standard.precedence o) :=
      Lexeme.loosest?_eq_some mem_lexemes_joined
        fun op' k hm => (operator_mem_lexemes h hm).2
    have hrank : (joined front o spaced term).rank = OperatorTable.standard.precedence o := rfl
    obtain ⟨first, more, hfirst, hmore, hterms⟩ := split_terms ih h (by omega)
      (.inr (Nat.le_of_eq hrank.symm)) (by rw [if_pos hrank]; exact hl)
    have hchain : Expr.parseLevel .standard (n + 1) op s = .ok ⟨label o, op, first :: more⟩ :=
      Expr.parseLevel_iff.2 ⟨_, hscan, .chain hloosest (label_eq h.1) hfirst hmore⟩
    rw [termsAt, if_pos hrank] at hterms
    rw [hchain, ← hterms]
    rfl

/-- A separator behind a phrase is left out. -/
theorem parseLevel_cut {n : Nat} {p : Phrase} (h : p.Valid) (hp : '(' ∉ p.text) (op : Text) :
    Expr.parseLevel .standard (n + 1) op (p.text ++ [';']) =
      Expr.parseLevel .standard (n + 1) op p.text := by
  have hcut : '(' ∉ p.text ++ [';'] := by simpa using hp
  have htrim : Text.Trimmed (p.text ++ [';']) :=
    (trimmed h).append (by decide) (text_ne_nil h) (List.cons_ne_nil _ _)
  obtain ⟨b, hread, hb, -⟩ := reads h Cursor.fresh_start
  have hscan : Lexeme.scan .standard {} (p.text ++ [';']) = .ok p.lexemes := by
    rw [hread, Lexeme.scan_separator hb.opened hb.quoted rfl]
    exact congrArg Except.ok (List.append_nil _)
  rw [Expr.parseLevel, Expr.parseLevel, htrim.trim_eq, (trimmed h).trim_eq,
    stripBrackets_of_not_mem hcut, stripBrackets_of_not_mem hp, Expr.ofText_eq_ok.2 hscan,
    Expr.ofText_eq_ok.2 (scan_text h)]

/-- The parser reads a valid phrase as its tree. -/
theorem parseLevel_eq {n : Nat} {p : Phrase} {op s : Text} (h : p.Valid) (hl : p.levels ≤ n)
    (hs : Text.trim s = p.text) : Expr.parseLevel .standard n op s = .ok (p.tree op) := by
  induction n generalizing p op s with
  | zero =>
    have := levels_pos p
    omega
  | succ n ih =>
    have ihn : ∀ (q : Phrase) op s, q.Valid → q.levels ≤ n → Text.trim s = q.text →
        Expr.parseLevel .standard n op s = .ok (q.tree op) := fun q op s hq hlq hsq => ih hq hlq hsq
    by_cases hp : ∀ inner, (p = bracketed inner → '(' ∈ inner.text) ∧ p ≠ closed inner
    · exact parseLevel_unstripped ihn h hl hs hp
    · -- the brackets come off, and what is in them is read on the same level
      obtain ⟨inner, hinner, hmem, hlevels, htree, hparse⟩ : ∃ inner : Phrase, inner.Valid ∧
          '(' ∉ inner.text ∧ inner.levels ≤ n + 1 ∧ p.tree op = inner.tree op ∧
          Expr.parseLevel .standard (n + 1) op s = Expr.parseLevel .standard (n + 1) op inner.text := by
        simp only [not_forall, not_and_or, not_not] at hp
        obtain ⟨inner, hp⟩ := hp
        rcases hp with ⟨rfl, hmem⟩ | rfl
        · have hinner : inner.Valid := h
          rw [levels, if_neg hmem] at hl
          refine ⟨inner, hinner, hmem, hl, by rw [tree, if_neg hmem], Expr.parseLevel_congr ?_⟩
          rw [hs, text, stripBrackets_bracketed hmem, (trimmed hinner).trim_eq,
            stripBrackets_of_not_mem hmem]
        · obtain ⟨hinner, hmem⟩ := h
          refine ⟨inner, hinner, hmem, hl, rfl, ?_⟩
          have hcut : '(' ∉ inner.text ++ [';'] := by simpa using hmem
          rw [← parseLevel_cut hinner hmem]
          refine Expr.parseLevel_congr ?_
          have htrim : Text.Trimmed (inner.text ++ [';']) :=
            (trimmed hinner).append (by decide) (text_ne_nil hinner) (List.cons_ne_nil _ _)
          rw [hs, text, stripBrackets_bracketed hcut, htrim.trim_eq, stripBrackets_of_not_mem hcut]
      rw [hparse, htree]
      refine parseLevel_unstripped ihn hinner hlevels (trimmed hinner).trim_eq fun inner' => ⟨?_, ?_⟩
      · rintro rfl
        exact absurd (by rw [text]; exact List.mem_cons_self) hmem
      · rintro rfl
        exact absurd (by rw [text]; exact List.mem_cons_self) hmem

theorem eq_tree_of_parseLevel {n : Nat} {p : Phrase} {op : Text} {e : Expr} (h : p.Valid)
    (hparse : Expr.parseLevel .standard n op p.text = .ok e) : e = p.tree op := by
  have htree : Expr.parseLevel .standard (max n p.levels) op p.text = .ok (p.tree op) :=
    parseLevel_eq h (Nat.le_max_right n p.levels) (trimmed h).trim_eq
  exact Except.ok.inj ((Expr.parseLevel_le hparse (Nat.le_max_left n p.levels)).symm.trans htree)

end Phrase
end Lineshape
