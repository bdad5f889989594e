import Lineshape.Proofs.Expr.Shape

/-! # Scanning the terms of a level

A term of a level is scanned again on the level below it. What is found there was found before: the
lexemes of a text are the first ones of any longer text that can be scanned
(`Lexeme.prefix_of_scan`), and behind an operator the scan starts afresh
(`Lexeme.exists_resumes`). So the operators of a term are operators of the level
(`Lexeme.operator_of_piece`). -/

namespace Lineshape
set_option autoImplicit false

/-! ## Cursors that scan alike -/

/-- Two cursors between which the scan makes no difference. -/
structure Cursor.Alike (a b : Cursor) : Prop where
  opened : a.opened.length = b.opened.length
  quoted : a.quoted.isSome = b.quoted.isSome
  number : a.number = b.number
  afterTerm : a.afterTerm = b.afterTerm
  previous : a.previous.any Text.continuesName = b.previous.any Text.continuesName

namespace Cursor

variable {a b : Cursor}

theorem Alike.opened_eq_nil (h : a.Alike b) (ha : a.opened = []) : b.opened = [] := by
  have hopened := h.opened
  rw [ha] at hopened
  exact List.eq_nil_of_length_eq_zero hopened.symm

theorem Alike.quoted_eq_none (h : a.Alike b) (ha : a.quoted = none) : b.quoted = none := by
  have hquoted := h.quoted
  rw [ha] at hquoted
  exact Option.isNone_iff_eq_none.1 (Option.isSome_eq_false_iff.1 hquoted.symm)

theorem Fresh.alike (ha : a.Fresh) (hb : b.Fresh) : a.Alike b where
  opened := by rw [ha.opened, hb.opened]
  quoted := by rw [ha.quoted, hb.quoted]
  number := by rw [ha.number, hb.number]
  afterTerm := by rw [ha.afterTerm, hb.afterTerm]
  previous := by rw [ha.previous, hb.previous]

theorem Alike.skip (h : a.Alike b) (op : Text) (afterTerm : Bool) :
    (a.skip op afterTerm).Alike (b.skip op afterTerm) :=
  ⟨h.opened, h.quoted, h.number, rfl, rfl⟩

theorem Alike.advance (h : a.Alike b) (c : Char) : (a.advance c).Alike (b.advance c) := by
  have hafter := h.afterTerm
  refine ⟨h.opened, h.quoted, h.number, ?_, rfl⟩
  show (a.afterTerm || _) = (b.afterTerm || _)
  rw [hafter]

theorem Alike.stepQuoted (h : a.Alike b) (c : Char) : (a.stepQuoted c).Alike (b.stepQuoted c) := by
  unfold Cursor.stepQuoted
  split
  · exact ⟨h.opened, rfl, h.number, h.afterTerm, rfl⟩
  · exact ⟨h.opened, h.quoted, h.number, h.afterTerm, rfl⟩

theorem Alike.fed (h : a.Alike b) (c : Char) : (a.fed c).Alike (b.fed c) := by
  have hnumber : a.number.feed a.previous c = b.number.feed b.previous c := by
    rw [h.number]
    cases b.number with
    | outside => simp [NumberScan.feed, h.previous]
    | inside point mark sign => rfl
  exact ⟨h.opened, h.quoted, hnumber, h.afterTerm, h.previous⟩

/-- Cursors that are alike take note of a character alike. -/
theorem Alike.note (h : a.Alike b) {c : Char} {a' : Cursor} (hn : a.note c = some a') :
    ∃ b', b.note c = some b' ∧ a'.Alike b' := by
  have hfed := h.fed c
  by_cases hq : c = '"'
  · subst hq
    rw [note_quote] at hn ⊢
    cases hn
    exact ⟨_, rfl, hfed.opened, rfl, hfed.number, hfed.afterTerm, hfed.previous⟩
  · by_cases ho : c = '('
    · subst ho
      rw [note_open] at hn ⊢
      cases hn
      refine ⟨_, rfl, ?_, hfed.quoted, hfed.number, hfed.afterTerm, hfed.previous⟩
      have := h.opened
      simp only [List.length_cons]
      omega
    · by_cases hc : c = ')'
      · subst hc
        have hlength := h.opened
        cases hopened : a.opened with
        | nil =>
          have hnone : a.note ')' = none := by simp [Cursor.note, hopened]
          rw [hnone] at hn
          cases hn
        | cons p outer =>
          rw [note_close a hopened] at hn
          cases hn
          rw [hopened] at hlength
          obtain ⟨p', outer', hopened'⟩ := List.exists_cons_of_length_eq_add_one hlength.symm
          refine ⟨_, note_close b hopened', ?_, hfed.quoted, hfed.number, hfed.afterTerm,
            hfed.previous⟩
          rw [hopened'] at hlength
          simpa using hlength
      · rw [note_plain a c hq ho hc] at hn
        cases hn
        exact ⟨_, note_plain b c hq ho hc, hfed⟩

theorem Alike.isTopLevel (h : a.Alike b) : a.isTopLevel = b.isTopLevel := by
  have hopened : a.opened.isEmpty = b.opened.isEmpty := by
    rw [Bool.eq_iff_iff, List.isEmpty_iff_length_eq_zero, List.isEmpty_iff_length_eq_zero, h.opened]
  unfold Cursor.isTopLevel
  rw [hopened, h.number]

end Cursor

namespace Lexeme

variable {t : OperatorTable}

/-- The lexemes of a text are the first ones of every longer text. -/
theorem prefix_of_scan {a b : Cursor} {s tail : Text} {ls ls' : List Lexeme} (hab : a.Alike b)
    (h : scan t a s = .ok ls) (h' : scan t b (s ++ tail) = .ok ls') : ls <+: ls' := by
  have hquote : ∀ {a b : Cursor}, a.Alike b → ¬ a.quoted.isSome = true → ¬ b.quoted.isSome = true :=
    fun hab hq hb => hq (hab.quoted.trans hb)
  rw [scan_eq_ok] at h
  induction h generalizing b ls' with
  | done | separator => exact List.nil_prefix
  | @quoted a c rest back hq _ ih =>
    rw [List.cons_append, scan_quoted (hab.quoted ▸ hq)] at h'
    obtain ⟨back', hback', rfl⟩ := exists_of_map _ h'
    exact (List.prefix_append_right_inj [letter c]).2 (ih (hab.stepQuoted c) hback')
  | @one a cursor c d rest back hq hnote htop hlong _ ih =>
    obtain ⟨cursor', hnote', halike⟩ := hab.note hnote
    have hafter := halike.afterTerm
    rw [halike.isTopLevel] at htop
    rw [hafter] at hlong ⊢
    rw [List.cons_append, List.cons_append, scan_one (hquote hab hq) hnote' htop hlong] at h'
    obtain ⟨back', hback', rfl⟩ := exists_of_map _ h'
    exact (List.prefix_append_right_inj _).2 (ih (halike.skip [c] false) hback')
  | @two a cursor c d rest back hq hnote htop hlong hne _ ih =>
    obtain ⟨cursor', hnote', halike⟩ := hab.note hnote
    have hafter := halike.afterTerm
    rw [halike.isTopLevel] at htop
    rw [hafter] at hlong ⊢
    rw [List.cons_append, List.cons_append, scan_two (hquote hab hq) hnote' htop hlong] at h'
    split at h'
    · cases h'
    · obtain ⟨back', hback', rfl⟩ := exists_of_map _ h'
      exact (List.prefix_append_right_inj _).2 (ih (halike.skip [c, d] false) hback')
  | @letter a cursor c rest back hq hnote htop _ ih =>
    obtain ⟨cursor', hnote', halike⟩ := hab.note hnote
    rw [halike.isTopLevel] at htop
    rw [List.cons_append, scan_letter (hquote hab hq) hnote' htop] at h'
    obtain ⟨back', hback', rfl⟩ := exists_of_map _ h'
    exact (List.prefix_append_right_inj [letter c]).2 (ih (halike.advance c) hback')

/-! ## Behind an operator -/

theorem split_letters {s : Text} {rest front back : List Lexeme} {op : Text} {k : Nat}
    (h : front ++ operator op k :: back = s.map letter ++ rest) :
    ∃ front', front = s.map letter ++ front' ∧ front' ++ operator op k :: back = rest := by
  induction s generalizing front with
  | nil => exact ⟨front, rfl, h⟩
  | cons c s ih =>
    cases front with
    | nil => cases h
    | cons l front =>
      obtain ⟨hl, h⟩ := List.cons.inj h
      obtain ⟨front', rfl, hrest⟩ := ih h
      exact ⟨front', by rw [hl]; rfl, hrest⟩

/-- An operator in a row of lexemes is the one just written or stands behind it. -/
theorem split_written {isBinary : Bool} {w : Text} {rest front back : List Lexeme} {op : Text}
    {k : Nat} (h : front ++ operator op k :: back = written isBinary t w ++ rest) :
    (front = [] ∧ op = w ∧ back = rest) ∨
      ∃ front', front = written isBinary t w ++ front' ∧ front' ++ operator op k :: back = rest := by
  cases isBinary with
  | false => exact .inr (split_letters h)
  | true =>
    cases front with
    | nil =>
      cases h
      exact .inl ⟨rfl, rfl, rfl⟩
    | cons l front =>
      obtain ⟨rfl, hrest⟩ := List.cons.inj h
      exact .inr ⟨front, rfl, hrest⟩

/-- The cursor behind an operator. -/
theorem fresh_behind {a a' : Cursor} {c : Char} {op : Text} (hq : ¬ a.quoted.isSome = true)
    (hn : a.note c = some a')
    (htop : (a'.isTopLevel && OperatorTable.standard.isSymbol c) = true)
    (hop : ∀ d ∈ op.getLast?, Text.continuesName d = false) : (a'.skip op false).Fresh := by
  rw [Bool.and_eq_true] at htop
  have hfed : a' = a.fed c := by
    have := note_symbol (a := a) htop.2
    rw [hn] at this
    exact Option.some.inj this
  have htop' := htop.1
  rw [Cursor.isTopLevel, Bool.and_eq_true] at htop'
  have hopened : a'.opened = [] := List.isEmpty_iff.1 htop'.1
  have hnumber : a'.number = .outside := by
    cases hnumber : a'.number with
    | outside => rfl
    | inside point mark sign =>
      rw [hnumber] at htop'
      cases htop'.2
  have hquoted : a'.quoted = none := by
    rw [hfed]
    exact Option.not_isSome_iff_eq_none.1 hq
  refine ⟨hopened, hquoted, hnumber, rfl, ?_⟩
  show (op.getLast?).any Text.continuesName = false
  cases hlast : op.getLast? with
  | none => rfl
  | some d => exact hop d hlast

theorem continuesName_of_longest? {isOperator : Text → Bool} {c d : Char}
    (h : OperatorTable.standard.longest? isOperator c d = some .two) :
    Text.continuesName d = false := by
  rw [OperatorTable.longest?] at h
  split at h
  · rename_i hd
    rw [Bool.and_eq_true] at hd
    exact (OperatorTable.symbol_facts hd.1).2.2.2.2.2.2.2.2
  · split at h <;> cases h

/-- Whatever a term can begin with is scanned from `b` when it stands behind these lexemes. -/
def Leads (a : Cursor) (lexemes : List Lexeme) (b : Cursor) : Prop :=
  ∀ d rest, OperatorTable.MayFollow d →
    scan .standard a (text lexemes ++ d :: rest) = (scan .standard b (d :: rest)).map (lexemes ++ ·)

theorem Leads.step {a b c : Cursor} {front lexemes : List Lexeme} (h : Leads b lexemes c)
    (hstep : ∀ d rest, scan .standard a (text front ++ (text lexemes ++ d :: rest)) =
      (scan .standard b (text lexemes ++ d :: rest)).map (front ++ ·)) :
    Leads a (front ++ lexemes) c := by
  intro d rest hd
  rw [text_append, List.append_assoc, hstep, h d rest hd, map_append_map]

/-- Behind these lexemes the scan goes on from a place where a term can begin, with the rest `q` of
the text, and whatever else a term can begin with is scanned from there, too. -/
structure Resumes (a : Cursor) (s : Text) (lexemes back : List Lexeme) (c : Cursor) (q : Text) :
    Prop where
  fresh : c.Fresh
  cut : s = text lexemes ++ q
  reads : scan .standard c q = .ok back
  leads : Leads a lexemes c

section Resumes

variable {a a' b c : Cursor} {s s' q rest : Text} {lexemes back : List Lexeme} {x y : Char}

theorem Resumes.step (h : Resumes b s' lexemes back c q) (front : List Lexeme)
    (hs : s = text front ++ s')
    (hstep : ∀ d rest, scan .standard a (text front ++ (text lexemes ++ d :: rest)) =
      (scan .standard b (text lexemes ++ d :: rest)).map (front ++ ·)) :
    Resumes a s (front ++ lexemes) back c q where
  fresh := h.fresh
  cut := by rw [hs, h.cut, text_append, List.append_assoc]
  reads := h.reads
  leads := h.leads.step hstep

theorem resumes_one (hq : ¬ a.quoted.isSome = true) (hn : a.note x = some a')
    (htop : (a'.isTopLevel && OperatorTable.standard.isSymbol x) = true)
    (hafter : a'.afterTerm = true) (hop : OperatorTable.standard.isBinary [x] = true)
    (h : scan .standard (a'.skip [x] false) (y :: rest) = .ok back) :
    Resumes a (x :: y :: rest) (written true .standard [x]) back (a'.skip [x] false) (y :: rest) where
  fresh := by
    refine fresh_behind hq hn htop fun d hd => ?_
    cases hd
    rw [Bool.and_eq_true] at htop
    exact (OperatorTable.symbol_facts htop.2).2.2.2.2.2.2.2.2
  cut := rfl
  reads := h
  leads := by
    intro d rest' hd
    have hlong := OperatorTable.longest?_one hop hd
    have hscan := scan_one hq hn htop (by rwa [hafter]) (s := rest')
    rw [hafter] at hscan
    exact hscan

theorem resumes_two (hq : ¬ a.quoted.isSome = true) (hn : a.note x = some a')
    (htop : (a'.isTopLevel && OperatorTable.standard.isSymbol x) = true)
    (hafter : a'.afterTerm = true)
    (hlong : OperatorTable.standard.longest? OperatorTable.standard.isBinary x y = some .two)
    (h : scan .standard (a'.skip [x, y] false) rest = .ok back) :
    Resumes a (x :: y :: rest) (written true .standard [x, y]) back (a'.skip [x, y] false) rest where
  fresh := by
    refine fresh_behind hq hn htop fun d hd => ?_
    cases hd
    exact continuesName_of_longest? hlong
  cut := rfl
  reads := h
  leads := by
    intro d rest' _
    have hscan := scan_two hq hn htop (by rwa [hafter]) (s := d :: rest')
    rw [hafter] at hscan
    exact hscan.trans (if_neg (by simp))

end Resumes

/-- What stands behind an operator is scanned from a place where a term can begin, and can be exchanged
for whatever a term can begin with. -/
theorem exists_resumes {a : Cursor} {s : Text} {front back : List Lexeme} {op : Text} {k : Nat}
    (h : scan .standard a s = .ok (front ++ operator op k :: back)) :
    ∃ c q, Resumes a s (front ++ [operator op k]) back c q := by
  have hop := (operator_of_scan h (List.mem_append_right front List.mem_cons_self)).1
  -- up to the operator the text begins as it did
  have hhead : ∀ (front : List Lexeme) {q rest : Text} {d : Char},
      d :: rest = text (front ++ [operator op k]) ++ q →
      ∃ more, text (front ++ [operator op k]) = d :: more := by
    intro front q rest d hs
    cases htext : text (front ++ [operator op k]) with
    | nil =>
      rw [text_append, List.append_eq_nil_iff] at htext
      obtain rfl : op = [] := by simpa [text, toText] using htext.2
      exact absurd hop (by decide)
    | cons c more =>
      rw [htext] at hs
      exact ⟨more, by rw [(List.cons.inj hs).1]⟩
  generalize hls : front ++ operator op k :: back = ls at h
  rw [scan_eq_ok] at h
  induction h generalizing front with
  | done | separator => simp at hls
  | @quoted a c rest ls hq _ ih =>
    obtain ⟨front', rfl, hrest⟩ := split_letters (s := [c]) hls
    obtain ⟨b, q, hresumes⟩ := ih hrest
    exact ⟨b, q, hresumes.step [letter c] rfl fun _ _ => scan_quoted hq⟩
  | @one a cursor c d rest ls hq hnote htop hlong hscan ih =>
    obtain ⟨rfl, rfl, rfl⟩ | ⟨front', rfl, hrest⟩ := split_written hls
    · cases hafter : cursor.afterTerm with
      | false =>
        rw [hafter] at hls
        cases hls
      | true =>
        rw [hafter] at hls
        cases hls
        exact ⟨_, _, resumes_one hq hnote htop hafter hop (scan_eq_ok.2 hscan)⟩
    · obtain ⟨b, q, hresumes⟩ := ih hrest
      obtain ⟨more, hmore⟩ := hhead front' hresumes.cut
      refine ⟨b, q, ?_⟩
      rw [List.append_assoc]
      refine hresumes.step _ (by rw [text_written]; rfl) fun d' rest' => ?_
      rw [text_written, hmore]
      exact scan_one hq hnote htop hlong
  | @two a cursor c d rest ls hq hnote htop hlong hne hscan ih =>
    obtain ⟨rfl, rfl, rfl⟩ | ⟨front', rfl, hrest⟩ := split_written hls
    · cases hafter : cursor.afterTerm with
      | false =>
        rw [hafter] at hls
        cases hls
      | true =>
        rw [hafter] at hls hlong
        cases hls
        exact ⟨_, _, resumes_two hq hnote htop hafter hlong (scan_eq_ok.2 hscan)⟩
    · obtain ⟨b, q, hresumes⟩ := ih hrest
      refine ⟨b, q, ?_⟩
      rw [List.append_assoc]
      refine hresumes.step _ (by rw [text_written]; rfl) fun d' rest' => ?_
      rw [text_written]
      exact (scan_two hq hnote htop hlong).trans (if_neg (by simp))
  | @letter a cursor c rest ls hq hnote htop _ ih =>
    obtain ⟨front', rfl, hrest⟩ := split_letters (s := [c]) hls
    obtain ⟨b, q, hresumes⟩ := ih hrest
    exact ⟨b, q, hresumes.step [letter c] rfl fun _ _ => scan_letter hq hnote htop⟩

/-! ## The terms of a level -/

theorem length_text_le {a : Cursor} {s : Text} {ls : List Lexeme} (h : scan t a s = .ok ls) :
    (text ls).length ≤ s.length := by
  rcases makeUp_of_scan h with hs | ⟨c, -, hs⟩
  · exact Nat.le_of_eq (congrArg List.length hs).symm
  · have := congrArg List.length hs
    rw [List.length_append] at this
    omega

/-- What is found in the beginning of a scanned text, read on its own, was found in the scan, too,
behind the blanks that are trimmed away. -/
theorem prefix_of_piece {a : Cursor} {p tail : Text} {ls ls' : List Lexeme} (ha : a.Fresh)
    (h : scan .standard a (p ++ tail) = .ok ls) (h' : scan .standard {} (Text.trim p) = .ok ls') :
    ∃ blanks : Text, blanks.map letter ++ ls' <+: ls ∧
      (text (blanks.map letter ++ ls')).length ≤ p.length := by
  obtain ⟨blanks, behind, hp, hblanks, -⟩ := Text.exists_trim p
  obtain ⟨b, hb, hread⟩ := reads_blanks hblanks ha
  have hs : p ++ tail = blanks ++ (Text.trim p ++ (behind ++ tail)) := by
    rw [← List.append_assoc, ← List.append_assoc, ← hp]
  rw [hs, hread] at h
  obtain ⟨back, hback, rfl⟩ := exists_of_map _ h
  have halike : Cursor.Alike {} b := Cursor.fresh_start.alike hb
  have hprefix := prefix_of_scan halike h' hback
  refine ⟨blanks, (List.prefix_append_right_inj _).2 hprefix, ?_⟩
  have hlength := length_text_le h'
  have hp' := congrArg List.length hp
  rw [List.length_append, List.length_append] at hp'
  rw [text_append, text_map_letter, List.length_append]
  omega

/-- A prefix that is no longer than the lexemes before an operator does not reach the operator. -/
theorem prefix_before_operator {ls seg rest : List Lexeme} (h : ls <+: seg ++ rest)
    (hrest : ∀ l ∈ rest.head?, toText l ≠ []) (hl : (text ls).length ≤ (text seg).length) :
    ls <+: seg := by
  rcases Nat.le_total ls.length seg.length with hle | hle
  · exact List.prefix_of_prefix_length_le h (List.prefix_append seg rest) hle
  · have hseg : seg <+: ls := List.prefix_of_prefix_length_le (List.prefix_append seg rest) h hle
    obtain ⟨more, rfl⟩ := hseg
    have hmore : more <+: rest := (List.prefix_append_right_inj seg).1 h
    cases more with
    | nil => exact ⟨[], by simp⟩
    | cons l more =>
      obtain ⟨rest', rfl⟩ := hmore
      have hne : 0 < (toText l).length := List.length_pos_iff.2 (hrest l rfl)
      rw [text_append, List.length_append] at hl
      have hcons : text (l :: more) = toText l ++ text more := rfl
      rw [hcons, List.length_append] at hl
      omega

/-- The part of a row of lexemes up to the first operator of a rank. -/
structure IsPiece (r : Nat) (seg rest : List Lexeme) : Prop where
  inside : ∀ op k, operator op k ∈ seg → k ≠ r
  behind : rest = [] ∨ ∃ op more, rest = operator op r :: more

theorem IsPiece.cons {r : Nat} {seg rest : List Lexeme} {l : Lexeme} (h : IsPiece r seg rest)
    (hl : ∀ op, l ≠ operator op r) : IsPiece r (l :: seg) rest where
  inside := by
    intro op k hm
    rcases List.mem_cons.1 hm with rfl | hm
    · rintro rfl
      exact hl op rfl
    · exact h.inside op k hm
  behind := h.behind

theorem split_operator_self (op : Text) (r : Nat) (ls : List Lexeme) :
    split r (operator op r :: ls) = ([], (op, (split r ls).1) :: (split r ls).2) := by
  rw [split]
  simp

theorem split_operator_of_ne (op : Text) {k r : Nat} (h : k ≠ r) (ls : List Lexeme) :
    split r (operator op k :: ls) = (op ++ (split r ls).1, (split r ls).2) := by
  rw [split]
  simp [h]

theorem first_of_split (r : Nat) (ls : List Lexeme) :
    ∃ seg rest, ls = seg ++ rest ∧ text seg = (split r ls).1 ∧ IsPiece r seg rest := by
  induction ls with
  | nil => exact ⟨[], [], rfl, rfl, nofun, .inl rfl⟩
  | cons l ls ih =>
    obtain ⟨seg, rest, hls, htext, hpiece⟩ := ih
    cases l with
    | letter c =>
      have htext' : text (letter c :: seg) = c :: text seg := rfl
      exact ⟨letter c :: seg, rest, by rw [hls]; rfl, by rw [htext', htext]; rfl,
        hpiece.cons nofun⟩
    | operator op k =>
      by_cases hk : k = r
      · subst hk
        rw [split_operator_self]
        exact ⟨[], operator op k :: ls, rfl, rfl, nofun, .inr ⟨op, ls, rfl⟩⟩
      · have htext' : text (operator op k :: seg) = op ++ text seg := rfl
        rw [split_operator_of_ne op hk]
        refine ⟨operator op k :: seg, rest, by rw [hls]; rfl, by rw [htext', htext], ?_⟩
        refine hpiece.cons ?_
        rintro op' he
        cases he
        exact hk rfl

theorem exists_of_mem_split {r : Nat} {ls : List Lexeme} {p : Text × Text}
    (h : p ∈ (split r ls).2) :
    ∃ front seg rest, ls = front ++ operator p.1 r :: (seg ++ rest) ∧ text seg = p.2 ∧
      IsPiece r seg rest := by
  induction ls with
  | nil => cases h
  | cons l ls ih =>
    have hmore : p ∈ (split r ls).2 → ∃ front seg rest,
        l :: ls = front ++ operator p.1 r :: (seg ++ rest) ∧ text seg = p.2 ∧ IsPiece r seg rest := by
      intro h
      obtain ⟨front, seg, rest, hls, hpiece⟩ := ih h
      exact ⟨l :: front, seg, rest, by rw [hls]; rfl, hpiece⟩
    cases l with
    | letter c => exact hmore h
    | operator op k =>
      by_cases hk : k = r
      · subst hk
        rw [split_operator_self] at h
        rcases List.mem_cons.1 h with rfl | h
        · obtain ⟨seg, rest, hls, hpiece⟩ := first_of_split k ls
          exact ⟨[], seg, rest, by rw [← hls]; rfl, hpiece⟩
        · exact hmore h
      · rw [split_operator_of_ne op hk] at h
        exact hmore h

/-- The operators of a term, read on its own, are operators of the level with another rank. -/
theorem operator_of_piece {body p : Text} {ls ls' : List Lexeme} {r : Nat}
    (h : scan .standard {} body = .ok ls)
    (hp : p = (split r ls).1 ∨ ∃ op, (op, p) ∈ (split r ls).2)
    (h' : scan .standard {} (Text.trim p) = .ok ls') {op : Text} {k : Nat}
    (hm : operator op k ∈ ls') : operator op k ∈ ls ∧ k ≠ r := by
  obtain ⟨a, q, seg, rest, ha, hscan, hseg, hpiece, hsub⟩ : ∃ (a : Cursor) (q : Text)
      (seg rest : List Lexeme), a.Fresh ∧ scan .standard a q = .ok (seg ++ rest) ∧ text seg = p ∧
        IsPiece r seg rest ∧ ∀ l ∈ seg ++ rest, l ∈ ls := by
    rcases hp with rfl | ⟨op', hp⟩
    · obtain ⟨seg, rest, rfl, htext, hpiece⟩ := first_of_split r ls
      exact ⟨{}, body, seg, rest, Cursor.fresh_start, h, htext, hpiece, fun _ hl => hl⟩
    · obtain ⟨front, seg, rest, rfl, htext, hpiece⟩ := exists_of_mem_split hp
      obtain ⟨a, q, hresumes⟩ := exists_resumes h
      exact ⟨a, q, seg, rest, hresumes.fresh, hresumes.reads, htext, hpiece,
        fun l hl => List.mem_append_right _ (List.mem_cons_of_mem _ hl)⟩
  obtain ⟨tail, rfl⟩ : ∃ tail, q = p ++ tail := by
    rcases makeUp_of_scan hscan with hq | ⟨c, -, hq⟩
    · exact ⟨text rest, by rw [hq, text_append, hseg]⟩
    · exact ⟨text rest ++ [c], by rw [hq, text_append, hseg, List.append_assoc]⟩
  obtain ⟨blanks, hprefix, hlength⟩ := prefix_of_piece ha hscan h'
  have hrest : ∀ l ∈ rest.head?, toText l ≠ [] := by
    intro l hl
    rcases hpiece.behind with rfl | ⟨op', more, rfl⟩
    · cases hl
    · cases hl
      have hbinary := (operator_of_scan hscan (List.mem_append_right seg List.mem_cons_self)).1
      show op' ≠ []
      rintro rfl
      exact absurd hbinary (by decide)
  have hin := prefix_before_operator hprefix hrest (hseg ▸ hlength)
  have hmem : operator op k ∈ seg := hin.subset (List.mem_append_right _ hm)
  exact ⟨hsub _ (List.mem_append_left rest hmem), hpiece.inside op k hmem⟩

/-- There is no operator in an operand behind a sign. -/
theorem no_operator_of_operand {a : Cursor} {operand tail : Text} {ls ls' : List Lexeme}
    (ha : a.Fresh) (h : scan .standard a (operand ++ tail) = .ok ls) (hno : loosest? ls = none)
    (h' : scan .standard {} (Text.trim operand) = .ok ls') (op : Text) (k : Nat) :
    operator op k ∉ ls' := by
  obtain ⟨blanks, hprefix, -⟩ := prefix_of_piece ha h h'
  intro hm
  exact loosest?_eq_none_iff.1 hno op k (List.IsPrefix.subset hprefix (List.mem_append_right _ hm))

theorem no_operator_of_prefixed {body sign operand : Text} {ls ls' : List Lexeme}
    (h : scan .standard {} body = .ok ls) (hbody : Text.Trimmed body) (hno : loosest? ls = none)
    (hterm : Expr.Term.ofText .standard (Text.trim (text ls)) = .ok (.prefixed sign operand))
    (h' : scan .standard {} (Text.trim operand) = .ok ls') (op : Text) (k : Nat) :
    operator op k ∉ ls' := by
  have hlead := Expr.ofText_prefixed_cases hterm
  obtain ⟨hsplit, hne⟩ := Expr.eq_of_leading? hlead
  obtain ⟨tail, htail⟩ := exists_tail_of_scan h hbody
  rw [hsplit, List.append_assoc] at htail
  obtain ⟨d, rest, hd⟩ := List.exists_cons_of_ne_nil hne
  obtain ⟨b, hb, hsign⟩ := reads_sign Cursor.fresh_start (Expr.isUnary_of_leading? hlead)
  have hbehind : scan .standard {} body =
      (scan .standard b (operand ++ tail)).map (sign.map .letter ++ ·) := by
    rw [htail, hd]
    exact hsign d (rest ++ tail)
  rw [hbehind] at h
  obtain ⟨back, hback, rfl⟩ := exists_of_map _ h
  have hno' : loosest? back = none := by
    rw [loosest?_eq_none_iff] at hno ⊢
    exact fun op k hm => hno op k (List.mem_append_right _ hm)
  exact no_operator_of_operand hb hback hno' h' op k

end Lexeme
end Lineshape
