import Lineshape.Proofs.Expr.Faults
import Mathlib.Algebra.Group.Nat.Even

/-! # Brackets without a partner

Two unquoted brackets are partners if the text between them is balanced. A scan that ends with an
unmatched bracket points at a bracket that has no partner in the text it scanned: at a closing one
with a balanced text before it, or at an opening one that nothing behind it closes
(`Lexeme.unmatched_of_scan`).

The text that is scanned need not be the whole input. If brackets around it were taken off first,
the bracket that is pointed at is the partner of the first one taken off; otherwise it has no
partner in the input either (`Expr.unmatched_of_parse`). -/

namespace Lineshape
set_option autoImplicit false

/-! ## Quotes -/

/-- A text with an even number of quotes leaves a quote as open as it was. -/
theorem Nesting.even_count_iff {depth depth' : Nat} {quoted quoted' : Bool} {s : Text}
    (h : run depth quoted s = some (depth', quoted')) :
    Even (s.count '"') ↔ quoted' = quoted := by
  induction s generalizing depth quoted with
  | nil =>
    cases h
    simp
  | cons c s ih =>
    obtain ⟨d, q, hstep, hrun⟩ := run_cons h
    have hquoted := quoted_of_step hstep
    rw [List.count_cons]
    by_cases hc : c = '"'
    · subst hc
      rw [decide_eq_true rfl] at hquoted
      rw [if_pos (beq_self_eq_true _), Nat.even_add_one, ih hrun, ← hquoted]
      cases quoted <;> cases quoted' <;> decide
    · rw [decide_eq_false hc] at hquoted
      rw [if_neg (by simpa using hc), Nat.add_zero, ih hrun, ← hquoted]
      simp

/-- Within brackets a character does to the inner ones what it does to all. -/
theorem Nesting.step_pred {depth depth' : Nat} {quoted quoted' : Bool} {c : Char}
    (h : step (depth + 1) quoted c = some (depth' + 1, quoted')) :
    step depth quoted c = some (depth', quoted') := by
  obtain ⟨rfl, hd, rfl⟩ | ⟨rfl, rfl, hd, rfl⟩ | ⟨rfl, rfl, hd, rfl⟩ | ⟨rfl, rfl, hd, rfl⟩ |
    ⟨rfl, hq, ho, hc, hd, rfl⟩ := step_cases h
  · cases hd
    rfl
  · cases hd
    rfl
  · cases hd
    rfl
  · cases hd
    rfl
  · cases hd
    exact step_plain ⟨hq, ho, hc⟩ depth

/-! ## Partners -/

namespace Text

/-- An unquoted bracket stands behind `i` characters. -/
def IsBracketAt (s : Text) (i : Nat) : Prop :=
  ∃ front c back, s = front ++ c :: back ∧ front.length = i ∧ Even (front.count '"') ∧
    (c = '(' ∨ c = ')')

/-- The unquoted brackets behind `i` and behind `j` characters belong together. -/
def Partners (s : Text) (i j : Nat) : Prop :=
  ∃ front inside back, s = front ++ '(' :: (inside ++ ')' :: back) ∧ front.length = i ∧
    i + 1 + inside.length = j ∧ Even (front.count '"') ∧ Balanced inside

/-- The bracket behind `i` characters has a partner. -/
def HasPartner (s : Text) (i : Nat) : Prop := ∃ j, s.Partners i j ∨ s.Partners j i

variable {s front back : Text}

/-- Partners are brackets. -/
theorem Partners.isBracketAt {i j : Nat} (h : s.Partners i j) :
    s.IsBracketAt i ∧ s.IsBracketAt j := by
  obtain ⟨front, inside, back, rfl, hi, hj, heven, hinside⟩ := h
  have heven' : Even (inside.count '"') := (Nesting.even_count_iff hinside).2 rfl
  refine ⟨⟨front, '(', _, rfl, hi, heven, .inl rfl⟩,
    ⟨front ++ '(' :: inside, ')', back, by simp, ?_, ?_, .inr rfl⟩⟩
  · rw [List.length_append, List.length_cons]
    omega
  · rw [List.count_append, List.count_cons_of_ne (by decide)]
    exact heven.add heven'

/-- Behind a balanced text a bracket closes nothing. -/
theorem not_hasPartner_of_closing (hfront : Balanced front) (back : Text) :
    ¬ HasPartner (front ++ ')' :: back) front.length := by
  rintro ⟨j, ⟨front', inside, back', hs, hi, -⟩ | ⟨front', inside, back', hs, hj, hi, heven, hin⟩⟩
  · obtain ⟨-, hback⟩ := List.append_inj hs hi.symm
    cases hback
  · have hassoc : front' ++ '(' :: (inside ++ ')' :: back') =
        (front' ++ '(' :: inside) ++ ')' :: back' := by simp
    have hlength : front.length = (front' ++ '(' :: inside).length := by
      rw [List.length_append, List.length_cons]
      omega
    obtain ⟨rfl, -⟩ := List.append_inj (hs.trans hassoc) hlength
    -- the bracket before the inside is still open behind it
    unfold Balanced at hfront
    rw [Nesting.run_append, Option.bind_eq_some_iff] at hfront
    obtain ⟨⟨d, q⟩, hrun, hrest⟩ := hfront
    obtain rfl : q = false := (Nesting.even_count_iff hrun).1 heven
    change Nesting.run (d + 1) false inside = _ at hrest
    rw [Nesting.run_of_balanced hin] at hrest
    cases hrest

/-- A bracket is not closed if what stands behind it closes nothing that it does not open. -/
theorem not_hasPartner_of_opening {p : Nat × Bool} (hback : Nesting.run 0 false back = some p)
    (front : Text) : ¬ HasPartner (front ++ '(' :: back) front.length := by
  rintro ⟨j, ⟨front', inside, back', hs, hi, -, -, hin⟩ | ⟨front', inside, back', hs, hj, hi, -⟩⟩
  · obtain ⟨-, hrest⟩ := List.append_inj hs hi.symm
    cases hrest
    rw [Nesting.run_append, Nesting.run_of_balanced hin] at hback
    cases hback
  · have hassoc : front' ++ '(' :: (inside ++ ')' :: back') =
        (front' ++ '(' :: inside) ++ ')' :: back' := by simp
    have hlength : front.length = (front' ++ '(' :: inside).length := by
      rw [List.length_append, List.length_cons]
      omega
    obtain ⟨-, hrest⟩ := List.append_inj (hs.trans hassoc) hlength
    cases hrest

/-- The blanks in front of a trimmed text are those with which the text begins. -/
theorem exists_trim_append (s : Text) :
    ∃ behind, s = s.takeWhile isBlank ++ (trim s ++ behind) ∧
      (∀ c ∈ s.takeWhile isBlank, isBlank c = true) ∧
      ∀ c ∈ behind, isBlank c = true := by
  obtain ⟨behind, hbehind, hblank⟩ := exists_trimEnd_append (trimStart s)
  refine ⟨behind, ?_, fun c hc => List.mem_takeWhile_imp hc, hblank⟩
  rw [trim, ← hbehind, trimStart, List.takeWhile_append_dropWhile]

end Text

/-! ## What a scan points at -/

namespace Lexeme

variable {t : OperatorTable} {a b : Cursor} {c : Char} {s : Text} {p : Nat}

/-- The place `p` is that of an unmatched bracket when `s` is still to be scanned: of a closing one
in `s`, of an opening one in `s`, or of the outermost one that is open already. -/
inductive Blames (a : Cursor) (s : Text) (p : Nat) : Prop
  | closing (front : Text) {back : Text} : s = front ++ ')' :: back →
    Nesting.run a.opened.length a.quoted.isSome front = some (0, false) →
    p = a.position + front.length → Blames a s p
  | opening (front : Text) {back : Text} {r : Nat × Bool} : s = front ++ '(' :: back →
    Nesting.run a.opened.length a.quoted.isSome front = some (0, false) →
    p = a.position + front.length → Nesting.run 0 false back = some r → Blames a s p
  | opened {depth : Nat} {r : Nat × Bool} : a.opened.length = depth + 1 →
    a.opened.getLast? = some p → Nesting.run depth a.quoted.isSome s = some r → Blames a s p

/-- How the open brackets change over one character. -/
def Follows (a b : Cursor) : Prop :=
  b.opened = a.opened ∨ b.opened = a.position :: a.opened ∨ ∃ q, a.opened = q :: b.opened

theorem Blames.cons (hposition : b.position = a.position + 1)
    (hstep : Nesting.step a.opened.length a.quoted.isSome c =
      some (b.opened.length, b.quoted.isSome))
    (hfollows : Follows a b) (h : Blames b s p) : Blames a (c :: s) p := by
  have hrun : ∀ {front : Text} {r}, Nesting.run b.opened.length b.quoted.isSome front = some r →
      Nesting.run a.opened.length a.quoted.isSome (c :: front) = some r := by
    intro front r hfront
    rw [Nesting.run, hstep]
    exact hfront
  cases h with
  | @closing front back hs hfront hp =>
    refine .closing (c :: front) (by rw [hs]; rfl) (hrun hfront) ?_
    rw [hp, hposition, List.length_cons]
    omega
  | @opening front back r hs hfront hp hback =>
    refine .opening (c :: front) (by rw [hs]; rfl) (hrun hfront) ?_ hback
    rw [hp, hposition, List.length_cons]
    omega
  | @opened depth r hlength hlast hs =>
    cases ha : a.opened with
    | nil =>
      obtain ⟨hopened, rfl⟩ : b.opened = [a.position] ∧ depth = 0 := by
        rcases hfollows with hb | hb | ⟨q, hb⟩
        · rw [hb, ha] at hlength
          cases hlength
        · rw [hb, ha] at hlength
          rw [hb, ha]
          exact ⟨rfl, (Nat.succ.inj hlength).symm⟩
        · rw [ha] at hb
          cases hb
      rw [ha, hopened] at hstep
      rw [hopened] at hlast
      obtain ⟨-, hd, -⟩ | ⟨-, -, hd, -⟩ | ⟨hq, rfl, -, hq'⟩ | ⟨-, -, hd, -⟩ | ⟨-, -, -, -, hd, -⟩ :=
        Nesting.step_cases hstep
      · cases hd
      · cases hd
      · rw [hq'] at hs
        refine .opening [] rfl ?_ ?_ hs
        · rw [ha, hq]
          rfl
        · exact (Option.some.inj hlast).symm
      · cases hd
      · cases hd
    | cons q outer =>
      have hb : b.opened ≠ [] := by
        intro hnil
        rw [hnil] at hlength
        cases hlength
      have hlast' : a.opened.getLast? = some p := by
        rw [← hlast]
        rcases hfollows with hb' | hb' | ⟨q, hb'⟩
        · rw [hb']
        · rw [hb', ha, List.getLast?_cons_cons]
        · obtain ⟨x, more, hmore⟩ := List.exists_cons_of_ne_nil hb
          rw [hb', hmore, List.getLast?_cons_cons]
      have hlength' : a.opened.length = outer.length + 1 := by rw [ha, List.length_cons]
      rw [hlength', hlength] at hstep
      have hrest : Nesting.run outer.length a.quoted.isSome (c :: s) = some r := by
        rw [Nesting.run, Nesting.step_pred hstep]
        exact hs
      exact .opened hlength' hlast' hrest

theorem follows_of_note (h : a.note c = some b) : Follows a b ∧ b.position = a.position := by
  rw [Cursor.note] at h
  split at h
  · cases h
    exact ⟨.inl rfl, rfl⟩
  · split at h
    · cases h
      exact ⟨.inr (.inl rfl), rfl⟩
    · split at h
      · split at h
        · cases h
        · rename_i q outer hopened
          cases h
          exact ⟨.inr (.inr ⟨q, hopened⟩), rfl⟩
      · cases h
        exact ⟨.inl rfl, rfl⟩

/-- An operator leaves brackets and quotes alone. -/
theorem Blames.symbol (ht : t.Unbracketed) (hc : t.isSymbol c = true) (ha : a.opened = [])
    (hb : b.opened = []) (hq : b.quoted = a.quoted) (hnone : a.quoted.isSome = false)
    (hposition : b.position = a.position + 1) (h : Blames b s p) : Blames a (c :: s) p := by
  refine h.cons hposition ?_ (.inl (hb.trans ha.symm))
  rw [hq, ha, hb, hnone]
  exact Nesting.step_plain (ht.ne hc) 0

theorem blames_of_scan (ht : t.Unbracketed)
    (h : scan t a s = .error (.unmatchedBrackets, p)) : Blames a s p := by
  fun_induction scan t a s with
  | case1 a =>
    have hfinish := Result.map_eq_error.1 h
    rw [Cursor.finish.eq_def] at hfinish
    split at hfinish
    · cases hfinish
    · rename_i q hq hlast
      cases hfinish
      have hne : a.opened ≠ [] := by
        intro hnil
        rw [hnil] at hlast
        cases hlast
      obtain ⟨q, outer, hcons⟩ := List.exists_cons_of_ne_nil hne
      exact .opened (by rw [hcons, List.length_cons]) hlast rfl
    · cases hfinish
  | case2 a c rest hq ih =>
    refine (ih (Result.map_eq_error.1 h)).cons ?_ (step_stepQuoted hq c) ?_
    · by_cases hc : c = '"' <;> simp [Cursor.stepQuoted, Cursor.skip, hc]
    · by_cases hc : c = '"' <;> simp [Follows, Cursor.stepQuoted, Cursor.skip, hc]
  | case3 a c rest hq hnote =>
    cases h
    obtain ⟨hopened, rfl⟩ := closed_of_note hnote
    have hq' : a.quoted.isSome = false := by simpa using hq
    refine .closing [] rfl ?_ rfl
    rw [hopened, hq']
    rfl
  | case4 | case5 | case6 | case8 => cases h
  | case7 a c hq cursor hnote htop d rest hlong ih =>
    obtain ⟨hopened, hopened', hquoted⟩ := closed_of_symbol ht hnote htop
    have hsymbol : t.isSymbol c = true := (Bool.and_eq_true_iff.1 htop).2
    have hnone : a.quoted.isSome = false := by simpa using hq
    exact (ih (Result.map_eq_error.1 h)).symbol (b := cursor.skip [c] false) ht hsymbol hopened
      hopened' hquoted hnone (congrArg (· + 1) (follows_of_note hnote).2)
  | case9 a c hq cursor hnote htop d rest hlong hne ih =>
    obtain ⟨hopened, hopened', hquoted⟩ := closed_of_symbol ht hnote htop
    have hsymbols : ∀ x ∈ [c, d], t.isSymbol x = true := by
      have hop := (OperatorTable.longest?_spec hlong).2 rfl
      intro x hx
      split at hop
      · exact OperatorTable.isSymbol_of_mem (.inl hop) hx
      · exact OperatorTable.isSymbol_of_mem (.inr hop) hx
    have hnone : a.quoted.isSome = false := by simpa using hq
    have hsecond : Blames (cursor.skip [c] false) (d :: rest) p :=
      (ih (Result.map_eq_error.1 h)).symbol (b := cursor.skip [c, d] false) ht
        (hsymbols d (by simp)) hopened' hopened' rfl ((congrArg Option.isSome hquoted).trans hnone)
        rfl
    exact hsecond.symbol (b := cursor.skip [c] false) ht (hsymbols c (by simp)) hopened hopened'
      hquoted hnone (congrArg (· + 1) (follows_of_note hnote).2)
  | case10 a c rest hq cursor hnote htop ih =>
    obtain ⟨hstep, -⟩ := step_of_note hq hnote
    obtain ⟨hfollows, hposition⟩ := follows_of_note hnote
    have hq' : a.quoted.isSome = false := by simpa using hq
    exact (ih (Result.map_eq_error.1 h)).cons (b := cursor.advance c) (congrArg (· + 1) hposition)
      (hq'.symm ▸ hstep) hfollows

/-- A scan that ends with an unmatched bracket points at a closing bracket behind a balanced text,
or at an opening one behind a balanced text that is not closed by what stands behind it. -/
theorem unmatched_of_scan (ht : t.Unbracketed)
    (h : scan t {} s = .error (.unmatchedBrackets, p)) :
    ∃ front c back, s = front ++ c :: back ∧ front.length = p ∧ Balanced front ∧
      (c = ')' ∨ c = '(' ∧ ∃ r, Nesting.run 0 false back = some r) := by
  cases blames_of_scan ht h with
  | @closing front back hs hfront hp =>
    exact ⟨front, ')', back, hs, (hp.trans (Nat.zero_add _)).symm, hfront, .inl rfl⟩
  | @opening front back r hs hfront hp hback =>
    exact ⟨front, '(', back, hs, (hp.trans (Nat.zero_add _)).symm, hfront, .inr ⟨rfl, r, hback⟩⟩
  | opened hlength => cases hlength

end Lexeme

/-! ## What an error points at -/

namespace Expr

variable {t : OperatorTable} {depth : Nat} {s front back : Text} {c : Char} {e : ParseError}

/-- The number of characters in front of the text of a level: blanks, and an opening bracket and the
blanks behind it if brackets were taken off. -/
def levelStart (s : Text) : Nat :=
  (s.takeWhile Text.isBlank).length +
    if levelText s = Text.trim s then 0
    else 1 + ((Text.trim s).tail.takeWhile Text.isBlank).length

/-- A fault of brackets or quotes is one of the scan. -/
theorem scan_of_ofNesting (ht : t.Unbracketed) (h : parse t depth s = .error e)
    (hfault : e.fault.ofNesting = true) :
    e.text = levelText s ∧ Lexeme.scan t {} (levelText s) = .error (e.fault, e.position) := by
  cases hscan : Lexeme.ofText t (levelText s) with
  | ok lexemes =>
    have hcloses : Closes t s := closes_of_scan ht fun e' he' => by
      rw [hscan] at he'
      cases he'
    rw [ofNesting_of_parseLevel ht hcloses h] at hfault
    cases hfault
  | error e' =>
    rw [parse, parseLevel] at h
    change Lexeme.ofText t (levelText s) >>= _ = _ at h
    rw [hscan] at h
    cases h
    rw [Lexeme.ofText] at hscan
    split at hscan
    · cases hscan
    · rename_i hscan'
      cases hscan
      exact ⟨rfl, hscan'⟩

/-- Where the text of a level stands if nothing but blanks was taken off. -/
theorem exists_split_of_whole (h : levelText s = Text.trim s) :
    ∃ blanks back, s = blanks ++ (levelText s ++ back) ∧ blanks.length = levelStart s ∧
      (∀ c ∈ blanks, Text.isBlank c = true) ∧ ∀ c ∈ back, Text.isBlank c = true := by
  obtain ⟨back, hs, hblanks, hback⟩ := Text.exists_trim_append s
  refine ⟨_, back, ?_, ?_, hblanks, hback⟩
  · rw [h]
    exact hs
  · rw [levelStart, if_pos h, Nat.add_zero]

/-- Where the text of a level stands if brackets were taken off: blanks, a bracket and blanks before
it, and no opening bracket in it. -/
theorem exists_split_of_stripped (h : levelText s ≠ Text.trim s) :
    ∃ blanks blanks' back, s = blanks ++ '(' :: (blanks' ++ (levelText s ++ back)) ∧
      blanks.length = (s.takeWhile Text.isBlank).length ∧
      blanks.length + 1 + blanks'.length = levelStart s ∧
      (∀ c ∈ blanks, Text.isBlank c = true) ∧ (∀ c ∈ blanks', Text.isBlank c = true) ∧
      '(' ∉ levelText s := by
  obtain ⟨inner, htrim, hinner, hlevel⟩ := (stripBrackets_cases (Text.trim s)).resolve_left h
  change levelText s = Text.trim inner at hlevel
  obtain ⟨behind, hs, hblanks, -⟩ := Text.exists_trim_append s
  obtain ⟨behind', hs', hblanks', -⟩ := Text.exists_trim_append inner
  have htail : (inner ++ [')']).takeWhile Text.isBlank = inner.takeWhile Text.isBlank := by
    have hclose : [')'].takeWhile Text.isBlank = [] := by decide
    rw [List.takeWhile_append, hclose, List.append_nil]
    split
    · rename_i hlength
      exact ((List.takeWhile_prefix _).eq_of_length hlength).symm
    · rfl
  have hstart : levelStart s = (s.takeWhile Text.isBlank).length +
      (1 + (inner.takeWhile Text.isBlank).length) := by
    rw [levelStart, if_neg h, htrim, List.cons_append, List.tail_cons, htail]
  refine ⟨_, _, behind' ++ ')' :: behind, ?_, rfl, ?_, hblanks, hblanks', ?_⟩
  · calc s = s.takeWhile Text.isBlank ++ ('(' :: inner ++ [')'] ++ behind) := by
          rw [← htrim]
          exact hs
      _ = s.takeWhile Text.isBlank ++
            ('(' :: (inner.takeWhile Text.isBlank ++ (levelText s ++ behind')) ++ [')'] ++
              behind) := by
          rw [hlevel, ← hs']
      _ = _ := by simp
  · rw [hstart]
    omega
  · rw [hlevel]
    exact fun hm => hinner ((isInfix_trim inner).subset hm)

/-- Where the text of a level stands in the input. -/
theorem exists_levelText_append (s : Text) :
    ∃ front back, s = front ++ (levelText s ++ back) ∧ front.length = levelStart s := by
  by_cases hwhole : levelText s = Text.trim s
  · obtain ⟨blanks, back, hs, hstart, -⟩ := exists_split_of_whole hwhole
    exact ⟨blanks, back, hs, hstart⟩
  · obtain ⟨blanks, blanks', back, hs, -, hstart, -⟩ := exists_split_of_stripped hwhole
    refine ⟨blanks ++ '(' :: blanks', back, by simpa using hs, ?_⟩
    rw [← hstart, List.length_append, List.length_cons]
    omega

/-- If only blanks were taken off, a bracket without a partner in the text of the level has none in
the input. -/
theorem unmatched_of_whole (hwhole : levelText s = Text.trim s)
    (hlevel : levelText s = front ++ c :: back) (hfront : Balanced front)
    (hc : c = ')' ∨ c = '(' ∧ ∃ r, Nesting.run 0 false back = some r) :
    s.IsBracketAt (levelStart s + front.length) ∧
      ¬ s.HasPartner (levelStart s + front.length) := by
  obtain ⟨blanks, behind, hs, hstart, hblanks, hbehind⟩ := exists_split_of_whole hwhole
  have hbefore : Balanced (blanks ++ front) :=
    Balanced.append (Text.run_blanks hblanks 0 false) hfront
  have hplace : (blanks ++ front).length = levelStart s + front.length := by
    rw [List.length_append, hstart]
  have hsplit : s = (blanks ++ front) ++ c :: (back ++ behind) := by
    rw [hlevel] at hs
    simpa using hs
  refine ⟨⟨_, c, _, hsplit, hplace, (Nesting.even_count_iff hbefore).2 rfl,
    hc.symm.imp_left And.left⟩, ?_⟩
  rw [← hplace, hsplit]
  rcases hc with rfl | ⟨rfl, r, hback⟩
  · exact Text.not_hasPartner_of_closing hbefore _
  · refine Text.not_hasPartner_of_opening (p := r) ?_ _
    rw [Nesting.run_append, hback]
    exact Text.run_blanks hbehind _ _

/-- If brackets were taken off, a bracket without a partner in the text of the level is the partner
of the first one taken off. -/
theorem partners_of_stripped (hstripped : levelText s ≠ Text.trim s)
    (hlevel : levelText s = front ++ c :: back) (hfront : Balanced front)
    (hc : c = ')' ∨ c = '(' ∧ ∃ r, Nesting.run 0 false back = some r) :
    s.Partners (s.takeWhile Text.isBlank).length (levelStart s + front.length) := by
  obtain ⟨blanks, blanks', behind, hs, hlength, hstart, hblanks, hblanks', hno⟩ :=
    exists_split_of_stripped hstripped
  -- brackets are only taken off if no other opening one stands between them
  obtain rfl : c = ')' := by
    refine hc.resolve_right fun hopen => hno ?_
    rw [hlevel, hopen.1]
    simp
  have hinside : Balanced (blanks' ++ front) :=
    Balanced.append (Text.run_blanks hblanks' 0 false) hfront
  have hsplit : s = blanks ++ '(' :: ((blanks' ++ front) ++ ')' :: (back ++ behind)) := by
    rw [hlevel] at hs
    simpa using hs
  refine ⟨blanks, _, _, hsplit, hlength, ?_,
    (Nesting.even_count_iff (Text.run_blanks hblanks 0 false)).2 rfl, hinside⟩
  rw [← hlength, List.length_append, ← hstart, Nat.add_assoc _ blanks'.length]

/-- An unmatched bracket that is reported stands where the error points, in the part of the input
that was scanned. If this part is the whole input but for blanks, the bracket has no partner. If
brackets were taken off the input first, the reported bracket is a closing one, and its partner is
the opening bracket that was taken off. -/
theorem unmatched_of_parse (ht : t.Unbracketed) (h : parse t depth s = .error e)
    (hfault : e.fault = .unmatchedBrackets) :
    e.text = levelText s ∧
      (∃ front back, s = front ++ (levelText s ++ back) ∧ front.length = levelStart s) ∧
      s.IsBracketAt (levelStart s + e.position) ∧
      (levelText s = Text.trim s → ¬ s.HasPartner (levelStart s + e.position)) ∧
      (levelText s ≠ Text.trim s →
        s.Partners (s.takeWhile Text.isBlank).length (levelStart s + e.position)) := by
  obtain ⟨htext, hscan⟩ := scan_of_ofNesting ht h (by rw [hfault]; rfl)
  rw [hfault] at hscan
  obtain ⟨front, c, back, hlevel, hplace, hfront, hc⟩ := Lexeme.unmatched_of_scan ht hscan
  rw [← hplace]
  refine ⟨htext, exists_levelText_append s, ?_⟩
  by_cases hwhole : levelText s = Text.trim s
  · obtain ⟨hbracket, hpartner⟩ := unmatched_of_whole hwhole hlevel hfront hc
    exact ⟨hbracket, fun _ => hpartner, fun hne => absurd hwhole hne⟩
  · have hpartners := partners_of_stripped hwhole hlevel hfront hc
    exact ⟨hpartners.isBracketAt.2, fun heq => absurd heq hwhole, fun _ => hpartners⟩

/-- An opening bracket behind blanks is never closed. -/
theorem unmatched_of_parse_open : OperatorTable.standard.Unbracketed ∧
    ofText " f(a)+(b".toList = .error ⟨.unmatchedBrackets, "f(a)+(b".toList, 5⟩ ∧
      levelStart " f(a)+(b".toList = 1 ∧ levelText " f(a)+(b".toList = Text.trim " f(a)+(b".toList ∧
      Text.IsBracketAt " f(a)+(b".toList 6 ∧ ¬ Text.HasPartner " f(a)+(b".toList 6 := by
  have ht : OperatorTable.standard.Unbracketed := by decide
  have herror : ofText " f(a)+(b".toList = .error ⟨.unmatchedBrackets, "f(a)+(b".toList, 5⟩ := by
    decide +kernel
  have hwhole : levelText " f(a)+(b".toList = Text.trim " f(a)+(b".toList := by decide +kernel
  have hstart : levelStart " f(a)+(b".toList = 1 := by decide +kernel
  obtain ⟨-, -, hbracket, hpartner, -⟩ := unmatched_of_parse ht herror rfl
  rw [hstart] at hbracket hpartner
  exact ⟨ht, herror, hstart, hwhole, hbracket, hpartner hwhole⟩

/-- Brackets that are no pair are taken off a text, and then its second bracket is reported: the
partner of the first one, while the last bracket has no partner. -/
theorem exists_unmatched_with_partner :
    ofText "(a)+b)".toList = .error ⟨.unmatchedBrackets, "a)+b".toList, 1⟩ ∧
      levelStart "(a)+b)".toList = 1 ∧ Text.Partners "(a)+b)".toList 0 2 ∧
      Text.IsBracketAt "(a)+b)".toList 5 ∧ ¬ Text.HasPartner "(a)+b)".toList 5 := by
  refine ⟨by decide +kernel, by decide +kernel, ?_, ?_, ?_⟩
  · exact ⟨[], ['a'], "+b)".toList, rfl, rfl, rfl, by decide, by decide⟩
  · exact ⟨"(a)+b".toList, ')', [], rfl, rfl, by decide, .inr rfl⟩
  · have hfront : Balanced "(a)+b".toList := by decide
    exact Text.not_hasPartner_of_closing hfront []

end Expr
end Lineshape
