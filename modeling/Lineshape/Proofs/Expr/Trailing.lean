import Lineshape.Proofs.Expr.Limit
import Lineshape.Proofs.Expr.Outer
import Lineshape.Proofs.Expr.Partners

/-! # A separator behind a text

A separator behind a text that does not end with one is left out when the text is scanned. What is
read depends on the brackets around the text, since the separator keeps them from being taken off.
Where none would have been taken off the tree stays the same (`Expr.parseLevel_separator`). Where
they would, they are a bracket group now and take a level of their own
(`Expr.parseLevel_separator_stripped`). Brackets around nothing become a leaf
(`Expr.parseLevel_separator_hollow`). -/

namespace Lineshape
set_option autoImplicit false

/-! ## Blanks behind a text -/

/-- A text with blanks behind it. -/
def Text.Padded (s padded : Text) : Prop :=
  ∃ blanks, padded = s ++ blanks ∧ ∀ c ∈ blanks, Text.isBlank c = true

namespace Text.Padded

variable {s padded : Text}

theorem refl (s : Text) : s.Padded s := ⟨[], (List.append_nil s).symm, nofun⟩

theorem append (h : s.Padded padded) (front : Text) : Padded (front ++ s) (front ++ padded) := by
  obtain ⟨blanks, rfl, hblanks⟩ := h
  exact ⟨blanks, (List.append_assoc _ _ _).symm, hblanks⟩

theorem trim_eq (h : s.Padded padded) : trim padded = trim s := by
  obtain ⟨blanks, rfl, hblanks⟩ := h
  exact trim_append_blanks hblanks s

end Text.Padded

namespace Lexeme

variable {t : OperatorTable} {a b : Cursor} {s : Text} {lexemes : List Lexeme}

/-- A scan that leaves nothing out can go on behind the text. -/
theorem exists_reads_of_scan (h : scan t a s = .ok lexemes) (hs : text lexemes = s) :
    ∃ b, Reads t a s lexemes b ∧ b.opened = [] ∧ b.quoted = none := by
  rw [scan_eq_ok] at h
  induction h with
  | @done a ho hq => exact ⟨a, .nil a, ho, hq⟩
  | separator => cases hs
  | @quoted a c rest back hq _ ih =>
    obtain ⟨b, hread, hb⟩ := ih (List.cons.inj hs).2
    exact ⟨b, (reads_quoted_char hq c).cons hread, hb⟩
  | @one a cursor c d rest back hq hnote htop hlong _ ih =>
    rw [text_append, text_written] at hs
    obtain ⟨b, hread, hb⟩ := ih (List.cons.inj hs).2
    refine ⟨b, fun behind => ?_, hb⟩
    have hrest := hread behind
    rw [List.cons_append] at hrest
    rw [List.cons_append, List.cons_append, scan_one hq hnote htop hlong, hrest, map_append_map]
  | @two a cursor c d rest back hq hnote htop hlong hne _ ih =>
    rw [text_append, text_written] at hs
    obtain ⟨b, hread, hb⟩ := ih (List.cons.inj (List.cons.inj hs).2).2
    refine ⟨b, fun behind => ?_, hb⟩
    have hne' : ¬ (cursor.afterTerm && (rest ++ behind).isEmpty) = true := by
      intro hboth
      rw [Bool.and_eq_true, List.isEmpty_iff, List.append_eq_nil_iff] at hboth
      exact hne (by rw [hboth.1, hboth.2.1]; rfl)
    rw [List.cons_append, List.cons_append, scan_two hq hnote htop hlong, if_neg hne', hread behind,
      map_append_map]
  | @letter a cursor c rest back hq hnote htop _ ih =>
    obtain ⟨b, hread, hb⟩ := ih (List.cons.inj hs).2
    have hnone : a.quoted = none := by simpa using hq
    exact ⟨b, (reads_letter hnone hnote (by simpa using htop)).cons hread, hb⟩

/-- Outside brackets and quotes blanks are read as letters. -/
theorem exists_reads_blanks {blanks : Text} (h : ∀ c ∈ blanks, Text.isBlank c = true)
    (ho : a.opened = []) (hq : a.quoted = none) :
    ∃ b, Reads .standard a blanks (blanks.map letter) b ∧ b.opened = [] ∧ b.quoted = none := by
  induction blanks generalizing a with
  | nil => exact ⟨a, .nil a, ho, hq⟩
  | cons c blanks ih =>
    have hc := h c List.mem_cons_self
    obtain ⟨hquote, hopen, hclose⟩ := Text.ne_of_isBlank hc
    have hone := reads_letter (t := .standard) hq (a.note_plain c hquote hopen hclose)
      (by rw [OperatorTable.isSymbol_of_isBlank hc, Bool.and_false])
    obtain ⟨b, hread, hb⟩ := ih (a := (a.fed c).advance c)
      (fun d hd => h d (List.mem_cons_of_mem c hd)) ho hq
    exact ⟨b, hone.cons hread, hb⟩

/-- Behind a text blanks are letters of its last term, and a separator is left out. -/
theorem Reads.scan_separator {blanks : Text} {c : Char} (h : Reads .standard a s lexemes b)
    (ho : b.opened = []) (hq : b.quoted = none) (hblanks : ∀ c ∈ blanks, Text.isBlank c = true)
    (hc : isSeparator c = true) :
    scan .standard a (s ++ (blanks ++ [c])) = .ok (lexemes ++ blanks.map letter) := by
  obtain ⟨b', hread, ho', hq'⟩ := exists_reads_blanks hblanks ho hq
  rw [← List.append_assoc, h.trans hread, Lexeme.scan_separator ho' hq' hc]
  exact congrArg Except.ok (List.append_nil _)

/-! ## Splitting -/

theorem loosest?_append_letters (lexemes : List Lexeme) (s : Text) :
    loosest? (lexemes ++ s.map letter) = loosest? lexemes := by
  induction lexemes with
  | nil => exact Phrase.loosest?_letters s
  | cons l lexemes ih => cases l <;> simp only [List.cons_append, loosest?, ih]

theorem split_letters_nil (r : Nat) (s : Text) : split r (s.map letter) = (s, []) := by
  rw [split_of_ne, text_map_letter]
  intro op k hm
  simp at hm

/-- Blanks at the end of a row only pad its terms. -/
theorem split_append_blanks {blanks : Text} (h : ∀ c ∈ blanks, Text.isBlank c = true) (r : Nat)
    (lexemes : List Lexeme) :
    (split r lexemes).1.Padded (split r (lexemes ++ blanks.map letter)).1 ∧
      List.Forall₂ (fun p p' => p'.1 = p.1 ∧ p.2.Padded p'.2) (split r lexemes).2
        (split r (lexemes ++ blanks.map letter)).2 := by
  induction lexemes with
  | nil =>
    rw [List.nil_append, split_letters_nil]
    exact ⟨⟨blanks, rfl, h⟩, .nil⟩
  | cons l lexemes ih =>
    obtain ⟨hfirst, hothers⟩ := ih
    cases l with
    | letter c => exact ⟨hfirst.append [c], hothers⟩
    | operator op k =>
      simp only [List.cons_append, split]
      split
      · exact ⟨.refl [], .cons ⟨rfl, hfirst⟩ hothers⟩
      · exact ⟨hfirst.append op, hothers⟩

end Lexeme

namespace Expr

variable {n : Nat} {op s : Text} {e : Expr} {c : Char}

/-! ## Where the brackets stay -/

theorem parseLevel_padded {t : OperatorTable} {padded : Text} (hs : s.Padded padded)
    (h : parseLevel t n op s = .ok e) : parseLevel t n op padded = .ok e := by
  cases n with
  | zero => cases h
  | succ n => exact (parseLevel_congr (by rw [hs.trim_eq])).trans h

/-- Blanks behind the lexemes of a level change nothing in its tree. -/
theorem Level.append_blanks {t : OperatorTable} {lexemes : List Lexeme} {blanks : Text}
    (h : Level t n op lexemes e) (hblanks : ∀ c ∈ blanks, Text.isBlank c = true) :
    Level t n op (lexemes ++ blanks.map .letter) e := by
  have htrim : Text.trim (Lexeme.text (lexemes ++ blanks.map .letter)) =
      Text.trim (Lexeme.text lexemes) := by
    rw [Lexeme.text_append, Lexeme.text_map_letter, Text.trim_append_blanks hblanks]
  have hloosest := Lexeme.loosest?_append_letters lexemes blanks
  cases h with
  | leaf hr hterm => exact .leaf (hloosest.trans hr) (by rw [htrim, hterm])
  | prefixed hr hterm hinner => exact .prefixed (hloosest.trans hr) (by rw [htrim, hterm]) hinner
  | call hr hterm hinner => exact .call (hloosest.trans hr) (by rw [htrim, hterm]) hinner
  | @chain r label first more hr hlabel hfirst hmore =>
    obtain ⟨hpad, hpads⟩ := Lexeme.split_append_blanks hblanks r lexemes
    refine .chain (hloosest.trans hr) hlabel (parseLevel_padded hpad hfirst) ?_
    -- the other terms in step, each padded or not
    clear hr hfirst hlabel hloosest htrim
    generalize (Lexeme.split r lexemes).2 = others at hpads hmore
    generalize (Lexeme.split r (lexemes ++ blanks.map .letter)).2 = others' at hpads ⊢
    induction hpads generalizing more with
    | nil => exact hmore
    | cons hp _ ih =>
      cases hmore with
      | cons hterm hmore =>
        refine .cons ?_ (ih hmore)
        rw [hp.1]
        exact parseLevel_padded hp.2 hterm

/-- A separator behind a text keeps brackets around it from being taken off. -/
theorem exists_levelText_separator (s : Text) (hc : Lexeme.isSeparator c = true) :
    ∃ blanks, levelText (s ++ [c]) = Text.trim s ++ (blanks ++ [c]) ∧
      ∀ x ∈ blanks, Text.isBlank x = true := by
  have hblank : Text.isBlank c = false ∧ c ≠ ')' := by
    rcases Lexeme.isSeparator_iff.1 hc with rfl | rfl <;> decide
  have hsingle : Text.Trimmed [c] := by
    refine ⟨?_, ?_⟩ <;> exact fun x hx => Option.mem_some.1 hx ▸ hblank.1
  obtain ⟨blanks, htrim, hblanks⟩ : ∃ blanks,
      Text.trim (s ++ [c]) = Text.trim s ++ (blanks ++ [c]) ∧
        ∀ x ∈ blanks, Text.isBlank x = true := by
    obtain ⟨front, blanks, hsplit, hfront, hblanks⟩ := Text.exists_trim s
    have hstart : Text.trim (s ++ [c]) = Text.trim (Text.trim s ++ (blanks ++ [c])) := by
      rw [congrArg (· ++ [c]) hsplit, List.append_assoc, List.append_assoc,
        Text.trim_blanks_append hfront]
    by_cases hs : Text.trim s = []
    · refine ⟨[], ?_, nofun⟩
      rw [hstart, hs, List.nil_append, Text.trim_blanks_append hblanks, hsingle.trim_eq]
      rfl
    · refine ⟨blanks, ?_, hblanks⟩
      rw [hstart, ((Text.trimmed_trim s).around hsingle hs (List.cons_ne_nil _ _) blanks).trim_eq]
  refine ⟨blanks, ?_, hblanks⟩
  rw [levelText, htrim]
  refine (stripBrackets_cases _).resolve_right ?_
  rintro ⟨inner, heq, -⟩
  have hlast := congrArg List.getLast? heq
  rw [← List.append_assoc, List.getLast?_concat, List.getLast?_concat] at hlast
  exact hblank.2 (Option.some.inj hlast)

/-- A text around which no brackets are taken off is read the same with a separator behind it. -/
theorem parseLevel_separator (h : parseLevel .standard n op s = .ok e)
    (hlast : ∀ x ∈ (Text.trim s).getLast?, Lexeme.isSeparator x = false)
    (hc : Lexeme.isSeparator c = true) (hwhole : levelText s = Text.trim s) :
    parseLevel .standard n op (s ++ [c]) = .ok e := by
  cases n with
  | zero => cases h
  | succ n =>
    obtain ⟨lexemes, hscan, hlevel⟩ := parseLevel_iff.1 h
    change Lexeme.scan .standard {} (levelText s) = _ at hscan
    rw [hwhole] at hscan
    -- the scan left no separator out, so it can go on behind the text
    have htext : Lexeme.text lexemes = Text.trim s := by
      refine ((Lexeme.makeUp_of_scan hscan).resolve_right ?_).symm
      rintro ⟨x, hx, hs⟩
      rw [hs] at hlast
      have hx' := hlast x (by rw [List.getLast?_concat]; rfl)
      rw [hx] at hx'
      cases hx'
    obtain ⟨b, hread, ho, hq⟩ := Lexeme.exists_reads_of_scan hscan htext
    obtain ⟨blanks, hlevelText, hblanks⟩ := exists_levelText_separator s hc
    refine parseLevel_iff.2 ⟨_, ?_, hlevel.append_blanks hblanks⟩
    change Lexeme.scan .standard {} (levelText (s ++ [c])) = _
    rw [hlevelText]
    exact hread.scan_separator ho hq hblanks hc

/-! ## Where brackets would have been taken off -/

/-- Brackets with a separator behind them are a term of their own. -/
theorem exists_level_brackets {inner : Text} (hs : Text.trim s = '(' :: inner ++ [')'])
    (hinner : Balanced inner) (hc : Lexeme.isSeparator c = true) :
    ∃ lexemes, Lexeme.scan .standard {} (levelText (s ++ [c])) = .ok lexemes ∧
      Lexeme.loosest? lexemes = none ∧
      Term.ofText .standard (Text.trim (Lexeme.text lexemes)) = .ok
        (if Text.isAllBlank inner then .leaf (Text.trim s) else .call [] (Text.trim inner)) := by
  obtain ⟨b, hread, hsettled, -⟩ :=
    Lexeme.reads_brackets (a := {}) rfl rfl hinner
  obtain ⟨blanks, hlevelText, hblanks⟩ := exists_levelText_separator s hc
  have hscan := hread.scan_separator hsettled.opened hsettled.quoted hblanks hc
  rw [← hs, ← hlevelText, hs] at hscan
  refine ⟨_, hscan, ?_, ?_⟩
  · rw [Lexeme.loosest?_append_letters]
    exact Phrase.loosest?_letters _
  · have hempty : ∀ c ∈ ([] : Text), c ≠ '"' ∧ c ≠ '(' := List.forall_mem_nil _
    rw [Lexeme.text_append, Lexeme.text_map_letter, Lexeme.text_map_letter,
      Text.trim_append_blanks hblanks, (Text.trimmed_brackets inner).trim_eq, hs]
    exact ofText_brackets hempty (leading?_of_first (by decide) _) hinner

theorem exists_stripped (h : parseLevel .standard (n + 1) op s = .ok e)
    (hstripped : levelText s ≠ Text.trim s) :
    ∃ inner, Text.trim s = '(' :: inner ++ [')'] ∧ Balanced inner ∧
      parseLevel .standard (n + 1) op (Text.trim inner) = .ok e := by
  obtain ⟨inner, htrim, hinner, hlevel⟩ :=
    (stripBrackets_cases (Text.trim s)).resolve_left hstripped
  have hno : '(' ∉ Text.trim inner := fun hm => hinner ((isInfix_trim inner).subset hm)
  have hread : parseLevel .standard (n + 1) op (Text.trim inner) = .ok e := by
    rw [← h]
    refine parseLevel_congr ?_
    rw [Text.trim_trim, stripBrackets_of_not_mem hno, hlevel]
  exact ⟨inner, htrim, Text.balanced_trim.1 (balanced_of_parseLevel hread), hread⟩

/-- With a separator behind them, brackets that would have been taken off are a bracket group. -/
theorem parseLevel_separator_stripped (h : parseLevel .standard n [] s = .ok e)
    (hstripped : levelText s ≠ Text.trim s)
    (hhollow : ∀ inner, Text.trim s = '(' :: inner ++ [')'] → Text.isAllBlank inner = false)
    (hc : Lexeme.isSeparator c = true) (op : Text) :
    parseLevel .standard (n + 1) op (s ++ [c]) = .ok (callNode [] op e) := by
  cases n with
  | zero => cases h
  | succ n =>
    obtain ⟨inner, htrim, hinner, hread⟩ := exists_stripped h hstripped
    obtain ⟨lexemes, hscan, hloosest, hterm⟩ := exists_level_brackets htrim hinner hc
    rw [hhollow inner htrim] at hterm
    exact parseLevel_iff.2 ⟨lexemes, hscan, .call hloosest hterm hread⟩

/-- With a separator behind them, brackets around nothing are a leaf. -/
theorem parseLevel_separator_hollow {inner : Text} (hs : Text.trim s = '(' :: inner ++ [')'])
    (hinner : Text.isAllBlank inner = true) (hc : Lexeme.isSeparator c = true) (op : Text) :
    parseLevel .standard (n + 1) op (s ++ [c]) = .ok ⟨Text.trim s, op, []⟩ := by
  have hbalanced : Balanced inner := Text.run_blanks (List.all_eq_true.1 hinner) 0 false
  obtain ⟨lexemes, hscan, hloosest, hterm⟩ := exists_level_brackets hs hbalanced hc
  rw [hinner] at hterm
  exact parseLevel_iff.2 ⟨lexemes, hscan, .leaf hloosest hterm⟩

/-! ## Any text -/

/-- A separator behind a text that does not end with one changes nothing but bracket groups, unless
the text is brackets around nothing. Where brackets were taken off the text, the separator costs one
level more. -/
theorem ungrouped_parse_separator {depth depth' : Nat} (h : parse .standard depth s = .ok e)
    (hlast : ∀ x ∈ (Text.trim s).getLast?, Lexeme.isSeparator x = false)
    (hhollow : ∀ inner, Text.trim s = '(' :: inner ++ [')'] → Text.isAllBlank inner = false)
    (hc : Lexeme.isSeparator c = true)
    (hdepth : depth < depth' ∨ depth = depth' ∧ levelText s = Text.trim s) :
    ∃ e', parse .standard depth' (s ++ [c]) = .ok e' ∧ e'.ungrouped = e.ungrouped := by
  by_cases hwhole : levelText s = Text.trim s
  · have hsame := parseLevel_separator h hlast hc hwhole
    exact ⟨e, parseLevel_le hsame (by omega), rfl⟩
  · have hlt : depth < depth' := hdepth.resolve_right fun h => hwhole h.2
    have hgroup := parseLevel_separator_stripped h hwhole hhollow hc []
    refine ⟨_, parseLevel_le hgroup (by omega), ?_⟩
    rw [Phrase.ungrouped_callNode,
      withOp_of_eq ((ungrouped_op e).trans (shaped_of_parseLevel h).2)]

/-- Brackets with blanks in and behind them: the separator makes a group of them. -/
theorem ungrouped_parse_separator_group : ∃ e,
    parse .standard 1 "( a+b) ".toList = .ok e ∧ ∃ e',
      parse .standard 2 "( a+b) ;".toList = .ok e' ∧ e'.ungrouped = e.ungrouped := by
  have hparse : parse .standard 1 "( a+b) ".toList =
      .ok ⟨['+'], [], [⟨['a'], [], []⟩, ⟨['b'], ['+'], []⟩]⟩ := by decide +kernel
  have htrim : Text.trim "( a+b) ".toList = '(' :: " a+b".toList ++ [')'] := by decide +kernel
  have hlast : ∀ x ∈ (Text.trim "( a+b) ".toList).getLast?, Lexeme.isSeparator x = false := by
    rw [htrim]
    decide
  have hhollow : ∀ inner, Text.trim "( a+b) ".toList = '(' :: inner ++ [')'] →
      Text.isAllBlank inner = false := by
    intro inner hinner
    obtain rfl := (List.cons.inj (List.append_cancel_right (htrim.symm.trans hinner))).2
    decide
  have hbehind : "( a+b) ;".toList = "( a+b) ".toList ++ [';'] := by decide
  rw [hbehind]
  exact ⟨_, hparse, ungrouped_parse_separator (c := ';') hparse hlast hhollow rfl
    (.inl (by decide))⟩

/-! ## Texts that a separator changes -/

end Expr

/-- A name behind a number of signs. -/
def Phrase.signs : Nat → Phrase
  | 0 => .word ['x'] false
  | k + 1 => .signed ['-'] (signs k)

theorem Phrase.signs_spec (k : Nat) : (signs k).Valid ∧ (signs k).rank = 0 ∧
    (signs k).levels = k + 1 ∧ '(' ∉ (signs k).text ∧ ((signs k).tree []).height = k := by
  induction k with
  | zero =>
    have hword : Word false ['x'] := .of_dotted (by decide)
    exact ⟨hword, rfl, rfl, by decide, by decide⟩
  | succ k ih =>
    obtain ⟨hvalid, hrank, hlevels, htext, hheight⟩ := ih
    refine ⟨⟨by decide, hvalid, hrank⟩, rfl, congrArg (· + 1) hlevels, ?_, ?_⟩
    · change '(' ∉ '-' :: (signs k).text
      rw [List.mem_cons, not_or]
      exact ⟨by decide, htext⟩
    · change Expr.height ⟨['-'], [], [(signs k).tree []]⟩ = _
      rw [Expr.height_mk, Expr.heightOf, Expr.heightOf, hheight, Nat.max_zero]

namespace Expr

/-- At the limit there is no level left for the brackets that a separator makes a group of. -/
theorem parse_separator_signs (k : Nat) :
    (∃ e, parse .standard (k + 1) ('(' :: (Phrase.signs (k + 1)).text ++ [')']) = .ok e) ∧
      ∀ e, parse .standard (k + 1) ('(' :: (Phrase.signs (k + 1)).text ++ [')'] ++ [',']) ≠
        .ok e := by
  obtain ⟨hvalid, -, hlevels, htext, hheight⟩ := Phrase.signs_spec (k + 1)
  have htrimmed := Text.trimmed_brackets (Phrase.signs (k + 1)).text
  have hparse : parseLevel .standard (k + 2) [] ('(' :: (Phrase.signs (k + 1)).text ++ [')']) =
      .ok ((Phrase.signs (k + 1)).tree []) := by
    rw [parseLevel_stripped .standard htext]
    exact Phrase.parseLevel_eq hvalid (by omega) (Phrase.trimmed hvalid).trim_eq
  refine ⟨⟨_, hparse⟩, fun e he => ?_⟩
  have hstripped : levelText ('(' :: (Phrase.signs (k + 1)).text ++ [')']) ≠
      Text.trim ('(' :: (Phrase.signs (k + 1)).text ++ [')']) := by
    rw [levelText, htrimmed.trim_eq, stripBrackets_bracketed htext, (Phrase.trimmed hvalid).trim_eq]
    intro heq
    have hlength := congrArg List.length heq
    simp only [List.length_append, List.length_cons, List.length_nil] at hlength
    omega
  have hhollow : ∀ inner, Text.trim ('(' :: (Phrase.signs (k + 1)).text ++ [')']) =
      '(' :: inner ++ [')'] → Text.isAllBlank inner = false := by
    rw [htrimmed.trim_eq]
    intro inner hinner
    obtain rfl := (List.cons.inj (List.append_cancel_right hinner)).2
    exact (Phrase.trimmed hvalid).isAllBlank_eq (Phrase.text_ne_nil hvalid)
  have hgroup := parseLevel_separator_stripped hparse hstripped hhollow (c := ',') rfl []
  -- the group is as high as the limit, but one level less was allowed
  have htree := (parseLevel_le he (Nat.le_succ (k + 2))).symm.trans hgroup
  have hlow := height_lt_of_parseLevel he
  rw [Except.ok.inj htree] at hlow
  have hnode : callNode [] [] ((Phrase.signs (k + 1)).tree []) =
      ⟨[], [], [(Phrase.signs (k + 1)).tree []]⟩ := rfl
  rw [hnode, height_mk, heightOf, heightOf, hheight] at hlow
  omega

/-- A separator makes a leaf of brackets around nothing, and at the limit a text in brackets is not
accepted any more with a separator behind it. -/
theorem exists_changed_by_separator :
    (ofText "()".toList = .ok empty ∧ ofText "(),".toList = .ok ⟨"()".toList, [], []⟩ ∧
      ungrouped ⟨"()".toList, [], []⟩ ≠ empty.ungrouped) ∧
      ∃ s e, ofText s = .ok e ∧ (∀ x ∈ (Text.trim s).getLast?, Lexeme.isSeparator x = false) ∧
        ∀ e', ofText (s ++ [',']) ≠ .ok e' := by
  obtain ⟨⟨e, he⟩, hlimit⟩ := parse_separator_signs 255
  refine ⟨⟨by decide +kernel, by decide +kernel, by decide +kernel⟩, _, e, he, ?_, hlimit⟩
  rw [(Text.trimmed_brackets _).trim_eq, List.getLast?_concat]
  exact fun x hx => Option.mem_some.1 hx ▸ rfl

end Expr
end Lineshape
