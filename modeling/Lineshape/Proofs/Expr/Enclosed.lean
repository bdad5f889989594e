import Lineshape.Proofs.Expr.Exchange

/-! # Separators behind a text, and values in brackets

A separator behind a text leaves at most a bracket group in its tree. An item with a value in brackets is
an assignment of what they enclose (`Expr.exists_parse_assign`). -/

namespace Lineshape
set_option autoImplicit false

/-- A key and a list in brackets. -/
def Text.assign (key blanks blanks' list : Text) : Text :=
  key ++ (blanks ++ '=' :: (blanks' ++ ('(' :: list ++ [')'])))

namespace Expr

variable {n : Nat} {s : Text} {e : Expr}

theorem isEmptyMarker_ungrouped (e : Expr) :
    e.ungrouped.isEmptyMarker = e.bracketsRemoved.isEmptyMarker := by
  rw [ungrouped_eq, isEmptyMarker, isEmptyMarker, isLeaf, isLeaf, List.isEmpty_map]

theorem form_ungrouped (e : Expr) : e.ungrouped.form = e.bracketsRemoved.form := by
  rw [ungrouped_eq, form, form, isLeaf, isLeaf, List.isEmpty_map, List.length_map]

/-! ## Separators at the end -/

theorem parseLevel_blank {op : Text} (hs : Text.isAllBlank s = true) :
    parseLevel .standard (n + 1) op s = .ok ⟨emptyName, op, []⟩ := by
  have htrim : Text.trim s = Text.trim [] := Text.trim_eq_nil_iff.2 hs
  exact (parseLevel_congr (congrArg stripBrackets htrim)).trans rfl

/-- A separator behind a text that is not blank is at most a group in its tree. -/
theorem exists_parse_separator {blanks : Text} {c : Char} (h : parseLevel .standard n [] s = .ok e)
    (hne : e.bracketsRemoved.isEmptyMarker = false) (htrim : Text.Trimmed s)
    (hclosed : ∀ x ∈ s.getLast?, Lexeme.isSeparator x = false)
    (hblanks : ∀ c ∈ blanks, Text.isBlank c = true) (hc : Lexeme.isSeparator c = true) :
    ∃ e', parseLevel .standard (n + 1) [] (s ++ (blanks ++ [c])) = .ok e' ∧ e'.Covers e := by
  have hpad : s.Padded (s ++ blanks) := ⟨blanks, rfl, hblanks⟩
  have htrim' : Text.trim (s ++ blanks) = s := hpad.trim_eq.trans htrim.trim_eq
  have hpadded := parseLevel_padded hpad h
  rw [← List.append_assoc]
  by_cases hwhole : levelText (s ++ blanks) = Text.trim (s ++ blanks)
  · refine ⟨e, parseLevel_le (parseLevel_separator hpadded ?_ hc hwhole) (Nat.le_succ n), .refl e⟩
    rwa [htrim']
  · refine ⟨_, parseLevel_separator_stripped hpadded hwhole ?_ hc [],
      covers_callNode (shaped_of_parseLevel h).2⟩
    rintro inner hinner
    rw [htrim'] at hinner
    rw [← Bool.not_eq_true]
    intro hblank
    -- brackets around nothing are blank text
    cases n with
    | zero => cases h
    | succ n =>
      have hno : '(' ∉ inner := fun hm => absurd (List.all_eq_true.1 hblank _ hm) (by decide)
      rw [hinner, parseLevel_stripped .standard hno, parseLevel_blank hblank] at h
      cases h
      cases hne

/-! ## Items with a value in brackets -/

section Assign

variable {key blanks blanks' : Text} (hkey : Word false key)
  (hblanks : ∀ c ∈ blanks, Text.isBlank c = true) (hblanks' : ∀ c ∈ blanks', Text.isBlank c = true)

include hkey hblanks hblanks'

/-- The key, the sign and the value are scanned one after the other. -/
theorem scan_assign (hs : Balanced s) :
    Lexeme.scan .standard {} (Text.assign key blanks blanks' s) =
      .ok ((key ++ blanks).map .letter ++
        Lexeme.operator ['='] (OperatorTable.standard.precedence ['=']) ::
          (blanks' ++ ('(' :: s ++ [')'])).map .letter) := by
  have hbinary : OperatorTable.standard.isBinary ['='] = true := by decide
  have hnosign : ∀ b : Bool, ['='] = ['+'] ∨ ['='] = ['-'] → b = false := by simp
  obtain ⟨a, hread, ha, -⟩ := hkey.reads {} Cursor.fresh_start
  obtain ⟨a', hread', ha'⟩ := Lexeme.exists_settled_blanks hblanks ha
  obtain ⟨b, hb, hoperator⟩ := Lexeme.reads_operator ha' hbinary (hnosign _)
  obtain ⟨b', hb', hspaces⟩ := Lexeme.reads_blanks hblanks' hb
  obtain ⟨d, hbrackets, hd, -⟩ := Lexeme.reads_brackets hb'.opened hb'.quoted hs
  obtain ⟨x, behind, hbehind, hx⟩ := Lexeme.exists_mayFollow (d := '(') hblanks'
    (Phrase.mayFollow_of_not_isSymbol (by decide)) (s ++ [')'])
  have hequals := hoperator x behind hx
  rw [← hbehind, ← List.cons_append, (hspaces.trans hbrackets).scan_eq hd,
    List.singleton_append] at hequals
  rw [Text.assign, hread, hread', hequals]
  simp [Except.map]

/-- An item is an assignment, with blanks around the sign or without. -/
theorem exists_parse_assign (h : parseLevel .standard n [] s = .ok e) :
    ∃ value : Expr, parseLevel .standard (n + 2) [] (Text.assign key blanks blanks' s) =
      .ok ⟨['='], [], [⟨key, [], []⟩, value.withOp ['=']]⟩ ∧ value.Covers e := by
  have hs := balanced_of_parseLevel h
  obtain ⟨value, hvalue, hcovers⟩ := exists_parse_brackets h
  refine ⟨value, ?_, hcovers⟩
  have hne : key ≠ [] := by
    obtain ⟨c, rest, hfirst, -, -⟩ := hkey.first
    exact hfirst ▸ List.cons_ne_nil c rest
  have hbalanced : Balanced (blanks ++ '=' :: (blanks' ++ ('(' :: s ++ [')']))) := by
    have hequals : Balanced ['='] := rfl
    have hback := Balanced.append (Text.run_blanks hblanks' 0 false) hs.bracketed
    exact Balanced.append (Text.run_blanks hblanks 0 false) (hequals.append hback)
  have htrim : Text.Trimmed (Text.assign key blanks blanks' s) := by
    have haround := hkey.trimmed.around (Text.trimmed_brackets s) hne (List.cons_ne_nil _ _)
      (blanks ++ '=' :: blanks')
    rwa [List.append_assoc] at haround
  have hloosest : Lexeme.loosest? ((key ++ blanks).map .letter ++
      Lexeme.operator ['='] (OperatorTable.standard.precedence ['=']) ::
        (blanks' ++ ('(' :: s ++ [')'])).map .letter) =
      some (OperatorTable.standard.precedence ['=']) := by
    refine Lexeme.loosest?_eq_some (List.mem_append_right _ List.mem_cons_self) fun o k hm => ?_
    simp at hm
    omega
  have hlabel : OperatorTable.standard.groupLabel (OperatorTable.standard.precedence ['=']) =
      some ['='] := by decide +kernel
  refine parseLevel_iff.2 ⟨_, ?_, (level_chain_iff hloosest hlabel).2 ⟨_, rfl, ?_⟩⟩
  · rw [htrim.trim_eq, Text.assign, stripBrackets_append hne (by simp) hbalanced]
    exact scan_assign hkey hblanks hblanks' hs
  · rw [Lexeme.termsOf_append, Lexeme.termsOf, Lexeme.split_letters_nil, Lexeme.split_letters_nil]
    refine .cons ?_ (.cons ?_ .nil)
    · have htext : Text.trim (key ++ blanks) = key :=
        (Text.trim_append_blanks hblanks key).trans hkey.trimmed.trim_eq
      exact Phrase.parseLevel_eq (p := .word key false) hkey (Nat.le_add_left 1 n) htext
    · rw [← parseLevel_withOp hvalue ['=']]
      exact parseLevel_congr (congrArg stripBrackets (Text.trim_blanks_append hblanks' _))

end Assign

end Expr
end Lineshape
