import Lineshape.Proofs.Expr.Faults

/-! # Where errors are located

A rejected text is rejected at a character. The text that an error shows is a part of the input, and
its position is one of that part at which there stands what the fault is about
(`Expr.located_of_parse`). This holds for every table of operators and at every depth of the
recursion. -/

namespace Lineshape
set_option autoImplicit false

/-- Whether a fault can be about a character. Too deep a nesting is about no character. -/
def Fault.Blames (t : OperatorTable) : Fault → Char → Prop
  | .unmatchedBrackets, c => c = '(' ∨ c = ')'
  | .unmatchedQuotes, c => c = '"'
  | .missingOperand, c | .unrecognizedOperator, c => t.isSymbol c = true
  | .textAfterBracket, c => Text.isBlank c = false
  | .nestedTooDeep, _ => False

/-- The text of an error is a part of `s`, and unless there are too many levels the character at its
position is one that the fault is about. -/
structure ParseError.Located (t : OperatorTable) (s : Text) (e : ParseError) : Prop where
  isInfix : e.text <:+: s
  blamed : (e.fault = .nestedTooDeep ∧ e.position = 0) ∨
    ∃ c ∈ e.text[e.position]?, e.fault.Blames t c

namespace Text

theorem getElem?_of_eq {s front rest : Text} {c : Char} {n : Nat} (hs : s = front ++ c :: rest)
    (hn : front.length = n) : s[n]? = some c := by
  rw [hs, ← hn, List.getElem?_append_right (Nat.le_refl _), Nat.sub_self, List.getElem?_cons_zero]

/-- Behind the blanks in front of a text that has more than blanks comes a character that is none. -/
theorem exists_nonblank {s : Text} (h : isAllBlank s = false) :
    ∃ c rest, s = s.takeWhile isBlank ++ c :: rest ∧ isBlank c = false := by
  have hdrop : s.dropWhile isBlank ≠ [] := fun hnil => by
    rw [isAllBlank, List.all_eq_true.2 (List.dropWhile_eq_nil_iff.1 hnil)] at h
    cases h
  obtain ⟨c, rest, hrest⟩ := List.exists_cons_of_ne_nil hdrop
  refine ⟨c, rest, ?_, ?_⟩
  · rw [← hrest, List.takeWhile_append_dropWhile]
  · have hc := List.head?_dropWhile_not isBlank s
    rw [hrest] at hc
    simpa using hc

end Text

variable {t : OperatorTable}

theorem ParseError.Located.of_isInfix {s u : Text} {e : ParseError} (h : e.Located t u)
    (hu : u <:+: s) : e.Located t s :=
  ⟨h.isInfix.trans hu, h.blamed⟩

/-! ## Scans -/

namespace Cursor

/-- A cursor in a text in front of its last part `s`: the position says how much has been read, and
where a bracket or a quote is said to be open there is one. -/
structure In (whole s : Text) (a : Cursor) : Prop where
  rest : whole.drop a.position = s
  opened : ∀ p ∈ a.opened, whole[p]? = some '('
  quoted : ∀ p ∈ a.quoted, whole[p]? = some '"'

variable {whole s rest : Text} {a a' : Cursor} {c : Char}

theorem in_start (s : Text) : ({} : Cursor).In s s := ⟨rfl, nofun, nofun⟩

theorem In.getElem? (h : a.In whole (c :: rest)) : whole[a.position]? = some c := by
  rw [← List.head?_drop, h.rest, List.head?_cons]

theorem In.skip (op : Text) (h : a.In whole (op ++ rest)) (afterTerm : Bool) :
    (a.skip op afterTerm).In whole rest := by
  refine ⟨?_, h.opened, h.quoted⟩
  change whole.drop (a.position + op.length) = rest
  rw [← List.drop_drop, h.rest, List.drop_left]

theorem In.stepQuoted (h : a.In whole (c :: rest)) : (a.stepQuoted c).In whole rest := by
  rw [Cursor.stepQuoted]
  refine In.skip [c] ?_ _
  split
  · exact ⟨h.rest, h.opened, fun p hp => absurd hp (Option.not_mem_none p)⟩
  · exact h

theorem In.note (h : a.In whole (c :: rest)) (hn : a.note c = some a') :
    a'.position = a.position ∧ a'.In whole (c :: rest) := by
  rw [Cursor.note] at hn
  split at hn
  · rename_i hc
    cases hn
    refine ⟨rfl, h.rest, h.opened, fun p hp => ?_⟩
    cases hp
    exact hc ▸ h.getElem?
  · split at hn
    · rename_i hc
      cases hn
      refine ⟨rfl, h.rest, fun p hp => ?_, h.quoted⟩
      rcases List.mem_cons.1 hp with rfl | hp
      · exact hc ▸ h.getElem?
      · exact h.opened p hp
    · split at hn
      · split at hn
        · cases hn
        · rename_i hopened
          cases hn
          exact ⟨rfl, h.rest, fun p hp => h.opened p (hopened ▸ List.mem_cons_of_mem _ hp),
            h.quoted⟩
      · cases hn
        exact ⟨rfl, h.rest, h.opened, h.quoted⟩

theorem In.finish (h : a.In whole s) {e : Fault × Nat} (he : a.finish = .error e) :
    ∃ c ∈ whole[e.2]?, e.1.Blames t c := by
  rw [Cursor.finish.eq_def] at he
  split at he
  · rename_i hquoted
    cases he
    exact ⟨'"', h.quoted _ hquoted, rfl⟩
  · rename_i hopened
    cases he
    exact ⟨'(', h.opened _ (List.mem_of_getLast? hopened), .inl rfl⟩
  · cases he

end Cursor

/-- A fault of the scan is about the character at its position. -/
theorem Lexeme.blamed_of_scan {whole s : Text} {a : Cursor} {e : Fault × Nat}
    (ha : a.In whole s) (h : scan t a s = .error e) : ∃ c ∈ whole[e.2]?, e.1.Blames t c := by
  fun_induction scan t a s with
  | case1 a => exact ha.finish (Result.map_eq_error.1 h)
  | case2 a c rest hq ih => exact ih ha.stepQuoted (Result.map_eq_error.1 h)
  | case3 a c rest hq hnote =>
    cases h
    exact ⟨c, ha.getElem?, .inr (closed_of_note hnote).2⟩
  | case4 => cases h
  | case5 a c hq cursor hnote htop =>
    cases h
    exact ⟨c, (ha.note hnote).2.getElem?, (Bool.and_eq_true _ _ ▸ htop).2⟩
  | case6 a c hq cursor hnote htop =>
    cases h
    exact ⟨c, (ha.note hnote).2.getElem?, (Bool.and_eq_true _ _ ▸ htop).2⟩
  | case7 a c hq cursor hnote htop d rest hlong ih =>
    exact ih (.skip [c] (ha.note hnote).2 _) (Result.map_eq_error.1 h)
  | case8 a c hq cursor hnote htop =>
    cases h
    exact ⟨c, (ha.note hnote).2.getElem?, (Bool.and_eq_true _ _ ▸ htop).2⟩
  | case9 a c hq cursor hnote htop d rest hlong hne ih =>
    exact ih (.skip [c, d] (ha.note hnote).2 _) (Result.map_eq_error.1 h)
  | case10 a c rest hq cursor hnote htop ih =>
    exact ih (.skip [c] (ha.note hnote).2 _) (Result.map_eq_error.1 h)

theorem Lexeme.located_of_ofText {s : Text} {e : ParseError} (h : ofText t s = .error e) :
    e.Located t s := by
  rw [ofText] at h
  split at h
  · cases h
  · rename_i hscan
    cases h
    exact ⟨List.infix_refl s, .inr (blamed_of_scan (Cursor.in_start s) hscan)⟩

/-! ## Levels -/

namespace Expr

theorem Term.located_of_ofText {s : Text} {e : ParseError} (h : Term.ofText t s = .error e) :
    e.Located t s := by
  rw [Term.ofText.eq_def] at h
  split at h
  · cases h
  · split at h
    · cases h
    · split at h
      · cases h
      · rename_i head behind hopening
        have hs := eq_of_splitAtOpening hopening
        split at h
        · cases h
          exact ⟨List.infix_refl s, .inr ⟨'(', Text.getElem?_of_eq hs rfl, .inl rfl⟩⟩
        · rename_i inside after hclosing
          split at h
          · rename_i hafter
            cases h
            obtain ⟨c, rest, hrest, hc⟩ := Text.exists_nonblank (by simpa using hafter)
            have hsplit : s = (head ++ '(' :: inside ++ ')' :: after.takeWhile Text.isBlank) ++
                c :: rest := by
              conv_lhs => rw [hs, eq_of_splitAtClosing hclosing, hrest]
              simp
            refine ⟨List.infix_refl s, .inr ⟨c, Text.getElem?_of_eq hsplit ?_, hc⟩⟩
            simp only [List.length_append, List.length_cons]
            omega
          · split at h
            · cases h
            · cases h

/-- The levels below a text are parts of it. -/
theorem isInfix_of_below {s u : Text} (h : Below t s u) : u <:+: s := by
  have hlevel : levelText s <:+: s := (isInfix_stripBrackets _).trans (isInfix_trim s)
  have hlexemes : ∀ {lexemes}, Lexeme.ofText t (levelText s) = .ok lexemes →
      Lexeme.text lexemes <:+: s := fun hscan =>
    (isInfix_text (Lexeme.makeUp_of_scan (ofText_eq_ok.1 hscan))).trans hlevel
  cases h with
  | first hscan _ => exact (isInfix_split _ _).1.trans (hlexemes hscan)
  | later hscan _ hmem => exact ((isInfix_split _ _).2 _ hmem).trans (hlexemes hscan)
  | operand hscan _ hterm =>
    refine List.IsInfix.trans ?_ ((isInfix_trim _).trans (hlexemes hscan))
    rw [(eq_of_leading? (ofText_prefixed_cases hterm)).1]
    exact (List.suffix_append _ _).isInfix
  | arguments hscan _ hterm =>
    refine List.IsInfix.trans ?_ ((isInfix_trim _).trans (hlexemes hscan))
    obtain ⟨front, behind, inside, after, hopening, hclosing, -, -, rfl⟩ := ofText_call_spec hterm
    rw [eq_of_splitAtOpening hopening, eq_of_splitAtClosing hclosing]
    exact (isInfix_trim inside).trans ⟨front ++ ['('], ')' :: after, by simp⟩

theorem located_of_parseLevel {n : Nat} {op s : Text} {e : ParseError}
    (h : parseLevel t n op s = .error e) : e.Located t s := by
  induction n generalizing op s e with
  | zero =>
    cases h
    exact ⟨List.infix_refl s, .inl ⟨rfl, rfl⟩⟩
  | succ n ih =>
    have hlevel : levelText s <:+: s := (isInfix_stripBrackets _).trans (isInfix_trim s)
    cases reports_of_parseLevel h with
    | scan hscan => exact (Lexeme.located_of_ofText hscan).of_isInfix hlevel
    | term hscan _ hterm =>
      refine (Term.located_of_ofText hterm).of_isInfix ((isInfix_trim _).trans ?_)
      exact (isInfix_text (Lexeme.makeUp_of_scan (ofText_eq_ok.1 hscan))).trans hlevel
    | below hu he => exact (ih he).of_isInfix (isInfix_of_below hu)

/-- Errors are located. What an error shows is a part of the input, and its offset is a boundary
between two characters of it. Unless there are too many levels, a character stands there that the
fault is about. -/
theorem located_of_parse {depth : Nat} {s : Text} {e : ParseError}
    (h : parse t depth s = .error e) :
    e.diagnostic.text <:+: s ∧ ∃ front back, e.diagnostic.text = front ++ back ∧
      e.diagnostic.offset? = some (Text.byteSize front) ∧
      (e.fault ≠ .nestedTooDeep → Text.byteSize front < Text.byteSize e.diagnostic.text ∧
        ∃ c rest, back = c :: rest ∧ e.fault.Blames t c) := by
  obtain ⟨hpart, hblamed⟩ := located_of_parseLevel h
  refine ⟨hpart, e.text.take e.position, e.text.drop e.position,
    (List.take_append_drop _ _).symm, rfl, fun hfault => ?_⟩
  obtain ⟨c, hc, hblames⟩ := hblamed.resolve_left fun hdeep => hfault hdeep.1
  obtain ⟨hlt, hget⟩ := List.getElem?_eq_some_iff.1 hc
  have hdrop : e.text.drop e.position = c :: e.text.drop (e.position + 1) := by
    rw [List.drop_eq_getElem_cons hlt, hget]
  refine ⟨?_, c, _, hdrop, hblames⟩
  change _ < Text.byteSize e.text
  conv_rhs => rw [← List.take_append_drop e.position e.text, hdrop, Text.byteSize_append,
    Text.byteSize_cons]
  have := c.utf8Size_pos
  omega

/-- Behind a call, two levels below the root and with characters of two bytes before it. The offset
counts the bytes of the operand alone. -/
theorem located_of_parse_operand :
    let t := OperatorTable.ofGroups ["|".toList, "&".toList] ["!".toList]
    let s := 'é' :: "|(a & !g(".toList ++ 'ö' :: ")b )".toList
    ∃ e, parse t 4 s = .error e ∧ e.fault = .textAfterBracket ∧
      e.diagnostic.offset? = some 5 ∧
      e.diagnostic.text <:+: s ∧ ∃ front back,
        e.diagnostic.text = front ++ back ∧ e.diagnostic.offset? = some (Text.byteSize front) ∧
        (e.fault ≠ .nestedTooDeep → Text.byteSize front < Text.byteSize e.diagnostic.text ∧
          ∃ c rest, back = c :: rest ∧ e.fault.Blames t c) := by
  intro t s
  have herror : parse t 4 s =
      .error ⟨.textAfterBracket, "g(".toList ++ 'ö' :: ")b".toList, 4⟩ := by decide +kernel
  exact ⟨_, herror, rfl, by decide +kernel, located_of_parse herror⟩

end Expr
end Lineshape
