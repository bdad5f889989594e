import Lineshape.Proofs.Expr.Identifiers
import Lineshape.Proofs.Expr.Numbers

/-! # Identifiers as they are read

The identifiers of a parsed tree are more than dotted names: blanks may stand in them, characters that
are no symbols, and numbers with the sign of an exponent. Still no operator, bracket or quote is found
in one (`Expr.unbroken_of_parseLevel`), so it is a word wherever it stands (`Unbroken.word`), even
behind digits and a point (`Unbroken.exists_trace`). -/

namespace Lineshape
set_option autoImplicit false

/-- A text that begins like an identifier, and in which no operator, bracket or quote is found. -/
structure Unbroken (s : Text) : Prop where
  begins : ∃ c rest, s = c :: rest ∧ (Text.isLetter c || c == '_') = true
  traced : ∃ n, Lexeme.trace .outside none s = some n
  trimmed : Text.Trimmed s
  nonEmpty : s ≠ Expr.emptyName

/-! ## Behind a point -/

namespace Lexeme

variable {n : NumberScan} {previous : Option Char} {c : Char} {s : Text}

/-- Behind the mark of an exponent digits belong to the number, and the first character that is none
ends it. Without the number they continue a name, and so nothing else is found. -/
theorem exists_trace_behind_mark {sign : Bool} (hp : previous.any Text.continuesName = true)
    (h : trace .outside previous s = some n) :
    ∃ n', trace (.inside false false sign) previous s = some n' := by
  induction s generalizing previous sign with
  | nil => exact ⟨_, rfl⟩
  | cons c s ih =>
    have hfeed : NumberScan.outside.feed previous c = .outside := by simp [NumberScan.feed, hp]
    obtain ⟨hopen, hclose, hquote, hsymbol, hs⟩ := trace_cons h
    rw [hfeed] at hsymbol hs
    have hnone : OperatorTable.standard.isSymbol c = false := by
      rw [← Bool.not_eq_true]
      exact fun hc => absurd (hsymbol hc) (by decide)
    cases hdigit : c.isDigit with
    | true =>
      have hstep : (NumberScan.inside false false sign).feed previous c =
          .inside false false false := by simp [NumberScan.feed, hdigit]
      rw [trace_inside_step _ hstep rfl ⟨hopen, hclose, hquote⟩]
      exact ih (Text.continuesName_of_isDigit hdigit) hs
    | false =>
      have hplus : c ≠ '+' ∧ c ≠ '-' := by
        constructor <;> rintro rfl <;> exact absurd hnone (by decide)
      have hstep : (NumberScan.inside false false sign).feed previous c = .outside := by
        simp [NumberScan.feed, hdigit, hplus]
      refine ⟨n, ?_⟩
      rw [← hs]
      simp [trace, hstep, hnone, hopen, hclose, hquote]

/-- Behind digits and a point nothing else is found in a text than on its own. -/
theorem exists_trace_behind_point (hc : (Text.isLetter c || c == '_') = true)
    (h : trace .outside none (c :: s) = some n) :
    ∃ n', trace (.inside false true false) (some '.') (c :: s) = some n' ∧ (c = 'f' → n' = n) := by
  have hdigit := not_isDigit_of_isLetter hc
  have hcont := continuesName_of_start hc
  obtain ⟨hopen, hclose, hquote, -, hs⟩ := trace_cons h
  have hfeed : NumberScan.outside.feed none c = .outside := by simp [NumberScan.feed, hdigit]
  rw [hfeed] at hs
  by_cases hmark : c = 'e' ∨ c = 'E'
  · have hstep : (NumberScan.inside false true false).feed (some '.') c = .inside false false true := by
      rcases hmark with rfl | rfl <;> rfl
    rw [trace_inside_step _ hstep rfl ⟨hopen, hclose, hquote⟩]
    obtain ⟨n', hn'⟩ := exists_trace_behind_mark (show Option.any _ (some c) = true from hcont) hs
    refine ⟨n', hn', ?_⟩
    rintro rfl
    rcases hmark with h | h <;> exact absurd h (by decide)
  · have hsymbol := OperatorTable.isSymbol_of_continuesName hcont
    have hstep : (NumberScan.inside false true false).feed (some '.') c = .outside := by
      simp [NumberScan.feed, hdigit, hmark]
    refine ⟨n, ?_, fun _ => rfl⟩
    rw [← hs]
    simp [trace, hstep, hsymbol, hopen, hclose, hquote]

end Lexeme

namespace Unbroken

variable {s digits : Text}

theorem ne_nil (h : Unbroken s) : s ≠ [] := by
  obtain ⟨c, rest, rfl, -⟩ := h.begins
  exact List.cons_ne_nil c rest

theorem of_segment (h : isSegment s = true) (hne : s ≠ Expr.emptyName) : Unbroken s := by
  have hdotted := isDotted_of_isSegment h
  refine ⟨?_, ⟨_, (trace_dotted s).1 none hdotted⟩, (Word.of_dotted hdotted).trimmed, hne⟩
  cases s with
  | nil => cases h
  | cons c rest =>
    rw [isSegment, Bool.and_eq_true] at h
    exact ⟨c, rest, rfl, h.1⟩

/-- Wherever it stands it is a word. A number at its end may leave room for a sign. -/
theorem word (h : Unbroken s) : Word true s := by
  obtain ⟨n, hn⟩ := h.traced
  exact Word.of_trace hn h.ne_nil h.trimmed fun hopen => Bool.noConfusion hopen

/-- Nothing else is found in it behind digits and a point. -/
theorem exists_trace (h : Unbroken s) (hne : digits ≠ []) (hd : digits.all Char.isDigit = true) :
    ∃ n, Lexeme.trace .outside none (digits ++ '.' :: s) = some n ∧
      (s.head? = some 'f' → Lexeme.trace .outside none s = some n) := by
  obtain ⟨n, hn⟩ := h.traced
  obtain ⟨c, rest, rfl, hc⟩ := h.begins
  obtain ⟨n', hn', hf⟩ := Lexeme.exists_trace_behind_point hc hn
  refine ⟨n', ?_, fun hhead => ?_⟩
  · rw [Lexeme.trace_first_digits hd hne rfl, ← hn']
    exact Lexeme.trace_inside_step _ rfl rfl (by decide)
  · cases hhead
    rw [hf rfl, hn]

end Unbroken

/-! ## Identifiers of parsed trees -/

namespace Lexeme

theorem afterTerm_of_symbol {a b : Cursor} {c : Char} (hn : a.note c = some b)
    (htop : (b.isTopLevel && OperatorTable.standard.isSymbol c) = true) :
    b.afterTerm = a.afterTerm := by
  rw [note_symbol (Bool.and_eq_true _ _ ▸ htop).2] at hn
  cases hn
  rfl

/-- Outside brackets a character that is no operator is followed like a character of a word. -/
theorem trace_of_letter {a b : Cursor} {c : Char} {s : Text} (hopened : a.opened = [])
    (hn : a.note c = some b) (htop : ¬ (b.isTopLevel && OperatorTable.standard.isSymbol c) = true)
    (hc : c ≠ '(' ∧ c ≠ '"') : b = a.fed c ∧
      trace a.number a.previous (c :: s) = trace (a.fed c).number (some c) s := by
  have hclose : c ≠ ')' := by
    rintro rfl
    rw [Cursor.note, hopened] at hn
    cases hn
  rw [a.note_plain c hc.2 hc.1 hclose] at hn
  cases hn
  have hsymbol : ¬ (OperatorTable.standard.isSymbol c = true ∧
      (a.number.feed a.previous c).isInside = false) := by
    rintro ⟨hsymbol, hinside⟩
    refine htop ?_
    rw [Cursor.isTopLevel, show (a.fed c).opened = [] from hopened,
      show (a.fed c).number.isInside = false from hinside, hsymbol]
    rfl
  refine ⟨rfl, ?_⟩
  rw [trace, if_neg (by simp [hc, hclose, hsymbol])]
  rfl

/-- How the first character of an identifier is read. -/
theorem reads_start {c : Char} (hc : (Text.isLetter c || c == '_') = true) :
    let a := (Cursor.fed {} c).advance c
    Reads .standard {} [c] [.letter c] a ∧ a.afterTerm = true ∧
      ∀ s, trace .outside none (c :: s) = trace a.number a.previous s := by
  have hcont := continuesName_of_start hc
  have hdigit := not_isDigit_of_isLetter hc
  have hsymbol := OperatorTable.isSymbol_of_continuesName hcont
  obtain ⟨hleft, hright, hmark, -⟩ := Text.ne_of_continuesName hcont
  refine ⟨?_, ?_, fun s => ?_⟩
  · refine reads_letter rfl (Cursor.note_plain {} c hmark hleft hright) ?_
    rw [hsymbol, Bool.and_false]
  · simp [Cursor.fed, Text.isBlank_of_continuesName hcont]
  · simp [trace, hsymbol, hleft, hright, hmark, Cursor.fed]

/-- In the front of a level without operators none is found. -/
theorem exists_trace_of_scan {a : Cursor} {s front behind : Text} {lexemes : List Lexeme}
    (h : scan .standard a s = .ok lexemes) (hno : ∀ op k, operator op k ∉ lexemes)
    (htext : text lexemes = front ++ behind) (hplain : '(' ∉ front ∧ '"' ∉ front)
    (hopened : a.opened = []) (hquoted : a.quoted = none) (hafter : a.afterTerm = true) :
    ∃ n, trace a.number a.previous front = some n := by
  rw [scan_eq_ok] at h
  induction h generalizing front with
  | done | separator =>
    rw [(List.append_eq_nil_iff.1 htext.symm).1]
    exact ⟨_, rfl⟩
  | quoted hq =>
    rw [hquoted] at hq
    cases hq
  | @one a cursor c d rest back hq hnote htop =>
    -- behind the beginning of a term every operator is a binary one
    rw [afterTerm_of_symbol hnote htop, hafter] at hno
    exact absurd List.mem_cons_self (hno [c] _)
  | @two a cursor c d rest back hq hnote htop =>
    rw [afterTerm_of_symbol hnote htop, hafter] at hno
    exact absurd List.mem_cons_self (hno [c, d] _)
  | @letter a cursor c rest back hq hnote htop _ ih =>
    cases front with
    | nil => exact ⟨_, rfl⟩
    | cons x front =>
      obtain ⟨rfl, htail⟩ := List.cons.inj htext
      have hc : c ≠ '(' ∧ c ≠ '"' := ⟨fun he => hplain.1 (he ▸ List.mem_cons_self),
        fun he => hplain.2 (he ▸ List.mem_cons_self)⟩
      obtain ⟨rfl, htrace⟩ := trace_of_letter (s := front) hopened hnote htop hc
      rw [htrace]
      refine ih (fun op k hm => hno op k (List.mem_cons_of_mem _ hm)) htail
        ⟨fun hm => hplain.1 (List.mem_cons_of_mem _ hm), fun hm => hplain.2 (List.mem_cons_of_mem _ hm)⟩
        hopened hquoted ?_
      simp [Cursor.fed, hafter]

end Lexeme

/-- A trimmed identifier in front of a level without operators. -/
theorem Unbroken.of_scan {name body rest : Text} {lexemes : List Lexeme}
    (hscan : Lexeme.scan .standard {} body = .ok lexemes)
    (hno : ∀ op k, Lexeme.operator op k ∉ lexemes) (htext : Lexeme.text lexemes = name ++ rest)
    (ht : Text.Trimmed name) (hid : Expr.isIdentifier name = true) : Unbroken name := by
  obtain ⟨hopen, hquote⟩ := Expr.not_mem_of_isIdentifier hid
  cases name with
  | nil => cases hid
  | cons c tail =>
    have hparts := hid
    simp only [Expr.isIdentifier, Bool.and_eq_true, decide_eq_true_eq] at hparts
    obtain ⟨⟨⟨hne, hc⟩, -⟩, -⟩ := hparts
    obtain ⟨hfirst, hafter, htrace⟩ := Lexeme.reads_start hc
    obtain ⟨sep, rfl⟩ := exists_text_append_of_scan hscan
    rw [htext, List.append_assoc, List.cons_append, ← List.singleton_append, hfirst] at hscan
    obtain ⟨back, hback, rfl⟩ := Result.map_eq_ok.1 hscan
    obtain ⟨n, hn⟩ := Lexeme.exists_trace_of_scan hback
      (fun op k hm => hno op k (List.mem_cons_of_mem _ hm)) (List.cons.inj htext).2
      ⟨fun hm => hopen (List.mem_cons_of_mem c hm), fun hm => hquote (List.mem_cons_of_mem c hm)⟩
      rfl rfl hafter
    exact ⟨⟨c, tail, rfl, hc⟩, ⟨n, (htrace tail).trans hn⟩, ht, hne⟩

namespace Expr

variable {op name : Text} {e : Expr}

/-- Every identifier of a parsed tree is unbroken. -/
theorem unbroken_of_parseLevel {n : Nat} {s : Text} (h : parseLevel .standard n op s = .ok e) :
    ∀ name ∈ e.identifiers, Unbroken name := by
  induction n generalizing op s e with
  | zero => cases h
  | succ n ih =>
    obtain ⟨lexemes, hscan, hlevel⟩ := parseLevel_iff.1 h
    have hbody := trimmed_stripBrackets (Text.trimmed_trim s)
    cases hlevel with
    | @leaf name hnone hterm =>
      intro other hother
      rw [identifiers] at hother
      split at hother
      · rename_i hid
        rw [List.mem_singleton.1 hother]
        obtain ⟨tail, htail⟩ := text_eq_trim_append hscan hbody
        rcases ofText_leaf_spec hterm with ⟨-, rfl⟩ | ⟨rfl, -⟩
        · cases hid
        · exact .of_scan hscan (Lexeme.loosest?_eq_none_iff.1 hnone) htail (Text.trimmed_trim _) hid
      · cases hother
    | @prefixed sign operand inner hnone hterm hin =>
      rw [identifiers_terms _ _ (List.cons_ne_nil _ _), List.flatMap_singleton]
      exact ih hin
    | @call head arguments inner hnone hterm hin =>
      intro name hname
      rcases mem_identifiers_callNode hname with hname | ⟨rfl, hid⟩
      · exact ih hin name hname
      · obtain ⟨tail, htail⟩ := text_eq_trim_append hscan hbody
        obtain ⟨gap, behind, hsplit⟩ := call_shape (Text.trimmed_trim _) hterm
        obtain ⟨front, -, -, -, -, -, -, rfl, -⟩ := ofText_call_spec hterm
        rw [hsplit, List.append_assoc] at htail
        exact .of_scan hscan (Lexeme.loosest?_eq_none_iff.1 hnone) htail (Text.trimmed_trim _) hid
    | @chain r label first more hr hlabel hfirst hmore =>
      rw [identifiers_terms _ _ (List.cons_ne_nil _ _)]
      intro name hname
      obtain ⟨e, he, hmem⟩ := List.mem_flatMap.1 hname
      rcases List.mem_cons.1 he with rfl | he
      · exact ih hfirst name hmem
      · obtain ⟨p, -, hparse⟩ := Result.exists_of_forall₂ hmore he
        exact ih hparse name hmem

end Expr
end Lineshape
