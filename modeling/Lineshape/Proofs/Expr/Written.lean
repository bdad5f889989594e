import Lineshape.Proofs.Expr.Groups
import Lineshape.Proofs.Expr.Rows

/-! # What is written is parsed

The canonical text of a parsed tree says what its text said, in the same order: blanks, brackets and
the separators at an end apart, the two are equal character by character
(`Expr.bare_text_of_parse`). -/

namespace Lineshape
set_option autoImplicit false

/-! ## Cutting at brackets -/

/-- Outside brackets a character that opens none leaves them alone. -/
theorem step_outside {q k : Bool} {d : Nat} {c : Char} (h : Nesting.step 0 q c = some (d, k))
    (hc : ¬ (c = '(' && !q) = true) :
    d = 0 ∧ (if c = '"' then !q else q) = k ∧
      Glyph.isOpening ⟨c, q || c = '"'⟩ = false := by
  obtain ⟨rfl, rfl, rfl⟩ | ⟨rfl, rfl, rfl, rfl⟩ | ⟨rfl, rfl, -⟩ | ⟨-, -, hd, -⟩ |
    ⟨rfl, hq, ho, -, rfl, rfl⟩ := Nesting.step_cases h
  · by_cases hquote : c = '"' <;> simp [hquote, Glyph.isOpening]
  · exact ⟨rfl, rfl, rfl⟩
  · exact absurd rfl hc
  · cases hd
  · simp [hq, ho, Glyph.isOpening]

theorem no_opening_cons {q k : Bool} {c : Char} {s : Text}
    (h : Nesting.step 0 q c = some (0, k)) (hc : Glyph.isOpening ⟨c, q || c = '"'⟩ = false)
    (hs : ∀ g ∈ Text.solid k s, g.isOpening = false) :
    ∀ g ∈ Text.solid q (c :: s), g.isOpening = false := by
  rw [Text.solid_cons h]
  intro g hg
  rcases List.mem_append.1 hg with hg | hg
  · split at hg
    · cases hg
    · rw [List.mem_singleton.1 hg]
      exact hc
  · exact hs g hg

/-- A bracket that is found opens outside brackets, and there is none before it. -/
theorem opening_spec {q k : Bool} {d : Nat} {s front behind : Text}
    (h : splitAtOpening q s = some (front, behind)) (hrun : Nesting.run 0 q s = some (d, k)) :
    Nesting.run 0 q front = some (0, false) ∧ Nesting.run 1 false behind = some (d, k) ∧
      ∀ g ∈ Text.solid q front, g.isOpening = false := by
  induction s generalizing q front with
  | nil => cases h
  | cons c s ih =>
    obtain ⟨d₁, q₁, hstep, hrest⟩ := Nesting.run_cons hrun
    rw [splitAtOpening] at h
    split at h
    · rename_i hc
      rw [Bool.and_eq_true, decide_eq_true_eq, Bool.not_eq_true'] at hc
      obtain ⟨rfl, rfl⟩ := hc
      cases h
      cases hstep
      exact ⟨rfl, hrest, List.forall_mem_nil _⟩
    · rename_i hc
      obtain ⟨rfl, hquoted, hglyph⟩ := step_outside hstep hc
      rw [hquoted] at h
      obtain ⟨⟨front', behind'⟩, hsplit, he⟩ := Option.map_eq_some_iff.1 h
      cases he
      obtain ⟨hfront, hbehind, hno⟩ := ih hsplit hrest
      refine ⟨?_, hbehind, no_opening_cons hstep hglyph hno⟩
      rw [Nesting.run, hstep]
      exact hfront

theorem opening_none {q k : Bool} {d : Nat} {s : Text} (h : splitAtOpening q s = none)
    (hrun : Nesting.run 0 q s = some (d, k)) : ∀ g ∈ Text.solid q s, g.isOpening = false := by
  induction s generalizing q with
  | nil => exact nofun
  | cons c s ih =>
    obtain ⟨d₁, q₁, hstep, hrest⟩ := Nesting.run_cons hrun
    rw [splitAtOpening] at h
    split at h
    · cases h
    · rename_i hc
      obtain ⟨rfl, hquoted, hglyph⟩ := step_outside hstep hc
      rw [hquoted, Option.map_eq_none_iff] at h
      exact no_opening_cons hstep hglyph (ih h hrest)

/-- What stands between two brackets is balanced, and so is what stands behind them. -/
theorem closing_spec {depth d : Nat} {q k : Bool} {s inside behind : Text}
    (h : splitAtClosing depth q s = some (inside, behind))
    (hrun : Nesting.run (depth + 1) q s = some (d, k)) :
    Nesting.run depth q inside = some (0, false) ∧ Nesting.run 0 false behind = some (d, k) := by
  induction s generalizing depth q inside with
  | nil => cases h
  | cons c s ih =>
    obtain ⟨d₁, q₁, hstep, hrest⟩ := Nesting.run_cons hrun
    rw [splitAtClosing.eq_def] at h
    simp only at h
    -- behind any character but the bracket that is looked for, the search goes on
    have hcons : ∀ {depth' : Nat}, d₁ = depth' + 1 → Nesting.step depth q c = some (depth', q₁) →
        (splitAtClosing depth' q₁ s).map (fun p => (c :: p.1, p.2)) = some (inside, behind) →
        Nesting.run depth q inside = some (0, false) ∧
          Nesting.run 0 false behind = some (d, k) := by
      rintro depth' rfl hstep' hmap
      obtain ⟨⟨inside', behind'⟩, hsplit, he⟩ := Option.map_eq_some_iff.1 hmap
      cases he
      obtain ⟨hinside, hbehind⟩ := ih hsplit hrest
      exact ⟨by rw [Nesting.run, hstep']; exact hinside, hbehind⟩
    obtain ⟨rfl, rfl, rfl⟩ | ⟨rfl, rfl, rfl, rfl⟩ | ⟨rfl, rfl, rfl, rfl⟩ |
      ⟨rfl, rfl, hd, rfl⟩ | ⟨rfl, hq, ho, hc, rfl, rfl⟩ := Nesting.step_cases hstep
    · refine hcons rfl rfl ?_
      have hquoted : (if c = '"' then false else true) = (c != '"') := by
        by_cases hquote : c = '"' <;> simp [hquote]
      simpa [hquoted] using h
    · exact hcons rfl rfl (by simpa using h)
    · exact hcons rfl rfl (by simpa using h)
    · cases depth with
      | zero =>
        cases hd
        cases h
        exact ⟨rfl, hrest⟩
      | succ depth =>
        cases hd
        exact hcons rfl rfl (by simpa using h)
    · refine hcons rfl (by simp [Nesting.step, hq, ho, hc]) (by simpa [hq, ho, hc] using h)

/-! ## What is written in brackets -/

namespace Text

theorem bare_eq_map {s : Text} (h : ∀ g ∈ solid false s, g.isBracket = false ∧ g.isSeparator = false) :
    bare s = (solid false s).map Glyph.char := by
  rw [bare, List.filter_eq_self.2 fun g hg => by rw [(h g hg).1]; rfl]

theorem written_plain {s : Text}
    (h : ∀ g ∈ solid false s, g.isBracket = false ∧ g.isSeparator = false) :
    written s = bare s := by
  have hkept := Glyph.kept_plain [false] [] h
  rw [List.append_nil, Glyph.kept, List.append_nil] at hkept
  rw [written, hkept, bare_eq_map h]

/-- What is written in a call: its head, and what is written between its brackets. -/
theorem written_brackets {front inside after : Text} (hfront : Balanced front)
    (hinside : Balanced inside) (hafter : isAllBlank after = true)
    (h : ∀ g ∈ solid false front, g.isBracket = false ∧ g.isSeparator = false) :
    written (front ++ '(' :: (inside ++ ')' :: after)) = bare front ++ written inside := by
  have hblank : solid false after = [] := solid_blanks (List.all_eq_true.1 hafter)
  have hends : Glyph.ends [⟨')', false⟩] = true := rfl
  have hinner : Glyph.kept [false, false] (solid false inside) = written inside :=
    Glyph.kept_congr [] (run_solid hinside) (.inl rfl)
  have hbrackets : Glyph.kept [false] (⟨'(', false⟩ :: (solid false inside ++ [⟨')', false⟩])) =
      written inside := by
    change [] ++ Glyph.kept [false, false] (solid false inside ++ [⟨')', false⟩]) = _
    rw [List.nil_append, Glyph.kept_append _ (.inr hends), hinner]
    exact List.append_nil _
  rw [written, solid_balanced hfront, solid_bracketed hinside, hblank, Glyph.kept_plain _ _ h,
    hbrackets, bare_eq_map h]

theorem bare_brackets {front inside after : Text} (hfront : Balanced front)
    (hinside : Balanced inside) (hafter : isAllBlank after = true) :
    bare (front ++ '(' :: (inside ++ ')' :: after)) = bare front ++ bare inside := by
  have hsplit : '(' :: (inside ++ ')' :: after) = ('(' :: inside ++ [')']) ++ after := by simp
  rw [bare_append hfront, hsplit, bare_append hinside.bracketed, bare_bracketed hinside,
    bare_blanks (List.all_eq_true.1 hafter), List.append_nil]

theorem bare_trim {s : Text} (h : Balanced s) : bare (trim s) = bare s := by
  rw [bare, solid_trim h, bare]

end Text

/-- Brackets that are taken off are blanks as far as writing is concerned. -/
theorem written_stripBrackets {s : Text} (h : Balanced (stripBrackets s)) :
    Balanced s ∧ Text.written (stripBrackets s) = Text.written s := by
  rcases stripBrackets_cases s with hs | ⟨inner, rfl, -, hs⟩
  · rw [hs] at h ⊢
    exact ⟨h, rfl⟩
  · rw [hs, Text.balanced_trim] at h
    have hwritten : Text.written ([] ++ '(' :: (inner ++ ')' :: [])) = _ :=
      Text.written_brackets Balanced.nil h rfl nofun
    rw [hs, Text.written_trim h]
    exact ⟨h.bracketed, hwritten.symm⟩

namespace Expr

/-! ## Canonical texts -/

theorem balanced_enclose {s : Text} (h : Balanced s) (b : Bool) : Balanced (enclose b s) := by
  cases b with
  | false => exact h
  | true => exact h.bracketed

theorem bare_enclose {s : Text} (h : Balanced s) (b : Bool) :
    Text.bare (enclose b s) = Text.bare s := by
  cases b with
  | false => rfl
  | true => exact Text.bare_bracketed h

/-- Terms behind a front are written one by one, with the operators before them. -/
theorem renderMore_spec (blanks : Bool) (r : Nat) {terms : List Expr}
    (h : ∀ e ∈ terms, OperatorTable.standard.isBinary e.op = true ∧ Balanced e.text) :
    Balanced (renderMore blanks r terms) ∧ Text.bare (renderMore blanks r terms) =
      terms.flatMap fun e => e.op ++ Text.bare e.text := by
  induction terms with
  | nil => cases blanks <;> exact ⟨Balanced.nil, rfl⟩
  | cons e more ih =>
    obtain ⟨hop, he⟩ := h e List.mem_cons_self
    obtain ⟨hmore, hbare⟩ := ih fun e he => h e (List.mem_cons_of_mem _ he)
    have hopBalanced := Lexeme.balanced_of_isBinary hop
    have hgap : ∀ b, Balanced (Phrase.gap b) ∧ Text.bare (Phrase.gap b) = [] := by decide
    obtain ⟨hgapBalanced, hgapBare⟩ := hgap (blanks && e.bracketsRemoved.isPrefixed .standard)
    have henclosed := balanced_enclose he (needsBrackets .standard r e)
    rw [renderMore_cons]
    refine ⟨(hopBalanced.append (hgapBalanced.append henclosed)).append hmore, ?_⟩
    rw [Text.bare_append (hopBalanced.append (hgapBalanced.append henclosed)),
      Text.bare_append hopBalanced, Text.bare_append hgapBalanced, hgapBare, bare_enclose he, hbare,
      Text.bare_plain (Lexeme.isPlain_of_isBinary hop), List.nil_append, List.flatMap_cons]

/-- What the canonical text of a tree says. -/
structure Says (e : Expr) (s : Text) : Prop where
  balanced : Balanced e.text
  terms : ∀ term ∈ e.terms, Balanced term.text
  bare : Text.bare e.text = s

variable {e inner operand first : Expr} {more : List Expr} {op s : Text}

theorem Says.with_op (h : e.Says s) (op : Text) : Says { e with op } s := by
  have htext : text { e with op } = e.text := text_withOp e op
  exact ⟨htext ▸ h.balanced, h.terms, htext ▸ h.bare⟩

theorem says_leaf (op : Text) {name : Text} (h : Balanced name) (hne : name ≠ emptyName) :
    Says ⟨name, op, []⟩ (Text.bare name) := by
  have htext : text ⟨name, op, []⟩ = name := by rw [text, render, if_neg hne]
  exact ⟨htext.symm ▸ h, List.forall_mem_nil _, by rw [htext]⟩

theorem text_empty (op : Text) : text ⟨emptyName, op, []⟩ = [] := by
  rw [text, render, if_pos rfl]

theorem says_prefixed {sign : Text} (hsign : OperatorTable.standard.isUnary sign = true)
    (h : operand.Says s) : Says ⟨sign, op, [operand]⟩ (sign ++ s) := by
  have hplain : Balanced sign ∧ Text.bare sign = sign := by
    rcases OperatorTable.isUnary_iff.1 hsign with rfl | rfl <;> decide
  have henclosed := balanced_enclose h.balanced (0 < operand.binding .standard)
  refine ⟨?_, fun term hm => List.mem_singleton.1 hm ▸ h.balanced, ?_⟩
  · rw [text_prefixed hsign]
    exact hplain.1.append henclosed
  · rw [text_prefixed hsign, Text.bare_append hplain.1, hplain.2, bare_enclose h.balanced, h.bare]

theorem says_chain (op : Text) {label : Text} (hlabel : OperatorTable.standard.isBinary label = true)
    (hmore : more ≠ []) (ho : first.op = []) (hfirst : Balanced first.text)
    (hterms : ∀ e ∈ more, OperatorTable.standard.isBinary e.op = true ∧ Balanced e.text) :
    Says ⟨label, op, first :: more⟩
      (Text.bare first.text ++ more.flatMap fun e => e.op ++ Text.bare e.text) := by
  obtain ⟨hbalanced, hbare⟩ :=
    renderMore_spec true (OperatorTable.standard.precedence label) hterms
  have henclosed := balanced_enclose hfirst
    (needsBrackets .standard (OperatorTable.standard.precedence label) first)
  have htext : text ⟨label, op, first :: more⟩ =
      enclose (needsBrackets .standard (OperatorTable.standard.precedence label) first)
        first.text ++ renderMore true (OperatorTable.standard.precedence label) more := by
    rw [text_chain hlabel hmore, ho]
    rfl
  refine ⟨htext ▸ henclosed.append hbalanced, ?_, ?_⟩
  · intro term hm
    rcases List.mem_cons.1 hm with rfl | hm
    · exact hfirst
    · exact (hterms term hm).2
  · rw [htext, Text.bare_append henclosed, bare_enclose hfirst, hbare]

theorem says_head (op : Text) {head : Text} (hhead : HeadName head) (hbalanced : Balanced head)
    (ho : first.op = []) (hfirst : Balanced first.text)
    (hterms : ∀ e ∈ more, OperatorTable.standard.isBinary e.op = true ∧ Balanced e.text) :
    Says ⟨head, op, first :: more⟩ (Text.bare head ++
      (Text.bare first.text ++ more.flatMap fun e => e.op ++ Text.bare e.text)) := by
  obtain ⟨hmore, hbare⟩ :=
    renderMore_spec false (OperatorTable.standard.precedence [',']) hterms
  have henclosed := balanced_enclose hfirst
    (needsBrackets .standard (OperatorTable.standard.precedence [',']) first)
  have htext : text ⟨head, op, first :: more⟩ = head ++ ('(' ::
      (enclose (needsBrackets .standard (OperatorTable.standard.precedence [',']) first)
        first.text ++ renderMore false (OperatorTable.standard.precedence [',']) more) ++ [')']) := by
    rw [text_head hhead, renderArguments, ho]
    rfl
  refine ⟨htext ▸ hbalanced.append (henclosed.append hmore).bracketed, ?_, ?_⟩
  · intro term hm
    rcases List.mem_cons.1 hm with rfl | hm
    · exact hfirst
    · exact (hterms term hm).2
  · rw [htext, Text.bare_append hbalanced, Text.bare_bracketed (henclosed.append hmore),
      Text.bare_append henclosed, bare_enclose hfirst, hbare]

/-- The node of a call says what its head and its argument say. -/
theorem says_callNode (op : Text) {head : Text} (hhead : head = [] ∨ HeadName head)
    (hne : inner.isEmptyMarker = true → head ≠ emptyName) (hbalanced : Balanced head)
    (hs : Shaped inner) (ho : inner.op = []) (h : inner.Says s) :
    (callNode head op inner).Says (Text.bare head ++ s) := by
  refine callNode_cases (fun hnil _ => ?_) (fun _ hempty => ?_) (fun hnil hname hterms => ?_)
    fun _ _ => ?_
  · subst hnil
    exact h.with_op op
  · obtain ⟨name, op', terms⟩ := inner
    have hname := hne hempty
    rw [isEmptyMarker, Bool.and_eq_true, isLeaf, List.isEmpty_iff, decide_eq_true_eq] at hempty
    obtain ⟨rfl, rfl⟩ : terms = [] ∧ name = emptyName := hempty
    have hsays := h.bare
    rw [text_empty] at hsays
    have hleaf := says_leaf op hbalanced hname
    rwa [← List.append_nil (Text.bare head), show ([] : Text) = s from hsays] at hleaf
  · obtain ⟨name, op', terms⟩ := inner
    cases hname
    cases ho
    obtain ⟨first, more, rfl, hmore, -, ho, -, hops⟩ := hs.of_list hterms
    have hmore' : ∀ e ∈ more, OperatorTable.standard.isBinary e.op = true ∧ Balanced e.text :=
      fun e he => ⟨(hops e he).1, h.terms e (List.mem_cons_of_mem _ he)⟩
    have hfirst := h.terms first List.mem_cons_self
    have hcomma : OperatorTable.standard.isBinary [','] = true := by decide
    have hchain := (says_chain [] hcomma hmore ho hfirst hmore').bare
    rw [← h.bare, hchain]
    exact says_head op (hhead.resolve_left hnil) hbalanced ho hfirst hmore'
  · rcases hhead with rfl | hhead
    · have htext : text ⟨[], op, [inner]⟩ = inner.text := text_group op inner
      exact ⟨htext ▸ h.balanced, fun term hm => List.mem_singleton.1 hm ▸ h.balanced,
        htext ▸ h.bare⟩
    · have hsays := @says_head inner [] op head hhead hbalanced ho h.balanced (List.forall_mem_nil _)
      rwa [List.flatMap_nil, List.append_nil, h.bare] at hsays

/-! ## Parts of a text -/

theorem isInfix_trim (s : Text) : Text.trim s <:+: s := by
  obtain ⟨front, tail, hs, -⟩ := Text.exists_trim s
  exact ⟨front, tail, hs.symm⟩

theorem isInfix_stripBrackets (s : Text) : stripBrackets s <:+: s := by
  rcases stripBrackets_cases s with hs | ⟨inner, rfl, -, hs⟩
  · exact ⟨[], [], by rw [hs, List.nil_append, List.append_nil]⟩
  · rw [hs]
    exact (isInfix_trim inner).trans ⟨['('], [')'], rfl⟩

theorem isInfix_split (r : Nat) (lexemes : List Lexeme) :
    (Lexeme.split r lexemes).1 <:+: Lexeme.text lexemes ∧
      ∀ p ∈ (Lexeme.split r lexemes).2, p.2 <:+: Lexeme.text lexemes := by
  constructor
  · obtain ⟨seg, rest, hls, htext, -⟩ := Lexeme.first_of_split r lexemes
    rw [← htext, hls, Lexeme.text_append]
    exact (List.prefix_append _ _).isInfix
  · intro p hp
    obtain ⟨front, seg, rest, hls, htext, -⟩ := Lexeme.exists_of_mem_split hp
    refine ⟨Lexeme.text front ++ p.1, Lexeme.text rest, ?_⟩
    rw [← htext, hls, Lexeme.text_append]
    simp [Lexeme.text, Lexeme.toText]

theorem isInfix_text {lexemes : List Lexeme} {s : Text} (h : Lexeme.MakeUp lexemes s) :
    Lexeme.text lexemes <:+: s := by
  rcases h with h | ⟨c, -, h⟩
  · exact h ▸ List.infix_refl _
  · exact h ▸ (List.prefix_append _ _).isInfix

/-! ## Levels -/

theorem ofText_leaf_spec {t : OperatorTable} {s name : Text}
    (h : Term.ofText t s = .ok (.leaf name)) : (s = [] ∧ name = emptyName) ∨ (name = s ∧
      (splitAtOpening false s = none ∨ ∃ front behind inside after,
        splitAtOpening false s = some (front, behind) ∧
        splitAtClosing 0 false behind = some (inside, after) ∧
        Text.isAllBlank inside = true ∧ Text.isAllBlank after = true)) := by
  rw [Term.ofText.eq_def] at h
  split at h
  · cases h
  · split at h
    · rename_i hs
      cases h
      exact .inl ⟨List.isEmpty_iff.1 hs, rfl⟩
    · split at h
      · rename_i hopen
        cases h
        exact .inr ⟨rfl, .inl hopen⟩
      · rename_i hopen
        split at h
        · cases h
        · rename_i hclose
          split at h
          · cases h
          · rename_i hafter
            split at h
            · rename_i hinside
              cases h
              refine .inr ⟨rfl, .inr ⟨_, _, _, _, hopen, hclose, hinside, ?_⟩⟩
              simpa using hafter
            · cases h

theorem ofText_call_spec {t : OperatorTable} {s head arguments : Text}
    (h : Term.ofText t s = .ok (.call head arguments)) :
    ∃ front behind inside after, splitAtOpening false s = some (front, behind) ∧
      splitAtClosing 0 false behind = some (inside, after) ∧ Text.isAllBlank after = true ∧
      head = Text.trim front ∧ arguments = Text.trim inside := by
  rw [Term.ofText.eq_def] at h
  split at h
  · cases h
  · split at h
    · cases h
    · split at h
      · cases h
      · rename_i hopen
        split at h
        · cases h
        · rename_i hclose
          split at h
          · cases h
          · rename_i hafter
            split at h
            · cases h
            · cases h
              exact ⟨_, _, _, _, hopen, hclose, by simpa using hafter, rfl, rfl⟩

variable {body : Text} {lexemes : List Lexeme}

theorem eq_map_letter (hno : ∀ op k, Lexeme.operator op k ∉ lexemes) :
    lexemes = (Lexeme.text lexemes).map Lexeme.letter := by
  induction lexemes with
  | nil => rfl
  | cons l lexemes ih =>
    have hrest := ih fun op k hm => hno op k (List.mem_cons_of_mem _ hm)
    cases l with
    | operator op k => exact absurd List.mem_cons_self (hno op k)
    | letter c => exact congrArg (Lexeme.letter c :: ·) hrest

/-- In a level without operators no separator stands before the first bracket. -/
theorem plain_of_front (h : Lexeme.Row 0 false false body lexemes)
    (hno : ∀ op k, Lexeme.operator op k ∉ lexemes) {front rest : Text}
    (hs : Text.trim (Lexeme.text lexemes) = front ++ rest)
    (hopen : ∀ g ∈ Text.solid false front, g.isOpening = false) :
    ∀ g ∈ Text.solid false front, g.isBracket = false ∧ g.isSeparator = false := by
  obtain ⟨blanks, tail, htext, hblanks, -⟩ := Text.exists_trim (Lexeme.text lexemes)
  have hsolid : Text.solid false (blanks ++ front) = Text.solid false front := by
    rw [Text.solid_append (Text.run_blanks hblanks 0 false), Text.solid_blanks hblanks]
    rfl
  rw [eq_map_letter hno, htext, hs, ← List.append_assoc, List.append_assoc, List.map_append] at h
  rw [← hsolid] at hopen ⊢
  exact h.plain hopen

/-- What is written in a level without operators is written in its term. -/
theorem written_of_letters (h : Lexeme.Row 0 false false body lexemes)
    (hno : ∀ op k, Lexeme.operator op k ∉ lexemes) :
    Balanced (Text.trim (Lexeme.text lexemes)) ∧
      Text.written body = Text.written (Text.trim (Lexeme.text lexemes)) := by
  have hbalanced : Balanced (Lexeme.text lexemes) := h.run_text
  refine ⟨Text.balanced_trim.2 hbalanced, ?_⟩
  rw [Text.written_trim hbalanced]
  exact h.kept_closed (h.closed_of_letters hno) false []

/-- The parts of a balanced text before its first bracket and between the brackets. -/
theorem brackets_spec {term front behind inside after : Text} (h : Balanced term)
    (hopen : splitAtOpening false term = some (front, behind))
    (hclose : splitAtClosing 0 false behind = some (inside, after)) :
    term = front ++ '(' :: (inside ++ ')' :: after) ∧ Balanced front ∧ Balanced inside ∧
      ∀ g ∈ Text.solid false front, g.isOpening = false := by
  obtain ⟨hfront, hbehind, hno⟩ := opening_spec hopen h
  refine ⟨?_, hfront, (closing_spec hclose hbehind).1, hno⟩
  rw [eq_of_splitAtOpening hopen, eq_of_splitAtClosing hclose]

theorem says_of_leaf {name : Text} (h : Lexeme.Row 0 false false body lexemes)
    (hno : ∀ op k, Lexeme.operator op k ∉ lexemes) (hempty : ¬ emptyName <:+: body)
    (hterm : Term.ofText .standard (Text.trim (Lexeme.text lexemes)) = .ok (.leaf name)) :
    Says ⟨name, op, []⟩ (Text.written body) := by
  obtain ⟨hbalanced, hwritten⟩ := written_of_letters h hno
  rw [hwritten]
  rcases ofText_leaf_spec hterm with ⟨hs, rfl⟩ | ⟨rfl, hbrackets⟩
  · rw [hs]
    exact ⟨text_empty op ▸ Balanced.nil, nofun, text_empty op ▸ rfl⟩
  · have hne : Text.trim (Lexeme.text lexemes) ≠ emptyName := by
      intro hname
      refine hempty (hname ▸ (isInfix_trim _).trans ?_)
      exact isInfix_text h.makeUp
    have hleaf := says_leaf op hbalanced hne
    rcases hbrackets with hopen | ⟨front, behind, inside, after, hopen, hclose, hinside, hafter⟩
    · have hplain := plain_of_front h hno (List.append_nil _).symm (opening_none hopen hbalanced)
      rwa [Text.written_plain hplain]
    · obtain ⟨hs, hfront, hin, hfirst⟩ := brackets_spec hbalanced hopen hclose
      have hplain := plain_of_front h hno hs hfirst
      have hblank : Text.written inside = Text.bare inside := by
        rw [Text.written, Text.bare, Text.solid_blanks (List.all_eq_true.1 hinside)]
        rfl
      rw [hs] at hleaf ⊢
      rwa [Text.written_brackets hfront hin hafter hplain, hblank,
        ← Text.bare_brackets hfront hin hafter]

theorem says_of_prefixed {sign : Text} {argument : Text}
    (h : Lexeme.Row 0 false false body lexemes)
    (hno : ∀ op k, Lexeme.operator op k ∉ lexemes)
    (hterm : Term.ofText .standard (Text.trim (Lexeme.text lexemes)) =
      .ok (.prefixed sign argument)) (hin : operand.Says (Text.written argument)) :
    Says ⟨sign, op, [operand]⟩ (Text.written body) := by
  have hlead := ofText_prefixed_cases hterm
  have hsign := isUnary_of_leading? hlead
  obtain ⟨hs, -⟩ := eq_of_leading? hlead
  obtain ⟨-, hwritten⟩ := written_of_letters h hno
  have hsplit : Text.written (sign ++ argument) = sign ++ Text.written argument := by
    rcases OperatorTable.isUnary_iff.1 hsign with rfl | rfl <;> rfl
  rw [hwritten, hs, hsplit]
  exact says_prefixed hsign hin

theorem says_of_call {head arguments : Text} (h : Lexeme.Row 0 false false body lexemes)
    (hno : ∀ op k, Lexeme.operator op k ∉ lexemes) (hempty : ¬ emptyName <:+: body)
    (hhead : head = [] ∨ HeadName head)
    (hterm : Term.ofText .standard (Text.trim (Lexeme.text lexemes)) = .ok (.call head arguments))
    (hs : Shaped inner) (ho : inner.op = []) (hin : inner.Says (Text.written arguments)) :
    (callNode head op inner).Says (Text.written body) := by
  obtain ⟨hbalanced, hwritten⟩ := written_of_letters h hno
  obtain ⟨front, behind, inside, after, hopen, hclose, hafter, rfl, rfl⟩ := ofText_call_spec hterm
  obtain ⟨hsplit, hfront, hinside, hfirst⟩ := brackets_spec hbalanced hopen hclose
  have hplain := plain_of_front h hno hsplit hfirst
  have hne : Text.trim front ≠ emptyName := by
    intro hname
    refine hempty (hname ▸ (isInfix_trim front).trans ?_)
    have hfront : front <:+: Text.trim (Lexeme.text lexemes) := by
      rw [hsplit]
      exact (List.prefix_append _ _).isInfix
    exact hfront.trans ((isInfix_trim _).trans (isInfix_text h.makeUp))
  have hsays := says_callNode op hhead (fun _ => hne) (Text.balanced_trim.2 hfront) hs ho hin
  rwa [Text.bare_trim hfront, Text.written_trim hinside,
    ← Text.written_brackets hfront hinside hafter hplain, ← hsplit, ← hwritten] at hsays

/-- What the terms behind the first one of a chain say, with the operators before them. -/
theorem says_terms {parts : List (Text × Text)}
    (h : List.Forall₂ (fun p e => OperatorTable.standard.isBinary p.1 = true ∧ e.op = p.1 ∧
      e.Says (Text.written p.2)) parts more) :
    (∀ e ∈ more, OperatorTable.standard.isBinary e.op = true ∧ Balanced e.text) ∧
      (more.flatMap fun e => e.op ++ Text.bare e.text) =
        parts.flatMap fun p => p.1 ++ Text.written p.2 := by
  induction h with
  | nil => exact ⟨nofun, rfl⟩
  | @cons p e _ _ he _ ih =>
    obtain ⟨hop, ho, hsays⟩ := he
    refine ⟨?_, ?_⟩
    · intro term hm
      rcases List.mem_cons.1 hm with rfl | hm
      · exact ⟨ho ▸ hop, hsays.balanced⟩
      · exact ih.1 term hm
    · rw [List.flatMap_cons, List.flatMap_cons, ih.2, ho, hsays.bare]

theorem says_of_chain {r : Nat} {label : Text} (h : Lexeme.Row 0 false false body lexemes)
    (hbody : Text.Trimmed body) (hr : Lexeme.loosest? lexemes = some r)
    (hlabel : OperatorTable.standard.groupLabel r = some label) (ho : first.op = [])
    (hfirst : first.Says (Text.written (Lexeme.split r lexemes).1))
    (hmore : List.Forall₂ (fun p e => e.op = p.1 ∧ e.Says (Text.written p.2))
      (Lexeme.split r lexemes).2 more) :
    Says ⟨label, op, first :: more⟩ (Text.written body) := by
  obtain ⟨⟨op', hop'⟩, hle⟩ := Lexeme.loosest?_spec hr
  obtain ⟨hbinary, hrank⟩ := h.rank_of_mem hop'
  obtain ⟨label', hlabel', hbinary', -⟩ := OperatorTable.exists_groupLabel hbinary
  rw [← hrank, hlabel] at hlabel'
  cases hlabel'
  have hpos : 1 ≤ r := hrank ▸ OperatorTable.precedence_pos_iff.2 hbinary
  have hothers := Lexeme.split_ne_nil hop'
  have hne : more ≠ [] := by
    rintro rfl
    exact hothers (List.forall₂_nil_right_iff.1 hmore)
  have hops : ∀ p ∈ (Lexeme.split r lexemes).2, OperatorTable.standard.isBinary p.1 = true :=
    fun p hp => (h.rank_of_mem (Lexeme.operator_of_mem_split hp)).1
  obtain ⟨hterms, hflat⟩ := says_terms ((List.forall₂_and_left _ _).2 ⟨hops, hmore⟩)
  have hkept := h.kept_split hpos hle hbody.2 (b := false) nofun (.inr (.inr hothers)) []
  rw [Text.written, hkept, ← hflat, ← hfirst.bare]
  exact says_chain op hbinary' hne ho hfirst.balanced hterms

/-- A text that is read is balanced, also one whose brackets are taken off without a look at its
quotes. -/
theorem balanced_of_parseLevel {n : Nat} {op s : Text} {e : Expr}
    (h : parseLevel .standard n op s = .ok e) : Balanced s := by
  cases n with
  | zero => cases h
  | succ n =>
    obtain ⟨lexemes, hscan, -⟩ := parseLevel_iff.1 h
    have hrow : Lexeme.Row 0 false false _ lexemes := Lexeme.row_of_scan hscan
    exact Text.balanced_trim.1 (written_stripBrackets hrow.run_self).1

/-- The canonical text of a parsed tree says what is written in its text. -/
theorem says_of_parseLevel {n : Nat} {op s : Text} {e : Expr}
    (h : parseLevel .standard n op s = .ok e) (hempty : ¬ emptyName <:+: s) :
    e.Says (Text.written s) := by
  induction n generalizing op s e with
  | zero => cases h
  | succ n ih =>
    obtain ⟨lexemes, hscan, hlevel⟩ := parseLevel_iff.1 h
    have hbody := trimmed_stripBrackets (Text.trimmed_trim s)
    have hrow : Lexeme.Row 0 false false _ _ := Lexeme.row_of_scan hscan
    obtain ⟨hbalanced, hstrip⟩ := written_stripBrackets hrow.run_self
    rw [← Text.written_trim (Text.balanced_trim.1 hbalanced), ← hstrip]
    -- the reserved word is in no part of the text either
    have hpart : ∀ part, part <:+: stripBrackets (Text.trim s) → ¬ emptyName <:+: part :=
      fun part hp he => hempty (he.trans (hp.trans ((isInfix_stripBrackets _).trans (isInfix_trim s))))
    generalize stripBrackets (Text.trim s) = body at hscan hbody hrow hpart
    have htext := isInfix_text hrow.makeUp
    have hterm := (isInfix_trim (Lexeme.text lexemes)).trans htext
    cases hlevel with
    | leaf hnone hleaf =>
      exact says_of_leaf hrow (Lexeme.loosest?_eq_none_iff.1 hnone) (hpart body (List.infix_refl _))
        hleaf
    | prefixed hnone hprefixed hin =>
      refine says_of_prefixed hrow (Lexeme.loosest?_eq_none_iff.1 hnone) hprefixed
        (ih hin (hpart _ ?_))
      rw [(eq_of_leading? (ofText_prefixed_cases hprefixed)).1] at hterm
      exact (List.suffix_append _ _).isInfix.trans hterm
    | call hnone hcall hin =>
      obtain ⟨hs, ho⟩ := shaped_of_parseLevel hin
      refine says_of_call hrow (Lexeme.loosest?_eq_none_iff.1 hnone)
        (hpart body (List.infix_refl _)) (headName_of_call hbody hscan hcall) hcall hs ho
        (ih hin (hpart _ ?_))
      obtain ⟨-, front, inside, after, hsplit, -, rfl⟩ := ofText_call_cases hcall
      refine (isInfix_trim inside).trans (List.IsInfix.trans ?_ hterm)
      rw [hsplit]
      exact ⟨front ++ ['('], ')' :: after, by simp⟩
    | chain hr hlabel hfirst hmore =>
      obtain ⟨hsplit, hsplits⟩ := isInfix_split _ lexemes
      refine says_of_chain hrow hbody hr hlabel (shaped_of_parseLevel hfirst).2
        (ih hfirst (hpart _ (hsplit.trans htext))) ?_
      have hall := (List.forall₂_and_left _ _).2 ⟨hsplits, hmore⟩
      exact hall.imp fun p e hp =>
        ⟨(shaped_of_parseLevel hp.2).2, ih hp.2 (hpart _ (hp.1.trans htext))⟩

/-- Nothing written is lost, duplicated or reordered: apart from blanks, brackets and the separators
at an end, the canonical text of a tree is the text that it was parsed from. -/
theorem bare_text_of_parse {depth : Nat} {s : Text} {e : Expr}
    (h : parse .standard depth s = .ok e) (hempty : ¬ emptyName <:+: s) :
    Text.written s = Text.bare e.text := (says_of_parseLevel h hempty).bare.symm

theorem bare_text_of_parse_two_members :
    ∃ e, parse .standard 9 "a; f( x, (y) ,) * \"b, c\" ,;".toList = .ok e ∧
      ¬ emptyName <:+: "a; f( x, (y) ,) * \"b, c\" ,;".toList ∧
      e.text = "a;f(x,y)*\"b, c\"".toList ∧
      Text.written "a; f( x, (y) ,) * \"b, c\" ,;".toList = "a;fx,y*\"b, c\"".toList ∧
      Text.written "a; f( x, (y) ,) * \"b, c\" ,;".toList = Text.bare e.text := by
  have hparse : parse .standard 9 "a; f( x, (y) ,) * \"b, c\" ,;".toList = .ok ⟨[';'], [],
      [⟨['a'], [], []⟩, ⟨['*'], [';'], [⟨['f'], [], [⟨['x'], [], []⟩, ⟨['y'], [','], []⟩]⟩,
        ⟨"\"b, c\"".toList, ['*'], []⟩]⟩]⟩ := by
    decide +kernel
  have hempty : ¬ emptyName <:+: "a; f( x, (y) ,) * \"b, c\" ,;".toList := by decide +kernel
  exact ⟨_, hparse, hempty, by decide +kernel, by decide +kernel, bare_text_of_parse hparse hempty⟩

/-- Not only separators that nothing follows are left out: where the last member of a model ends with
a comma, a separator may follow it. -/
theorem exists_followed_ne :
    ∃ e, ofText "a;b,,".toList = .ok e ∧ ¬ emptyName <:+: "a;b,,".toList ∧
      Text.followed "a;b,,".toList ≠ Text.bare e.text := by
  have hparse : ofText "a;b,,".toList = .ok ⟨[';'], [], [⟨['a'], [], []⟩, ⟨['b'], [';'], []⟩]⟩ := by
    decide +kernel
  exact ⟨_, hparse, by decide +kernel, by decide +kernel⟩

/-- Without semicolons the canonical text has every separator that something follows. -/
theorem followed_eq_bare_text {depth : Nat} {s : Text} {e : Expr}
    (h : parse .standard depth s = .ok e) (hempty : ¬ emptyName <:+: s) (hs : ';' ∉ s) :
    Text.followed s = Text.bare e.text := by
  rw [(says_of_parseLevel h hempty).bare]
  refine (Glyph.kept_eq_followed (List.forall_mem_singleton.2 rfl) fun g hg => ?_).symm
  cases hc : (g.isSeparator && g.char = ';') with
  | false => rfl
  | true =>
    rw [Bool.and_eq_true, decide_eq_true_eq] at hc
    exact absurd (hc.2 ▸ Text.mem_of_mem_solid hg) hs

end Expr
end Lineshape
