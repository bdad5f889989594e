import Lineshape.Proofs.Expr.Joined
import Lineshape.Proofs.Expr.Trailing

/-! # A part of a text in exchange for another

What stands between separators of a text can be exchanged for anything else that can be read on its
own and hides its separators: of the terms of the chain only the one in its place is another
(`Expr.IsPart.exists_exchange`). The parts around it need not be known to be expressions; that the
whole text is read says enough about them. -/

namespace Lineshape
set_option autoImplicit false

/-! ## Places in a text -/

/-- What stands in front of a part of a text: nothing, or other parts with a separator behind them. -/
inductive Text.Before (separator : Char) : Bool → Text → Prop
  | nothing : Before separator false []
  | parts {front blanks : Text} : Balanced front → (∀ c ∈ blanks, isBlank c = true) →
    Before separator true (front ++ separator :: blanks)

/-- What stands behind a part of a text: nothing, a separator at the end of the text, which is left out,
or a separator and other parts. -/
inductive Text.Behind (separator : Char) : Bool → Text → Prop
  | nothing : Behind separator false []
  | dropped {blanks : Text} {c : Char} : (∀ c ∈ blanks, isBlank c = true) →
    Lexeme.isSeparator c = true → Behind separator false (blanks ++ [c])
  | parts {blanks rest : Text} : (∀ c ∈ blanks, isBlank c = true) → rest ≠ [] →
    Behind separator true (blanks ++ separator :: rest)

/-- What stands around a part of a text that has other parts. -/
def Text.Between (separator : Char) (front behind : Text) : Prop :=
  ∃ f g, Before separator f front ∧ Behind separator g behind ∧ (f || g) = true

theorem Balanced.of_append {s t : Text} (h : Balanced (s ++ t)) (hs : Balanced s) : Balanced t := by
  rw [Balanced, Nesting.run_append, hs] at h
  exact h

theorem Sealed.of_append {c : Char} {s t : Text} (h : Sealed c (s ++ t)) (hs : Balanced s) :
    Sealed c s ∧ Sealed c t where
  left := by
    refine ⟨hs, ?_⟩
    rintro front back rfl
    exact h.hidden front (back ++ t) (by simp)
  right := by
    refine ⟨h.balanced.of_append hs, ?_⟩
    rintro front back rfl hfront
    exact h.hidden (s ++ front) back (by simp) (hs.append hfront)

theorem Balanced.separator {c : Char} (h : Lexeme.isSeparator c = true) : Balanced [c] := by
  rcases Lexeme.isSeparator_iff.1 h with rfl | rfl <;> rfl

theorem Text.Before.eq_false {separator : Char} {f : Bool} {front : Text} (h : Before separator f front)
    (hfront : front = []) : f = false := by
  cases h with
  | nothing => rfl
  | parts => exact absurd hfront (by simp)

theorem Text.Before.balanced {separator : Char} {f : Bool} {front : Text}
    (hsep : Lexeme.isSeparator separator = true) (h : Before separator f front) : Balanced front := by
  cases h with
  | nothing => exact Balanced.nil
  | parts hfront hblanks =>
    exact hfront.append ((Balanced.separator hsep).append (Text.run_blanks hblanks 0 false))

/-! ## What another text in the place of a part keeps -/

/-- A text that can stand where another one stands: it begins and ends like that one or with brackets,
and hides the separators that that one hides. -/
structure Text.Keeps (s s' : Text) : Prop where
  first : s'.head? = s.head? ∨ s'.head? = some '('
  last : s'.getLast? = s.getLast? ∨ s'.getLast? = some ')'
  hidden : ∀ c, Lexeme.isSeparator c = true → Sealed c s → Sealed c s'

namespace Text

variable {s s' front behind : Text}

theorem Keeps.refl (s : Text) : Keeps s s := ⟨.inl rfl, .inl rfl, fun _ _ h => h⟩

theorem keeps_brackets (s : Text) (h : Balanced s') : Keeps s ('(' :: s' ++ [')']) where
  first := .inr rfl
  last := .inr (List.getLast?_concat ..)
  hidden _ hc _ := .bracketed h hc

theorem Keeps.ne_nil (h : Keeps s s') (hne : s ≠ []) : s' ≠ [] := by
  rintro rfl
  rcases h.first with hfirst | hfirst
  · exact hne (List.head?_eq_none_iff.1 hfirst.symm)
  · cases hfirst

theorem Keeps.trimmed (h : Keeps s s') (htrim : Trimmed s) : Trimmed s' where
  left c hc := by
    rcases h.first with hfirst | hfirst
    · exact htrim.left c (hfirst ▸ hc)
    · rw [hfirst] at hc
      cases hc
      decide
  right c hc := by
    rcases h.last with hlast | hlast
    · exact htrim.right c (hlast ▸ hc)
    · rw [hlast] at hc
      cases hc
      decide

theorem Keeps.closed (h : Keeps s s') (hclosed : ∀ c ∈ s.getLast?, Lexeme.isSeparator c = false) :
    ∀ c ∈ s'.getLast?, Lexeme.isSeparator c = false := by
  intro c hc
  rcases h.last with hlast | hlast
  · exact hclosed c (hlast ▸ hc)
  · rw [hlast] at hc
    cases hc
    decide

/-- What stands around the part does not matter. -/
theorem Keeps.around (h : Keeps s s') (hne : s ≠ []) (hs : Balanced s) (hfront : Balanced front) :
    Keeps (front ++ s ++ behind) (front ++ s' ++ behind) where
  first := by
    have hne' := h.ne_nil hne
    cases front with
    | nil =>
      rw [List.nil_append, List.nil_append, List.head?_append_of_ne_nil s hne,
        List.head?_append_of_ne_nil s' hne']
      exact h.first
    | cons c front => exact .inl rfl
  last := by
    have hne' := h.ne_nil hne
    rcases List.eq_nil_or_concat behind with rfl | ⟨behind, c, rfl⟩
    · rw [List.append_nil, List.append_nil, List.getLast?_append_of_ne_nil front hne,
        List.getLast?_append_of_ne_nil front hne']
      exact h.last
    · left
      rw [List.concat_eq_append, ← List.append_assoc, ← List.append_assoc, List.getLast?_concat,
        List.getLast?_concat]
  hidden c hc hsealed := by
    rw [List.append_assoc] at hsealed ⊢
    obtain ⟨hbefore, hrest⟩ := hsealed.of_append hfront
    obtain ⟨hpart, hafter⟩ := hrest.of_append hs
    exact hbefore.append ((h.hidden c hc hpart).append hafter)

end Text

namespace Lexeme

variable {t : OperatorTable} {a b c : Cursor} {s : Text} {lexemes : List Lexeme} {separator : Char}

/-! ## Scanning around a part -/

/-- Cursors that are alike scan alike. -/
theorem scan_congr (hab : a.Alike b) (h : scan t a s = .ok lexemes) : scan t b s = .ok lexemes := by
  have hquote : ∀ {a b : Cursor}, a.Alike b → ¬ a.quoted.isSome = true → ¬ b.quoted.isSome = true :=
    fun hab hq hb => hq (hab.quoted.trans hb)
  rw [scan_eq_ok] at h ⊢
  induction h generalizing b with
  | done ho hq => exact .done (hab.opened_eq_nil ho) (hab.quoted_eq_none hq)
  | separator hq hnote htop hsep =>
    obtain ⟨cursor', hnote', halike⟩ := hab.note hnote
    rw [halike.isTopLevel] at htop
    exact .separator (hquote hab hq) hnote' htop hsep
  | @quoted a c rest back hq _ ih => exact .quoted (hab.quoted ▸ hq) (ih (hab.stepQuoted c))
  | @one a cursor c d rest back hq hnote htop hlong _ ih =>
    obtain ⟨cursor', hnote', halike⟩ := hab.note hnote
    rw [halike.isTopLevel] at htop
    rw [halike.afterTerm] at hlong ⊢
    exact .one (hquote hab hq) hnote' htop hlong (ih (halike.skip [c] false))
  | @two a cursor c d rest back hq hnote htop hlong hne _ ih =>
    obtain ⟨cursor', hnote', halike⟩ := hab.note hnote
    rw [halike.isTopLevel] at htop
    rw [halike.afterTerm] at hlong hne ⊢
    exact .two (hquote hab hq) hnote' htop hlong hne (ih (halike.skip [c, d] false))
  | @letter a cursor c rest back hq hnote htop _ ih =>
    obtain ⟨cursor', hnote', halike⟩ := hab.note hnote
    rw [halike.isTopLevel] at htop
    exact .letter (hquote hab hq) hnote' htop (ih (halike.advance c))

theorem Leads.nil (a : Cursor) : Leads a [] a := fun d rest _ => Reads.nil a (d :: rest)

theorem exists_mayFollow {blanks : Text} {d : Char} (hblanks : ∀ c ∈ blanks, Text.isBlank c = true)
    (hd : OperatorTable.MayFollow d) (rest : Text) :
    ∃ d' rest', blanks ++ d :: rest = d' :: rest' ∧ OperatorTable.MayFollow d' := by
  cases blanks with
  | nil => exact ⟨d, rest, rfl, hd⟩
  | cons x blanks =>
    exact ⟨x, _, rfl, Phrase.mayFollow_of_not_isSymbol
      (OperatorTable.isSymbol_of_isBlank (hblanks x List.mem_cons_self))⟩

/-- Blanks in front of a part. -/
theorem Leads.blanks {blanks : Text} (h : Leads a lexemes b)
    (hblanks : ∀ c ∈ blanks, Text.isBlank c = true) (hread : Reads .standard b blanks (blanks.map letter) c) :
    Leads a (lexemes ++ blanks.map letter) c := by
  intro d rest hd
  obtain ⟨d', rest', hrest, hd'⟩ := exists_mayFollow hblanks hd rest
  rw [text_append, text_map_letter, List.append_assoc, hrest, h d' rest' hd', ← hrest, hread,
    map_append_map]

/-- A row that ends with a separator, or is empty. -/
inductive Opens (separator : Char) : Bool → List Lexeme → Prop
  | nothing : Opens separator false []
  | parts (front : List Lexeme) : Opens separator true
    (front ++ [operator [separator] (OperatorTable.standard.precedence [separator])])

/-- A row that begins with a separator, or is empty. -/
inductive Closes (separator : Char) : Bool → List Lexeme → Prop
  | nothing : Closes separator false []
  | parts (rest : List Lexeme) : Closes separator true
    (operator [separator] (OperatorTable.standard.precedence [separator]) :: rest)

/-- The scan of what stands in front of a part does not depend on the part. -/
theorem exists_opens {f : Bool} {front rest : Text} {d : Char} (hsep : isSeparator separator = true)
    (hfront : Text.Before separator f front)
    (h : scan .standard {} (front ++ d :: rest) = .ok lexemes) :
    ∃ (before : List Lexeme) (blanks : Text) (a : Cursor), Opens separator f before ∧ a.Fresh ∧
      text (before ++ blanks.map letter) = front ∧ (∀ c ∈ blanks, Text.isBlank c = true) ∧
      Leads {} (before ++ blanks.map letter) a := by
  cases hfront with
  | nothing => exact ⟨[], [], {}, .nothing, Cursor.fresh_start, rfl, nofun, .nil {}⟩
  | @parts front blanks hbalanced hblanks =>
    rw [List.append_assoc] at h
    have hrow : Row 0 false false _ _ := row_of_scan h
    rcases hrow.at_balanced hsep hbalanced with ⟨hnil, -⟩ | ⟨inside, back, rfl, rfl, -⟩
    · exact absurd hnil (by simp)
    · obtain ⟨a, q, hresumes⟩ := exists_resumes h
      obtain ⟨b, hb, hread⟩ := reads_blanks hblanks hresumes.fresh
      refine ⟨_, blanks, b, .parts inside, hb, ?_, hblanks, hresumes.leads.blanks hblanks hread⟩
      rw [text_append, text_append, text_map_letter, List.append_assoc]
      rfl

theorem exists_settled_blanks {blanks : Text} (hblanks : ∀ c ∈ blanks, Text.isBlank c = true)
    (ha : a.Settled) : ∃ b, Reads .standard a blanks (blanks.map letter) b ∧ b.Settled := by
  induction blanks generalizing a with
  | nil => exact ⟨a, .nil a, ha⟩
  | cons c blanks ih =>
    have hc := hblanks c List.mem_cons_self
    obtain ⟨hquote, hopen, hclose⟩ := Text.ne_of_isBlank hc
    have hone := reads_letter (t := .standard) ha.quoted (a.note_plain c hquote hopen hclose)
      (by rw [OperatorTable.isSymbol_of_isBlank hc, Bool.and_false])
    obtain ⟨b, hread, hb⟩ := ih (a := (a.fed c).advance c)
      (fun d hd => hblanks d (List.mem_cons_of_mem c hd))
      ⟨ha.opened, ha.quoted, Bool.or_eq_true_iff.2 (.inl ha.afterTerm)⟩
    exact ⟨b, hone.cons hread, hb⟩

/-- Behind a term a separator is scanned alike, whatever the term was. -/
theorem scan_separator_congr {rest : Text} (hsep : isSeparator separator = true) (ha : a.Settled)
    (hb : b.Settled) (h : scan .standard a (separator :: rest) = .ok lexemes) :
    scan .standard b (separator :: rest) = .ok lexemes ∧ (rest ≠ [] → Closes separator true lexemes) := by
  obtain ⟨hsymbol, hplus, hminus⟩ := isSymbol_of_isSeparator hsep
  have hfed : ∀ {a : Cursor}, a.Settled → ¬ a.quoted.isSome = true ∧
      ((a.fed separator).isTopLevel && OperatorTable.standard.isSymbol separator) = true ∧
      (a.fed separator).afterTerm = true ∧ ((a.fed separator).skip [separator] false).Fresh := by
    intro a ha
    have hnumber : (a.fed separator).number = .outside :=
      feed_symbol hsymbol fun h => (h.elim hplus hminus).elim
    have hcont := (OperatorTable.symbol_facts hsymbol).2.2.2.2.2.2.2.2
    refine ⟨by simp [ha.quoted], ?_, ha.afterTerm, ?_⟩
    · rw [isTopLevel_of_outside (a := a.fed separator) ha.opened hnumber, hsymbol]
      rfl
    · exact fresh_skip ha.opened ha.quoted hnumber rfl hcont
  obtain ⟨hqa, htopa, haftera, hfresha⟩ := hfed ha
  obtain ⟨hqb, htopb, hafterb, hfreshb⟩ := hfed hb
  cases rest with
  | nil =>
    rw [scan_separator ha.opened ha.quoted hsep] at h
    cases h
    exact ⟨scan_separator hb.opened hb.quoted hsep, fun hne => absurd rfl hne⟩
  | cons d rest =>
    have hone : OperatorTable.standard.longest? OperatorTable.standard.isBinary separator d =
        some .one := by
      have hbinary : OperatorTable.standard.isBinary [separator] = true := by
        rcases isSeparator_iff.1 hsep with rfl | rfl <;> decide
      have htwo : OperatorTable.standard.isBinary [separator, d] = false := by
        rw [← Bool.not_eq_true]
        intro htwo
        have hlength := congrArg List.length (eq_of_mem_operator hsep htwo List.mem_cons_self)
        simp at hlength
      rw [OperatorTable.longest?, htwo, hbinary, Bool.and_false]
      rfl
    rw [scan_one hqa (note_symbol hsymbol) htopa (by rwa [haftera])] at h
    rw [scan_one hqb (note_symbol hsymbol) htopb (by rwa [hafterb])]
    rw [haftera] at h
    rw [hafterb]
    obtain ⟨back, hback, rfl⟩ := exists_of_map _ h
    rw [scan_congr (hfresha.alike hfreshb) hback]
    exact ⟨rfl, fun _ => .parts back⟩

/-- The scan of what stands behind a part does not depend on the part. -/
theorem exists_closes {g : Bool} {behind : Text} (hsep : isSeparator separator = true)
    (hbehind : Text.Behind separator g behind) (ha : a.Settled)
    (h : scan .standard a behind = .ok lexemes) :
    ∃ (blanks : Text) (after : List Lexeme), lexemes = blanks.map letter ++ after ∧ Closes separator g after ∧
      (∀ c ∈ blanks, Text.isBlank c = true) ∧
      ∀ b : Cursor, b.Settled → scan .standard b behind = .ok lexemes := by
  cases hbehind with
  | nothing =>
    have hnil : ∀ b : Cursor, b.Settled → scan .standard b [] = .ok [] := fun b hb =>
      (Reads.nil b).scan_eq hb
    cases h.symm.trans (hnil a ha)
    exact ⟨[], [], rfl, .nothing, nofun, hnil⟩
  | @dropped blanks c hblanks hc =>
    have hdropped : ∀ b : Cursor, b.Settled →
        scan .standard b (blanks ++ [c]) = .ok (blanks.map letter) := fun b hb => by
      have hread := (Reads.nil (t := .standard) b).scan_separator hb.opened hb.quoted hblanks hc
      rwa [List.nil_append, List.nil_append] at hread
    cases h.symm.trans (hdropped a ha)
    exact ⟨blanks, [], (List.append_nil _).symm, .nothing, hblanks, hdropped⟩
  | @parts blanks rest hblanks hrest =>
    obtain ⟨a', hread, ha'⟩ := exists_settled_blanks hblanks ha
    rw [hread] at h
    obtain ⟨after, hafter, rfl⟩ := exists_of_map _ h
    refine ⟨blanks, after, rfl, (scan_separator_congr hsep ha' ha' hafter).2 hrest, hblanks,
      fun b hb => ?_⟩
    obtain ⟨b', hread', hb'⟩ := exists_settled_blanks hblanks hb
    rw [hread', (scan_separator_congr hsep ha' hb' hafter).1]
    rfl

/-! ## The terms of a level -/

/-- The terms of a row with the operators before them, the first one without. -/
def termsOf (r : Nat) (lexemes : List Lexeme) : List (Text × Text) :=
  ([], (split r lexemes).1) :: (split r lexemes).2

theorem termsOf_append {r : Nat} {front back : List Lexeme} {op : Text} :
    termsOf r (front ++ operator op r :: back) =
      termsOf r front ++ (op, (split r back).1) :: (split r back).2 := by
  rw [termsOf, split_append]
  rfl

/-- Between separators a row without separators is one of the terms, and the others do not depend on
it. -/
theorem exists_termsOf {f g : Bool} {before after : List Lexeme} (hbefore : Opens separator f before)
    (hafter : Closes separator g after) :
    ∃ front op back, (f = false → front = []) ∧ ∀ inside : List Lexeme,
      (∀ op k, operator op k ∈ inside → k ≠ OperatorTable.standard.precedence [separator]) →
      termsOf (OperatorTable.standard.precedence [separator]) (before ++ inside ++ after) =
        front ++ (op, text inside) :: back := by
  have hinside : ∀ inside : List Lexeme,
      (∀ op k, operator op k ∈ inside → k ≠ OperatorTable.standard.precedence [separator]) →
      split (OperatorTable.standard.precedence [separator]) inside = (text inside, []) :=
    fun inside h => split_of_ne h
  cases hbefore with
  | nothing =>
    cases hafter with
    | nothing =>
      refine ⟨[], [], [], fun _ => rfl, fun inside h => ?_⟩
      rw [List.nil_append, List.append_nil, termsOf, hinside inside h]
      rfl
    | parts rest =>
      refine ⟨[], [],
        ([separator], (split (OperatorTable.standard.precedence [separator]) rest).1) ::
          (split (OperatorTable.standard.precedence [separator]) rest).2,
        fun _ => rfl, fun inside h => ?_⟩
      rw [List.nil_append, termsOf_append, termsOf, hinside inside h]
      rfl
  | parts front =>
    cases hafter with
    | nothing =>
      refine ⟨termsOf (OperatorTable.standard.precedence [separator]) front, [separator], [],
        nofun, fun inside h => ?_⟩
      rw [List.append_nil, List.append_assoc, List.singleton_append, termsOf_append,
        hinside inside h]
    | parts rest =>
      refine ⟨termsOf (OperatorTable.standard.precedence [separator]) front, [separator],
        ([separator], (split (OperatorTable.standard.precedence [separator]) rest).1) ::
          (split (OperatorTable.standard.precedence [separator]) rest).2,
        nofun, fun inside h => ?_⟩
      rw [List.append_assoc, List.append_assoc, List.singleton_append, termsOf_append, split_append,
        hinside inside h]
      rfl

/-- Next to other parts a separator is among the lexemes. -/
theorem mem_of_opens {f g : Bool} {before after : List Lexeme} (hbefore : Opens separator f before)
    (hafter : Closes separator g after) (hparts : (f || g) = true) (inside : List Lexeme) :
    operator [separator] (OperatorTable.standard.precedence [separator]) ∈
      before ++ inside ++ after := by
  cases hbefore with
  | nothing =>
    cases hafter with
    | nothing => cases hparts
    | parts rest => exact List.mem_append_right _ List.mem_cons_self
  | parts front => simp

end Lexeme

namespace Expr

variable {n k : Nat} {op s : Text} {e tree : Expr} {separator : Char} {front behind : Text}

/-- However many levels are allowed, a text is read as one tree. -/
theorem parseLevel_unique {t : OperatorTable} {e' : Expr} (h : parseLevel t n op s = .ok e)
    (h' : parseLevel t k op s = .ok e') : e' = e :=
  Except.ok.inj ((parseLevel_le h' (Nat.le_max_right n k)).symm.trans
    (parseLevel_le h (Nat.le_max_left n k)))

theorem level_chain_iff {t : OperatorTable} {lexemes : List Lexeme} {r : Nat} {label : Text}
    (hr : Lexeme.loosest? lexemes = some r) (hlabel : t.groupLabel r = some label) :
    Level t n op lexemes tree ↔ ∃ terms, tree = ⟨label, op, terms⟩ ∧
      List.Forall₂ (fun p e => parseLevel t n p.1 p.2 = .ok e) (Lexeme.termsOf r lexemes) terms := by
  constructor
  · intro h
    obtain ⟨_, first, more, rfl, hlabel', hfirst, hmore⟩ := h.exists_chain hr
    cases hlabel.symm.trans hlabel'
    exact ⟨_, rfl, .cons hfirst hmore⟩
  · rintro ⟨terms, rfl, hterms⟩
    obtain ⟨first, more, hfirst, hmore, rfl⟩ := List.forall₂_cons_left_iff.1 hterms
    exact .chain hr hlabel hfirst hmore

/-- What stands around a part is scanned alike whatever the part is. -/
theorem exists_scan_exchange {lexemes : List Lexeme} (hsep : Lexeme.isSeparator separator = true)
    (hbetween : Text.Between separator front behind) (hs : Stands separator n s e)
    (h : Lexeme.scan .standard {} (front ++ s ++ behind) = .ok lexemes) :
    ∃ (before after : List Lexeme) (blanks blanks' : Text) (f g : Bool),
      (front = [] → f = false) ∧ Lexeme.Opens separator f before ∧ Lexeme.Closes separator g after ∧
      (f || g) = true ∧ (∀ c ∈ blanks, Text.isBlank c = true) ∧ (∀ c ∈ blanks', Text.isBlank c = true) ∧
      ∀ {n : Nat} {s : Text} {e : Expr}, Stands separator n s e →
        ∃ inside, Lexeme.Row 0 false false s inside ∧ Lexeme.text inside = s ∧
          Lexeme.scan .standard {} (front ++ s ++ behind) = .ok
            (before ++ (blanks.map .letter ++ inside ++ blanks'.map .letter) ++ after) := by
  obtain ⟨f, g, hfront, hbehind, hparts⟩ := hbetween
  have hsplit : ∀ {c : Char} {rest : Text},
      front ++ (c :: rest) ++ behind = front ++ c :: (rest ++ behind) := by simp
  obtain ⟨c, rest, hc, hfollow⟩ := hs.mayFollow
  rw [hc, hsplit] at h
  obtain ⟨before, blanks, a, hopens, ha, htext, hblanks, hleads⟩ := Lexeme.exists_opens hsep hfront h
  rw [← htext, hleads _ _ hfollow] at h
  obtain ⟨back, hback, -⟩ := Lexeme.exists_of_map _ h
  obtain ⟨inside, b, hread, hb⟩ :=
    exists_settled_of_parseLevel hs.parse hs.trimmed hs.nonEmpty hs.closed ha
  rw [← List.cons_append, ← hc, hread] at hback
  obtain ⟨after, hafter, -⟩ := Lexeme.exists_of_map _ hback
  obtain ⟨blanks', after, rfl, hcloses, hblanks', hscan⟩ := Lexeme.exists_closes hsep hbehind hb hafter
  refine ⟨before, after, blanks, blanks', f, g, hfront.eq_false, hopens, hcloses, hparts, hblanks, hblanks', ?_⟩
  intro n s e hs
  obtain ⟨inside, b, hread, hb⟩ :=
    exists_settled_of_parseLevel hs.parse hs.trimmed hs.nonEmpty hs.closed ha
  have hinside := hread.scan_eq hb
  have hrow := Lexeme.row_of_scan hinside
  rw [ha.opened, ha.quoted, ha.afterTerm] at hrow
  refine ⟨inside, hrow, Lexeme.text_of_closed hinside hs.closed, ?_⟩
  obtain ⟨c, rest, rfl, hfollow⟩ := hs.mayFollow
  rw [hsplit, ← htext, hleads _ _ hfollow, ← List.cons_append, hread, hscan b hb]
  simp [Except.map]

/-- Next to other parts no brackets are taken off. -/
theorem stripBrackets_between (hsep : Lexeme.isSeparator separator = true)
    (hbetween : Text.Between separator front behind) (hs : Balanced s) (hne : s ≠ [])
    (h : Balanced (front ++ s ++ behind)) :
    stripBrackets (front ++ s ++ behind) = front ++ s ++ behind := by
  obtain ⟨f, g, hfront, hbehind, hparts⟩ := hbetween
  cases hfront with
  | @parts first blanks hfirst _ =>
    rw [List.append_assoc, List.append_assoc] at h ⊢
    cases first with
    | nil =>
      refine stripBrackets_of_head ?_
      rintro ⟨⟩
      cases hsep
    | cons c first =>
      exact stripBrackets_append (List.cons_ne_nil c first) (List.cons_ne_nil _ _)
        (h.of_append hfirst)
  | nothing =>
    cases hbehind with
    | nothing => cases hparts
    | dropped => cases hparts
    | parts =>
      rw [List.nil_append] at h ⊢
      exact stripBrackets_append hne (List.append_ne_nil_of_right_ne_nil _ (List.cons_ne_nil _ _))
        (h.of_append hs)

/-- Whatever part stands there, the level is a chain with this part as the same one of its terms. -/
theorem exists_level_exchange {lexemes : List Lexeme} (hsep : Lexeme.isSeparator separator = true)
    (hbetween : Text.Between separator front behind) (hs : Stands separator n s e)
    (h : Lexeme.scan .standard {} (front ++ s ++ behind) = .ok lexemes) :
    ∃ (before after : List (Text × Text)) (o : Text), (front = [] → before = []) ∧
      ∀ {n : Nat} {s : Text} {e : Expr}, Stands separator n s e →
      (separator = ';' ∨ Sealed ';' (front ++ s ++ behind)) →
      ∃ lexemes part, Lexeme.scan .standard {} (front ++ s ++ behind) = .ok lexemes ∧
        Lexeme.loosest? lexemes = some (OperatorTable.standard.precedence [separator]) ∧
        Lexeme.termsOf (OperatorTable.standard.precedence [separator]) lexemes =
          before ++ (o, part) :: after ∧
        parseLevel .standard n o part = .ok (e.withOp o) := by
  obtain ⟨opening, closing, blanks, blanks', f, g, hnothing, hopens, hcloses, hparts, hblanks, hblanks',
    hexchange⟩ := exists_scan_exchange hsep hbetween hs h
  obtain ⟨before, o, after, hfirst, hterms⟩ := Lexeme.exists_termsOf hopens hcloses
  refine ⟨before, after, o, fun hfront => hfirst (hnothing hfront), ?_⟩
  intro n s e hs hlow
  obtain ⟨inside, hinside, htext, hscan⟩ := hexchange hs
  have hrow := Lexeme.row_of_scan hscan
  refine ⟨_, blanks ++ s ++ blanks', hscan, hrow.loosest?_separator hsep
    (Lexeme.mem_of_opens hopens hcloses hparts _) (hlow.imp_right hrow.no_separator), ?_, ?_⟩
  · rw [hterms, Lexeme.text_append, Lexeme.text_append, Lexeme.text_map_letter,
      Lexeme.text_map_letter, htext]
    intro op rank hm
    have hm' : Lexeme.operator op rank ∈ inside := by simpa using hm
    obtain ⟨hbinary, hrank⟩ := hinside.rank_of_mem hm'
    rintro rfl
    cases Lexeme.eq_of_precedence hsep hbinary hrank.symm
    exact hinside.no_separator hs.toSealed _ hm'
  · have hparse := parseLevel_withOp hs.parse o
    cases n with
    | zero => cases hparse
    | succ n =>
      rw [← hparse]
      refine parseLevel_congr ?_
      rw [Text.trim_append_blanks hblanks', Text.trim_blanks_append hblanks]

/-- Between `front` and `behind` stands one of several parts of a text, which is read as `e`. -/
structure IsPart (separator : Char) (front s behind : Text) (e : Expr) : Prop where
  stands : ∃ n, Stands separator n s e
  between : Text.Between separator front behind
  trimmed : Text.Trimmed (front ++ s ++ behind)
  low : separator = ';' ∨ Sealed ';' (front ++ s ++ behind)

/-- The part behind a separator that is the last one; all that it has to be can be checked. -/
theorem exists_isPart_last {P : Expr → Bool} (separator : Char) (front s : Text)
    (hparse : (parseLevel .standard 9 [] s).toOption.any P = true)
    (h : Text.Trimmed front ∧ front ≠ [] ∧ Balanced front ∧ Text.Trimmed s ∧ s ≠ [] ∧ Sealed separator s ∧
      s.getLast?.any Lexeme.isSeparator = false ∧
      (separator = ';' ∨ Sealed ';' (front ++ [separator] ++ s ++ []))) :
    ∃ e, IsPart separator (front ++ [separator]) s [] e ∧ P e = true := by
  obtain ⟨htrim, hfront, hbalanced, htrim', hne, hsealed, hclosed, hlow⟩ := h
  obtain ⟨e, he, hP⟩ := Result.exists_of_any hparse
  have hlast : ∀ c ∈ s.getLast?, Lexeme.isSeparator c = false := by
    intro c hc
    rw [hc] at hclosed
    exact hclosed
  refine ⟨e, ⟨⟨9, ⟨⟨hsealed, hne, hlast⟩, htrim', he⟩⟩, ?_, ?_, hlow⟩, hP⟩
  · exact ⟨true, false, .parts hbalanced nofun, .nothing, rfl⟩
  · rw [List.append_nil, List.append_assoc]
    exact htrim.around htrim' hfront hne [separator]

theorem Stands.keeps {s' : Text} {e' : Expr} (hs : Stands separator n s e) (hkeeps : s.Keeps s')
    (hsep : Lexeme.isSeparator separator = true) (h : parseLevel .standard k [] s' = .ok e') :
    Stands separator k s' e' where
  toSealed := hkeeps.hidden separator hsep hs.toSealed
  nonEmpty := hkeeps.ne_nil hs.nonEmpty
  closed := hkeeps.closed hs.closed
  trimmed := hkeeps.trimmed hs.trimmed
  parse := h

/-- What stands around a part is kept when another text that can be read takes its place. -/
theorem IsPart.keeps {s' : Text} (hpart : IsPart separator front s behind e)
    (hsep : Lexeme.isSeparator separator = true) (hkeeps : s.Keeps s') :
    (front ++ s ++ behind).Keeps (front ++ s' ++ behind) := by
  obtain ⟨⟨n, hs⟩, ⟨f, -, hbefore, -⟩, -, -⟩ := hpart
  exact hkeeps.around hs.nonEmpty hs.balanced (hbefore.balanced hsep)

/-- A part of a text is read as a term of its own, and in exchange for it another text that can be read
gives another term and leaves the others as they are. -/
theorem IsPart.exists_exchange (hpart : IsPart separator front s behind e)
    (hsep : Lexeme.isSeparator separator = true)
    (h : parseLevel .standard k op (front ++ s ++ behind) = .ok tree) :
    ∃ (terms terms' : List Expr) (o : Text), (front = [] → terms = []) ∧
      tree = ⟨[separator], op, terms ++ e.withOp o :: terms'⟩ ∧
      ∀ {n' : Nat} {s' : Text} {e' : Expr}, s.Keeps s' → parseLevel .standard n' [] s' = .ok e' →
        ∃ k', parseLevel .standard k' op (front ++ s' ++ behind) =
          .ok ⟨[separator], op, terms ++ e'.withOp o :: terms'⟩ := by
  have haround : ∀ s', s.Keeps s' → (front ++ s ++ behind).Keeps (front ++ s' ++ behind) :=
    fun _ => hpart.keeps hsep
  obtain ⟨⟨n, hs⟩, hbetween, htrim, hlow⟩ := hpart
  have hwhole := balanced_of_parseLevel h
  have hlabel := Lexeme.groupLabel_separator hsep
  cases k with
  | zero => cases h
  | succ k =>
    obtain ⟨lexemes, hscan, hlevel⟩ := parseLevel_iff.1 h
    rw [htrim.trim_eq, stripBrackets_between hsep hbetween hs.balanced hs.nonEmpty hwhole] at hscan
    obtain ⟨before, after, o, hnothing, hexchange⟩ := exists_level_exchange hsep hbetween hs hscan
    obtain ⟨lexemes', part, hscan', hloosest, hterms, hpart⟩ := hexchange hs hlow
    cases hscan.symm.trans hscan'
    obtain ⟨terms, rfl, hall⟩ := (level_chain_iff hloosest hlabel).1 hlevel
    rw [hterms] at hall
    obtain ⟨terms, rest, rfl, hfront, hrest⟩ := Result.forall₂_append_left hall
    obtain ⟨first, terms', hfirst, hback, rfl⟩ := List.forall₂_cons_left_iff.1 hrest
    cases parseLevel_unique hpart hfirst
    have hterms : front = [] → terms = [] := by
      rintro rfl
      cases hnothing rfl
      cases hfront
      rfl
    refine ⟨terms, terms', o, hterms, rfl, ?_⟩
    intro n' s' e' hkeeps h'
    have hs' := hs.keeps hkeeps hsep h'
    have hwhole' : Balanced (front ++ s' ++ behind) := by
      obtain ⟨f, -, hbefore, -⟩ := hbetween
      have hfront := hbefore.balanced hsep
      rw [List.append_assoc] at hwhole ⊢
      exact hfront.append (hs'.balanced.append ((hwhole.of_append hfront).of_append hs.balanced))
    obtain ⟨lexemes', part', hscan', hloosest', hterms', hpart'⟩ :=
      hexchange hs' (hlow.imp_right ((haround s' hkeeps).hidden ';' rfl))
    refine ⟨max k n' + 1, parseLevel_iff.2 ⟨lexemes', ?_, ?_⟩⟩
    · rw [((haround s' hkeeps).trimmed htrim).trim_eq,
        stripBrackets_between hsep hbetween hs'.balanced hs'.nonEmpty hwhole']
      exact hscan'
    · refine (level_chain_iff hloosest' hlabel).2 ⟨_, rfl, ?_⟩
      rw [hterms']
      have hle : ∀ {p : Text × Text} {x : Expr}, parseLevel .standard k p.1 p.2 = .ok x →
          parseLevel .standard (max k n') p.1 p.2 = .ok x := fun h => parseLevel_le h (Nat.le_max_left k n')
      exact List.rel_append (hfront.imp fun _ _ => hle)
        (.cons (parseLevel_le hpart' (Nat.le_max_right k n')) (hback.imp fun _ _ => hle))

end Expr
end Lineshape
