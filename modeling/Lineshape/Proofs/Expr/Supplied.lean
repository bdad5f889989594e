import Lineshape.Proofs.Expr.Partners
import Lineshape.Proofs.Expr.Written

/-! # Operators and their operands

A separator at the end of a text, or before a closing bracket, is left out without a look at what
stands in front of it. If a term stands there, and no brackets are empty, every operator gets its
operands: no leaf of an accepted text stands for nothing (`Expr.filled_of_parse`), and the canonical
text has every separator that something follows (`Expr.followed_eq_bare_text_of_not_stray`). If an
operator stands there, it is accepted without an operand behind it (`Expr.exists_missing_operand`).

The condition on the text is about neighbours in its solid part, so each level below a text inherits
it (`Text.Supplied.inherit`). -/

namespace Lineshape
set_option autoImplicit false

/-! ## Separators without a term in front -/

namespace Glyph

/-- Whether a term can end with a glyph: it is quoted, or neither a symbol nor an opening
bracket. -/
def endsTerm (g : Glyph) : Bool :=
  g.quoted || !(OperatorTable.standard.isSymbol g.char || g.char = '(')

/-- A separator at an end has no term in front of it. -/
def Stray (glyphs : List Glyph) : Prop :=
  ∃ front g back, glyphs = front ++ g :: back ∧ g.isSeparator = true ∧ ends back = true ∧
    ∀ x ∈ front.getLast?, x.endsTerm = false

/-- Search for a separator at an end without a term in front of it. -/
def isStray (term : Bool) : List Glyph → Bool
  | [] => false
  | g :: rest => (!term && g.isSeparator && ends rest) || isStray g.endsTerm rest

theorem isStray_iff {term : Bool} {glyphs : List Glyph} : isStray term glyphs = true ↔
    ∃ front g back, glyphs = front ++ g :: back ∧ g.isSeparator = true ∧ ends back = true ∧
      front.getLast?.elim term endsTerm = false := by
  induction glyphs generalizing term with
  | nil => simp [isStray]
  | cons g rest ih =>
    rw [isStray, Bool.or_eq_true, ih, Bool.and_eq_true, Bool.and_eq_true, Bool.not_eq_true']
    constructor
    · rintro (⟨⟨hterm, hg⟩, hends⟩ | ⟨front, g', back, rfl, hg, hends, hlast⟩)
      · exact ⟨[], g, rest, rfl, hg, hends, hterm⟩
      · refine ⟨g :: front, g', back, rfl, hg, hends, ?_⟩
        cases front with
        | nil => exact hlast
        | cons x front =>
          rw [List.getLast?_cons_cons]
          rwa [List.getLast?_cons] at hlast ⊢
    · rintro ⟨front, g', back, hsplit, hg, hends, hlast⟩
      cases front with
      | nil =>
        cases hsplit
        exact .inl ⟨⟨hlast, hg⟩, hends⟩
      | cons x front =>
        cases hsplit
        refine .inr ⟨front, g', back, rfl, hg, hends, ?_⟩
        cases front with
        | nil => exact hlast
        | cons y front =>
          rw [List.getLast?_cons_cons] at hlast
          rwa [List.getLast?_cons] at hlast ⊢

theorem stray_iff {glyphs : List Glyph} : Stray glyphs ↔ isStray false glyphs = true := by
  rw [isStray_iff]
  refine exists_congr fun front => exists_congr fun g => exists_congr fun back =>
    and_congr_right fun _ => and_congr_right fun _ => and_congr_right fun _ => ?_
  cases front.getLast? <;> simp

instance (glyphs : List Glyph) : Decidable (Stray glyphs) := decidable_of_iff _ stray_iff.symm

/-- No term ends in front of a whole text. -/
theorem endsTerm_nil : ∀ x ∈ ([] : List Glyph).getLast?, x.endsTerm = false :=
  fun _ hx => absurd hx (Option.not_mem_none _)

theorem isSeparator_of_endsTerm {g : Glyph} (h : g.endsTerm = true) : g.isSeparator = false := by
  cases hs : g.isSeparator with
  | false => rfl
  | true =>
    rw [isSeparator, Bool.and_eq_true, Bool.not_eq_true'] at hs
    rw [endsTerm, hs.1, (Lexeme.isSymbol_of_isSeparator hs.2).1] at h
    cases h

/-- If no separator at an end lacks a term in front of it, only the separators that nothing follows
are left out. -/
theorem kept_eq_followed_of_not_stray {term : Bool} {glyphs : List Glyph}
    (h : isStray term glyphs = false) (sequences : List Bool) :
    kept sequences glyphs = followed glyphs := by
  induction glyphs generalizing term sequences with
  | nil => rfl
  | cons g rest ih =>
    rw [isStray, Bool.or_eq_false_iff] at h
    have hlast : g.isLast (sequences.headD false) rest = g.isLast false rest := by
      cases hg : g.isSeparator with
      | false => rw [isLast, isLast, hg, Bool.false_and, Bool.false_and]
      | true =>
        -- the separator that is left out behind this one would have no term in front of it
        have hterm : g.endsTerm = false := by
          rw [← Bool.not_eq_true]
          intro hends
          rw [isSeparator_of_endsTerm hends] at hg
          cases hg
        have hnext : endsSeparated rest = false := by
          cases rest with
          | nil => rfl
          | cons g' rest =>
            have hstray := (Bool.or_eq_false_iff.1 h.2).1
            rwa [hterm, Bool.not_false, Bool.true_and] at hstray
        rw [isLast, isLast, hnext, Bool.and_false, Bool.and_false]
    rw [kept, followed, hlast, ih h.2]

/-- A stray separator of a part is one of the whole, if no term ends right before the part and the
separator is at an end of the whole, too. -/
theorem Stray.append {front part back : List Glyph} (h : Stray part)
    (hfront : ∀ x ∈ front.getLast?, x.endsTerm = false) (hback : Closed part ∨ ends back = true) :
    Stray (front ++ (part ++ back)) := by
  obtain ⟨front', g, back', rfl, hg, hends, hlast⟩ := h
  refine ⟨front ++ front', g, back' ++ back, by simp, hg, ?_, ?_⟩
  · rw [ends_append, hends]
    refine or_iff_not_imp_left.2 fun hnil => hback.resolve_left fun hclosed => ?_
    rw [not_ne_iff.1 hnil] at hclosed
    rw [hclosed g (by rw [List.getLast?_concat]; rfl)] at hg
    cases hg
  · intro x hx
    rw [List.getLast?_append] at hx
    cases hf : front'.getLast? with
    | none =>
      rw [hf] at hx
      exact hfront x hx
    | some y =>
      rw [hf] at hx
      exact hlast x (hf ▸ hx)

end Glyph

/-! ## Texts in which nothing is missing -/

namespace Text

/-- Brackets with nothing but blanks between them. -/
def HasHollow (s : Text) : Prop := [⟨'(', false⟩, ⟨')', false⟩] <:+: solid false s

/-- A separator at an end, without a term in front of it. -/
def HasStray (s : Text) : Prop := Glyph.Stray (solid false s)

instance (s : Text) : Decidable s.HasHollow := inferInstanceAs (Decidable (_ <:+: _))

instance (s : Text) : Decidable s.HasStray := inferInstanceAs (Decidable (Glyph.Stray _))

/-- A text that stands for something and in which nothing is missing. -/
structure Supplied (s : Text) : Prop where
  balanced : Balanced s
  ne_nil : solid false s ≠ []
  name : ¬ Expr.emptyName <:+: s
  hollow : ¬ s.HasHollow
  stray : ¬ s.HasStray

variable {s part : Text}

/-- A part of a text inherits that nothing is missing, if no term ends right before it and
separators at its end are at an end of the text. -/
theorem Supplied.inherit (h : s.Supplied) (hpart : part <:+: s) (hbalanced : Balanced part)
    (hne : solid false part ≠ []) (front back : List Glyph)
    (hsolid : solid false s = front ++ (solid false part ++ back))
    (hfront : ∀ x ∈ front.getLast?, x.endsTerm = false)
    (hback : Glyph.Closed (solid false part) ∨ Glyph.ends back = true) : part.Supplied where
  balanced := hbalanced
  ne_nil := hne
  name hname := h.name (hname.trans hpart)
  hollow hhollow := by
    refine h.hollow (hhollow.trans ⟨front, back, ?_⟩)
    rw [hsolid, List.append_assoc]
  stray hstray := by
    refine h.stray ?_
    rw [HasStray, hsolid]
    exact hstray.append hfront hback

theorem Supplied.trim (h : s.Supplied) : (trim s).Supplied := by
  have hsolid := solid_trim h.balanced
  refine h.inherit (Expr.isInfix_trim s) (balanced_trim.2 h.balanced) (hsolid ▸ h.ne_nil) [] [] ?_
    Glyph.endsTerm_nil (.inr rfl)
  rw [hsolid, List.append_nil, List.nil_append]

theorem solid_ne_nil_of_trimmed (h : Trimmed s) (hne : s ≠ []) (q : Bool) : solid q s ≠ [] := by
  have hlast := List.getLast?_eq_some_getLast hne
  exact solid_ne_nil hlast (h.2 _ hlast) q

/-- Between brackets stands something in which nothing is missing. -/
theorem Supplied.brackets (front after : Text) {inside : Text}
    (h : Supplied (front ++ '(' :: (inside ++ ')' :: after))) (hfront : Balanced front)
    (hinside : Balanced inside) : inside.Supplied := by
  have hsolid : solid false (front ++ '(' :: (inside ++ ')' :: after)) =
      (solid false front ++ [⟨'(', false⟩]) ++
        (solid false inside ++ ⟨')', false⟩ :: solid false after) := by
    rw [solid_balanced hfront, solid_bracketed hinside, List.append_assoc]
    rfl
  refine h.inherit ⟨front ++ ['('], ')' :: after, by simp⟩ hinside ?_ _ _ hsolid ?_ (.inr rfl)
  · intro hnil
    refine h.hollow ⟨solid false front, solid false after, ?_⟩
    rw [hsolid, hnil]
    simp
  · intro x hx
    rw [List.getLast?_concat] at hx
    cases hx
    decide

theorem Supplied.stripBrackets (h : s.Supplied) : (stripBrackets s).Supplied := by
  rcases stripBrackets_cases s with hs | ⟨inner, rfl, -, hs⟩
  · rw [hs]
    exact h
  · have hinner : Balanced inner := by
      rw [← balanced_trim, ← hs]
      exact h.balanced.stripBrackets
    rw [hs]
    exact (Supplied.brackets [] [] h Balanced.nil hinner).trim

/-- A separator that is left out has a term in front of it. -/
theorem Supplied.cut {c : Char} (h : (s ++ [c]).Supplied) (hs : Balanced s)
    (hc : Lexeme.isSeparator c = true) : s.Supplied := by
  have hplain : isBlank c = false ∧ c ≠ '"' := by
    rcases Lexeme.isSeparator_iff.1 hc with rfl | rfl <;> decide
  have hsolid : solid false (s ++ [c]) = solid false s ++ [⟨c, false⟩] := by
    rw [solid_balanced hs, solid, hplain.1, decide_eq_false hplain.2]
    rfl
  -- nothing stands behind the separator, so without a term in front of it it would be a stray one
  obtain ⟨x, hx, hends⟩ : ∃ x ∈ (solid false s).getLast?, x.endsTerm = true := by
    by_contra hno
    refine h.stray ⟨_, ⟨c, false⟩, [], hsolid, ?_, rfl, fun x hx => ?_⟩
    · rw [Glyph.isSeparator, hc]
      rfl
    · rw [← Bool.not_eq_true]
      exact fun hends => hno ⟨x, hx, hends⟩
  refine h.inherit (List.prefix_append s [c]).isInfix hs ?_ [] [⟨c, false⟩] hsolid
    Glyph.endsTerm_nil (.inl ?_)
  · intro hnil
    rw [hnil] at hx
    cases hx
  · intro y hy
    rw [Option.mem_unique hy hx]
    exact Glyph.isSeparator_of_endsTerm hends

theorem Supplied.of_makeUp {lexemes : List Lexeme} (h : s.Supplied)
    (hbalanced : Balanced (Lexeme.text lexemes)) (hs : Lexeme.MakeUp lexemes s) :
    (Lexeme.text lexemes).Supplied := by
  rcases hs with hs | ⟨c, hc, hs⟩
  · exact hs ▸ h
  · exact (hs ▸ h).cut hbalanced hc

end Text

/-! ## Terms between operators -/

namespace Lexeme

variable {s : Text} {lexemes : List Lexeme}

/-- No term ends with an operator. -/
theorem endsTerm_operator {op : Text} (h : OperatorTable.standard.isBinary op = true)
    (front : List Glyph) :
    ∀ x ∈ (front ++ Text.solid false op).getLast?, x.endsTerm = false := by
  have hne := solid_operator_ne_nil h
  intro x hx
  rw [List.getLast?_append, List.getLast?_eq_some_getLast hne, Option.some_or] at hx
  have hmem : x ∈ Text.solid false op := by
    rw [← Option.mem_some.1 hx]
    exact List.getLast_mem hne
  rw [Text.solid_plain (isPlain_of_isBinary h)] at hmem
  obtain ⟨c, hc, rfl⟩ := List.mem_map.1 hmem
  rw [Glyph.endsTerm, OperatorTable.isSymbol_of_mem (.inl h) hc]
  rfl

/-- Nothing is missing in the terms of a level. -/
theorem Row.supplied_split (h : Row 0 false false s lexemes) (hs : s.Supplied)
    (hlast : ∀ c ∈ s.getLast?, Text.isBlank c = false) (r : Nat) :
    (split r lexemes).1.Supplied ∧ ∀ p ∈ (split r lexemes).2, p.2.Supplied := by
  -- the row behind the first operator is a shorter one, at the end of the same text
  induction hn : lexemes.length using Nat.strong_induction_on generalizing lexemes s with
  | _ n ih =>
    obtain ⟨seg, rest, rfl, htext, hpiece⟩ := first_of_split r lexemes
    rcases hpiece.behind with rfl | ⟨op, more, rfl⟩
    · rw [List.append_nil] at h ⊢
      rw [split_of_ne hpiece.inside]
      exact ⟨hs.of_makeUp h.run_text h.makeUp, nofun⟩
    · obtain ⟨t, rfl, ht, hrow, hop, -⟩ := h.behind
      obtain ⟨hrun, hclosed, hbegun⟩ := h.ending (.inr ⟨op, r, more, rfl⟩)
      have hlast' : ∀ c ∈ t.getLast?, Text.isBlank c = false := by
        intro c hc
        refine hlast c ?_
        rw [List.getLast?_append, List.getLast?_append, Option.mem_def.1 hc]
        rfl
      have hfirst : (text seg).Supplied := by
        refine hs.inherit (List.prefix_append _ _).isInfix hrun ?_ [] _
          (Text.solid_balanced hrun _) Glyph.endsTerm_nil (.inl hclosed)
        intro hnil
        cases hbegun (List.cons_ne_nil _ _) hnil
      have hbehind : t.Supplied := by
        have hgetLast := List.getLast?_eq_some_getLast ht
        refine hs.inherit ⟨text seg ++ op, [], by simp⟩ hrow.run_self
          (Text.solid_ne_nil hgetLast (hlast' _ hgetLast) false)
          (Text.solid false (text seg) ++ Text.solid false op) [] ?_ (endsTerm_operator hop _)
          (.inr rfl)
        rw [Text.solid_balanced hrun, Text.solid_balanced (balanced_of_isBinary hop),
          List.append_nil, List.append_assoc]
      have hlength : more.length < n := by
        simp only [← hn, List.length_append, List.length_cons]
        omega
      obtain ⟨hnext, hmore⟩ := ih _ hlength hrow hbehind hlast' rfl
      rw [split_append, split_of_ne hpiece.inside, List.nil_append]
      exact ⟨hfirst, List.forall_mem_cons.2 ⟨hnext, hmore⟩⟩

end Lexeme

/-! ## Trees -/

namespace Expr

/-- No node of a tree stands for nothing. -/
def Filled (e : Expr) : Prop :=
  ∀ path node, e.subtreeAt path = some node → node.isEmptyMarker = false

variable {n depth : Nat} {name op s : Text} {e inner : Expr} {terms : List Expr}

theorem isEmptyMarker_of_terms (name op : Text) (h : terms ≠ []) :
    isEmptyMarker ⟨name, op, terms⟩ = false := by
  rw [isEmptyMarker, isLeaf, List.isEmpty_eq_false_iff.2 h, Bool.false_and]

theorem Filled.node (hroot : isEmptyMarker ⟨name, op, terms⟩ = false)
    (hterms : ∀ term ∈ terms, term.Filled) : Filled ⟨name, op, terms⟩ := by
  intro path node hnode
  cases path with
  | nil =>
    cases hnode
    exact hroot
  | cons i path =>
    obtain ⟨term, hterm, hnode⟩ := Option.bind_eq_some_iff.1 hnode
    exact hterms term (List.mem_of_getElem? hterm) path node hnode

theorem Filled.of_mem {term : Expr} (h : e.Filled) (hterm : term ∈ e.terms) : term.Filled := by
  obtain ⟨i, hi⟩ := List.mem_iff_getElem?.1 hterm
  intro path node hnode
  refine h (i :: path) node ?_
  rw [subtreeAt, hi]
  exact hnode

theorem Filled.callNode (h : inner.Filled) (head op : Text) : (callNode head op inner).Filled := by
  have hroot : inner.isEmptyMarker = false := h [] inner rfl
  refine callNode_cases (fun _ hspread => ?_) (fun _ hempty => ?_) (fun _ _ hterms => ?_)
    fun _ _ => ?_
  · have hlist := hspread.resolve_left (Bool.eq_false_iff.1 hroot)
    have hterms : inner.terms ≠ [] := by
      simpa [isLeaf] using (Bool.and_eq_true_iff.1 hlist).2
    exact .node (isEmptyMarker_of_terms _ _ hterms) fun term => h.of_mem
  · rw [hroot] at hempty
    cases hempty
  · exact .node (isEmptyMarker_of_terms _ _ hterms) fun term => h.of_mem
  · exact .node (isEmptyMarker_of_terms _ _ (List.cons_ne_nil _ _)) (List.forall_mem_singleton.2 h)

/-- Nothing is missing in the operand behind a sign. -/
theorem supplied_operand {term sign operand : Text} (h : term.Supplied) (htrimmed : term.Trimmed)
    (hterm : Term.ofText .standard term = .ok (.prefixed sign operand)) : operand.Supplied := by
  have ht : OperatorTable.standard.Unbracketed := by decide
  have hlead := ofText_prefixed_cases hterm
  have hbalanced := balanced_of_leading? ht h.balanced hlead
  obtain ⟨rfl, hne⟩ := eq_of_leading? hlead
  obtain ⟨g, hg, hsign⟩ : ∃ g : Glyph, g.endsTerm = false ∧
      Text.solid false (sign ++ operand) = [g] ++ (Text.solid false operand ++ []) := by
    rw [List.append_nil]
    rcases OperatorTable.isUnary_iff.1 (isUnary_of_leading? hlead) with rfl | rfl
    · exact ⟨⟨'+', false⟩, by decide, rfl⟩
    · exact ⟨⟨'-', false⟩, by decide, rfl⟩
  refine h.inherit (List.suffix_append _ _).isInfix hbalanced ?_ [g] [] hsign
    (fun x hx => Option.mem_some.1 hx ▸ hg) (.inr rfl)
  have hlast := List.getLast?_eq_some_getLast hne
  refine Text.solid_ne_nil hlast (htrimmed.2 _ ?_) false
  rw [List.getLast?_append, hlast]
  rfl

/-- Nothing is missing in the arguments of a call. -/
theorem supplied_arguments {term head arguments : Text} (h : term.Supplied)
    (hterm : Term.ofText .standard term = .ok (.call head arguments)) : arguments.Supplied := by
  obtain ⟨front, behind, inside, after, hopen, hclose, -, -, rfl⟩ := ofText_call_spec hterm
  obtain ⟨hsplit, hfront, hinside, -⟩ := brackets_spec h.balanced hopen hclose
  exact ((hsplit ▸ h).brackets front after hfront hinside).trim

theorem filled_of_parseLevel (h : parseLevel .standard n op s = .ok e) (hs : s.Supplied) :
    e.Filled := by
  induction n generalizing op s e with
  | zero => cases h
  | succ n ih =>
    obtain ⟨lexemes, hscan, hlevel⟩ := parseLevel_iff.1 h
    have hbody : (stripBrackets (Text.trim s)).Supplied := hs.trim.stripBrackets
    have htrimmed := trimmed_stripBrackets (Text.trimmed_trim s)
    have hrow : Lexeme.Row 0 false false _ lexemes := Lexeme.row_of_scan hscan
    have hterm : (Text.trim (Lexeme.text lexemes)).Supplied :=
      (hbody.of_makeUp hrow.run_text hrow.makeUp).trim
    cases hlevel with
    | leaf _ hleaf =>
      refine .node ?_ nofun
      rcases ofText_leaf_spec hleaf with ⟨hnil, -⟩ | ⟨rfl, -⟩
      · exact absurd (congrArg (Text.solid false) hnil) hterm.ne_nil
      · rw [isEmptyMarker, Bool.and_eq_false_iff, decide_eq_false_iff_not]
        exact .inr fun hname => hterm.name (hname ▸ List.infix_refl _)
    | prefixed _ hsign hinner =>
      refine .node (isEmptyMarker_of_terms _ _ (List.cons_ne_nil _ _)) ?_
      exact List.forall_mem_singleton.2
        (ih hinner (supplied_operand hterm (Text.trimmed_trim _) hsign))
    | call _ hcall hinner => exact (ih hinner (supplied_arguments hterm hcall)).callNode _ _
    | @chain r _ _ _ _ _ hfirst hmore =>
      obtain ⟨hpart, hparts⟩ := hrow.supplied_split hbody htrimmed.2 r
      refine .node (isEmptyMarker_of_terms _ _ (List.cons_ne_nil _ _)) ?_
      refine List.forall_mem_cons.2 ⟨ih hfirst hpart, fun term hterm => ?_⟩
      obtain ⟨p, hp, hparse⟩ := Result.exists_of_forall₂ hmore hterm
      exact ih hparse (hparts p hp)

/-- In an accepted text every operator has its operands, if no separator at an end lacks a term in
front of it: no node of the tree, and so no term of a chain and no operand of a sign, stands for
nothing. The text must not be blank, have brackets around nothing or spell the name of the empty
leaf. -/
theorem filled_of_parse (h : parse .standard depth s = .ok e) (hblank : Text.isAllBlank s = false)
    (hname : ¬ emptyName <:+: s) (hhollow : ¬ s.HasHollow) (hstray : ¬ s.HasStray) : e.Filled := by
  have hbalanced : Balanced s := balanced_of_parseLevel h
  refine filled_of_parseLevel h ⟨hbalanced, ?_, hname, hhollow, hstray⟩
  rw [← Text.solid_trim hbalanced]
  refine Text.solid_ne_nil_of_trimmed (Text.trimmed_trim s) ?_ false
  rw [ne_eq, Text.trim_eq_nil_iff, hblank]
  exact Bool.false_ne_true

/-- Separators at an end that have a term in front of them, one of them a quoted separator. -/
theorem filled_of_parse_separated : ∃ e,
    parse .standard 5 "f(-a, \";\" , );(b^+c,);".toList = .ok e ∧
      Text.isAllBlank "f(-a, \";\" , );(b^+c,);".toList = false ∧
      ¬ emptyName <:+: "f(-a, \";\" , );(b^+c,);".toList ∧
      ¬ Text.HasHollow "f(-a, \";\" , );(b^+c,);".toList ∧
      ¬ Text.HasStray "f(-a, \";\" , );(b^+c,);".toList ∧ e.Filled := by
  have hcheck : (parse .standard 5 "f(-a, \";\" , );(b^+c,);".toList).toOption.any
      (fun _ => true) = true := by decide +kernel
  obtain ⟨e, hparse, -⟩ := Result.exists_of_any hcheck
  have hblank : Text.isAllBlank "f(-a, \";\" , );(b^+c,);".toList = false := by decide +kernel
  have hname : ¬ emptyName <:+: "f(-a, \";\" , );(b^+c,);".toList := by decide +kernel
  have hhollow : ¬ Text.HasHollow "f(-a, \";\" , );(b^+c,);".toList := by decide +kernel
  have hstray : ¬ Text.HasStray "f(-a, \";\" , );(b^+c,);".toList := by decide +kernel
  exact ⟨e, hparse, hblank, hname, hhollow, hstray,
    filled_of_parse hparse hblank hname hhollow hstray⟩

/-- A doubled separator at the end is accepted, and so is an operator before it: the second term of
the chain stands for nothing. -/
theorem exists_missing_operand :
    (Text.isAllBlank "a,,".toList = false ∧ ¬ emptyName <:+: "a,,".toList ∧
      ¬ Text.HasHollow "a,,".toList ∧
      ofText "a,,".toList = .ok ⟨[','], [], [⟨['a'], [], []⟩, ⟨emptyName, [','], []⟩]⟩) ∧
      ofText "a+,".toList = .ok ⟨['+'], [], [⟨['a'], [], []⟩, ⟨emptyName, ['+'], []⟩]⟩ := by
  refine ⟨⟨by decide, by decide +kernel, by decide +kernel, by decide +kernel⟩, by decide +kernel⟩

/-- The canonical text has every separator that something follows, if no separator at an end lacks a
term in front of it. -/
theorem followed_eq_bare_text_of_not_stray (h : parse .standard depth s = .ok e)
    (hname : ¬ emptyName <:+: s) (hstray : ¬ s.HasStray) : Text.followed s = Text.bare e.text := by
  have hnone : Glyph.isStray false (Text.solid false s) = false := by
    rw [← Bool.not_eq_true, ← Glyph.stray_iff]
    exact hstray
  rw [(says_of_parseLevel h hname).bare]
  exact (Glyph.kept_eq_followed_of_not_stray hnone [false]).symm

end Expr
end Lineshape
