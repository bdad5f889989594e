import Lineshape.Proofs.Expr.Written

/-! # Identifiers of parsed trees

The canonical text of every parsed tree is balanced, and its identifiers have no brackets, quotes or
separators in them, so both can stand in a model text without breaking it up
(`Expr.tidy_of_parseLevel`). -/

namespace Lineshape
set_option autoImplicit false

/-- No bracket, quote or separator. -/
def Text.Plain (s : Text) : Prop :=
  ∀ c ∈ s, c ≠ '"' ∧ c ≠ '(' ∧ c ≠ ')' ∧ Lexeme.isSeparator c = false

namespace Text

theorem Plain.balanced {s : Text} (h : Plain s) : Balanced s :=
  Balanced.of_plain fun c hc => ⟨(h c hc).1, (h c hc).2.1, (h c hc).2.2.1⟩

theorem Plain.not_mem {s : Text} (h : Plain s) {c : Char} (hc : Lexeme.isSeparator c = true) :
    c ∉ s := by
  intro hm
  have hsep := (h c hm).2.2.2
  rw [hc] at hsep
  cases hsep

theorem mem_solid {s : Text} (hs : '"' ∉ s) {c : Char} (hc : c ∈ s) (hb : isBlank c = false) :
    ⟨c, false⟩ ∈ solid false s := by
  induction s with
  | nil => cases hc
  | cons d s ih =>
    have hd : d ≠ '"' := fun hd => hs (hd ▸ List.mem_cons_self)
    have hstep : solid false (d :: s) = (if isBlank d then [] else [⟨d, false⟩]) ++ solid false s := by
      simp [solid, hd]
    rw [hstep]
    rcases List.mem_cons.1 hc with rfl | hc
    · rw [hb]
      exact List.mem_append_left _ List.mem_cons_self
    · exact List.mem_append_right _ (ih (fun hm => hs (List.mem_cons_of_mem d hm)) hc)

/-- What is plain without its blanks is plain. -/
theorem plain_of_solid {s : Text} (hs : '"' ∉ s)
    (h : ∀ g ∈ solid false s, g.isBracket = false ∧ g.isSeparator = false) : Plain s := by
  intro c hc
  refine ⟨fun he => hs (he ▸ hc), ?_⟩
  cases hb : isBlank c with
  | true =>
    refine ⟨(ne_of_isBlank hb).2.1, (ne_of_isBlank hb).2.2, ?_⟩
    cases hsep : Lexeme.isSeparator c with
    | false => rfl
    | true =>
      have hsymbol := OperatorTable.isSymbol_of_isBlank hb
      rw [(Lexeme.isSymbol_of_isSeparator hsep).1] at hsymbol
      cases hsymbol
  | false =>
    obtain ⟨hbracket, hsep⟩ := h _ (mem_solid hs hc hb)
    rw [Glyph.isBracket, Bool.or_eq_false_iff] at hbracket
    refine ⟨?_, ?_, hsep⟩
    · rintro rfl
      cases hbracket.1
    · rintro rfl
      cases hbracket.2

end Text

namespace Expr

/-- Nothing in the canonical text of a tree or in its identifiers breaks up a text around it. -/
structure Tidy (e : Expr) : Prop where
  written : ∃ s, e.Says s
  plain : ∀ name ∈ e.identifiers, Text.Plain name

variable {e inner operand first : Expr} {more : List Expr} {op name head : Text}

theorem identifiers_terms (name op : Text) {terms : List Expr} (h : terms ≠ []) :
    identifiers ⟨name, op, terms⟩ = terms.flatMap identifiers := by
  cases terms with
  | nil => exact absurd rfl h
  | cons first more => rw [identifiers, identifiersOf_eq_flatMap, List.flatMap_cons]

theorem tidy_empty (op : Text) : Tidy ⟨emptyName, op, []⟩ where
  written := ⟨[], text_empty op ▸ Balanced.nil, List.forall_mem_nil _, text_empty op ▸ rfl⟩
  plain := List.forall_mem_nil _

theorem tidy_leaf (op : Text) (h : Balanced name)
    (hplain : isIdentifier name = true → Text.Plain name) : Tidy ⟨name, op, []⟩ := by
  by_cases hname : name = emptyName
  · subst hname
    exact tidy_empty op
  · refine ⟨⟨_, says_leaf op h hname⟩, fun other hm => ?_⟩
    rw [identifiers] at hm
    split at hm
    · rename_i hid
      rw [List.mem_singleton.1 hm]
      exact hplain hid
    · cases hm

/-- A call of nothing is a leaf again, and has its head for an identifier. -/
theorem mem_identifiers_callNode (h : name ∈ (callNode head op inner).identifiers) :
    name ∈ inner.identifiers ∨ (name = head ∧ isIdentifier head = true) := by
  obtain ⟨name', op', terms⟩ := inner
  rw [callNode] at h
  split at h
  · split at h
    · cases terms <;> exact .inl h
    · cases terms with
      | nil =>
        rw [identifiers] at h
        split at h
        · rename_i hid
          exact .inr ⟨List.mem_singleton.1 h, hid⟩
        · cases h
      | cons first more => exact .inl h
  · rw [identifiers_terms _ _ (List.cons_ne_nil _ _), List.flatMap_singleton] at h
    exact .inl h

theorem tidy_callNode (op : Text) (hhead : head = [] ∨ HeadName head) (hbalanced : Balanced head)
    (hplain : isIdentifier head = true → Text.Plain head) (hs : Shaped inner) (ho : inner.op = [])
    (h : inner.Tidy) : (callNode head op inner).Tidy := by
  obtain ⟨s, hsays⟩ := h.written
  by_cases hempty : inner.isEmptyMarker = true ∧ head = emptyName
  · -- a call of nothing is a leaf again, and this one is blank
    obtain ⟨hinner, rfl⟩ := hempty
    have hterms : inner.terms = [] := by
      rw [isEmptyMarker, Bool.and_eq_true, isLeaf, List.isEmpty_iff] at hinner
      exact hinner.1
    rw [callNode, if_pos (by rw [hinner, Bool.true_or]), if_neg (by decide), hterms]
    exact tidy_empty op
  · refine ⟨⟨_, says_callNode op hhead (fun hi hn => hempty ⟨hi, hn⟩) hbalanced hs ho hsays⟩, ?_⟩
    intro name hname
    rcases mem_identifiers_callNode hname with hname | ⟨rfl, hid⟩
    · exact h.plain name hname
    · exact hplain hid

theorem not_mem_of_isIdentifier (h : isIdentifier name = true) : '(' ∉ name ∧ '"' ∉ name := by
  simp only [isIdentifier, Bool.and_eq_true, Bool.not_eq_true', List.contains_eq_mem,
    decide_eq_false_iff_not] at h
  exact ⟨h.1.2, h.2⟩

theorem plain_of_identifier (hid : isIdentifier name = true)
    (h : ∀ g ∈ Text.solid false name, g.isBracket = false ∧ g.isSeparator = false) :
    Text.Plain name := Text.plain_of_solid (not_mem_of_isIdentifier hid).2 h

theorem isOpening_of_not_mem {s : Text} (hs : '(' ∉ s) :
    ∀ g ∈ Text.solid false s, g.isOpening = false := by
  intro g hg
  have hc : g.char ≠ '(' := fun hc => hs (hc ▸ Text.mem_of_mem_solid hg)
  rw [Glyph.isOpening, decide_eq_false hc, Bool.and_false]

theorem tidy_of_parseLevel {n : Nat} {s : Text} (h : parseLevel .standard n op s = .ok e) :
    e.Tidy := by
  induction n generalizing op s e with
  | zero => cases h
  | succ n ih =>
    obtain ⟨lexemes, hscan, hlevel⟩ := parseLevel_iff.1 h
    have hbody := trimmed_stripBrackets (Text.trimmed_trim s)
    have hrow : Lexeme.Row 0 false false _ _ := Lexeme.row_of_scan hscan
    cases hlevel with
    | leaf hnone hterm =>
      have hno := Lexeme.loosest?_eq_none_iff.1 hnone
      rcases ofText_leaf_spec hterm with ⟨-, rfl⟩ | ⟨rfl, -⟩
      · exact tidy_empty op
      · refine tidy_leaf op (written_of_letters hrow hno).1 fun hid => plain_of_identifier hid ?_
        exact plain_of_front hrow hno (List.append_nil _).symm
          (isOpening_of_not_mem (not_mem_of_isIdentifier hid).1)
    | @prefixed sign operand inner hnone hterm hin =>
      obtain ⟨spoken, hinner⟩ := (ih hin).written
      have hsign := isUnary_of_leading? (ofText_prefixed_cases hterm)
      refine ⟨⟨_, says_prefixed hsign hinner⟩, ?_⟩
      rw [identifiers_terms _ _ (List.cons_ne_nil _ _), List.flatMap_singleton]
      exact (ih hin).plain
    | call hnone hterm hin =>
      have hno := Lexeme.loosest?_eq_none_iff.1 hnone
      obtain ⟨hs, ho⟩ := shaped_of_parseLevel hin
      have hhead := headName_of_call hbody hscan hterm
      obtain ⟨front, behind, inside, after, hopen, hclose, -, rfl, -⟩ := ofText_call_spec hterm
      obtain ⟨hsplit, hfront, -, hfirst⟩ :=
        brackets_spec (written_of_letters hrow hno).1 hopen hclose
      refine tidy_callNode op hhead (Text.balanced_trim.2 hfront) (fun hid => ?_) hs ho (ih hin)
      refine plain_of_identifier hid ?_
      rw [Text.solid_trim hfront]
      exact plain_of_front hrow hno hsplit hfirst
    | @chain r label first more hr hlabel hfirst hmore =>
      obtain ⟨⟨hbinary, -⟩, hne, hmore⟩ := chain_spec hscan hr hlabel hmore
      have hterms : ∀ e ∈ more, OperatorTable.standard.isBinary e.op = true ∧ e.Tidy := by
        intro e he
        obtain ⟨p, -, hparse, hop, -⟩ := hmore e he
        rw [(shaped_of_parseLevel hparse).2]
        exact ⟨hop, ih hparse⟩
      obtain ⟨spoken, hsays⟩ := (ih hfirst).written
      refine ⟨⟨_, says_chain op hbinary hne (shaped_of_parseLevel hfirst).2 hsays.balanced ?_⟩, ?_⟩
      · intro e he
        obtain ⟨hop, htidy⟩ := hterms e he
        obtain ⟨_, he⟩ := htidy.written
        exact ⟨hop, he.balanced⟩
      · rw [identifiers_terms _ _ (List.cons_ne_nil _ _)]
        intro name hname
        obtain ⟨e, he, hmem⟩ := List.mem_flatMap.1 hname
        rcases List.mem_cons.1 he with rfl | he
        · exact (ih hfirst).plain name hmem
        · exact (hterms e he).2.plain name hmem

end Expr
end Lineshape
