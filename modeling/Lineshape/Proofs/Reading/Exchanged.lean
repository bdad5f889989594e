import Lineshape.Proofs.Reading.Refused

/-! # A part of a model text in exchange for another

What the tree of a text becomes when a part of the text is put in brackets: another one that is read
alike, or one that is refused (`Region.Becomes`). `Region.Exchanges` says it of the texts. There is one
lemma for each item that can be put in brackets, and one for each way in which a text with items is a
part of another. -/

namespace Lineshape
set_option autoImplicit false

/-! ## Texts with items -/

/-- What a text with items is: the list of ties or of constraints of a function, or a description of
a model. -/
inductive Region where
  /-- A list of ties or of constraints. -/
  | list (c : Conditions)
  /-- A model, or a part of one. -/
  | model

namespace Text

/-- A text that can be read, and is not blank. -/
def Readable (s : Text) : Prop :=
  ∃ n e, Expr.parseLevel .standard n [] s = .ok e ∧ e.bracketsRemoved.isEmptyMarker = false

variable {s : Text}

theorem keeps_inBrackets {n : Nat} {e : Expr} (h : Expr.parseLevel .standard n [] s = .ok e) (pairs : Nat) :
    s.Keeps (s.inBrackets pairs) := by
  cases pairs with
  | zero => exact .refl s
  | succ pairs =>
    obtain ⟨n', e', h', -⟩ := Expr.exists_parse_inBrackets h pairs
    exact keeps_brackets s (Expr.balanced_of_parseLevel h')

theorem readable_of_parse
    (h : (Expr.parseLevel .standard 9 [] s).toOption.any (!·.bracketsRemoved.isEmptyMarker) = true) :
    Readable s := by
  obtain ⟨e, he, hne⟩ := Result.exists_of_any h
  exact ⟨9, e, he, by simpa using hne⟩

theorem Readable.ne_nil (h : Readable s) : s ≠ [] := by
  rintro rfl
  obtain ⟨n, e, hparse, hne⟩ := h
  cases n with
  | zero => cases hparse
  | succ n =>
    rw [Expr.parseLevel_blank rfl] at hparse
    cases hparse
    cases hne

theorem Readable.balanced (h : Readable s) : Balanced s := by
  obtain ⟨n, e, hparse, -⟩ := h
  exact Expr.balanced_of_parseLevel hparse

end Text

/-! ## What a tree becomes -/

namespace Region

open Reader

variable {r : Reader} {region : Region} {seen : Bool} {e e' : Expr}

/-- Trees of texts in a region that are read alike. -/
def Alike (r : Reader) : Region → Expr → Expr → Prop
  | list c => c.Alike r
  | model => r.ReadsAlike

/-- A tree of a text in a region that is not read. -/
def Fails (r : Reader) : Region → Expr → Prop
  | list c => fun e => Act.Fails (c.add r e.bracketsRemoved)
  | model => r.Refused

/-- In exchange for the first tree the second one is read like that one, or it is refused; up to
bracket groups they are the same. -/
structure Becomes (r : Reader) (seen : Bool) (region : Region) (e e' : Expr) : Prop where
  ungrouped : e'.ungrouped = e.ungrouped
  outcome : if seen then region.Alike r e e' else region.Fails r e'

theorem becomes_alike (h : region.Alike r e e') : region.Becomes r true e e' where
  ungrouped := by
    cases region with
    | list c => exact Conditions.Alike.ungrouped h
    | model => exact ReadsAlike.ungrouped h
  outcome := h

theorem becomes_refl (e : Expr) : region.Becomes r true e e := by
  refine becomes_alike ?_
  cases region with
  | list c => exact ⟨rfl, rfl⟩
  | model => exact .refl e

/-- Groups around a text change nothing. -/
theorem Becomes.covers {t t' : Expr} (h : region.Becomes r seen e e') (ht : t.Covers e)
    (ht' : t'.Covers e') : region.Becomes r seen t t' where
  ungrouped := by rw [ht.ungrouped, ht'.ungrouped, h.ungrouped]
  outcome := by
    have houtcome := h.outcome
    cases seen with
    | true =>
      cases region with
      | list c => exact Conditions.Alike.covers houtcome ht ht'
      | model => exact ReadsAlike.covers houtcome ht ht'
    | false =>
      cases region with
      | list c =>
        change Act.Fails (c.add r t'.bracketsRemoved)
        rw [ht'.node]
        exact houtcome
      | model => exact Refused.covers houtcome ht'

/-! ### Items in groups -/

section Items

variable {terms terms' : List Expr} {o : Text}

theorem becomes_tie (h : e'.Covers e) :
    (Region.list .ties).Becomes r true ⟨[','], [], terms ++ e.withOp o :: terms'⟩
      ⟨[','], [], terms ++ e'.withOp o :: terms'⟩ :=
  becomes_alike (Conditions.alike_exchange (c := .ties) h nofun terms terms' o [])

theorem becomes_constraint (h : e'.Covers e) (hfactor : Clause.factor? e = none)
    (hgroup : e'.form ≠ .assign ∨ e' = e) :
    (Region.list .constraints).Becomes r true ⟨[','], [], terms ++ e.withOp o :: terms'⟩
      ⟨[','], [], terms ++ e'.withOp o :: terms'⟩ := by
  refine becomes_alike (Conditions.alike_exchange h (fun _ => ⟨?_, fun hsome => ?_⟩) terms terms' o [])
  · rcases hgroup with hgroup | rfl
    · rw [hfactor, Clause.factor?, Part.assignment?_eq_none hgroup]
    · rfl
  · rw [hfactor] at hsome
    cases hsome

theorem becomes_factor (hkinds : ['='] ∉ r.kinds) (h : e'.Covers e) (hform : e.form = .assign)
    (hgroup : e'.form ≠ .assign) :
    (Region.list .constraints).Becomes r false ⟨[','], [], terms ++ e.withOp o :: terms'⟩
      ⟨[','], [], terms ++ e'.withOp o :: terms'⟩ where
  ungrouped := Expr.ungrouped_exchange (List.cons_ne_nil _ _) h.ungrouped terms terms' o []
  outcome := by
    have hnode : Expr.bracketsRemoved ⟨[','], [], terms ++ e'.withOp o :: terms'⟩ =
        ⟨[','], [], terms ++ e'.withOp o :: terms'⟩ := Expr.bracketsRemoved_node (List.cons_ne_nil _ _)
    have hmem : e'.withOp o ∈ Expr.toList [','] ⟨[','], [], terms ++ e'.withOp o :: terms'⟩ := by
      rw [Expr.toList_exchange]
      exact List.mem_append_right _ List.mem_cons_self
    obtain ⟨o', ho⟩ := e'.bracketsRemoved_withOp o
    change Act.Fails (r.addConstraints _)
    rw [hnode]
    have hwhole : e.IsNode := .inl (Part.name_of_form.2.2 hform ▸ List.cons_ne_nil _ _)
    refine fails_addConstraints hkinds hmem hgroup ?_
    rw [ho, h.node, hwhole.bracketsRemoved_eq]
    exact hform

theorem becomes_item (htypes : r.types.FreeKeys) (h : e'.Covers e) (hform : e.form = .assign)
    (hgroup : e'.form ≠ .assign) :
    Region.model.Becomes r false ⟨[','], [], terms ++ e.withOp o :: terms'⟩
      ⟨[','], [], terms ++ e'.withOp o :: terms'⟩ where
  ungrouped := Expr.ungrouped_exchange (List.cons_ne_nil _ _) h.ungrouped terms terms' o []
  outcome := by
    refine refused_items htypes (.group (Part.assignment?_eq_none (e := e'.withOp o) hgroup) ?_) terms terms' []
    rw [sequence?_withOp, ← Part.sequence?_bracketsRemoved, h.node, Part.sequence?_bracketsRemoved]
    exact Part.sequence?_of_assign hform

end Items

/-! ### Around a part -/

theorem Becomes.withOp {c : Conditions} (h : (Region.list c).Becomes r seen e e') (op : Text) :
    (Region.list c).Becomes r seen (e.withOp op) (e'.withOp op) where
  ungrouped := by rw [Expr.ungrouped_withOp, Expr.ungrouped_withOp, h.ungrouped]
  outcome := by
    cases seen with
    | true => exact Conditions.Alike.withOp h.outcome op
    | false =>
      obtain ⟨o, ho⟩ := e'.bracketsRemoved_withOp op
      change Act.Fails (c.add r _)
      rw [ho, Conditions.add_withOp]
      exact h.outcome

/-- An item with a list becomes what the list becomes. -/
theorem Becomes.item {c : Conditions} (h : (Region.list c).Becomes r seen e e') (op : Text) :
    Region.model.Becomes r seen (c.item op e) (c.item op e') where
  ungrouped := Expr.ungrouped_congr (List.cons_ne_nil _ _) (by simp only [List.map_cons, h.ungrouped])
  outcome := by
    cases seen with
    | true => exact readsAlike_item (.list c op h.outcome)
    | false => exact refused_item c op h.outcome

section Parts

variable {terms terms' : List Expr} {o : Text}

/-- A function becomes what a list of its items becomes. -/
theorem Becomes.items {c : Conditions} (hr : r.operators = .standard) (htypes : r.types.FreeKeys)
    (h : (Region.list c).Becomes r seen e e') :
    Region.model.Becomes r seen ⟨[','], [], terms ++ (c.item [] e).withOp o :: terms'⟩
      ⟨[','], [], terms ++ (c.item [] e').withOp o :: terms'⟩ where
  ungrouped := Expr.ungrouped_exchange (List.cons_ne_nil _ _) (h.item []).ungrouped terms terms' o []
  outcome := by
    cases seen with
    | true =>
      refine readsAlike_items hr (List.rel_append (List.forall₂_same.2 fun item _ => .refl item) ?_) []
      exact .cons (.list c o h.outcome) (List.forall₂_same.2 fun item _ => .refl item)
    | false => exact refused_items htypes (.list c o h.outcome) terms terms' []

/-- A composite becomes what a member becomes. -/
theorem Becomes.member (h : Region.model.Becomes r seen e e') :
    Region.model.Becomes r seen ⟨[';'], [], terms ++ e.withOp o :: terms'⟩
      ⟨[';'], [], terms ++ e'.withOp o :: terms'⟩ where
  ungrouped := Expr.ungrouped_exchange (List.cons_ne_nil _ _) h.ungrouped terms terms' o []
  outcome := by
    cases seen with
    | true =>
      have halike : r.ReadsAlike e e' := h.outcome
      refine readsAlike_sequence ?_ ?_ []
      · exact List.rel_append (List.forall₂_same.2 fun term _ => .refl term)
          (.cons (halike.toTermAlike.withOp o) (List.forall₂_same.2 fun term _ => .refl term))
      · simp only [List.map_append, List.map_cons, Expr.ungrouped_withOp, h.ungrouped]
    | false =>
      have hrefused : r.Refused e' := h.outcome
      exact refused_sequence (hrefused.toTermRefused.withOp o) terms terms' []

/-- A composite in brackets and the items behind it become what the composite becomes. -/
theorem Becomes.nested (h : Region.model.Becomes r seen e e') (hform : e.bracketsRemoved.form = .sequence) :
    Region.model.Becomes r seen ⟨[','], [], e.withOp o :: terms⟩ ⟨[','], [], e'.withOp o :: terms⟩ where
  ungrouped := Expr.ungrouped_exchange (List.cons_ne_nil _ _) h.ungrouped [] terms o []
  outcome := by
    cases seen with
    | true => exact readsAlike_nested h.outcome hform o [] terms
    | false =>
      refine refused_nested h.outcome ?_ o [] terms
      rw [← Expr.form_ungrouped, h.ungrouped, Expr.form_ungrouped, hform]

end Parts

/-! ## Texts in exchange for others -/

/-- The second text can stand where the first one stands, and its tree is what the tree of that one
becomes. -/
structure Exchanges (r : Reader) (seen : Bool) (region : Region) (s s' : Text) : Prop where
  keeps : s.Keeps s'
  reads : ∀ {n e}, Expr.parseLevel .standard n [] s = .ok e →
    ∃ n' e', Expr.parseLevel .standard n' [] s' = .ok e' ∧ region.Becomes r seen e e'

namespace Exchanges

variable {s s' front behind blanks blanks' : Text} {pairs : Nat}

theorem readable (h : region.Exchanges r seen s s') (hs : s.Readable) : s'.Readable := by
  obtain ⟨n, e, hparse, hne⟩ := hs
  obtain ⟨n', e', hparse', hbecomes⟩ := h.reads hparse
  refine ⟨n', e', hparse', ?_⟩
  rw [← Expr.isEmptyMarker_ungrouped, hbecomes.ungrouped, Expr.isEmptyMarker_ungrouped, hne]

/-! ### Parts -/

/-- A part of a text in exchange for another. -/
theorem ofPart {separator : Char} {n : Nat} (hsep : Lexeme.isSeparator separator = true)
    (hpart : Expr.IsPart separator front s behind e) (hkeeps : s.Keeps s')
    (h' : Expr.parseLevel .standard n [] s' = .ok e')
    (hbecomes : ∀ (terms terms' : List Expr) (o : Text), (front = [] → terms = []) →
      region.Becomes r seen ⟨[separator], [], terms ++ e.withOp o :: terms'⟩
        ⟨[separator], [], terms ++ e'.withOp o :: terms'⟩) :
    region.Exchanges r seen (front ++ s ++ behind) (front ++ s' ++ behind) where
  keeps := hpart.keeps hsep hkeeps
  reads := by
    intro n tree h
    obtain ⟨terms, terms', o, hfirst, rfl, hexchange⟩ := hpart.exists_exchange hsep h
    obtain ⟨k, hk⟩ := hexchange hkeeps h'
    exact ⟨k, _, hk, hbecomes terms terms' o hfirst⟩

/-- A part of a list in brackets. -/
theorem ofItem (hpart : Expr.IsPart ',' front s behind e)
    (hbecomes : ∀ (e' : Expr) (terms terms' : List Expr) (o : Text), e'.Covers e →
      (Text.LeavesGroup pairs s → e'.form ≠ .assign) → (¬ Text.LeavesGroup pairs s → e' = e) →
      region.Becomes r seen ⟨[','], [], terms ++ e.withOp o :: terms'⟩
        ⟨[','], [], terms ++ e'.withOp o :: terms'⟩) :
    region.Exchanges r seen (front ++ s ++ behind) (front ++ s.inBrackets pairs ++ behind) := by
  obtain ⟨n, hstands⟩ := hpart.stands
  obtain ⟨n', e', h', hcovers, hgroup, hplain⟩ := Expr.exists_parse_inBrackets hstands.parse pairs
  exact ofPart rfl hpart (Text.keeps_inBrackets hstands.parse pairs) h' fun terms terms' o _ =>
    hbecomes e' terms terms' o hcovers hgroup hplain

theorem whole (hs : s.Readable) : region.Exchanges r true s (s.inBrackets pairs) where
  keeps := by
    obtain ⟨n, e, h, -⟩ := hs
    exact Text.keeps_inBrackets h pairs
  reads := by
    intro n e h
    obtain ⟨n', e', h', hcovers, -⟩ := Expr.exists_parse_inBrackets h pairs
    exact ⟨n', e', h', (becomes_refl e).covers (.refl e) hcovers⟩

theorem tie (hpart : Expr.IsPart ',' front s behind e) :
    (Region.list .ties).Exchanges r true (front ++ s ++ behind) (front ++ s.inBrackets pairs ++ behind) :=
  ofItem hpart fun _ _ _ _ hcovers _ _ => becomes_tie hcovers

theorem constraint (hpart : Expr.IsPart ',' front s behind e) (hfactor : Clause.factor? e = none) :
    (Region.list .constraints).Exchanges r true (front ++ s ++ behind)
      (front ++ s.inBrackets pairs ++ behind) := by
  refine ofItem hpart fun e' _ _ _ hcovers hgroup hplain => becomes_constraint hcovers hfactor ?_
  by_cases hleaves : Text.LeavesGroup pairs s
  · exact .inl (hgroup hleaves)
  · exact .inr (hplain hleaves)

theorem plain (hpart : Expr.IsPart ',' front s behind e) (hleaves : ¬ Text.LeavesGroup pairs s) :
    region.Exchanges r true (front ++ s ++ behind) (front ++ s.inBrackets pairs ++ behind) := by
  refine ofItem hpart fun e' _ _ _ _ _ hplain => ?_
  rw [hplain hleaves]
  exact becomes_refl _

theorem factor (hkinds : ['='] ∉ r.kinds) (hpart : Expr.IsPart ',' front s behind e)
    (hfactor : (Clause.factor? e).isSome) (hleaves : Text.LeavesGroup pairs s) :
    (Region.list .constraints).Exchanges r false (front ++ s ++ behind)
      (front ++ s.inBrackets pairs ++ behind) := by
  have hform : e.form = .assign := by
    by_contra hform
    rw [Clause.factor?, Part.assignment?_eq_none hform] at hfactor
    cases hfactor
  exact ofItem hpart fun _ _ _ _ hcovers hgroup _ => becomes_factor hkinds hcovers hform (hgroup hleaves)

theorem item (htypes : r.types.FreeKeys) (hpart : Expr.IsPart ',' front s behind e)
    (hform : e.form = .assign) (hleaves : Text.LeavesGroup pairs s) :
    Region.model.Exchanges r false (front ++ s ++ behind) (front ++ s.inBrackets pairs ++ behind) :=
  ofItem hpart fun _ _ _ _ hcovers hgroup _ => becomes_item htypes hcovers hform (hgroup hleaves)

/-! ### Items with lists -/

section Lists

variable {c : Conditions} (h : (Region.list c).Exchanges r seen s s') (hs : s.Readable)
  (hblanks : ∀ x ∈ blanks, Text.isBlank x = true) (hblanks' : ∀ x ∈ blanks', Text.isBlank x = true)

include h hs hblanks hblanks'

theorem keeps_assign : (Text.assign c.key blanks blanks' s).Keeps (Text.assign c.key blanks blanks' s') := by
  have hkey : Balanced (c.key ++ blanks ++ '=' :: blanks') := by
    have hword : Balanced c.key := by cases c <;> rfl
    have hequals : Balanced ['='] := rfl
    exact (hword.append (Text.run_blanks hblanks 0 false)).append
      (hequals.append (Text.run_blanks hblanks' 0 false))
  have hbrackets := Text.keeps_brackets ('(' :: s ++ [')']) (h.readable hs).balanced
  have hkeeps : Text.Keeps (c.key ++ blanks ++ '=' :: blanks' ++ ('(' :: s ++ [')']) ++ [])
      (c.key ++ blanks ++ '=' :: blanks' ++ ('(' :: s' ++ [')']) ++ []) :=
    hbrackets.around (List.cons_ne_nil _ _) hs.balanced.bracketed hkey
  simpa [Text.assign] using hkeeps

theorem exists_parse_assign :
    ∃ n n' value value', Expr.parseLevel .standard n [] (Text.assign c.key blanks blanks' s) =
        .ok (c.item [] value) ∧
      Expr.parseLevel .standard n' [] (Text.assign c.key blanks blanks' s') = .ok (c.item [] value') ∧
      (Region.list c).Becomes r seen value value' := by
  have hkey : Word false c.key := .of_dotted (by cases c <;> decide)
  obtain ⟨n, e, he, -⟩ := hs
  obtain ⟨n', e', he', hbecomes⟩ := h.reads he
  obtain ⟨value, hvalue, hcovers⟩ := Expr.exists_parse_assign hkey hblanks hblanks' he
  obtain ⟨value', hvalue', hcovers'⟩ := Expr.exists_parse_assign hkey hblanks hblanks' he'
  exact ⟨_, _, _, _, hvalue, hvalue', (hbecomes.covers hcovers hcovers').withOp ['=']⟩

theorem list : Region.model.Exchanges r seen (Text.assign c.key blanks blanks' s)
    (Text.assign c.key blanks blanks' s') where
  keeps := h.keeps_assign hs hblanks hblanks'
  reads := by
    obtain ⟨n, n', value, value', hold, hnew, hbecomes⟩ := h.exists_parse_assign hs hblanks hblanks'
    intro k e he
    cases Expr.parseLevel_unique hold he
    exact ⟨n', _, hnew, hbecomes.item []⟩

theorem listAmong (hr : r.operators = .standard) (htypes : r.types.FreeKeys)
    (hpart : Expr.IsPart ',' front (Text.assign c.key blanks blanks' s) behind e) :
    Region.model.Exchanges r seen (front ++ Text.assign c.key blanks blanks' s ++ behind)
      (front ++ Text.assign c.key blanks blanks' s' ++ behind) := by
  obtain ⟨n, n', value, value', hold, hnew, hbecomes⟩ := h.exists_parse_assign hs hblanks hblanks'
  obtain ⟨n₀, hstands⟩ := hpart.stands
  cases Expr.parseLevel_unique hold hstands.parse
  exact ofPart rfl hpart (h.keeps_assign hs hblanks hblanks') hnew fun _ _ _ _ =>
    hbecomes.items hr htypes

end Lists

/-! ### Parts of composites -/

theorem member (h : Region.model.Exchanges r seen s s') (hpart : Expr.IsPart ';' front s behind e) :
    Region.model.Exchanges r seen (front ++ s ++ behind) (front ++ s' ++ behind) := by
  obtain ⟨n, hstands⟩ := hpart.stands
  obtain ⟨n', e', h', hbecomes⟩ := h.reads hstands.parse
  exact ofPart rfl hpart h.keeps h' fun _ _ _ _ => hbecomes.member

theorem nested (h : Region.model.Exchanges r seen s s') (hpart : Expr.IsPart ',' [] s behind e)
    (hform : e.bracketsRemoved.form = .sequence) :
    Region.model.Exchanges r seen (s ++ behind) (s' ++ behind) := by
  obtain ⟨n, hstands⟩ := hpart.stands
  obtain ⟨n', e', h', hbecomes⟩ := h.reads hstands.parse
  refine ofPart rfl hpart h.keeps h' fun terms terms' o hfirst => ?_
  rw [hfirst rfl]
  exact hbecomes.nested hform

/-! ### Around all of a text -/

theorem brackets (h : region.Exchanges r seen s s') (hs : s.Readable) :
    region.Exchanges r seen ('(' :: s ++ [')']) ('(' :: s' ++ [')']) where
  keeps := Text.keeps_brackets _ (h.readable hs).balanced
  reads := by
    intro n tree htree
    obtain ⟨n₀, e, he, -⟩ := hs
    obtain ⟨n', e', he', hbecomes⟩ := h.reads he
    obtain ⟨outer, houter, hcovers⟩ := Expr.exists_parse_brackets he
    obtain ⟨outer', houter', hcovers'⟩ := Expr.exists_parse_brackets he'
    cases Expr.parseLevel_unique houter htree
    exact ⟨_, outer', houter', hbecomes.covers hcovers hcovers'⟩

theorem padded (h : region.Exchanges r seen s s') (hs : s.Readable)
    (hfront : ∀ x ∈ front, Text.isBlank x = true) (hbehind : ∀ x ∈ behind, Text.isBlank x = true) :
    region.Exchanges r seen (front ++ s ++ behind) (front ++ s' ++ behind) where
  keeps := h.keeps.around hs.ne_nil hs.balanced (Text.run_blanks hfront 0 false)
  reads := by
    have htrim : ∀ s, stripBrackets (Text.trim (front ++ s ++ behind)) = stripBrackets (Text.trim s) := by
      intro s
      rw [Text.trim_append_blanks hbehind, Text.trim_blanks_append hfront]
    intro n e he
    cases n with
    | zero => cases he
    | succ n =>
      obtain ⟨n', e', he', hbecomes⟩ := h.reads ((Expr.parseLevel_congr (htrim s)).symm.trans he)
      cases n' with
      | zero => cases he'
      | succ n' => exact ⟨n' + 1, e', (Expr.parseLevel_congr (htrim s')).trans he', hbecomes⟩

theorem separator {c : Char} (h : region.Exchanges r seen s s') (hs : s.Readable) (htrim : Text.Trimmed s)
    (hclosed : ∀ x ∈ s.getLast?, Lexeme.isSeparator x = false)
    (hblanks : ∀ x ∈ blanks, Text.isBlank x = true) (hc : Lexeme.isSeparator c = true) :
    region.Exchanges r seen (s ++ (blanks ++ [c])) (s' ++ (blanks ++ [c])) where
  keeps := h.keeps.around hs.ne_nil hs.balanced Balanced.nil
  reads := by
    intro n tree htree
    obtain ⟨n₁, e₁, he₁, hne₁⟩ := h.readable hs
    obtain ⟨n₀, e, he, hne⟩ := hs
    obtain ⟨n', e', he', hbecomes⟩ := h.reads he
    cases Expr.parseLevel_unique he₁ he'
    obtain ⟨outer, houter, hcovers⟩ := Expr.exists_parse_separator he hne htrim hclosed hblanks hc
    obtain ⟨outer', houter', hcovers'⟩ := Expr.exists_parse_separator he' hne₁
      (h.keeps.trimmed htrim) (h.keeps.closed hclosed) hblanks hc
    cases Expr.parseLevel_unique houter htree
    exact ⟨_, outer', houter', hbecomes.covers hcovers hcovers'⟩

end Exchanges
end Region

end Lineshape
