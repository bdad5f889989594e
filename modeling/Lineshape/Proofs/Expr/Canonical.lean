import Lineshape.Expr.Printer
import Lineshape.Proofs.Expr.Reading
import Lineshape.Proofs.Expr.Shape

/-! # Canonical texts read back

The canonical text of a parsed tree is that of a valid phrase, and the tree of that phrase is the one
that was written, up to bracket groups (`Expr.writes_phrase`). -/

namespace Lineshape
set_option autoImplicit false

namespace Expr

/-! ## Bracket groups -/

/-- The node behind another operator. -/
def withOp (op : Text) (e : Expr) : Expr := ⟨e.name, op, e.terms⟩

theorem withOp_of_eq {e : Expr} {op : Text} (h : e.op = op) : e.withOp op = e := by
  obtain ⟨name, op', terms⟩ := e
  cases h
  rfl

theorem callNode_withOp (head op op' : Text) (inner : Expr) :
    (callNode head op inner).withOp op' = callNode head op' inner := by
  rw [callNode, callNode]
  split
  · split <;> rfl
  · rfl

mutual
/-- The tree with every bracket group replaced by its content, which takes over the operator in
front of the group. -/
def ungrouped : Expr → Expr
  | ⟨name, op, []⟩ => ⟨name, op, []⟩
  | ⟨name, op, first :: more⟩ =>
    if name = [] ∧ more = [] then first.ungrouped.withOp op
    else ⟨name, op, first.ungrouped :: ungroupedAll more⟩
/-- The trees with every bracket group replaced by its content. -/
def ungroupedAll : List Expr → List Expr
  | [] => []
  | e :: more => e.ungrouped :: ungroupedAll more
end

theorem ungroupedAll_eq_map (es : List Expr) : ungroupedAll es = es.map ungrouped := by
  induction es with
  | nil => rfl
  | cons e es ih => rw [ungroupedAll, ih, List.map_cons]

theorem ungrouped_group (op : Text) (inner : Expr) :
    ungrouped ⟨[], op, [inner]⟩ = inner.ungrouped.withOp op := by
  rw [ungrouped, if_pos ⟨rfl, rfl⟩]

theorem ungrouped_node {name op : Text} {terms : List Expr} (h : name ≠ [] ∨ terms.length ≠ 1) :
    ungrouped ⟨name, op, terms⟩ = ⟨name, op, terms.map ungrouped⟩ := by
  cases terms with
  | nil => rfl
  | cons first more =>
    have hno : ¬ (name = [] ∧ more = []) := by
      rintro ⟨hname, rfl⟩
      rcases h with h | h
      · exact h hname
      · exact h rfl
    rw [ungrouped, if_neg hno, ungroupedAll_eq_map, List.map_cons]

theorem ungrouped_op (e : Expr) : e.ungrouped.op = e.op := by
  obtain ⟨name, op, terms⟩ := e
  by_cases h : name = [] ∧ terms.length = 1
  · obtain ⟨rfl, hlen⟩ := h
    obtain ⟨inner, rfl⟩ := List.length_eq_one_iff.1 hlen
    rw [ungrouped_group]
    rfl
  · rw [ungrouped_node (by tauto)]

theorem ungrouped_withOp (e : Expr) (op : Text) :
    (e.withOp op).ungrouped = e.ungrouped.withOp op := by
  obtain ⟨name, op', terms⟩ := e
  by_cases h : name = [] ∧ terms.length = 1
  · obtain ⟨rfl, hlen⟩ := h
    obtain ⟨inner, rfl⟩ := List.length_eq_one_iff.1 hlen
    rw [withOp, ungrouped_group, ungrouped_group]
    rfl
  · rw [withOp, ungrouped_node (by tauto), ungrouped_node (by tauto)]
    rfl

/-! ## Well-formed trees -/

/-- A leaf that can be written anywhere: a decimal number, a quoted text without inner quotes, a
dotted identifier other than the empty leaf, or a dotted identifier and brackets around nothing. -/
def PlainLeaf (name : Text) : Prop :=
  (Literal.decimal? name).isSome = true ∨
  (∃ s, name = '"' :: s ++ ['"'] ∧ '"' ∉ s) ∨
  (isDotted name = true ∧ name ≠ emptyName) ∨
  ∃ head gap inside, name = head ++ gap ++ ('(' :: inside ++ [')']) ∧ isDotted head = true ∧
    Text.isAllBlank gap = true ∧ Text.isAllBlank inside = true

/-- Every leaf is plain, and the head of every call that is no bracket group is a dotted
identifier. -/
def WellFormed (e : Expr) : Prop :=
  ∀ path node, e.subtreeAt path = some node →
    (node.isLeaf = true → PlainLeaf node.name) ∧
    (node.isCall .standard = true → (node.name = [] ∧ node.terms.length = 1) ∨
      isDotted node.name = true)

theorem WellFormed.of_mem {e term : Expr} (h : e.WellFormed) (hm : term ∈ e.terms) :
    term.WellFormed := by
  intro path node hnode
  obtain ⟨i, hi, rfl⟩ := List.getElem_of_mem hm
  refine h (i :: path) node ?_
  rw [subtreeAt, List.getElem?_eq_getElem hi]
  exact hnode

theorem WellFormed.node {name op : Text} {terms : List Expr}
    (hleaf : terms = [] → PlainLeaf name)
    (hcall : isCall .standard ⟨name, op, terms⟩ = true → (name = [] ∧ terms.length = 1) ∨
      isDotted name = true)
    (ht : ∀ t ∈ terms, t.WellFormed) : WellFormed ⟨name, op, terms⟩ := by
  intro path node h
  cases path with
  | nil =>
    cases h
    exact ⟨fun hl => hleaf (by simpa [isLeaf] using hl), hcall⟩
  | cons i path =>
    obtain ⟨t, hi, hnode⟩ := Option.bind_eq_some_iff.1 h
    exact ht t (List.mem_of_getElem? hi) path node hnode

theorem WellFormed.leaf {name op : Text} (h : WellFormed ⟨name, op, []⟩) : PlainLeaf name :=
  (h [] _ rfl).1 rfl

theorem PlainLeaf.word {name : Text} (h : PlainLeaf name) : Word false name := by
  rcases h with h | ⟨s, rfl, hs⟩ | ⟨h, -⟩ | ⟨head, gap, inside, rfl, hh, hg, hi⟩
  · exact Word.of_decimal h
  · exact Word.of_quotes hs
  · exact Word.of_dotted h
  · exact Word.of_call hh hg hi

theorem PlainLeaf.ne_empty {name : Text} (h : PlainLeaf name) : name ≠ emptyName := by
  rintro rfl
  rcases h with h | ⟨s, hs, -⟩ | ⟨-, h⟩ | ⟨head, gap, inside, hn, -⟩
  · exact absurd h (by decide)
  · cases hs
  · exact h rfl
  · have hlast := congrArg List.getLast? hn
    rw [List.getLast?_append, List.getLast?_append] at hlast
    cases hlast

/-! ## Names of nodes -/

theorem HeadName.ne_nil {name : Text} (h : HeadName name) : name ≠ [] := by
  obtain ⟨c, rest, rfl, -⟩ := h
  exact List.cons_ne_nil c rest

theorem HeadName.isUnary_eq {name : Text} (h : HeadName name) :
    OperatorTable.standard.isUnary name = false := by
  obtain ⟨c, rest, rfl, hc⟩ := h
  rw [← Bool.not_eq_true, OperatorTable.isUnary_iff]
  rintro (he | he)
  · cases he
    exact absurd hc (by decide)
  · cases he
    exact absurd hc (by decide)

theorem HeadName.isBinary_eq {name : Text} (h : HeadName name) :
    OperatorTable.standard.isBinary name = false := by
  obtain ⟨c, rest, rfl, hc⟩ := h
  rw [← Bool.not_eq_true]
  intro hb
  obtain ⟨d, hd, hs⟩ | ⟨d, d', hd, hs, -⟩ := OperatorTable.binary_shape hb
  · cases hd
    rw [hc] at hs
    cases hs
  · cases hd
    rw [hc] at hs
    cases hs

theorem HeadName.precedence_eq {name : Text} (h : HeadName name) :
    OperatorTable.standard.precedence name = 0 := by
  have hb := h.isBinary_eq
  by_contra hp
  rw [OperatorTable.precedence_pos_iff.1 (Nat.pos_of_ne_zero hp)] at hb
  cases hb

theorem ne_nil_of_isBinary {name : Text} (h : OperatorTable.standard.isBinary name = true) :
    name ≠ [] := by
  rintro rfl
  exact absurd h (by decide)

theorem ne_nil_of_isUnary {name : Text} (h : OperatorTable.standard.isUnary name = true) :
    name ≠ [] := by
  rintro rfl
  exact absurd h (by decide)

/-! ## How strongly a node binds -/

theorem bracketsRemoved_group (op : Text) (inner : Expr) :
    bracketsRemoved ⟨[], op, [inner]⟩ = inner.bracketsRemoved := by
  rw [bracketsRemoved]

theorem bracketsRemoved_node {name op : Text} {terms : List Expr} (h : name ≠ []) :
    bracketsRemoved ⟨name, op, terms⟩ = ⟨name, op, terms⟩ := by
  rw [bracketsRemoved]
  rintro op' inner ⟨rfl, -⟩
  exact h rfl

section Binding

variable {t : OperatorTable}

theorem binding_group (op : Text) (inner : Expr) :
    binding t ⟨[], op, [inner]⟩ = inner.binding t := by
  rw [binding, binding, bracketsRemoved_group]

theorem binding_leaf (name op : Text) : binding t ⟨name, op, []⟩ = 0 := by
  have hb : bracketsRemoved ⟨name, op, []⟩ = ⟨name, op, []⟩ := by
    rw [bracketsRemoved]
    rintro op' inner ⟨-, -, h⟩
  rw [binding, hb]
  rfl

theorem binding_prefixed {sign op : Text} {operand : Expr} (hne : sign ≠ [])
    (h : t.isUnary sign = true) : binding t ⟨sign, op, [operand]⟩ = 0 := by
  rw [binding, bracketsRemoved_node hne]
  simp [isPrefixed, h]

theorem binding_head {name op : Text} {terms : List Expr} (hne : name ≠ [])
    (h : t.precedence name = 0) : binding t ⟨name, op, terms⟩ = 0 := by
  rw [binding, bracketsRemoved_node hne]
  simp [h]

theorem binding_chain {label op : Text} {first : Expr} {more : List Expr} (hne : label ≠ [])
    (hm : more ≠ []) : binding t ⟨label, op, first :: more⟩ = t.precedence label := by
  rw [binding, bracketsRemoved_node hne]
  simp [isPrefixed, isLeaf, hm]

end Binding

/-! ## The phrase of a tree -/

end Expr

/-- A phrase, in brackets if asked for. -/
def Phrase.enclosed (brackets : Bool) (p : Phrase) : Phrase := if brackets then p.bracketed else p

namespace Expr

mutual
/-- The canonical text of a tree as a phrase. -/
def phrase : Expr → Phrase
  | ⟨name, _, []⟩ => .word name false
  | ⟨name, _, first :: more⟩ =>
    if name = [] ∧ more = [] then first.phrase
    else if more = [] ∧ OperatorTable.standard.isUnary name then
      .signed name (first.phrase.enclosed (0 < first.binding .standard))
    else if OperatorTable.standard.precedence name = 0 then
      .call name (phraseChain (OperatorTable.standard.precedence [',']) false
        (first.phrase.enclosed
          (needsBrackets .standard (OperatorTable.standard.precedence [',']) first)) more)
    else
      phraseChain (OperatorTable.standard.precedence name) true
        (first.phrase.enclosed
          (needsBrackets .standard (OperatorTable.standard.precedence name) first)) more
/-- A phrase with further terms behind it, each with the operator before it; in a chain a blank
parts an operator from a sign. -/
def phraseChain (rank : Nat) (blanks : Bool) (front : Phrase) : List Expr → Phrase
  | [] => front
  | term :: more =>
    phraseChain rank blanks
      (.joined front term.op (blanks && term.bracketsRemoved.isPrefixed .standard)
        (term.phrase.enclosed (needsBrackets .standard rank term))) more
end

/-- A phrase that writes a tree: it has the canonical text of the tree, and reads as the tree up to
bracket groups, whatever operator it stands behind. -/
structure Writes (e : Expr) (p : Phrase) : Prop where
  valid : p.Valid
  text : p.text = e.text
  rank : p.rank = e.binding .standard
  closed : p.isOpen = false
  tree : ∀ op, (p.tree op).ungrouped = e.ungrouped.withOp op

end Expr

namespace Phrase

theorem tree_eq_withOp (p : Phrase) (op : Text) : p.tree op = (p.tree []).withOp op := by
  induction p generalizing op with
  | word | hollow | signed | joined => rfl
  | call head argument ih => exact (Expr.callNode_withOp head [] op _).symm
  | bracketed inner ih =>
    rw [tree, tree]
    split
    · exact (Expr.callNode_withOp [] [] op _).symm
    · exact ih op
  | closed inner ih => exact ih op

theorem ungrouped_callNode (op : Text) (inner : Expr) :
    (Expr.callNode [] op inner).ungrouped = inner.ungrouped.withOp op := by
  rw [Expr.callNode]
  split
  · exact Expr.ungrouped_withOp inner op
  · exact Expr.ungrouped_group op inner

theorem ungrouped_tree_enclosed (b : Bool) (p : Phrase) (op : Text) :
    ((p.enclosed b).tree op).ungrouped = (p.tree []).ungrouped.withOp op := by
  have hplain : (p.tree op).ungrouped = (p.tree []).ungrouped.withOp op := by
    rw [tree_eq_withOp, Expr.ungrouped_withOp]
  cases b with
  | false => exact hplain
  | true =>
    rw [enclosed, if_pos rfl, tree]
    split
    · exact ungrouped_callNode op (p.tree [])
    · exact hplain

/-- The tree of a chain has the terms of that rank. -/
theorem tree_eq_chain {p : Phrase} {r : Nat} {label : Text} (h : p.rank = r) (hr : r ≠ 0)
    (hl : OperatorTable.standard.groupLabel r = some label) (op : Text) :
    p.tree op = ⟨label, op, p.termsAt r⟩ := by
  cases p with
  | joined front o spaced term =>
    have ho : OperatorTable.standard.precedence o = r := h
    have hlabel : Phrase.label o = label := by
      rw [Phrase.label, ho, hl]
      rfl
    rw [termsAt, if_pos h, tree, tree, hlabel]
  | _ => exact absurd h.symm hr

end Phrase

namespace Expr

variable {e : Expr} {p : Phrase}

theorem Writes.enclosed (h : Writes e p) (b : Bool) :
    (p.enclosed b).Valid ∧ (p.enclosed b).text = enclose b e.text ∧
      (p.enclosed b).isOpen = false ∧ (p.enclosed b).rank = (if b then 0 else e.binding .standard) ∧
      ∀ op, ((p.enclosed b).tree op).ungrouped = e.ungrouped.withOp op := by
  refine ⟨?_, ?_, ?_, ?_, ?_⟩
  · cases b with
    | false => exact h.valid
    | true => exact h.valid
  · cases b with
    | false => exact h.text
    | true =>
      rw [Phrase.enclosed, if_pos rfl, Phrase.text, h.text]
      rfl
  · cases b with
    | false => exact h.closed
    | true => rfl
  · cases b with
    | false => exact h.rank
    | true => rfl
  · intro op
    rw [Phrase.ungrouped_tree_enclosed, h.tree]
    rfl

/-! ## The text of a node -/

theorem text_prefixed {sign op : Text} {operand : Expr}
    (h : OperatorTable.standard.isUnary sign = true) :
    text ⟨sign, op, [operand]⟩ =
      sign ++ enclose (0 < operand.binding .standard) operand.text := by
  have hne := ne_nil_of_isUnary h
  rw [text, render, if_neg (fun hc => hne hc.1), if_pos ⟨rfl, h⟩]

theorem text_head {head op : Text} {first : Expr} {more : List Expr} (h : HeadName head) :
    text ⟨head, op, first :: more⟩ = head ++ ('(' :: renderArguments .standard
      (OperatorTable.standard.precedence [',']) (first :: more) ++ [')']) := by
  have hu : ¬ (more = [] ∧ OperatorTable.standard.isUnary head = true) := by
    rintro ⟨-, hu⟩
    rw [h.isUnary_eq] at hu
    cases hu
  rw [text, render, if_neg (fun hc => h.ne_nil hc.1), if_neg hu, if_pos h.precedence_eq,
    List.append_assoc]
  rfl

theorem text_chain {label op : Text} {first : Expr} {more : List Expr}
    (h : OperatorTable.standard.isBinary label = true) (hm : more ≠ []) :
    text ⟨label, op, first :: more⟩ =
      first.op ++ enclose (needsBrackets .standard (OperatorTable.standard.precedence label) first)
        first.text ++ renderChain .standard (OperatorTable.standard.precedence label) more := by
  have hr := Nat.pos_iff_ne_zero.1 (OperatorTable.precedence_pos_iff.2 h)
  rw [text, render, if_neg (fun hc => ne_nil_of_isBinary h hc.1), if_neg (fun hc => hm hc.1),
    if_neg hr]

/-- The text of further terms behind a front. -/
def renderMore (blanks : Bool) (r : Nat) (terms : List Expr) : Text :=
  if blanks then renderChain .standard r terms else renderArguments .standard r terms

theorem renderMore_cons (blanks : Bool) (r : Nat) (term : Expr) (more : List Expr) :
    renderMore blanks r (term :: more) =
      term.op ++ (Phrase.gap (blanks && term.bracketsRemoved.isPrefixed .standard) ++
        enclose (needsBrackets .standard r term) term.text) ++ renderMore blanks r more := by
  cases blanks with
  | true => simp [renderMore, renderChain, Phrase.gap]
  | false => simp [renderMore, renderArguments, Phrase.gap]

/-- Terms that are written one by one are written as a chain. -/
theorem writes_chain (blanks : Bool) {r : Nat} {front : Phrase} {terms : List Expr}
    (hf : front.Valid) (hc : front.isOpen = false) (hrank : front.rank = 0 ∨ r ≤ front.rank)
    (hops : ∀ e ∈ terms, OperatorTable.standard.isBinary e.op = true ∧
      OperatorTable.standard.precedence e.op = r)
    (hw : ∀ e ∈ terms, Writes e e.phrase) :
    (phraseChain r blanks front terms).Valid ∧ (phraseChain r blanks front terms).isOpen = false ∧
      (phraseChain r blanks front terms).rank = (if terms = [] then front.rank else r) ∧
      (phraseChain r blanks front terms).text = front.text ++ renderMore blanks r terms ∧
      ((phraseChain r blanks front terms).termsAt r).map ungrouped =
        (front.termsAt r).map ungrouped ++ terms.map ungrouped := by
  induction terms generalizing front with
  | nil =>
    refine ⟨hf, hc, rfl, ?_, ?_⟩
    · cases blanks <;> simp [phraseChain, renderMore, renderChain, renderArguments]
    · simp [phraseChain]
  | cons term more ih =>
    obtain ⟨hop, hr⟩ := hops term List.mem_cons_self
    obtain ⟨hv, htext, hclosed, htr, htree⟩ :=
      (hw term List.mem_cons_self).enclosed (needsBrackets .standard r term)
    have hfit : (term.phrase.enclosed (needsBrackets .standard r term)).rank = 0 ∨
        r < (term.phrase.enclosed (needsBrackets .standard r term)).rank := by
      rw [htr, needsBrackets]
      by_cases hb : (0 < term.binding .standard && term.binding .standard ≤ r) = true
      · rw [if_pos hb]
        exact .inl rfl
      · rw [if_neg hb]
        simp only [Bool.and_eq_true, decide_eq_true_eq, not_and, not_le] at hb
        omega
    have hjoined : (Phrase.joined front term.op
        (blanks && term.bracketsRemoved.isPrefixed .standard)
        (term.phrase.enclosed (needsBrackets .standard r term))).Valid := by
      refine ⟨hop, hf, hv, ?_, ?_, ?_⟩
      · rwa [hr]
      · rwa [hr]
      · intro ho
        rw [hc] at ho
        cases ho
    obtain ⟨hvalid, hopen, hrank', htext', hterms⟩ := ih hjoined hclosed (.inr (Nat.le_of_eq hr.symm))
      (fun e he => hops e (List.mem_cons_of_mem _ he))
      (fun e he => hw e (List.mem_cons_of_mem _ he))
    rw [phraseChain]
    refine ⟨hvalid, hopen, ?_, ?_, ?_⟩
    · rw [hrank', if_neg (List.cons_ne_nil term more), Phrase.rank, hr]
      split <;> rfl
    · rw [htext', renderMore_cons, Phrase.text, htext]
      simp only [List.append_assoc]
    · rw [hterms, Phrase.termsAt_joined hr, List.map_append, List.map_cons, List.map_nil, htree]
      rw [withOp_of_eq (ungrouped_op term), List.map_cons, List.append_assoc, List.singleton_append]

/-! ## One lemma for each shape -/

theorem needsBrackets_eq (r : Nat) (e : Expr) :
    needsBrackets .standard r e = true ↔ 0 < e.binding .standard ∧ e.binding .standard ≤ r := by
  rw [needsBrackets, Bool.and_eq_true, decide_eq_true_eq, decide_eq_true_eq]

/-- The first term of a chain fits into it. -/
theorem Writes.first (h : Writes e p) {r : Nat} (hr : r ≠ 0) (ho : e.op = []) :
    (p.enclosed (needsBrackets .standard r e)).Valid ∧
      (p.enclosed (needsBrackets .standard r e)).isOpen = false ∧
      ((p.enclosed (needsBrackets .standard r e)).rank = 0 ∨
        r < (p.enclosed (needsBrackets .standard r e)).rank) ∧
      (p.enclosed (needsBrackets .standard r e)).text =
        enclose (needsBrackets .standard r e) e.text ∧
      ((p.enclosed (needsBrackets .standard r e)).termsAt r).map ungrouped = [e.ungrouped] := by
  obtain ⟨hv, htext, hclosed, hrank, htree⟩ := h.enclosed (needsBrackets .standard r e)
  have hfit : (p.enclosed (needsBrackets .standard r e)).rank = 0 ∨
      r < (p.enclosed (needsBrackets .standard r e)).rank := by
    rw [hrank]
    by_cases hb : needsBrackets .standard r e = true
    · rw [if_pos hb]
      exact .inl rfl
    · rw [if_neg hb]
      rw [needsBrackets_eq] at hb
      omega
  refine ⟨hv, hclosed, hfit, htext, ?_⟩
  rw [Phrase.termsAt, if_neg (by omega), List.map_singleton, htree,
    withOp_of_eq ((ungrouped_op e).trans ho)]

theorem writes_leaf {name op : Text} (h : PlainLeaf name) :
    Writes ⟨name, op, []⟩ (phrase ⟨name, op, []⟩) where
  valid := h.word
  text := by
    rw [phrase, text, render, if_neg h.ne_empty]
    rfl
  rank := (binding_leaf name op).symm
  closed := rfl
  tree _ := rfl

theorem writes_group {op : Text} {inner : Expr} (h : Writes inner inner.phrase) :
    Writes ⟨[], op, [inner]⟩ (phrase ⟨[], op, [inner]⟩) where
  valid := by
    rw [phrase, if_pos ⟨rfl, rfl⟩]
    exact h.valid
  text := by
    rw [phrase, if_pos ⟨rfl, rfl⟩, text, render, if_pos ⟨rfl, rfl⟩]
    exact h.text
  rank := by
    rw [phrase, if_pos ⟨rfl, rfl⟩, binding_group]
    exact h.rank
  closed := by
    rw [phrase, if_pos ⟨rfl, rfl⟩]
    exact h.closed
  tree op' := by
    rw [phrase, if_pos ⟨rfl, rfl⟩, ungrouped_group]
    exact h.tree op'

theorem phrase_prefixed {sign op : Text} {operand : Expr}
    (h : OperatorTable.standard.isUnary sign = true) :
    phrase ⟨sign, op, [operand]⟩ =
      .signed sign (operand.phrase.enclosed (0 < operand.binding .standard)) := by
  rw [phrase, if_neg (fun hc => ne_nil_of_isUnary h hc.1), if_pos ⟨rfl, h⟩]

theorem phrase_chain {label op : Text} {first : Expr} {more : List Expr}
    (h : OperatorTable.standard.isBinary label = true) (hm : more ≠ []) :
    phrase ⟨label, op, first :: more⟩ =
      phraseChain (OperatorTable.standard.precedence label) true (first.phrase.enclosed
        (needsBrackets .standard (OperatorTable.standard.precedence label) first)) more := by
  have hr := Nat.pos_iff_ne_zero.1 (OperatorTable.precedence_pos_iff.2 h)
  rw [phrase, if_neg (fun hc => ne_nil_of_isBinary h hc.1), if_neg (fun hc => hm hc.1), if_neg hr]

theorem writes_prefixed {sign op : Text} {operand : Expr}
    (hs : OperatorTable.standard.isUnary sign = true) (ho : operand.op = [])
    (h : Writes operand operand.phrase) :
    Writes ⟨sign, op, [operand]⟩ (phrase ⟨sign, op, [operand]⟩) := by
  have hne := ne_nil_of_isUnary hs
  obtain ⟨hv, htext, hclosed, hrank, htree⟩ :=
    h.enclosed (decide (0 < operand.binding .standard))
  have hrank0 : (operand.phrase.enclosed (0 < operand.binding .standard)).rank = 0 := by
    rw [hrank]
    split
    · rfl
    · rename_i hb
      simpa using hb
  rw [phrase_prefixed hs]
  refine ⟨⟨hs, hv, hrank0⟩, ?_, (binding_prefixed hne hs).symm, hclosed, ?_⟩
  · rw [Phrase.text, htext, text_prefixed hs]
  · intro op'
    rw [Phrase.tree, ungrouped_node (.inl hne), ungrouped_node (.inl hne), List.map_singleton,
      List.map_singleton, htree, withOp_of_eq ((ungrouped_op operand).trans ho)]
    rfl

theorem writes_chain_node {label op : Text} {first : Expr} {more : List Expr}
    (hb : OperatorTable.standard.isBinary label = true)
    (hg : OperatorTable.standard.groupLabel (OperatorTable.standard.precedence label) = some label)
    (ho : first.op = [])
    (hops : ∀ e ∈ more, OperatorTable.standard.isBinary e.op = true ∧
      OperatorTable.standard.precedence e.op = OperatorTable.standard.precedence label)
    (hne : more ≠ []) (hf : Writes first first.phrase) (hm : ∀ e ∈ more, Writes e e.phrase) :
    Writes ⟨label, op, first :: more⟩ (phrase ⟨label, op, first :: more⟩) := by
  have hr : OperatorTable.standard.precedence label ≠ 0 :=
    Nat.pos_iff_ne_zero.1 (OperatorTable.precedence_pos_iff.2 hb)
  have hname := ne_nil_of_isBinary hb
  obtain ⟨hv, hclosed, hfit, htext, hterms⟩ := hf.first hr ho
  obtain ⟨hv', hclosed', hrank', htext', hterms'⟩ :=
    writes_chain true hv hclosed (by omega) hops hm
  rw [if_neg hne] at hrank'
  rw [phrase_chain hb hne]
  refine ⟨hv', ?_, ?_, hclosed', ?_⟩
  · rw [htext', htext, text_chain hb hne, ho]
    rfl
  · rw [hrank', binding_chain (ne_nil_of_isBinary hb) hne]
  · intro op'
    rw [Phrase.tree_eq_chain hrank' hr hg, ungrouped_node (.inl hname),
      ungrouped_node (.inl hname), hterms', hterms, List.map_cons]
    rfl

theorem phrase_head {head op : Text} {first : Expr} {more : List Expr} (h : HeadName head) :
    phrase ⟨head, op, first :: more⟩ =
      .call head (phraseChain (OperatorTable.standard.precedence [',']) false
        (first.phrase.enclosed
          (needsBrackets .standard (OperatorTable.standard.precedence [',']) first)) more) := by
  have hu : ¬ (more = [] ∧ OperatorTable.standard.isUnary head = true) := by
    rintro ⟨-, hu⟩
    rw [h.isUnary_eq] at hu
    cases hu
  rw [phrase, if_neg (fun hc => h.ne_nil hc.1), if_neg hu, if_pos h.precedence_eq]

theorem callNode_eq {head op : Text} {inner : Expr} (he : inner.isEmptyMarker = false)
    (hl : inner.isList = false) : callNode head op inner = ⟨head, op, [inner]⟩ := by
  have hl' : (inner.name = ",".toList && !inner.isLeaf) = false := hl
  rw [callNode, he, hl']
  rfl

theorem callNode_list {head op op' : Text} {terms : List Expr} (hh : head ≠ [])
    (hne : terms ≠ []) : callNode head op ⟨[','], op', terms⟩ = ⟨head, op, terms⟩ := by
  simp [callNode, isLeaf, hne, hh]

theorem isEmptyMarker_of_ungrouped {e : Expr} (h : e.ungrouped.isEmptyMarker = false) :
    e.isEmptyMarker = false := by
  obtain ⟨name, op, terms⟩ := e
  cases terms with
  | nil => exact h
  | cons first more => rfl

theorem isList_of_ungrouped {e : Expr} (h : e.ungrouped.isList = false) : e.isList = false := by
  obtain ⟨name, op, terms⟩ := e
  by_cases hname : name = [',']
  · subst hname
    rw [ungrouped_node (.inl (List.cons_ne_nil _ _))] at h
    simpa [isList, isLeaf] using h
  · simp [isList, hname]

/-- A call of which the argument is written by some phrase. -/
theorem writes_head {head op : Text} {first : Expr} {more : List Expr} (h : HeadName head)
    (hd : isDotted head = true) (ho : first.op = [])
    (hops : ∀ e ∈ more, OperatorTable.standard.isBinary e.op = true ∧
      OperatorTable.standard.precedence e.op = OperatorTable.standard.precedence [','])
    (hf : Writes first first.phrase) (hm : ∀ e ∈ more, Writes e e.phrase)
    (hsingle : more = [] → first.ungrouped.isEmptyMarker = false ∧ first.ungrouped.isList = false) :
    Writes ⟨head, op, first :: more⟩ (phrase ⟨head, op, first :: more⟩) := by
  have hr : OperatorTable.standard.precedence [','] ≠ 0 := by decide
  have hg : OperatorTable.standard.groupLabel (OperatorTable.standard.precedence [',']) =
      some [','] := by decide
  obtain ⟨hv, hclosed, hfit, htext, hterms⟩ := hf.first hr ho
  obtain ⟨hv', hclosed', hrank', htext', hterms'⟩ :=
    writes_chain false hv hclosed (by omega) hops hm
  rw [phrase_head h]
  refine ⟨⟨hd, hv'⟩, ?_, (binding_head h.ne_nil h.precedence_eq).symm, rfl, ?_⟩
  · rw [Phrase.text, htext', htext, text_head h, renderArguments, ho]
    rfl
  · intro op'
    rw [Phrase.tree, ungrouped_node (.inl h.ne_nil)]
    by_cases hne : more = []
    · subst hne
      obtain ⟨hempty, hlist⟩ := hsingle rfl
      rw [Phrase.termsAt, if_neg (by omega), List.map_singleton, List.singleton_inj] at hterms
      rw [phraseChain]
      rw [← hterms] at hempty hlist
      rw [callNode_eq (isEmptyMarker_of_ungrouped hempty) (isList_of_ungrouped hlist),
        ungrouped_node (.inl h.ne_nil), List.map_singleton, hterms]
      rfl
    · rw [if_neg hne] at hrank'
      rw [hterms, List.singleton_append] at hterms'
      have hnil : Phrase.termsAt (OperatorTable.standard.precedence [','])
          (phraseChain (OperatorTable.standard.precedence [',']) false
            (first.phrase.enclosed
              (needsBrackets .standard (OperatorTable.standard.precedence [',']) first)) more) ≠
          [] := by
        intro hnil
        rw [hnil] at hterms'
        cases hterms'
      rw [Phrase.tree_eq_chain hrank' hr hg, callNode_list h.ne_nil hnil,
        ungrouped_node (.inl h.ne_nil), hterms']
      rfl

/-! ## All shapes together -/

theorem Shaped.of_list {terms : List Expr} (h : Shaped ⟨[','], [], terms⟩) (hne : terms ≠ []) :
    ∃ first more, terms = first :: more ∧ more ≠ [] ∧ Shaped first ∧ first.op = [] ∧
      (∀ e ∈ more, Shaped e) ∧ ∀ e ∈ more, OperatorTable.standard.isBinary e.op = true ∧
        OperatorTable.standard.precedence e.op = OperatorTable.standard.precedence [','] := by
  have hhead : ¬ HeadName [','] := by
    rintro ⟨c, rest, hc, hs⟩
    cases hc
    exact absurd hs (by decide)
  cases h with
  | leaf => exact absurd rfl hne
  | prefixed hs => exact absurd hs (by decide)
  | call hh => exact absurd hh hhead
  | listCall hh => exact absurd hh hhead
  | chain _ _ hf ho hm hops hmne => exact ⟨_, _, rfl, hmne, hf, ho, hm, hops⟩

theorem Shaped.ungrouped_isList {e : Expr} (h : Shaped e) (hl : e.isList = false) :
    e.ungrouped.isList = false := by
  induction h with
  | leaf => exact hl
  | group _ _ _ hinner ih =>
    rw [ungrouped_group]
    exact ih hinner
  | prefixed hs =>
    rw [ungrouped_node (.inl (ne_nil_of_isUnary hs))]
    exact hl
  | call hh =>
    rw [ungrouped_node (.inl hh.ne_nil)]
    exact hl
  | listCall hh =>
    rw [ungrouped_node (.inl hh.ne_nil)]
    simpa [isList, isLeaf] using hl
  | chain hb =>
    rw [ungrouped_node (.inl (ne_nil_of_isBinary hb))]
    exact hl

theorem Shaped.ungrouped_isEmptyMarker {e : Expr} (h : Shaped e) (hw : e.WellFormed) :
    e.ungrouped.isEmptyMarker = false := by
  induction h with
  | leaf =>
    have := hw.leaf.ne_empty
    simp [ungrouped, isEmptyMarker, this]
  | group _ _ _ _ ih =>
    rw [ungrouped_group]
    exact ih (hw.of_mem List.mem_cons_self)
  | prefixed hs =>
    rw [ungrouped_node (.inl (ne_nil_of_isUnary hs))]
    rfl
  | call hh =>
    rw [ungrouped_node (.inl hh.ne_nil)]
    rfl
  | listCall hh _ hne =>
    rw [ungrouped_node (.inl hh.ne_nil)]
    simp [isEmptyMarker, isLeaf, hne]
  | chain hb =>
    rw [ungrouped_node (.inl (ne_nil_of_isBinary hb))]
    rfl

theorem WellFormed.isDotted_head {head op : Text} {first : Expr} {more : List Expr}
    (hw : WellFormed ⟨head, op, first :: more⟩) (h : HeadName head) : isDotted head = true := by
  have hcall : isCall .standard ⟨head, op, first :: more⟩ = true := by
    simp [isCall, isLeaf, isChain, isPrefixed, h.isBinary_eq, h.isUnary_eq]
  exact ((hw [] _ rfl).2 hcall).resolve_left fun hc => h.ne_nil hc.1

/-- The canonical text of a well-formed parsed tree is a phrase that reads as the tree. -/
theorem writes_phrase {e : Expr} (hs : Shaped e) (hw : e.WellFormed) : Writes e e.phrase := by
  induction e with
  | node name op terms ih =>
    have iht : ∀ t ∈ terms, Shaped t → Writes t t.phrase :=
      fun t ht hst => ih t ht hst (hw.of_mem ht)
    cases hs with
    | leaf => exact writes_leaf hw.leaf
    | group hi => exact writes_group (iht _ List.mem_cons_self hi)
    | prefixed hsign hi ho => exact writes_prefixed hsign ho (iht _ List.mem_cons_self hi)
    | call hh ha ho hempty hlist =>
      refine writes_head hh (hw.isDotted_head hh) ho (by simp) (iht _ List.mem_cons_self ha)
        (by simp) fun _ => ⟨?_, ha.ungrouped_isList hlist⟩
      exact ha.ungrouped_isEmptyMarker (hw.of_mem List.mem_cons_self)
    | listCall hh hl hne =>
      obtain ⟨first, more, rfl, hmne, hf, ho, hm, hops⟩ := hl.of_list hne
      exact writes_head hh (hw.isDotted_head hh) ho hops (iht _ List.mem_cons_self hf)
        (fun e he => iht e (List.mem_cons_of_mem _ he) (hm e he)) fun hc => absurd hc hmne
    | chain hb hg hf ho hm hops hmne =>
      exact writes_chain_node hb hg ho hops hmne (iht _ List.mem_cons_self hf)
        fun e he => iht e (List.mem_cons_of_mem _ he) (hm e he)

/-- Whatever the parser makes of a text is read back from its canonical text, up to bracket
groups, once enough levels are allowed. -/
theorem ungrouped_parse_text {depth : Nat} {s : Text} {e : Expr}
    (h : parse .standard depth s = .ok e) (hw : e.WellFormed) :
    ∃ least, ∀ limit, least ≤ limit →
      ∃ back, parse .standard limit e.text = .ok back ∧ back.ungrouped = e.ungrouped := by
  obtain ⟨hs, ho⟩ := shaped_of_parseLevel h
  have hwrites := writes_phrase hs hw
  refine ⟨e.phrase.levels, fun limit hlimit => ⟨e.phrase.tree [], ?_, ?_⟩⟩
  · refine Phrase.parseLevel_eq hwrites.valid (by omega) ?_
    rw [← hwrites.text, (Phrase.trimmed hwrites.valid).trim_eq]
  · rw [hwrites.tree, withOp_of_eq ((ungrouped_op e).trans ho)]

theorem ungrouped_parse_text_signed_group :
    ∃ e, parse .standard 9 "-(a+(b))*f(c;2)".toList = .ok e ∧
      e.text = "-(a+b)*f((c;2))".toList ∧ e.WellFormed ∧
      ∃ least, ∀ limit, least ≤ limit →
        ∃ back, parse .standard limit e.text = .ok back ∧ back.ungrouped = e.ungrouped := by
  have hparse : parse .standard 9 "-(a+(b))*f(c;2)".toList = .ok ⟨['*'], [],
      [⟨['-'], [], [⟨[], [], [⟨['+'], [], [⟨['a'], [], []⟩, ⟨['b'], ['+'], []⟩]⟩]⟩]⟩,
        ⟨['f'], ['*'], [⟨[';'], [], [⟨['c'], [], []⟩, ⟨['2'], [';'], []⟩]⟩]⟩]⟩ := by
    decide +kernel
  have hletter : ∀ name ∈ [['a'], ['b'], ['c']], ∀ op, WellFormed ⟨name, op, []⟩ := by
    intro name hname op
    refine .node (fun _ => .inr (.inr (.inl ⟨?_, ?_⟩))) nofun nofun
    · revert name
      decide
    · revert name
      decide
  have hnumber : ∀ op, WellFormed ⟨['2'], op, []⟩ :=
    fun op => .node (fun _ => .inl (by decide)) nofun nofun
  have hw : WellFormed ⟨['*'], [],
      [⟨['-'], [], [⟨[], [], [⟨['+'], [], [⟨['a'], [], []⟩, ⟨['b'], ['+'], []⟩]⟩]⟩]⟩,
        ⟨['f'], ['*'], [⟨[';'], [], [⟨['c'], [], []⟩, ⟨['2'], [';'], []⟩]⟩]⟩]⟩ := by
    refine .node nofun (by decide) ?_
    simp only [List.mem_cons, List.not_mem_nil, or_false, forall_eq_or_imp, forall_eq]
    refine ⟨.node nofun (by decide) ?_, .node nofun (by decide) ?_⟩
    · simp only [List.mem_cons, List.not_mem_nil, or_false, forall_eq]
      refine .node nofun (by decide) ?_
      simp only [List.mem_cons, List.not_mem_nil, or_false, forall_eq]
      refine .node nofun (by decide) ?_
      simp only [List.mem_cons, List.not_mem_nil, or_false, forall_eq_or_imp, forall_eq]
      exact ⟨hletter _ (by simp) _, hletter _ (by simp) _⟩
    · simp only [List.mem_cons, List.not_mem_nil, or_false, forall_eq]
      refine .node nofun (by decide) ?_
      simp only [List.mem_cons, List.not_mem_nil, or_false, forall_eq_or_imp, forall_eq]
      exact ⟨hletter _ (by simp) _, hnumber _⟩
  exact ⟨_, hparse, by decide +kernel, hw, ungrouped_parse_text hparse hw⟩

end Expr
end Lineshape
