import Lineshape.Proofs.Expr.Canonical

/-! # Bracket groups

Bracket groups in a tree change neither its canonical text nor its identifiers
(`Expr.text_ungrouped`, `Expr.identifiers_ungrouped`). -/

namespace Lineshape.Expr
set_option autoImplicit false

/-- A node that is no bracket group. -/
def IsNode (e : Expr) : Prop := e.name ≠ [] ∨ e.terms.length ≠ 1

theorem isNode_or_group (e : Expr) : e.IsNode ∨ ∃ op inner, e = ⟨[], op, [inner]⟩ := by
  obtain ⟨name, op, terms⟩ := e
  by_cases h : name = [] ∧ terms.length = 1
  · obtain ⟨rfl, hlen⟩ := h
    obtain ⟨inner, rfl⟩ := List.length_eq_one_iff.1 hlen
    exact .inr ⟨op, inner, rfl⟩
  · refine .inl ?_
    rw [IsNode]
    tauto

theorem IsNode.not_group {name op : Text} {first : Expr} {more : List Expr}
    (h : IsNode ⟨name, op, first :: more⟩) : ¬ (name = [] ∧ more = []) := by
  rintro ⟨rfl, rfl⟩
  rcases h with h | h
  · exact h rfl
  · exact h rfl

theorem IsNode.bracketsRemoved_eq {e : Expr} (h : e.IsNode) : e.bracketsRemoved = e := by
  obtain ⟨name, op, terms⟩ := e
  rw [bracketsRemoved]
  rintro op' inner ⟨rfl, rfl, rfl⟩
  rcases h with h | h
  · exact h rfl
  · exact h rfl

theorem IsNode.ungrouped_eq {e : Expr} (h : e.IsNode) :
    e.ungrouped = ⟨e.name, e.op, e.terms.map ungrouped⟩ := by
  obtain ⟨name, op, terms⟩ := e
  exact ungrouped_node h

/-- Without its groups a tree has the node below its brackets at the top. -/
theorem ungrouped_eq (e : Expr) :
    e.ungrouped = ⟨e.bracketsRemoved.name, e.op, e.bracketsRemoved.terms.map ungrouped⟩ := by
  induction e with
  | node name op terms ih =>
    rcases isNode_or_group ⟨name, op, terms⟩ with h | ⟨op', inner, he⟩
    · rw [h.ungrouped_eq, h.bracketsRemoved_eq]
    · cases he
      rw [ungrouped_group, bracketsRemoved_group, ih inner (List.mem_singleton_self inner)]
      rfl

theorem isNode_bracketsRemoved (e : Expr) : e.bracketsRemoved.IsNode := by
  induction e with
  | node name op terms ih =>
    rcases isNode_or_group ⟨name, op, terms⟩ with h | ⟨op', inner, he⟩
    · rw [h.bracketsRemoved_eq]
      exact h
    · cases he
      rw [bracketsRemoved_group]
      exact ih inner (List.mem_singleton_self inner)

theorem bracketsRemoved_ungrouped (e : Expr) : e.ungrouped.bracketsRemoved = e.ungrouped := by
  refine IsNode.bracketsRemoved_eq ?_
  have h := isNode_bracketsRemoved e
  rw [ungrouped_eq, IsNode, List.length_map]
  exact h

theorem binding_ungrouped (e : Expr) : e.ungrouped.binding .standard = e.binding .standard := by
  rw [binding, binding, bracketsRemoved_ungrouped, ungrouped_eq, isLeaf, isLeaf, isPrefixed,
    isPrefixed, List.isEmpty_map, List.length_map]

theorem isPrefixed_ungrouped (e : Expr) :
    e.ungrouped.bracketsRemoved.isPrefixed .standard = e.bracketsRemoved.isPrefixed .standard := by
  rw [bracketsRemoved_ungrouped, ungrouped_eq, isPrefixed, isPrefixed, List.length_map]

/-! ## Texts -/

theorem render_withOp (t : OperatorTable) (e : Expr) (op : Text) :
    (e.withOp op).render t = e.render t := by
  obtain ⟨name, op', terms⟩ := e
  cases terms with
  | nil => rfl
  | cons first more => rw [withOp, render, render]

theorem text_withOp (e : Expr) (op : Text) : (e.withOp op).text = e.text :=
  e.render_withOp .standard op

theorem text_group (op : Text) (inner : Expr) : text ⟨[], op, [inner]⟩ = inner.text := by
  rw [text, render, if_pos ⟨rfl, rfl⟩]

theorem renderArguments_ungrouped (separator : Nat) {terms : List Expr}
    (h : ∀ e ∈ terms, e.ungrouped.text = e.text) :
    renderArguments .standard separator (terms.map ungrouped) =
      renderArguments .standard separator terms := by
  induction terms with
  | nil => rfl
  | cons e terms ih =>
    have he : e.ungrouped.render .standard = e.render .standard := h e List.mem_cons_self
    have hmore := ih fun e' he' => h e' (List.mem_cons_of_mem e he')
    rw [List.map_cons, renderArguments, renderArguments, needsBrackets, needsBrackets,
      binding_ungrouped, ungrouped_op, he, hmore]

theorem renderChain_ungrouped (rank : Nat) {terms : List Expr}
    (h : ∀ e ∈ terms, e.ungrouped.text = e.text) :
    renderChain .standard rank (terms.map ungrouped) = renderChain .standard rank terms := by
  induction terms with
  | nil => rfl
  | cons e terms ih =>
    have he : e.ungrouped.render .standard = e.render .standard := h e List.mem_cons_self
    have hmore := ih fun e' he' => h e' (List.mem_cons_of_mem e he')
    rw [List.map_cons, renderChain, renderChain, needsBrackets, needsBrackets, binding_ungrouped,
      isPrefixed_ungrouped, ungrouped_op, he, hmore]

theorem text_ungrouped (e : Expr) : e.ungrouped.text = e.text := by
  induction e with
  | node name op terms ih =>
    rcases isNode_or_group ⟨name, op, terms⟩ with h | ⟨op', inner, he⟩
    · rw [h.ungrouped_eq]
      cases terms with
      | nil => rfl
      | cons first more =>
        have hno := h.not_group
        have hno' : ¬ (name = [] ∧ more.map ungrouped = []) := by
          rw [List.map_eq_nil_iff]
          exact hno
        have hfirst : first.ungrouped.render .standard = first.render .standard :=
          ih first List.mem_cons_self
        have hmore : ∀ e ∈ more, e.ungrouped.text = e.text :=
          fun e he => ih e (List.mem_cons_of_mem first he)
        have harguments := renderArguments_ungrouped (OperatorTable.standard.precedence ",".toList) ih
        rw [List.map_cons] at harguments
        rw [List.map_cons, text, text, render, render, if_neg hno, if_neg hno']
        simp only [List.map_eq_nil_iff]
        rw [needsBrackets, needsBrackets, binding_ungrouped, ungrouped_op, hfirst, harguments,
          renderChain_ungrouped _ hmore]
    · cases he
      rw [ungrouped_group, text_withOp, text_group, ih inner (List.mem_singleton_self inner)]

/-- Trees that are equal up to groups have the same text, whatever operator they stand behind. -/
theorem text_congr {e e' : Expr} {op : Text} (h : e'.ungrouped = e.ungrouped.withOp op) :
    e'.text = e.text := by
  rw [← text_ungrouped e', h, text_withOp, text_ungrouped]

/-! ## Identifiers -/

theorem identifiers_withOp (e : Expr) (op : Text) : (e.withOp op).identifiers = e.identifiers := by
  obtain ⟨name, op', terms⟩ := e
  cases terms with
  | nil => rfl
  | cons first more => rw [withOp, identifiers, identifiers]

theorem identifiers_ungrouped (e : Expr) : e.ungrouped.identifiers = e.identifiers := by
  induction e with
  | node name op terms ih =>
    rcases isNode_or_group ⟨name, op, terms⟩ with h | ⟨op', inner, he⟩
    · rw [h.ungrouped_eq]
      cases terms with
      | nil => rfl
      | cons first more =>
        have hmore : (more.map ungrouped).flatMap identifiers = more.flatMap identifiers := by
          rw [List.flatMap_map]
          exact List.flatMap_congr fun e he => ih e (List.mem_cons_of_mem first he)
        rw [List.map_cons, identifiers, identifiers, identifiersOf_eq_flatMap,
          identifiersOf_eq_flatMap, hmore, ih first List.mem_cons_self]
    · cases he
      rw [ungrouped_group, identifiers_withOp, ih inner (List.mem_singleton_self inner), identifiers,
        identifiersOf, List.append_nil]

theorem variableNames_congr {e e' : Expr} {op : Text} (h : e'.ungrouped = e.ungrouped.withOp op) :
    e'.variableNames = e.variableNames := by
  rw [variableNames, variableNames, ← identifiers_ungrouped e', h, identifiers_withOp,
    identifiers_ungrouped]

end Lineshape.Expr
