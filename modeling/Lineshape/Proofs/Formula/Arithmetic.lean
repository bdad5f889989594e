import Lineshape.Proofs.Expr.Groups
import Lineshape.Proofs.Expr.Numbers
import Lineshape.Proofs.Formula.Leaves

/-! # Formulas that have a value

A formula has a value only if it is put together from numbers, names with a value, signs, groups,
calls of elementary functions, and sums, products and powers (`Formula.arithmetic_of_evaluate`). So
its canonical text reads back, and nothing in it binds less strongly than a sum. Bracket groups do
not change the value (`Formula.evaluate_ungrouped`). -/

namespace Lineshape
set_option autoImplicit false

namespace Formula

/-! ## Groups -/

theorem evaluate_withOp (lookup : Text → Option Float) (e : Expr) (op : Text) :
    evaluate lookup (e.withOp op) = evaluate lookup e := by
  obtain ⟨name, op', terms⟩ := e
  cases terms with
  | nil => rw [Expr.withOp, evaluate, evaluate]
  | cons first more =>
    rw [Expr.withOp, evaluate, evaluate]
    rfl

theorem evaluate_group (lookup : Text → Option Float) (op : Text) (inner : Expr) :
    evaluate lookup ⟨[], op, [inner]⟩ = evaluate lookup inner := by
  rw [evaluate, if_neg, if_neg, if_pos rfl]
  · simp [Expr.isChain]
  · have hunary : OperatorTable.standard.isUnary [] = false := by decide
    simp [Expr.isPrefixed, hunary]

theorem evaluateAll_map {lookup : Text → Option Float} {f : Expr → Expr} {terms : List Expr}
    (h : ∀ e ∈ terms, evaluate lookup (f e) = evaluate lookup e) :
    evaluateAll lookup (terms.map f) = evaluateAll lookup terms := by
  induction terms with
  | nil => rfl
  | cons e terms ih =>
    rw [List.map_cons, evaluateAll, evaluateAll, h e List.mem_cons_self,
      ih fun e' he' => h e' (List.mem_cons_of_mem e he')]

theorem evaluate_ungrouped (lookup : Text → Option Float) (e : Expr) :
    evaluate lookup e.ungrouped = evaluate lookup e := by
  induction e with
  | node name op terms ih =>
    rcases Expr.isNode_or_group ⟨name, op, terms⟩ with h | ⟨op', inner, he⟩
    · rw [h.ungrouped_eq]
      cases terms with
      | nil => rfl
      | cons first more =>
        have hmore : evaluateAll lookup (more.map Expr.ungrouped) = evaluateAll lookup more :=
          evaluateAll_map fun e he => ih e (List.mem_cons_of_mem first he)
        have hzip : ∀ xs : List Float,
            List.zipWith (fun term y => (term.op, y)) (more.map Expr.ungrouped) xs =
              List.zipWith (fun term y => (term.op, y)) more xs := by
          intro xs
          rw [List.zipWith_map_left]
          simp only [Expr.ungrouped_op]
        rw [List.map_cons, evaluate, evaluate, hmore, ih first List.mem_cons_self]
        simp only [Expr.isPrefixed, Expr.isChain, List.length_cons, List.length_map, hzip,
          Expr.ungrouped_op]
        rfl
    · cases he
      rw [Expr.ungrouped_group, evaluate_withOp, evaluate_group, ih inner (List.mem_singleton_self inner)]

/-! ## What has a value -/

/-- The formulas over some names. -/
inductive Arithmetic (isName : Text → Prop) : Expr → Prop
  | number {name op : Text} : (Literal.decimal? name).isSome = true → Arithmetic isName ⟨name, op, []⟩
  | name {name op : Text} : isName name → Expr.LeafName name → name ≠ Expr.emptyName →
    Arithmetic isName ⟨name, op, []⟩
  | signed {sign op : Text} {operand : Expr} : OperatorTable.standard.isUnary sign = true →
    Arithmetic isName operand → Arithmetic isName ⟨sign, op, [operand]⟩
  | group {op : Text} {inner : Expr} : Arithmetic isName inner → Arithmetic isName ⟨[], op, [inner]⟩
  | call {f : Elementary} {op : Text} {terms : List Expr} : terms ≠ [] →
    (∀ e ∈ terms, Arithmetic isName e) → Arithmetic isName ⟨f.name, op, terms⟩
  | chain {label op : Text} {first : Expr} {more : List Expr} :
    label ∈ [['+'], ['*'], ['^']] → more ≠ [] → (∀ e ∈ first :: more, Arithmetic isName e) →
    Arithmetic isName ⟨label, op, first :: more⟩

theorem leaf_of_leafValue {lookup : Text → Option Float} {name op : Text} {x : Float}
    (hleaf : Expr.LeafName name) (h : leafValue lookup name = .ok x) :
    Arithmetic (fun name => (lookup name).isSome = true) ⟨name, op, []⟩ := by
  rw [leafValue] at h
  split at h
  · cases h
  · rename_i hne
    split at h
    · rename_i hhead
      cases hread : Number.read? name with
      | none =>
        rw [hread] at h
        cases h
      | some y => exact .number (Number.read_decimal hread hhead)
    · cases hlookup : lookup name with
      | none =>
        rw [hlookup] at h
        cases h
      | some y =>
        refine .name ?_ hleaf hne
        rw [hlookup]
        rfl

theorem label_of_chainValue {label : Text} {values : List (Text × Float)} {x : Float}
    (h : chainValue label values = .ok x) : label ∈ [['+'], ['*'], ['^']] := by
  rw [chainValue.eq_def] at h
  simp only [List.mem_cons, List.not_mem_nil, or_false]
  split at h
  · rename_i hplus
    exact .inl hplus
  · split at h
    · rename_i htimes
      exact .inr (.inl htimes)
    · split at h
      · rename_i hpower
        exact .inr (.inr hpower)
      · cases h

theorem name_of_named? {name : Text} {f : Elementary} (h : Elementary.named? name = some f) :
    f.name = name := by
  have := List.find?_some h
  exact of_decide_eq_true this

/-- What a node with terms that has a value is. -/
theorem evaluate_node {lookup : Text → Option Float} {name op : Text} {first : Expr}
    {more : List Expr} {x : Float} (h : evaluate lookup ⟨name, op, first :: more⟩ = .ok x) :
    (∃ y, evaluate lookup first = .ok y) ∧
      ((OperatorTable.standard.isUnary name = true ∧ more = []) ∨ name = [] ∨
        ((∀ e ∈ more, ∃ y, evaluate lookup e = .ok y) ∧
          ((name ∈ [['+'], ['*'], ['^']] ∧ more ≠ []) ∨ ∃ f : Elementary, f.name = name))) := by
  rw [evaluate_cons] at h
  split at h
  · rename_i hprefixed
    obtain ⟨y, hy, -⟩ := Result.bind_eq_ok.1 h
    rw [Expr.isPrefixed, Bool.and_eq_true] at hprefixed
    refine ⟨⟨y, hy⟩, .inl ⟨hprefixed.2, ?_⟩⟩
    simpa using hprefixed.1
  · split at h
    · rename_i hchain
      obtain ⟨ys, hys, h⟩ := Result.bind_eq_ok.1 h
      refine ⟨Result.exists_of_mapM hys List.mem_cons_self, .inr (.inr ⟨fun e he =>
        Result.exists_of_mapM hys (List.mem_cons_of_mem first he),
        .inl ⟨label_of_chainValue h, ?_⟩⟩)⟩
      rintro rfl
      rw [Expr.isChain, Bool.and_eq_true] at hchain
      simp at hchain
    · split at h
      · rename_i hname
        exact ⟨⟨x, h⟩, .inr (.inl hname)⟩
      · split at h
        · cases h
        · rename_i f hf
          split at h
          · cases h
          · obtain ⟨ys, hys, -⟩ := Result.bind_eq_ok.1 h
            exact ⟨Result.exists_of_mapM hys List.mem_cons_self, .inr (.inr ⟨fun e he =>
              Result.exists_of_mapM hys (List.mem_cons_of_mem first he),
              .inr ⟨f, name_of_named? hf⟩⟩)⟩

/-- A parsed formula that has a value is put together from the parts that have one. -/
theorem arithmetic_of_evaluate {lookup : Text → Option Float} {e : Expr} {x : Float}
    (hs : Expr.Shaped e) (h : evaluate lookup e = .ok x) :
    Arithmetic (fun name => (lookup name).isSome = true) e := by
  induction e generalizing x with
  | node name op terms ih =>
    have iht : ∀ t ∈ terms, Expr.Shaped t → (∃ y, evaluate lookup t = .ok y) →
        Arithmetic (fun name => (lookup name).isSome = true) t :=
      fun t ht hst ⟨y, hy⟩ => ih t ht hst hy
    cases hs with
    | leaf hleaf => exact leaf_of_leafValue hleaf h
    | group hi =>
      rw [evaluate_group] at h
      exact .group (iht _ List.mem_cons_self hi ⟨x, h⟩)
    | prefixed hsign hi =>
      exact .signed hsign (iht _ List.mem_cons_self hi (evaluate_node h).1)
    | call hh hi =>
      obtain ⟨hy, ⟨hu, -⟩ | hnil | ⟨-, ⟨-, hne⟩ | ⟨f, rfl⟩⟩⟩ := evaluate_node h
      · rw [hh.isUnary_eq] at hu
        cases hu
      · exact absurd hnil hh.ne_nil
      · exact absurd rfl hne
      · refine .call (List.cons_ne_nil _ _) fun e he => ?_
        rw [List.mem_singleton.1 he]
        exact iht _ List.mem_cons_self hi hy
    | listCall hh hl hne =>
      obtain ⟨first, more, rfl, hmne, hf, ho, hm, hops⟩ := hl.of_list hne
      obtain ⟨hy, ⟨-, hnil⟩ | hnil | ⟨hmore, hcase⟩⟩ := evaluate_node h
      · exact absurd hnil hmne
      · exact absurd hnil hh.ne_nil
      · rcases hcase with ⟨hlabel, -⟩ | ⟨f, rfl⟩
        · have hb := hh.isBinary_eq
          revert hlabel hb
          simp only [List.mem_cons, List.not_mem_nil, or_false]
          rintro (rfl | rfl | rfl) hb <;> exact absurd hb (by decide)
        · refine .call (List.cons_ne_nil _ _) fun e he => ?_
          rcases List.mem_cons.1 he with rfl | hmem
          · exact iht _ List.mem_cons_self hf hy
          · exact iht _ he (hm e hmem) (hmore e hmem)
    | chain hb hg hf ho hm hops hne =>
      obtain ⟨hy, ⟨-, hnil⟩ | rfl | ⟨hmore, hcase⟩⟩ := evaluate_node h
      · exact absurd hnil hne
      · exact absurd hb (by decide)
      · have hlabel : name ∈ [['+'], ['*'], ['^']] := by
          rcases hcase with ⟨hlabel, -⟩ | ⟨f, rfl⟩
          · exact hlabel
          · cases f <;> exact absurd hb (by decide)
        refine .chain hlabel hne fun e he => ?_
        rcases List.mem_cons.1 he with rfl | hmem
        · exact iht _ List.mem_cons_self hf hy
        · exact iht _ he (hm e hmem) (hmore e hmem)

/-! ## What formulas are written with -/

namespace Arithmetic

variable {isName : Text → Prop} {e : Expr}

theorem isChain_of_label {label op : Text} {first : Expr} {more : List Expr}
    (h : label ∈ [['+'], ['*'], ['^']]) (hne : more ≠ []) :
    Expr.isChain .standard ⟨label, op, first :: more⟩ = true := by
  have hbinary : OperatorTable.standard.isBinary label = true := by
    revert label
    decide
  have hlength : 0 < more.length := List.length_pos_iff.2 hne
  rw [Expr.isChain, hbinary, Bool.and_true, decide_eq_true_eq, List.length_cons]
  omega

theorem mono {isName' : Text → Prop} (h : Arithmetic isName e)
    (hnames : ∀ name, isName name → Expr.LeafName name → isName' name) : Arithmetic isName' e := by
  induction h with
  | number hdecimal => exact .number hdecimal
  | name hname hleaf hne => exact .name (hnames _ hname hleaf) hleaf hne
  | signed hsign _ ih => exact .signed hsign ih
  | group _ ih => exact .group ih
  | call hne _ ih => exact .call hne ih
  | chain hlabel hne _ ih => exact .chain hlabel hne ih

/-- A formula is well-formed if its names are dotted. -/
theorem wellFormed (h : Arithmetic isName e)
    (hnames : ∀ name, isName name → Expr.LeafName name → isDotted name = true) : e.WellFormed := by
  have hfunction : ∀ f : Elementary, isDotted f.name = true := by
    intro f
    cases f <;> decide
  induction h with
  | number hdecimal =>
    exact .node (fun _ => .inl hdecimal) (fun hcall => by cases hcall) (List.forall_mem_nil _)
  | name hname hleaf hne =>
    exact .node (fun _ => .inr (.inr (.inl ⟨hnames _ hname hleaf, hne⟩)))
      (fun hcall => by cases hcall) (List.forall_mem_nil _)
  | signed hsign _ ih =>
    refine .node (fun hnil => by cases hnil) (fun hcall => ?_) fun t ht => ?_
    · simp [Expr.isCall, Expr.isPrefixed, hsign] at hcall
    · rw [List.mem_singleton.1 ht]
      exact ih
  | group _ ih =>
    refine .node (fun hnil => by cases hnil) (fun _ => .inl ⟨rfl, rfl⟩) fun t ht => ?_
    rw [List.mem_singleton.1 ht]
    exact ih
  | call hne _ ih => exact .node (fun hnil => absurd hnil hne) (fun _ => .inr (hfunction _)) ih
  | chain hlabel hne _ ih =>
    refine .node (fun hnil => by cases hnil) (fun hcall => ?_) ih
    simp [Expr.isCall, isChain_of_label hlabel hne] at hcall

/-- Nothing in a formula binds less strongly than a sum. -/
theorem binding_eq (h : Arithmetic isName e) :
    e.binding .standard = 0 ∨ 6 ≤ e.binding .standard := by
  induction h with
  | number | name => exact .inl (Expr.binding_leaf _ _)
  | signed hsign => exact .inl (Expr.binding_prefixed (Expr.ne_nil_of_isUnary hsign) hsign)
  | group _ ih =>
    rw [Expr.binding_group]
    exact ih
  | @call f op terms hne =>
    have hhead : Expr.HeadName f.name := by
      cases f <;> exact ⟨_, _, rfl, by decide⟩
    exact .inl (Expr.binding_head hhead.ne_nil hhead.precedence_eq)
  | @chain label op first more hlabel hne =>
    have hranks : ∀ label ∈ [['+'], ['*'], ['^']], OperatorTable.standard.isBinary label = true ∧
        6 ≤ OperatorTable.standard.precedence label := by decide
    obtain ⟨hbinary, hrank⟩ := hranks label hlabel
    rw [Expr.binding_chain (Expr.ne_nil_of_isBinary hbinary) hne]
    exact .inr hrank

/-- The identifiers of a formula are names. -/
theorem isName_of_mem (h : Arithmetic isName e) : ∀ name ∈ e.identifiers, isName name := by
  have hterms : ∀ {first : Expr} {more : List Expr} {label op : Text},
      (∀ e ∈ first :: more, ∀ name ∈ e.identifiers, isName name) →
      ∀ name ∈ Expr.identifiers ⟨label, op, first :: more⟩, isName name := by
    intro first more label op ih name hname
    rw [Expr.identifiers, Expr.identifiersOf_eq_flatMap, ← List.flatMap_cons] at hname
    obtain ⟨e, he, hname⟩ := List.mem_flatMap.1 hname
    exact ih e he name hname
  induction h with
  | @number name op hdecimal =>
    intro n hn
    rw [Expr.identifiers, Literal.isIdentifier_of_decimal hdecimal] at hn
    cases hn
  | @name name op hname =>
    intro n hn
    rw [Expr.identifiers] at hn
    split at hn
    · rw [List.mem_singleton.1 hn]
      exact hname
    · cases hn
  | signed _ _ ih =>
    refine hterms fun e he => ?_
    rw [List.mem_singleton.1 he]
    exact ih
  | group _ ih =>
    refine hterms fun e he => ?_
    rw [List.mem_singleton.1 he]
    exact ih
  | call hne _ ih =>
    obtain ⟨first, more, rfl⟩ := List.exists_cons_of_ne_nil hne
    exact hterms ih
  | chain _ _ _ ih => exact hterms ih

theorem isName_of_mem_variableNames (h : Arithmetic isName e) :
    ∀ name ∈ e.variableNames, isName name :=
  fun name hname => h.isName_of_mem name (Text.mem_sortDistinct.1 hname)

end Arithmetic

end Formula
end Lineshape
