import Lineshape.Proofs.Curve.Keys

/-! # Parameters that stay in step

Whatever value an attribute is given, the parameters of a curve are those that its attributes ask
for, ties and bounds stand on them, and no name is there twice (`Curve.InStep`). The value is stored
first and taken back if the parameters cannot follow it; what is left then is the curve as it was
(`Curve.storeAttribute_eq`). -/

namespace Lineshape
set_option autoImplicit false

/-- Giving a slot its old value back undoes what was put into it. -/
theorem Named.set_set_of_get? {α : Type} {name : Text} {old value : α} {l : Named α}
    (h : get? name l = some old) : set name old (set name value l) = l := by
  induction l with
  | nil => rfl
  | cons p l ih =>
    obtain ⟨n, x⟩ := p
    rw [set]
    rcases Named.get?_cons_eq_some.1 h with ⟨rfl, rfl⟩ | ⟨hne, hold⟩
    · rw [if_pos rfl, set, if_pos rfl]
    · rw [if_neg hne, set, if_neg hne, ih hold]

namespace Curve

/-! ## The invariant -/

/-- The formula is what the text of it is parsed to, and the parameters are its variables. -/
def Compiled (s : Text) (c : Curve) : Prop :=
  (Text.isAllBlank s = true ∧ c.formula? = none ∧ c.parameters = []) ∨
    Text.isAllBlank s = false ∧ ∃ formula, Expr.ofText s = .ok formula ∧
      c.formula? = some formula ∧ Named.names c.parameters = formulaParameters formula

/-- The parameters are those that the attributes ask for, and what is attached stands on them. -/
structure InStep (c : Curve) : Prop where
  degree : c.shape = .polynomial ∨ c.shape = .chebyshev → ∃ n : Nat, (n : Int) ≤ maxDegree ∧
    Named.get? "n".toList c.attributes = some (.int n) ∧
    Named.names c.parameters = coefficientNames n
  formula : c.shape = .userFunction → ∃ s,
    Named.get? "Formula".toList c.attributes = some (.string s) ∧ c.Compiled s
  distinct : (Named.names c.parameters).Nodup
  ties : ∀ tie ∈ c.ties, tie.parameter ∈ Named.names c.parameters
  bounds : ∀ b ∈ c.bounds, b.parameter ∈ Named.names c.parameters

/-- The parameters of a formula are its identifiers besides `x`, in increasing order. -/
theorem formulaParameters_spec (formula : Expr) :
    (formulaParameters formula).Pairwise (· < ·) ∧
      ∀ name, name ∈ formulaParameters formula ↔ name ∈ formula.identifiers ∧ name ≠ ['x'] := by
  refine ⟨(Text.pairwise_sortDistinct _).filter _, fun name => ?_⟩
  rw [formulaParameters, List.mem_filter, decide_eq_true_eq, Expr.variableNames,
    Text.mem_sortDistinct]

variable {c c' : Curve} {name : Text} {value : Attribute}

/-- A curve that is as its shape asks for is in step. -/
theorem Configured.inStep (h : c.Configured)
    (hties : ∀ tie ∈ c.ties, tie.parameter ∈ Named.names c.parameters)
    (hbounds : ∀ b ∈ c.bounds, b.parameter ∈ Named.names c.parameters) : c.InStep where
  degree hshape := by
    unfold Configured at h
    rcases hshape with hshape | hshape
    · rw [hshape] at h
      obtain ⟨n, hle, hattributes, hnames, -⟩ := h
      exact ⟨n, hle, by rw [hattributes]; rfl, hnames⟩
    · rw [hshape] at h
      obtain ⟨n, start, stop, hle, hattributes, hnames, -⟩ := h
      exact ⟨n, hle, by rw [hattributes]; rfl, hnames⟩
  formula hshape := by
    unfold Configured at h
    rw [hshape] at h
    obtain ⟨s, -, hattributes, hcompiled⟩ := h
    exact ⟨s, by rw [hattributes]; rfl, hcompiled⟩
  distinct := h.nodup_names
  ties := hties
  bounds := hbounds

/-- Only values of parameters and what is attached to them may differ. -/
theorem InStep.congr (h : c.InStep) (hshape : c'.shape = c.shape)
    (hattributes : c'.attributes = c.attributes)
    (hnames : Named.names c'.parameters = Named.names c.parameters)
    (hformula : c'.formula? = c.formula?)
    (hties : ∀ tie ∈ c'.ties, tie.parameter ∈ Named.names c.parameters)
    (hbounds : ∀ b ∈ c'.bounds, b.parameter ∈ Named.names c.parameters) : c'.InStep where
  degree hs := by
    rw [hattributes, hnames]
    exact h.degree (hshape ▸ hs)
  formula hs := by
    obtain ⟨s, htext, hcompiled⟩ := h.formula (hshape ▸ hs)
    refine ⟨s, hattributes ▸ htext, ?_⟩
    rw [Compiled, hnames, hformula]
    refine hcompiled.imp_left fun ⟨hblank, hnone, hnil⟩ => ⟨hblank, hnone, ?_⟩
    rw [hnil] at hnames
    exact List.map_eq_nil_iff.1 hnames
  distinct := hnames ▸ h.distinct
  ties tie htie := hnames ▸ hties tie htie
  bounds b hb := hnames ▸ hbounds b hb

/-- The parameters of a user function are the variables of its formula. -/
theorem InStep.variables (h : c.InStep) (hshape : c.shape = .userFunction) {formula : Expr}
    (hformula : c.formula? = some formula) :
    (Named.names c.parameters).Pairwise (· < ·) ∧
      ∀ name, name ∈ Named.names c.parameters ↔ name ∈ formula.identifiers ∧ name ≠ ['x'] := by
  obtain ⟨s, -, ⟨-, hnone, -⟩ | ⟨-, formula', -, hsome, hnames⟩⟩ := h.formula hshape
  · cases hnone.symm.trans hformula
  · cases hsome.symm.trans hformula
    rw [hnames]
    exact formulaParameters_spec formula

/-! ## Attributes -/

theorem setAttribute_eq_ok (h : c.setAttribute name value = .ok c') :
    ∃ old, Named.get? name c.attributes = some old ∧ old.type = value.type ∧
      { c with attributes := Named.set name value c.attributes }.attributeChanged name = .ok c' := by
  obtain ⟨attributes, hreplace, hchanged⟩ := Result.bind_eq_ok.1 h
  obtain ⟨⟨old, hold, htype⟩, rfl⟩ := Slots.replace_eq_ok hreplace
  exact ⟨old, hold, htype, hchanged⟩

/-- The two attributes that parameters follow, and the others. -/
theorem attributeChanged_cases (h : c.attributeChanged name = .ok c') :
    ((c.shape = .polynomial ∨ c.shape = .chebyshev) ∧ name = "n".toList ∧
      c.declareCoefficients = .ok c') ∨
    (c.shape = .userFunction ∧ name = "Formula".toList ∧ c.compile = .ok c') ∨
    (c' = c ∧ (c.shape = .polynomial ∨ c.shape = .chebyshev → name ≠ "n".toList) ∧
      (c.shape = .userFunction → name ≠ "Formula".toList)) := by
  rw [attributeChanged] at h
  split at h
  · rename_i hshape
    split at h
    · rename_i hname
      exact .inl ⟨.inl hshape, hname, h⟩
    · rename_i hname
      cases h
      exact .inr (.inr ⟨rfl, fun _ => hname, fun hs => absurd (hshape.symm.trans hs) (by decide)⟩)
  · rename_i hshape
    split at h
    · rename_i hname
      exact .inl ⟨.inr hshape, hname, h⟩
    · rename_i hname
      cases h
      exact .inr (.inr ⟨rfl, fun _ => hname, fun hs => absurd (hshape.symm.trans hs) (by decide)⟩)
  · rename_i hshape
    split at h
    · rename_i hname
      exact .inr (.inl ⟨hshape, hname, h⟩)
    · rename_i hname
      cases h
      have hdegree : ¬ (c.shape = .polynomial ∨ c.shape = .chebyshev) := by
        rw [hshape]
        decide
      exact .inr (.inr ⟨rfl, fun hs => absurd hs hdegree, fun _ => hname⟩)
  · rename_i hp hc hu
    cases h
    exact .inr (.inr ⟨rfl, fun hs => (hs.elim hp hc).elim, fun hs => (hu hs).elim⟩)

/-- Whether an attribute can be changed depends on the shape and on this attribute alone. -/
theorem exists_attributeChanged {c₂ : Curve} (hshape : c₂.shape = c.shape)
    (hget : Named.get? name c₂.attributes = Named.get? name c.attributes)
    (h : c.attributeChanged name = .ok c') : ∃ c₂', c₂.attributeChanged name = .ok c₂' := by
  rw [attributeChanged.eq_def, hshape]
  rcases attributeChanged_cases h with ⟨hs, rfl, hdeclare⟩ | ⟨hs, rfl, hcompile⟩ | ⟨-, hn, hformula⟩
  · have hdegree : c₂.degree = c.degree := by rw [degree, hget, degree]
    obtain ⟨hlow, hhigh, -⟩ := declareCoefficients_eq_ok hdeclare
    rw [← hdegree] at hlow hhigh
    have hdeclare₂ : c₂.declareCoefficients = _ := if_pos ⟨hlow, hhigh⟩
    rcases hs with hs | hs
    all_goals
      rw [hs]
      exact ⟨_, hdeclare₂⟩
  · have htext : c₂.formulaText = c.formulaText := by rw [formulaText, hget, formulaText]
    rw [hs]
    refine exists_compile ?_
    rw [htext]
    rcases compile_eq_ok hcompile with ⟨hblank, -⟩ | ⟨-, formula, hparse, -⟩
    · exact .inl hblank
    · exact .inr ⟨formula, hparse⟩
  · split
    · rename_i hs
      exact ⟨c₂, if_neg (hn (.inl hs))⟩
    · rename_i hs
      exact ⟨c₂, if_neg (hn (.inr hs))⟩
    · rename_i hs
      exact ⟨c₂, if_neg (hformula hs)⟩
    · exact ⟨c₂, rfl⟩

/-- Ties and bounds on parameters that are no longer there are dropped. -/
theorem mem_of_declare {names : List Text} :
    (∀ tie ∈ (c.declare names).ties, tie.parameter ∈ names) ∧
      ∀ b ∈ (c.declare names).bounds, b.parameter ∈ names :=
  ⟨fun _ htie => List.contains_iff_mem.1 (List.mem_filter.1 htie).2,
    fun _ hb => List.contains_iff_mem.1 (List.mem_filter.1 hb).2⟩

/-- Values of the type of an attribute keep a curve in step, whatever they are. -/
theorem InStep.setAttribute (h : c.InStep) (hset : c.setAttribute name value = .ok c') :
    c'.InStep := by
  obtain ⟨old, hold, htype, hchanged⟩ := setAttribute_eq_ok hset
  have hstored : Named.get? name (Named.set name value c.attributes) = some value :=
    Named.get?_set_self (by rw [Named.has, hold]; rfl)
  rcases attributeChanged_cases hchanged with ⟨hshape, rfl, hdeclare⟩ | ⟨hshape, rfl, hcompile⟩ |
    ⟨rfl, hdegree, hformula⟩
  · -- the degree has a value of its type, and the coefficients are declared for it
    obtain ⟨n, -, hn, -⟩ := h.degree hshape
    obtain rfl : Attribute.int n = old := Option.some.inj (hn.symm.trans hold)
    cases value with
    | int k =>
      obtain ⟨n', rfl, hle, hnames, -, hattributes, hs⟩ := declared_of_degree hstored hdeclare
      obtain ⟨-, -, rfl⟩ := declareCoefficients_eq_ok hdeclare
      rw [names_declare] at hnames
      constructor
      · exact fun _ => ⟨n', hle, hstored, by rw [names_declare, hnames]⟩
      · intro hu
        rcases hshape with hshape | hshape <;> exact absurd (hshape.symm.trans hu) (by decide)
      · rw [names_declare, hnames]
        exact nodup_coefficientNames n'
      · rw [names_declare]
        exact mem_of_declare.1
      · rw [names_declare]
        exact mem_of_declare.2
    | _ => cases htype
  · -- the formula has a value of its type, and is blank or is parsed
    obtain ⟨s, hs, -⟩ := h.formula hshape
    obtain rfl : Attribute.string s = old := Option.some.inj (hs.symm.trans hold)
    cases value with
    | string text =>
      have htext : formulaText { c with
          attributes := Named.set "Formula".toList (.string text) c.attributes } = text := by
        rw [formulaText, hstored]
      have hdegree : ¬ (c.shape = .polynomial ∨ c.shape = .chebyshev) := by
        rw [hshape]
        decide
      rcases compile_eq_ok hcompile with ⟨hblank, rfl⟩ | ⟨hblank, formula, hparse, rfl⟩
      · exact ⟨fun hd => (hdegree hd).elim,
          fun _ => ⟨text, hstored, .inl ⟨htext ▸ hblank, rfl, rfl⟩⟩, List.nodup_nil,
          mem_of_declare.1, mem_of_declare.2⟩
      · rw [htext] at hblank hparse
        have hnames := names_declare (formulaParameters formula) c
        refine ⟨fun hd => (hdegree hd).elim,
          fun _ => ⟨text, hstored, .inr ⟨hblank, formula, hparse, rfl, hnames⟩⟩, ?_, ?_, ?_⟩
        · exact hnames.symm ▸ nodup_formulaParameters formula
        · exact hnames.symm ▸ mem_of_declare.1
        · exact hnames.symm ▸ mem_of_declare.2
    | _ => cases htype
  · -- another attribute, which no parameter follows
    refine ⟨fun hs => ?_, fun hs => ?_, h.distinct, h.ties, h.bounds⟩
    · obtain ⟨n, hle, hn, hnames⟩ := h.degree hs
      exact ⟨n, hle, (Named.get?_set_of_ne (hdegree hs).symm).trans hn, hnames⟩
    · obtain ⟨s, htext, hcompiled⟩ := h.formula hs
      exact ⟨s, (Named.get?_set_of_ne (hformula hs).symm).trans htext, hcompiled⟩

/-! ## Values that are carried over -/

/-- Parameters that were there before have kept their values, and the others are zero. -/
def CarriedFrom (c c' : Curve) : Prop :=
  ∀ name ∈ Named.names c'.parameters,
    (name ∈ Named.names c.parameters →
      Named.get? name c'.parameters = Named.get? name c.parameters) ∧
    (name ∉ Named.names c.parameters → Named.get? name c'.parameters = some 0)

theorem carriedFrom_declare (c : Curve) (names : List Text) : c.CarriedFrom (c.declare names) := by
  intro name hname
  rw [names_declare] at hname
  rw [get?_declare hname]
  constructor
  · intro hold
    obtain ⟨x, hx⟩ := Option.isSome_iff_exists.1 (Named.has_iff_mem_names.2 hold)
    rw [hx, Option.getD_some]
  · intro hnew
    rw [Named.get?_eq_none hnew, Option.getD_none]

/-- An attribute never changes the value of a parameter that stays. -/
theorem carriedFrom_setAttribute (h : c.setAttribute name value = .ok c') : c.CarriedFrom c' := by
  obtain ⟨old, -, -, hchanged⟩ := setAttribute_eq_ok h
  rcases attributeChanged_eq_ok hchanged with rfl | ⟨names, formula?, rfl⟩
  · exact fun name hname => ⟨fun _ => rfl, fun hnew => absurd hname hnew⟩
  · exact carriedFrom_declare c names

/-! ## Storing and taking back -/

/-- Put a value into an attribute and let the parameters follow it; if they cannot, put the old
value back. Gives the curve that is left, and the error if there is one. -/
def storeAttribute (name : Text) (value : Attribute) (c : Curve) : Curve × Option ModelError :=
  match c.attributes.replace c.shape.name name value with
  | .error error => (c, some error)
  | .ok attributes =>
    match { c with attributes }.attributeChanged name with
    | .ok changed => (changed, none)
    | .error error => ({ c with attributes := putBack attributes }, some error)
where
  /-- The slots with the old value, if they take it. -/
  putBack (attributes : Slots) : Slots :=
    (Named.get? name c.attributes).elim attributes fun old =>
      (attributes.replace c.shape.name name old).toOption.getD attributes

theorem putBack_eq {old : Attribute} (hold : Named.get? name c.attributes = some old)
    (htype : old.type = value.type) :
    storeAttribute.putBack name c (Named.set name value c.attributes) = c.attributes := by
  have hstored : Named.get? name (Named.set name value c.attributes) = some value :=
    Named.get?_set_self (by rw [Named.has, hold]; rfl)
  have hreplace : Slots.replace c.shape.name name old (Named.set name value c.attributes) =
      .ok c.attributes := by
    rw [Slots.replace, Slots.get, hstored]
    change (if value.type = old.type then _ else _) = _
    rw [if_pos htype.symm, Named.set_set_of_get? hold]
  rw [storeAttribute.putBack, hold, Option.elim_some, hreplace]
  rfl

/-- The attribute is all that has to be put back: a value that is refused leaves no trace. -/
theorem storeAttribute_eq (name : Text) (value : Attribute) (c : Curve) :
    c.storeAttribute name value =
      match c.setAttribute name value with
      | .ok changed => (changed, none)
      | .error error => (c, some error) := by
  rw [storeAttribute, setAttribute]
  cases hreplace : c.attributes.replace c.shape.name name value with
  | error error => rfl
  | ok attributes =>
    obtain ⟨⟨old, hold, htype⟩, rfl⟩ := Slots.replace_eq_ok hreplace
    change _ = match { c with attributes := Named.set name value c.attributes }.attributeChanged name
      with
      | .ok changed => (changed, none)
      | .error error => (c, some error)
    dsimp only
    rw [putBack_eq hold htype]

end Curve
end Lineshape
