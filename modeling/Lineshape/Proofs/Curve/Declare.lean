import Lineshape.Curve.Basic

/-! # Parameters that follow an attribute

The degree of a series and the formula of a user function decide its parameters. Reading either off
the attributes has a name here, and the two ways to declare parameters are stated with it. -/

namespace Lineshape.Curve
set_option autoImplicit false

/-- The degree that the attributes ask for. -/
def degree (c : Curve) : Int :=
  match Named.get? "n".toList c.attributes with
  | some (.int n) => n
  | _ => 0

/-- The text of the formula that the attributes ask for. -/
def formulaText (c : Curve) : Text :=
  match Named.get? "Formula".toList c.attributes with
  | some (.string s) => s
  | _ => []

theorem declareCoefficients_eq_ok {c c' : Curve} (h : c.declareCoefficients = .ok c') :
    0 ≤ c.degree ∧ c.degree ≤ maxDegree ∧ c' = c.declare (coefficientNames c.degree.toNat) := by
  have hdef : c.declareCoefficients =
      if 0 ≤ c.degree ∧ c.degree ≤ maxDegree then .ok (c.declare (coefficientNames c.degree.toNat))
      else .error (.invalidValue "n".toList .int (Text.ofInt c.degree)) := rfl
  rw [hdef] at h
  split at h
  · rename_i hn
    cases h
    exact ⟨hn.1, hn.2, rfl⟩
  · cases h

theorem compile_eq_ok {c c' : Curve} (h : c.compile = .ok c') :
    (Text.isAllBlank c.formulaText = true ∧ c' = { c.declare [] with formula? := none }) ∨
      Text.isAllBlank c.formulaText = false ∧ ∃ formula, Expr.ofText c.formulaText = .ok formula ∧
        c' = { c.declare (formulaParameters formula) with formula? := some formula } := by
  rw [compile] at h
  change (if Text.isAllBlank c.formulaText = true then _ else _) = _ at h
  split at h
  · rename_i hblank
    cases h
    exact .inl ⟨hblank, rfl⟩
  · rename_i hblank
    refine .inr ⟨Bool.not_eq_true _ ▸ hblank, ?_⟩
    split at h
    · cases h
    · rename_i formula hformula
      cases h
      exact ⟨formula, hformula, rfl⟩

theorem exists_compile {c : Curve} (h : Text.isAllBlank c.formulaText = true ∨
    ∃ formula, Expr.ofText c.formulaText = .ok formula) : ∃ c', c.compile = .ok c' := by
  rw [compile]
  change ∃ c', (if Text.isAllBlank c.formulaText = true then _ else _) = Except.ok c'
  split
  · exact ⟨_, rfl⟩
  · rename_i hblank
    obtain ⟨formula, hparse⟩ := h.resolve_left hblank
    split
    · rename_i error herror
      cases hparse.symm.trans herror
    · exact ⟨_, rfl⟩

theorem attributeChanged_degree {c : Curve} (h : c.shape = .polynomial ∨ c.shape = .chebyshev) :
    c.attributeChanged "n".toList = c.declareCoefficients := by
  unfold attributeChanged
  rcases h with h | h
  · rw [h]
    exact if_pos rfl
  · rw [h]
    exact if_pos rfl

theorem attributeChanged_formula {c : Curve} (h : c.shape = .userFunction) :
    c.attributeChanged "Formula".toList = c.compile := by
  unfold attributeChanged
  rw [h]
  exact if_pos rfl

theorem attributeChanged_interval {c : Curve} (h : c.shape = .chebyshev) {name : Text}
    (hname : name ≠ "n".toList) : c.attributeChanged name = .ok c := by
  unfold attributeChanged
  rw [h]
  exact if_neg hname

/-- A change of an attribute declares parameters anew or changes nothing else. -/
theorem attributeChanged_eq_ok {name : Text} {c c' : Curve} (h : c.attributeChanged name = .ok c') :
    c' = c ∨ ∃ names formula?, c' = { c.declare names with formula? } := by
  rw [attributeChanged] at h
  split at h
  · split at h
    · exact .inr ⟨_, c.formula?, (declareCoefficients_eq_ok h).2.2⟩
    · cases h
      exact .inl rfl
  · split at h
    · exact .inr ⟨_, c.formula?, (declareCoefficients_eq_ok h).2.2⟩
    · cases h
      exact .inl rfl
  · split at h
    · rcases compile_eq_ok h with ⟨-, rfl⟩ | ⟨-, formula, -, rfl⟩
      · exact .inr ⟨[], none, rfl⟩
      · exact .inr ⟨_, some formula, rfl⟩
    · cases h
      exact .inl rfl
  · cases h
    exact .inl rfl

theorem attributes_attributeChanged {name : Text} {c c' : Curve}
    (h : c.attributeChanged name = .ok c') : c'.attributes = c.attributes := by
  rcases attributeChanged_eq_ok h with rfl | ⟨names, formula?, rfl⟩
  · rfl
  · rfl

theorem shape_attributeChanged {name : Text} {c c' : Curve}
    (h : c.attributeChanged name = .ok c') : c'.shape = c.shape := by
  rcases attributeChanged_eq_ok h with rfl | ⟨names, formula?, rfl⟩
  · rfl
  · rfl

end Lineshape.Curve
