import Lineshape.Proofs.Curve.Declare
import Lineshape.Proofs.Result
import Lineshape.Proofs.Text.Trim

/-! # Curves in step with their attributes

The parameters and the formula of a curve are those that its shape and its attributes ask for
(`Curve.Configured`), and changing an attribute keeps it so. -/

namespace Lineshape
set_option autoImplicit false

theorem Named.get?_cons_eq_some {α : Type} {name n : Text} {x y : α} {l : Named α} :
    Named.get? name ((n, x) :: l) = some y ↔
      (n = name ∧ x = y) ∨ (n ≠ name ∧ Named.get? name l = some y) := by
  rw [Named.get?]
  by_cases hn : n = name
  · simp [hn]
  · simp [hn]

namespace Curve

/-- The curve has the attributes of its shape, and the parameters that they ask for. -/
def Configured (c : Curve) : Prop :=
  match c.shape with
  | .polynomial => ∃ n : Nat, (n : Int) ≤ maxDegree ∧ c.attributes = [("n".toList, .int n)] ∧
    Named.names c.parameters = coefficientNames n ∧ c.formula?.isNone = true
  | .chebyshev => ∃ (n : Nat) (start stop : Float), (n : Int) ≤ maxDegree ∧
    c.attributes = [("n".toList, .int n), ("StartX".toList, .double start),
      ("EndX".toList, .double stop)] ∧
    Named.names c.parameters = coefficientNames n ∧ c.formula?.isNone = true
  | .userFunction => ∃ s, Text.Trimmed s ∧ c.attributes = [("Formula".toList, .string s)] ∧
    ((Text.isAllBlank s = true ∧ c.formula? = none ∧ c.parameters = []) ∨
      Text.isAllBlank s = false ∧ ∃ formula, Expr.ofText s = .ok formula ∧
        c.formula? = some formula ∧ Named.names c.parameters = formulaParameters formula)
  | .tabulated => ∃ xs ys, c.attributes = [("X".toList, .vector xs), ("Y".toList, .vector ys)] ∧
    Named.names c.parameters = Named.names Shape.tabulated.parameters ∧ c.formula?.isNone = true
  | shape => c.attributes = [] ∧ Named.names c.parameters = Named.names shape.parameters ∧
    c.formula?.isNone = true

theorem configured_ofShape (shape : Shape) : (ofShape shape).Configured := by
  have htrimmed : Text.Trimmed [] := ⟨nofun, nofun⟩
  cases shape with
  | polynomial => exact ⟨0, by decide, rfl, rfl, rfl⟩
  | chebyshev => exact ⟨0, -1, 1, by decide, rfl, rfl, rfl⟩
  | userFunction => exact ⟨[], htrimmed, rfl, .inl ⟨rfl, rfl, rfl⟩⟩
  | tabulated => exact ⟨[], [], rfl, rfl, rfl⟩
  | gaussian | lorentzian | linearBackground | flatBackground => exact ⟨rfl, rfl, rfl⟩

theorem Configured.congr {c c' : Curve} (h : c.Configured) (hshape : c'.shape = c.shape)
    (hattributes : c'.attributes = c.attributes)
    (hnames : Named.names c'.parameters = Named.names c.parameters)
    (hformula : c'.formula? = c.formula?) : c'.Configured := by
  have hnil : c.parameters = [] → c'.parameters = [] := by
    intro hc
    rw [hc] at hnames
    exact List.map_eq_nil_iff.1 hnames
  unfold Configured at h ⊢
  rw [hshape, hattributes, hnames, hformula]
  split at h
  · exact h
  · exact h
  · obtain ⟨s, htrimmed, ha, hcase⟩ := h
    refine ⟨s, htrimmed, ha, ?_⟩
    exact hcase.imp_left fun hblank => ⟨hblank.1, hblank.2.1, hnil hblank.2.2⟩
  · exact h
  · exact h

/-- The degree is the one attribute that coefficients follow. -/
theorem declared_of_degree {c c' : Curve} {k : Int}
    (hdegree : Named.get? "n".toList c.attributes = some (.int k))
    (h : c.declareCoefficients = .ok c') : ∃ n : Nat, k = n ∧ (n : Int) ≤ maxDegree ∧
      Named.names c'.parameters = coefficientNames n ∧ c'.formula? = c.formula? ∧
      c'.attributes = c.attributes ∧ c'.shape = c.shape := by
  have hk : c.degree = k := by
    unfold degree
    rw [hdegree]
  obtain ⟨hlow, hhigh, rfl⟩ := declareCoefficients_eq_ok h
  rw [hk] at hlow hhigh ⊢
  refine ⟨k.toNat, (Int.toNat_of_nonneg hlow).symm, ?_, names_declare _ _, rfl, rfl, rfl⟩
  rwa [Int.toNat_of_nonneg hlow]

/-- A value of the type of an attribute keeps the curve in step with its attributes. -/
theorem Configured.setAttribute {c c' : Curve} {name : Text} {old value : Attribute}
    (h : c.Configured) (hold : Named.get? name c.attributes = some old)
    (htype : old.type = value.type) (htrimmed : ∀ s, value = .string s → Text.Trimmed s)
    (hset : c.setAttribute name value = .ok c') : c'.Configured := by
  obtain ⟨attributes, hreplace, hchanged⟩ := Result.bind_eq_ok.1 hset
  obtain ⟨-, rfl⟩ := Slots.replace_eq_ok hreplace
  obtain ⟨shape, parameters, attributes, formula?, ties, bounds⟩ := c
  cases shape with
  | gaussian | lorentzian | linearBackground | flatBackground =>
    obtain ⟨rfl, -⟩ := h
    cases hold
  | polynomial =>
    obtain ⟨n, -, rfl, -, hformula⟩ := h
    obtain ⟨rfl, rfl⟩ | ⟨-, hnil⟩ := Named.get?_cons_eq_some.1 hold
    · cases value with
      | int k =>
        rw [attributeChanged_degree (.inl rfl)] at hchanged
        obtain ⟨n', rfl, hle, hnames, hf, ha, hs⟩ := declared_of_degree (k := k) (by rfl) hchanged
        unfold Configured
        rw [hs, ha, hf]
        exact ⟨n', hle, rfl, hnames, hformula⟩
      | _ => cases htype
    · cases hnil
  | chebyshev =>
    obtain ⟨n, start, stop, hn, rfl, hnames, hformula⟩ := h
    obtain ⟨rfl, rfl⟩ | ⟨-, hold⟩ := Named.get?_cons_eq_some.1 hold
    · cases value with
      | int k =>
        rw [attributeChanged_degree (.inr rfl)] at hchanged
        obtain ⟨n', rfl, hle, hnames, hf, ha, hs⟩ := declared_of_degree (k := k) (by rfl) hchanged
        unfold Configured
        rw [hs, ha, hf]
        exact ⟨n', start, stop, hle, rfl, hnames, hformula⟩
      | _ => cases htype
    · obtain ⟨rfl, rfl⟩ | ⟨-, hold⟩ := Named.get?_cons_eq_some.1 hold
      · cases value with
        | double x =>
          rw [attributeChanged_interval rfl (by decide)] at hchanged
          cases hchanged
          exact ⟨n, x, stop, hn, rfl, hnames, hformula⟩
        | _ => cases htype
      · obtain ⟨rfl, rfl⟩ | ⟨-, hnil⟩ := Named.get?_cons_eq_some.1 hold
        · cases value with
          | double x =>
            rw [attributeChanged_interval rfl (by decide)] at hchanged
            cases hchanged
            exact ⟨n, start, x, hn, rfl, hnames, hformula⟩
          | _ => cases htype
        · cases hnil
  | userFunction =>
    obtain ⟨s, -, rfl, -⟩ := h
    obtain ⟨rfl, rfl⟩ | ⟨-, hnil⟩ := Named.get?_cons_eq_some.1 hold
    · cases value with
      | string text =>
        rw [attributeChanged_formula rfl] at hchanged
        have htext := htrimmed text rfl
        rcases compile_eq_ok hchanged with ⟨hblank, rfl⟩ | ⟨hblank, formula, hformula, rfl⟩
        · exact ⟨text, htext, rfl, .inl ⟨hblank, rfl, rfl⟩⟩
        · exact ⟨text, htext, rfl, .inr ⟨hblank, formula, hformula, rfl, names_declare _ _⟩⟩
      | _ => cases htype
    · cases hnil
  | tabulated =>
    obtain ⟨xs, ys, rfl, hnames, hformula⟩ := h
    obtain ⟨rfl, rfl⟩ | ⟨-, hold⟩ := Named.get?_cons_eq_some.1 hold
    · cases value with
      | vector values =>
        cases hchanged
        exact ⟨values, ys, rfl, hnames, hformula⟩
      | _ => cases htype
    · obtain ⟨rfl, rfl⟩ | ⟨-, hnil⟩ := Named.get?_cons_eq_some.1 hold
      · cases value with
        | vector values =>
          cases hchanged
          exact ⟨xs, values, rfl, hnames, hformula⟩
        | _ => cases htype
      · cases hnil

end Curve
end Lineshape
