import Mathlib.Data.List.Nodup
import Lineshape.Proofs.Curve.Configured
import Lineshape.Proofs.Expr.Numbers
import Lineshape.Reading.Item

/-! # Names of parameters as keys

In a model text a parameter is set by an item with its name as key. An item is understood so if the
name has no other meaning for the function (`Curve.ParameterKey`). The names of the parameters of a
curve are such keys (`Curve.Configured.parameterKey`), those of a user function if they are plain
names, and no two of them are equal (`Curve.Configured.nodup_names`). -/

namespace Lineshape
set_option autoImplicit false

/-! ## Names without repetition -/

theorem Text.pairwise_insertDistinct {s : Text} {texts : List Text} (h : texts.Pairwise (· < ·)) :
    (insertDistinct s texts).Pairwise (· < ·) := by
  induction texts with
  | nil => exact List.pairwise_singleton _ s
  | cons t texts ih =>
    obtain ⟨ht, hrest⟩ := List.pairwise_cons.1 h
    rw [insertDistinct]
    split
    · rename_i hlt
      refine List.pairwise_cons.2 ⟨fun u hu => ?_, h⟩
      rcases List.mem_cons.1 hu with rfl | hu
      · exact hlt
      · exact List.lt_trans hlt (ht u hu)
    · rename_i hnot
      split
      · exact h
      · rename_i hne
        refine List.pairwise_cons.2 ⟨fun u hu => ?_, ih hrest⟩
        rcases mem_insertDistinct.1 hu with rfl | hu
        · exact Decidable.byContradiction fun hle => hne (List.le_antisymm (List.not_lt.1 hle) (List.not_lt.1 hnot))
        · exact ht u hu

theorem Text.pairwise_sortDistinct (texts : List Text) :
    (sortDistinct texts).Pairwise (· < ·) := by
  induction texts with
  | nil => exact .nil
  | cons t texts ih => exact pairwise_insertDistinct ih

theorem Text.nodup_sortDistinct (texts : List Text) : (sortDistinct texts).Nodup := by
  refine (pairwise_sortDistinct texts).imp fun {a b} hlt => ?_
  rintro rfl
  exact List.lt_irrefl a hlt

theorem Text.ofNat_injective : Function.Injective Text.ofNat := by
  intro i j h
  have hi := Whole.natural?_ofNat i
  rw [h, Whole.natural?_ofNat] at hi
  exact (Option.some.inj hi).symm

namespace Curve

theorem nodup_coefficientNames (degree : Nat) : (coefficientNames degree).Nodup := by
  refine List.Nodup.map (fun i j h => ?_) List.nodup_range
  exact Text.ofNat_injective (List.cons.inj h).2

theorem nodup_formulaParameters (formula : Expr) : (formulaParameters formula).Nodup :=
  (Text.nodup_sortDistinct _).filter _

/-- No two parameters of a curve have the same name. -/
theorem Configured.nodup_names {c : Curve} (h : c.Configured) :
    (Named.names c.parameters).Nodup := by
  unfold Configured at h
  split at h
  · obtain ⟨n, -, -, hnames, -⟩ := h
    exact hnames ▸ nodup_coefficientNames n
  · obtain ⟨n, -, -, -, -, hnames, -⟩ := h
    exact hnames ▸ nodup_coefficientNames n
  · obtain ⟨s, -, -, ⟨-, -, hnil⟩ | ⟨-, formula, -, -, hnames⟩⟩ := h
    · exact hnil ▸ List.nodup_nil
    · exact hnames ▸ nodup_formulaParameters formula
  · obtain ⟨xs, ys, -, hnames, -⟩ := h
    exact hnames ▸ (by decide)
  · obtain ⟨-, hnames, -⟩ := h
    rw [hnames]
    generalize c.shape = shape
    cases shape <;> decide

/-! ## Keys -/

/-- A name that as the key of an item sets a parameter, of a function with attributes of the names
`taken`. -/
structure ParameterKey (taken : List Text) (name : Text) : Prop where
  segment : isSegment name = true
  nonEmpty : name ≠ Expr.emptyName
  free : name ∉ taken
  key : Key.ofText name ∈ [.name, .composite, .other name]

theorem parameterKey_iff {taken : List Text} {name : Text} : ParameterKey taken name ↔
    (isSegment name && name != Expr.emptyName && !taken.contains name &&
      [.name, .composite, .other name].contains (Key.ofText name)) = true := by
  simp only [Bool.and_eq_true, bne_iff_ne, Bool.not_eq_true', List.contains_iff_mem,
    ← Bool.not_eq_true]
  constructor
  · rintro ⟨hs, he, hf, hk⟩
    exact ⟨⟨⟨hs, he⟩, hf⟩, hk⟩
  · rintro ⟨⟨⟨hs, he⟩, hf⟩, hk⟩
    exact ⟨hs, he, hf, hk⟩

instance (taken : List Text) (name : Text) : Decidable (ParameterKey taken name) :=
  decidable_of_iff' _ parameterKey_iff

theorem parameterKey_coefficient {taken : List Text} {degree : Nat} {name : Text}
    (hname : name ∈ coefficientNames degree) (hfree : ∀ other ∈ taken, other.head? ≠ some 'A') :
    ParameterKey taken name := by
  obtain ⟨i, -, rfl⟩ := List.mem_map.1 hname
  have hdigits : (Text.ofNat i).all Text.continuesName = true := by
    rw [List.all_eq_true]
    intro c hc
    exact Text.continuesName_of_isDigit (List.all_eq_true.1 (Text.all_isDigit_ofNat i) c hc)
  have hkey : Key.ofText ('A' :: Text.ofNat i) = .other ('A' :: Text.ofNat i) := rfl
  refine ⟨?_, nofun, fun hmem => hfree _ hmem rfl, ?_⟩
  · rw [isSegment, hdigits]
    decide
  · rw [hkey]
    simp

end Curve

/-- Whether a name can be the key of a parameter of a user function: a plain identifier without
another meaning. -/
def Text.isParameterKey (name : Text) : Bool :=
  name.all Text.continuesName && name ≠ "Formula".toList && name ≠ "ties".toList &&
    !"constraint".toList.isPrefixOf name

/-- What begins like an identifier and is not reserved for ties or for constraints is the key of an
attribute or of a parameter. -/
theorem Key.ofText_of_start {c : Char} {s : Text} (hstart : (Text.isLetter c || c == '_') = true)
    (hties : c :: s ≠ "ties".toList) (hfree : "constraint".toList.isPrefixOf (c :: s) = false) :
    ofText (c :: s) ∈ [.name, .composite, .other (c :: s)] := by
  rw [ofText.eq_def, if_neg hties, hfree]
  split
  · exact List.mem_cons_self
  · split
    · exact List.mem_cons_of_mem _ List.mem_cons_self
    · split
      · contradiction
      · split
        · -- An identifier does not begin with a dollar sign.
          rename_i he
          cases he
          exact absurd hstart (by decide)
        · simp

theorem Expr.isIdentifier_of_mem {e : Expr} {name : Text} (h : name ∈ e.identifiers) :
    isIdentifier name = true := by
  induction e with
  | node n op terms ih =>
    cases terms with
    | nil =>
      rw [identifiers] at h
      split at h
      · rename_i hid
        rwa [List.mem_singleton.1 h]
      · cases h
    | cons first more =>
      rw [identifiers, identifiersOf_eq_flatMap, ← List.flatMap_cons] at h
      obtain ⟨term, hterm, h⟩ := List.mem_flatMap.1 h
      exact ih term hterm h

namespace Curve

theorem parameterKey_identifier {name : Text} (hid : Expr.isIdentifier name = true)
    (hname : Text.isParameterKey name = true) : ParameterKey ["Formula".toList] name := by
  simp only [Expr.isIdentifier, Text.isParameterKey, Bool.and_eq_true, decide_eq_true_eq,
    Bool.not_eq_true'] at hid hname
  obtain ⟨⟨⟨hne, hstart⟩, -⟩, -⟩ := hid
  obtain ⟨⟨⟨hall, hformula⟩, hties⟩, hprefix⟩ := hname
  cases name with
  | nil => cases hstart
  | cons c s =>
    have hstart : (Text.isLetter c || c == '_') = true := hstart
    refine ⟨?_, hne, ?_, Key.ofText_of_start hstart hties hprefix⟩
    · rw [List.all_cons, Bool.and_eq_true] at hall
      rw [isSegment, hstart, hall.2]
      rfl
    · exact fun hmem => hformula (List.mem_singleton.1 hmem)

/-- The parameters of a curve are set by items with their names as keys. -/
theorem Configured.parameterKey {c : Curve} (h : c.Configured)
    (huser : c.shape = .userFunction → ∀ name ∈ Named.names c.parameters,
      Text.isParameterKey name = true) :
    ∀ name ∈ Named.names c.parameters, ParameterKey (Named.names c.attributes) name := by
  intro name hname
  unfold Configured at h
  split at h
  · obtain ⟨n, -, hattributes, hnames, -⟩ := h
    rw [hattributes]
    exact parameterKey_coefficient (hnames ▸ hname) (show ∀ other ∈ ["n".toList], _ by decide)
  · obtain ⟨n, start, stop, -, hattributes, hnames, -⟩ := h
    rw [hattributes]
    exact parameterKey_coefficient (hnames ▸ hname)
      (show ∀ other ∈ ["n".toList, "StartX".toList, "EndX".toList], _ by decide)
  · rename_i hshape
    obtain ⟨s, -, hattributes, ⟨-, -, hnil⟩ | ⟨-, formula, -, -, hnames⟩⟩ := h
    · rw [hnil] at hname
      cases hname
    · have hid : Expr.isIdentifier name = true := by
        have hmem := (List.mem_filter.1 (hnames ▸ hname : name ∈ formulaParameters formula)).1
        exact Expr.isIdentifier_of_mem (Text.mem_sortDistinct.1 hmem)
      rw [hattributes]
      exact parameterKey_identifier hid (huser hshape name hname)
  · obtain ⟨xs, ys, hattributes, hnames, -⟩ := h
    rw [hattributes]
    have hall : ∀ name ∈ Named.names Shape.tabulated.parameters,
        ParameterKey ["X".toList, "Y".toList] name := by decide
    exact hall name (hnames ▸ hname)
  · obtain ⟨hattributes, hnames, -⟩ := h
    rw [hattributes]
    have hall : ∀ shape ∈ [Shape.gaussian, .lorentzian, .linearBackground, .flatBackground],
        ∀ name ∈ Named.names shape.parameters, ParameterKey [] name := by decide
    refine hall c.shape ?_ name (hnames ▸ hname)
    generalize c.shape = shape at *
    cases shape <;> first | contradiction | decide

end Curve
end Lineshape
