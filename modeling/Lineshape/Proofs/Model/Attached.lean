import Lineshape.Model.Conditions
import Lineshape.Proofs.Result

/-! # Ties and bounds of a model

Ties and bounds stand on parameters that the model has, at most one of each on a parameter
(`Model.Attached`), and attaching one more keeps it so. -/

namespace Lineshape
set_option autoImplicit false

/-! ## Bounds that a chain states -/

/-- A bound as a comparison chain states it. -/
structure Bound.Stated (b : Bound) : Prop where
  parameter : Number.read? b.parameter = none
  limited : b.lower?.isSome = true ∨ b.upper?.isSome = true
  ordered : Bound.isContrary b.lower? b.upper? = false
  own : b.isDefault = false

namespace Bound

theorem sortTerms_eq_ok {t : OperatorTable} {found found' : Option (Nat × Text)} {place : Nat}
    {terms : List Expr} {values : List (Nat × Float)}
    (h : sortTerms t found place terms = .ok (found', values))
    (hfound : ∀ p ∈ found, Number.read? p.2 = none) :
    (∀ p ∈ found', Number.read? p.2 = none) ∧ terms.length ≤ values.length + 1 := by
  have hlength : (∀ p ∈ found', Number.read? p.2 = none) ∧
      terms.length ≤ values.length + (if found.isSome then 0 else 1) := by
    induction terms generalizing found place values with
    | nil =>
      cases h
      exact ⟨hfound, Nat.zero_le _⟩
    | cons term more ih =>
      rw [sortTerms] at h
      dsimp only at h
      split at h
      · obtain ⟨⟨found₁, values₁⟩, hmore, h⟩ := Result.bind_eq_ok.1 h
        cases h
        obtain ⟨hnone, hle⟩ := ih hmore hfound
        refine ⟨hnone, ?_⟩
        dsimp only at hle ⊢
        rw [List.length_cons, List.length_cons]
        omega
      · rename_i hread
        split at h
        · cases h
        · rename_i hsome
          obtain ⟨hnone, hle⟩ := ih h (by
            intro p hp
            cases hp
            exact hread)
          refine ⟨hnone, ?_⟩
          rw [if_neg hsome, List.length_cons]
          rw [Option.isSome_some, if_pos rfl] at hle
          omega
  refine ⟨hlength.1, ?_⟩
  have hle := hlength.2
  split at hle <;> omega

theorem takeLimits_eq_ok {lower? upper? l u : Option Float} {limits : List Limit}
    (h : takeLimits lower? upper? limits = .ok (l, u))
    (hsome : limits ≠ [] ∨ lower?.isSome = true ∨ upper?.isSome = true) :
    l.isSome = true ∨ u.isSome = true := by
  induction limits generalizing lower? upper? with
  | nil =>
    cases h
    exact hsome.resolve_left fun hne => hne rfl
  | cons limit more ih =>
    rw [takeLimits] at h
    split at h
    · cases h
    · split at h
      · cases h
      · exact ih h (.inr (.inl rfl))
    · split at h
      · cases h
      · exact ih h (.inr (.inr rfl))

theorem ofChain_eq_ok {t : OperatorTable} {owner : Text} {isParameter : Text → Bool} {chain : Expr}
    {b : Bound} (h : ofChain t owner isParameter chain false = .ok b) :
    b.Stated ∧ isParameter b.parameter = true := by
  rw [ofChain.eq_def] at h
  dsimp only at h
  split at h
  · cases h
  · rename_i htwo
    split at h
    · cases h
    · split at h
      · cases h
      · cases h
      · rename_i place parameter values hsort
        obtain ⟨hnone, hlength⟩ := sortTerms_eq_ok hsort nofun
        split at h
        · rename_i hparameter
          split at h
          · cases h
          · rename_i l u htake
            split at h
            · cases h
            · rename_i hordered
              cases h
              have hvalues : values ≠ [] := by
                rintro rfl
                rw [List.length_nil] at hlength
                omega
              have hsome := takeLimits_eq_ok htake (.inl fun hnil => hvalues (List.map_eq_nil_iff.1 hnil))
              exact ⟨⟨hnone _ rfl, hsome, Bool.not_eq_true _ ▸ hordered, rfl⟩, hparameter⟩
        · cases h

end Bound

/-! ## One entry for each parameter -/

/-- A list with an entry put in the place of the one with its key, or at the end. -/
def putBy {α : Type} (key : α → Text) (x : α) : List α → List α
  | [] => [x]
  | other :: more => if key other = key x then x :: more else other :: putBy key x more

section PutBy

variable {α : Type} {key : α → Text} {x : α}

theorem mem_putBy {other : α} {l : List α} (h : other ∈ putBy key x l) : other = x ∨ other ∈ l := by
  induction l with
  | nil => exact .inl (List.mem_singleton.1 h)
  | cons first more ih =>
    rw [putBy] at h
    split at h
    · rcases List.mem_cons.1 h with rfl | h
      · exact .inl rfl
      · exact .inr (List.mem_cons_of_mem first h)
    · rcases List.mem_cons.1 h with rfl | h
      · exact .inr List.mem_cons_self
      · exact (ih h).imp_right (List.mem_cons_of_mem first)

theorem nodup_putBy {l : List α} (h : (l.map key).Nodup) : ((putBy key x l).map key).Nodup := by
  induction l with
  | nil => exact List.nodup_cons.2 ⟨List.not_mem_nil, List.nodup_nil⟩
  | cons first more ih =>
    obtain ⟨hfirst, hmore⟩ := List.nodup_cons.1 h
    rw [putBy]
    split
    · rename_i hkey
      rw [List.map_cons, ← hkey]
      exact List.nodup_cons.2 ⟨hfirst, hmore⟩
    · rename_i hkey
      refine List.nodup_cons.2 ⟨?_, ih hmore⟩
      intro hmem
      obtain ⟨other, hother, he⟩ := List.mem_map.1 hmem
      rcases mem_putBy hother with rfl | hother
      · exact hkey he.symm
      · exact hfirst (List.mem_map.2 ⟨other, hother, he⟩)

end PutBy

theorem Tie.put_eq (tie : Tie) (ties : List Tie) : tie.put ties = putBy (·.parameter) tie ties := by
  induction ties with
  | nil => rfl
  | cons other more ih => rw [Tie.put, putBy, ih]

theorem Bound.put_eq (b : Bound) (bounds : List Bound) :
    b.put bounds = putBy (·.parameter) b bounds := by
  induction bounds with
  | nil => rfl
  | cons other more ih => rw [Bound.put, putBy, ih]

/-! ## What a model has attached -/

/-- A tie of which the formula was parsed and does not name the tied parameter. -/
structure Tie.Stated (tie : Tie) : Prop where
  parsed : ∃ s, Expr.ofText s = .ok tie.formula
  free : tie.parameter ∉ tie.formula.variableNames

namespace Model

/-- Ties and bounds stand on parameters of the model, at most one of each on a parameter. -/
structure Attached (m : Model) : Prop where
  ties : ∀ tie ∈ m.ties, m.hasParameter tie.parameter = true ∧ tie.Stated
  distinctTies : (m.ties.map (·.parameter)).Nodup
  bounds : ∀ b ∈ m.bounds, m.hasParameter b.parameter = true ∧ b.Stated
  distinctBounds : (m.bounds.map (·.parameter)).Nodup

theorem attached_new {m : Model} (hties : m.ties = []) (hbounds : m.bounds = []) : m.Attached where
  ties := by simp [hties]
  distinctTies := by simp [hties]
  bounds := by simp [hbounds]
  distinctBounds := by simp [hbounds]

/-- What is attached stays attached as long as its parameters stay. -/
theorem Attached.congr {m m' : Model} (h : m.Attached) (hties : m'.ties.Sublist m.ties)
    (hbounds : m'.bounds.Sublist m.bounds)
    (htied : ∀ tie ∈ m'.ties, m'.hasParameter tie.parameter = true)
    (hbounded : ∀ b ∈ m'.bounds, m'.hasParameter b.parameter = true) : m'.Attached where
  ties tie htie := ⟨htied tie htie, (h.ties tie (hties.subset htie)).2⟩
  distinctTies := h.distinctTies.sublist (hties.map _)
  bounds b hb := ⟨hbounded b hb, (h.bounds b (hbounds.subset hb)).2⟩
  distinctBounds := h.distinctBounds.sublist (hbounds.map _)

theorem hasParameter_withTies (ties : List Tie) (m : Model) (name : Text) :
    (m.withTies ties).hasParameter name = m.hasParameter name := by
  cases m <;> rfl

theorem hasParameter_withBounds (bounds : List Bound) (m : Model) (name : Text) :
    (m.withBounds bounds).hasParameter name = m.hasParameter name := by
  cases m <;> rfl

theorem ties_withTies (ties : List Tie) (m : Model) : (m.withTies ties).ties = ties := by
  cases m <;> rfl

theorem bounds_withTies (ties : List Tie) (m : Model) : (m.withTies ties).bounds = m.bounds := by
  cases m <;> rfl

theorem ties_withBounds (bounds : List Bound) (m : Model) : (m.withBounds bounds).ties = m.ties := by
  cases m <;> rfl

theorem bounds_withBounds (bounds : List Bound) (m : Model) :
    (m.withBounds bounds).bounds = bounds := by
  cases m <;> rfl

theorem withBounds_bounds (m : Model) : m.withBounds m.bounds = m := by
  cases m with
  | curve | composite => rfl

theorem withBounds_withBounds (m : Model) (bounds bounds' : List Bound) :
    (m.withBounds bounds).withBounds bounds' = m.withBounds bounds' := by
  cases m with
  | curve | composite => rfl

theorem Attached.attachTie {m m' : Model} {parameter formula : Text} {tie : Tie} (h : m.Attached)
    (hattach : m.attachTie parameter formula = .ok (m', tie)) : m'.Attached := by
  obtain ⟨hcreate, rfl⟩ := attachTie_eq_ok.1 hattach
  obtain ⟨hparameter, hhas, hnames⟩ := Tie.variableNames_of_create hcreate
  have hstated : tie.Stated := by
    refine ⟨⟨formula, ?_⟩, fun hmem => (hnames _ hmem).1 hparameter⟩
    unfold Tie.create at hcreate
    rw [if_pos hhas] at hcreate
    cases htree : Expr.ofText formula with
    | error error =>
      rw [htree] at hcreate
      cases hcreate
    | ok tree =>
      rw [htree] at hcreate
      dsimp only at hcreate
      split at hcreate
      · cases hcreate
      · split at hcreate
        · cases hcreate
        · cases hcreate
          rfl
  constructor
  · intro other hother
    rw [ties_withTies, Tie.put_eq] at hother
    rw [hasParameter_withTies]
    rcases mem_putBy hother with rfl | hother
    · exact ⟨hparameter ▸ hhas, hstated⟩
    · exact h.ties other hother
  · rw [ties_withTies, Tie.put_eq]
    exact nodup_putBy h.distinctTies
  · intro b hb
    rw [bounds_withTies] at hb
    rw [hasParameter_withTies]
    exact h.bounds b hb
  · rw [bounds_withTies]
    exact h.distinctBounds

theorem Attached.attachBound {m m' : Model} {b : Bound} (h : m.Attached) (hb : b.Stated)
    (hattach : m.attachBound b = .ok m') : m'.Attached := by
  obtain ⟨hhas, rfl⟩ := attachBound_eq_ok.1 hattach
  constructor
  · intro tie htie
    rw [ties_withBounds] at htie
    rw [hasParameter_withBounds]
    exact h.ties tie htie
  · rw [ties_withBounds]
    exact h.distinctTies
  · intro other hother
    rw [bounds_withBounds, Bound.put_eq] at hother
    rw [hasParameter_withBounds]
    rcases mem_putBy hother with rfl | hother
    · exact ⟨hhas, hb⟩
    · exact h.bounds other hother
  · rw [bounds_withBounds, Bound.put_eq]
    exact nodup_putBy h.distinctBounds

end Model
end Lineshape
