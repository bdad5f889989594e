import Lineshape.Text.Basic

/-! # Named values

Parameters and attributes are kept in a fixed order, each under a name. A name stands for its first
occurrence.

* `Named.get?`, `Named.index?`, `Named.set`: look up, place and replace by name.
* `Named.put`: replace the value of a name, or add it at the end.
-/

namespace Lineshape
set_option autoImplicit false

/-- Values in order, each under a name. -/
abbrev Named (α : Type) := List (Text × α)

namespace Named

variable {α : Type}

/-- The names in order. -/
def names (l : Named α) : List Text := l.map (·.1)

/-- The value of a name. -/
def get? (name : Text) : Named α → Option α
  | [] => none
  | (n, value) :: more => if n = name then some value else get? name more

/-- The place of a name. -/
def index? (name : Text) : Named α → Option Nat
  | [] => none
  | (n, _) :: more => if n = name then some 0 else (index? name more).map (· + 1)

/-- The list with the value of a name replaced; unchanged if the name is not there. -/
def set (name : Text) (value : α) : Named α → Named α
  | [] => []
  | (n, old) :: more => if n = name then (n, value) :: more else (n, old) :: set name value more

/-- The list with the value of a name replaced, or with the name added at the end. -/
def put (name : Text) (value : α) (l : Named α) : Named α :=
  if (get? name l).isSome then set name value l else l ++ [(name, value)]

/-- Whether a name is there. -/
def has (name : Text) (l : Named α) : Bool := (get? name l).isSome

@[simp] theorem names_set (name : Text) (value : α) (l : Named α) :
    names (set name value l) = names l := by
  induction l with
  | nil => rfl
  | cons p more ih =>
    obtain ⟨n, old⟩ := p
    simp only [set]
    split
    · rfl
    · simpa [names] using ih

theorem get?_set_self {name : Text} {value : α} {l : Named α} (h : has name l = true) :
    get? name (set name value l) = some value := by
  induction l with
  | nil => simp [has, get?] at h
  | cons p more ih =>
    obtain ⟨n, old⟩ := p
    by_cases hn : n = name
    · simp [set, get?, hn]
    · simp only [has, get?, hn, if_false] at h
      simpa [set, get?, hn] using ih h

theorem get?_set_of_ne {name other : Text} {value : α} {l : Named α} (h : other ≠ name) :
    get? other (set name value l) = get? other l := by
  induction l with
  | nil => rfl
  | cons p more ih =>
    obtain ⟨n, old⟩ := p
    by_cases hn : n = name
    · simp [set, get?, hn, Ne.symm h]
    · simp [set, get?, hn, ih]

theorem has_iff_mem_names {name : Text} {l : Named α} : has name l = true ↔ name ∈ names l := by
  induction l with
  | nil => simp [has, get?, names]
  | cons p more ih =>
    obtain ⟨n, old⟩ := p
    by_cases hn : n = name
    · simp [has, get?, names, hn]
    · simp only [has, names] at ih
      simp [has, get?, names, hn, Ne.symm hn, ih]

theorem get?_eq_none {name : Text} {l : Named α} (h : name ∉ names l) : get? name l = none :=
  Option.not_isSome_iff_eq_none.1 fun hsome => h (has_iff_mem_names.1 hsome)

theorem isSome_index? {name : Text} {l : Named α} : (index? name l).isSome = has name l := by
  induction l with
  | nil => rfl
  | cons p more ih =>
    obtain ⟨n, old⟩ := p
    by_cases hn : n = name <;> simp_all [index?, has, get?]

end Named
end Lineshape
