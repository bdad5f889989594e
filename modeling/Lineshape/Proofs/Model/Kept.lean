import Lineshape.Model.Attributes
import Lineshape.Proofs.Curve.Declare
import Lineshape.Proofs.Model.Address
import Lineshape.Proofs.Result

/-! # What composites keep for their members

Giving a parameter or an attribute a value, or attaching a tie or a bound, changes nothing that a
composite keeps for its members, at no level (`Model.KeepsLike`), and it changes no name of an
attribute. -/

namespace Lineshape
set_option autoImplicit false

theorem Named.get?_put {α : Type} (name : Text) (value : α) (l : Named α) (other : Text) :
    get? other (put name value l) = if other = name then some value else get? other l := by
  rw [put]
  split
  · rename_i hhas
    by_cases ho : other = name
    · rw [if_pos ho, ho, get?_set_self hhas]
    · rw [if_neg ho, get?_set_of_ne ho]
  · rename_i hnot
    have happend : ∀ (l : Named α) (p : Text × α),
        get? other (l ++ [p]) = (get? other l).or (if p.1 = other then some p.2 else none) := by
      intro l p
      induction l with
      | nil => rfl
      | cons q l ih =>
        rw [List.cons_append, get?, get?]
        split
        · rfl
        · exact ih
    rw [happend]
    by_cases ho : other = name
    · rw [if_pos ho, if_pos ho.symm, ho]
      rw [Option.not_isSome_iff_eq_none.1 hnot]
      rfl
    · rw [if_neg ho, if_neg (Ne.symm ho), Option.or_none]

theorem Named.nodup_put {α : Type} {name : Text} {value : α} {l : Named α}
    (h : (names l).Nodup) : (names (put name value l)).Nodup := by
  rw [put]
  split
  · rw [names_set]
    exact h
  · rename_i hnot
    have hmem : name ∉ names l := fun hm => hnot (has_iff_mem_names.2 hm)
    rw [names, List.map_append, List.map_singleton]
    refine List.nodup_append.2 ⟨h, List.nodup_cons.2 ⟨List.not_mem_nil, List.nodup_nil⟩, ?_⟩
    rintro a ha b hb rfl
    rw [List.mem_singleton.1 hb] at ha
    exact hmem ha

namespace Model

/-- What a composite keeps for a new member, and what it keeps for each of its members. -/
def kept : Model → Option (Slots × List Slots)
  | curve _ => none
  | composite c members => some (c.localDefaults, members.map (·.locals))

/-- Composites at every level keep the same for their members. -/
def KeepsLike (m m' : Model) : Prop :=
  ∀ path, (m'.memberAt? path).map kept = (m.memberAt? path).map kept

variable {m m' m'' : Model}

theorem KeepsLike.refl (m : Model) : m.KeepsLike m := fun _ => rfl

theorem KeepsLike.trans (h : m.KeepsLike m') (h' : m'.KeepsLike m'') : m.KeepsLike m'' :=
  fun path => (h' path).trans (h path)

/-- Composites with the same members keep the same at every level. -/
theorem keepsLike_of_members {c c' : Composite} {members : List (Member Model)}
    (h : c'.localDefaults = c.localDefaults) :
    (composite c members).KeepsLike (composite c' members) := by
  intro path
  cases path with
  | nil =>
    change some (some (c'.localDefaults, _)) = some (some (c.localDefaults, _))
    rw [h]
  | cons i path => rfl

theorem keepsLike_setAt? {value : Float} {path : List Nat} {name : Text}
    (h : m.setAt? value path name = some m') : m.KeepsLike m' := by
  induction m generalizing path name m' with
  | curve c =>
    obtain ⟨-, -, rfl⟩ := setAt?_curve_eq_some h
    intro path
    cases path with
    | nil => rfl
    | cons i path => rfl
  | composite c members ih =>
    obtain ⟨i, p, n, mem, new, -, hmem, hnew, rfl⟩ := setAt?_composite_eq_some h
    obtain ⟨hi, hget⟩ := List.getElem?_eq_some_iff.1 hmem
    intro path
    cases path with
    | nil =>
      change some (some (c.localDefaults, (members.set i _).map (·.locals))) =
        some (some (c.localDefaults, members.map (·.locals)))
      have hlocals : (members.map (·.locals)).set i mem.locals = members.map (·.locals) := by
        rw [← List.map_set, ← hget, List.set_getElem_self]
      rw [List.map_set, hlocals]
    | cons j path =>
      change (((members.set i _)[j]?.bind _).map kept) = ((members[j]?.bind _).map kept)
      by_cases hij : i = j
      · subst hij
        rw [List.getElem?_set_self hi, hmem]
        exact ih mem (List.mem_of_getElem? hmem) hnew path
      · rw [List.getElem?_set_ne hij]

theorem keepsLike_withTies (ties : List Tie) (m : Model) : m.KeepsLike (m.withTies ties) := by
  cases m with
  | curve c =>
    intro path
    cases path with
    | nil => rfl
    | cons i path => rfl
  | composite c members => exact keepsLike_of_members rfl

theorem keepsLike_withBounds (bounds : List Bound) (m : Model) :
    m.KeepsLike (m.withBounds bounds) := by
  cases m with
  | curve c =>
    intro path
    cases path with
    | nil => rfl
    | cons i path => rfl
  | composite c members => exact keepsLike_of_members rfl

/-! ## Attributes -/

/-- Giving an attribute a value changes this attribute only, and the model otherwise as the shape
of a curve asks for. -/
theorem setAttributeText_eq_ok {name s : Text} (h : m.setAttributeText name s = .ok m') :
    ∃ old value, Named.get? name m.attributes = some old ∧ old.reread name s = .ok value ∧
      m.setAttribute name value = .ok m' := by
  obtain ⟨old, hold, h⟩ := Result.bind_eq_ok.1 h
  obtain ⟨value, hvalue, h⟩ := Result.bind_eq_ok.1 h
  exact ⟨old, value, Slots.get_eq_ok.1 hold, hvalue, h⟩

theorem setAttribute_eq_ok {name : Text} {value : Attribute}
    (h : m.setAttribute name value = .ok m') :
    m'.attributes = Named.set name value m.attributes ∧ m.KeepsLike m' := by
  cases m with
  | curve c =>
    obtain ⟨c', hc, rfl⟩ := Result.map_eq_ok.1 h
    obtain ⟨attributes, hreplace, hc⟩ := Result.bind_eq_ok.1 hc
    obtain ⟨-, rfl⟩ := Slots.replace_eq_ok hreplace
    refine ⟨Curve.attributes_attributeChanged hc, fun path => ?_⟩
    cases path with
    | nil => rfl
    | cons i path => rfl
  | composite c members =>
    obtain ⟨attributes, hreplace, hc⟩ := Result.bind_eq_ok.1 h
    obtain ⟨-, rfl⟩ := Slots.replace_eq_ok hreplace
    cases hc
    exact ⟨rfl, keepsLike_of_members rfl⟩

theorem attributes_setAt? {value : Float} {path : List Nat} {name : Text}
    (h : m.setAt? value path name = some m') : m'.attributes = m.attributes := by
  cases m with
  | curve c =>
    obtain ⟨-, -, rfl⟩ := setAt?_curve_eq_some h
    rfl
  | composite c members =>
    obtain ⟨i, p, n, mem, new, -, -, -, rfl⟩ := setAt?_composite_eq_some h
    rfl

theorem attributes_withTies (ties : List Tie) (m : Model) :
    (m.withTies ties).attributes = m.attributes := by
  cases m <;> rfl

theorem attributes_withBounds (bounds : List Bound) (m : Model) :
    (m.withBounds bounds).attributes = m.attributes := by
  cases m <;> rfl

/-! ## Attributes of members -/

theorem localAttribute_eq_ok {i : Nat} {attr : Text} {value : Attribute} :
    m.localAttribute i attr = .ok value ↔
      ∃ mem, m.members[i]? = some mem ∧ Named.get? attr mem.locals = some value := by
  rw [localAttribute]
  cases m.members[i]? with
  | none => simp
  | some mem =>
    simp only [Slots.get_eq_ok, Option.some.injEq, exists_eq_left']

theorem setLocal_eq_ok {c : Composite} {members : List (Member Model)} {i : Nat} {name s : Text}
    (h : (composite c members).setLocal i name s = .ok m') :
    ∃ mem old value, members[i]? = some mem ∧ Named.get? name mem.locals = some old ∧
      old.reread name s = .ok value ∧
      m' = composite c (members.set i { mem with locals := Named.set name value mem.locals }) := by
  obtain ⟨old, hold, h⟩ := Result.bind_eq_ok.1 h
  obtain ⟨value, hvalue, h⟩ := Result.bind_eq_ok.1 h
  obtain ⟨mem, hmem, hget⟩ := localAttribute_eq_ok.1 hold
  change members[i]? = some mem at hmem
  rw [hmem] at h
  obtain ⟨locals, hreplace, h⟩ := Result.bind_eq_ok.1 h
  obtain ⟨-, rfl⟩ := Slots.replace_eq_ok hreplace
  cases h
  exact ⟨mem, old, value, hmem, hget, hvalue, rfl⟩

end Model
end Lineshape
