import Lineshape.Proofs.Expr.Numbers
import Lineshape.Proofs.Model.Address

/-! # Names of parameters

A composite resolves a name of a parameter in one of its members (`Model.hasParameter_composite`).
Names as a model lists them stand for different parameters (`Model.eq_of_index?`). Other names of the
same parameter exist, since the number of a member may be written with leading zeros and a sign. -/

namespace Lineshape
set_option autoImplicit false

/-! ## Qualified names -/

theorem Whole.index?_ofNat (i : Nat) :
    Whole.index? (Text.ofNat i) = (some i).filter (· < wordCount) := by
  have hplain : ∀ rest, Text.ofNat i ≠ '+' :: rest := by
    intro rest h
    have hdigit := List.all_eq_true.1 (Text.all_isDigit_ofNat i) '+' (h ▸ List.mem_cons_self)
    exact absurd hdigit (by decide)
  rw [Whole.index?.eq_def]
  split
  · rename_i rest hrest
    exact absurd hrest (hplain rest)
  · dsimp only
    rw [Whole.natural?_ofNat]

theorem Qualified.split?_join (i : Nat) (name : Text) :
    Qualified.split? (Qualified.join i name) = ((some i).filter (· < Whole.wordCount)).map (·, name) := by
  have hdigits : ∀ c ∈ Text.ofNat i, decide (c ≠ '.') = true := by
    intro c hc
    rw [decide_eq_true_eq]
    rintro rfl
    exact absurd (List.all_eq_true.1 (Text.all_isDigit_ofNat i) '.' hc) (by decide)
  have hfront : (Text.ofNat i ++ '.' :: name).takeWhile (· ≠ '.') = Text.ofNat i := by
    rw [List.takeWhile_append_of_pos hdigits, List.takeWhile_cons_of_neg (by decide), List.append_nil]
  have hback : (Text.ofNat i ++ '.' :: name).dropWhile (· ≠ '.') = '.' :: name := by
    rw [List.dropWhile_append_of_pos hdigits, List.dropWhile_cons_of_neg (by decide)]
  rw [Qualified.join, List.cons_append, Qualified.split?]
  simp only [hfront, hback, Whole.index?_ofNat]

namespace Model

/-! ## Names that resolve -/

variable {c : Composite} {members : List (Member Model)} {name : Text}

theorem index?_composite {k : Nat} : (composite c members).index? name = some k ↔
    ∃ i inner mem l, Qualified.split? name = some (i, inner) ∧ members[i]? = some mem ∧
      mem.model.index? inner = some l ∧ k = offset members i + l := by
  change (composite c members).place? [] name = some k ↔ _
  rw [place?_composite, descend]
  constructor
  · intro h
    obtain ⟨⟨i, p, n⟩, hd, h⟩ := Option.bind_eq_some_iff.1 h
    obtain ⟨⟨j, inner⟩, hs, he⟩ := Option.map_eq_some_iff.1 hd
    cases he
    obtain ⟨mem, hmem, h⟩ := Option.bind_eq_some_iff.1 h
    obtain ⟨l, hl, he⟩ := Option.map_eq_some_iff.1 h
    exact ⟨i, n, mem, l, hs, hmem, hl, he.symm⟩
  · rintro ⟨i, inner, mem, l, hs, hmem, hl, rfl⟩
    rw [hs, Option.map_some, Option.bind_some]
    change (members[i]?.bind fun mem => (mem.model.index? inner).map (offset members i + ·)) = _
    rw [hmem, Option.bind_some, hl, Option.map_some]

/-- A name is resolved in the member that it is qualified with. -/
theorem hasParameter_composite : (composite c members).hasParameter name = true ↔
    ∃ i inner mem, Qualified.split? name = some (i, inner) ∧ members[i]? = some mem ∧
      mem.model.hasParameter inner = true := by
  rw [hasParameter, Option.isSome_iff_exists]
  constructor
  · rintro ⟨k, hk⟩
    obtain ⟨i, inner, mem, l, hs, hmem, hl, -⟩ := index?_composite.1 hk
    exact ⟨i, inner, mem, hs, hmem, Option.isSome_iff_exists.2 ⟨l, hl⟩⟩
  · rintro ⟨i, inner, mem, hs, hmem, hhas⟩
    obtain ⟨l, hl⟩ := Option.isSome_iff_exists.1 hhas
    exact ⟨_, index?_composite.2 ⟨i, inner, mem, l, hs, hmem, hl, rfl⟩⟩

/-! ## Names as they are listed -/

theorem mem_parameterNamesFrom {i : Nat} : name ∈ parameterNamesFrom i members ↔
    ∃ j mem inner, members[j]? = some mem ∧ inner ∈ mem.model.parameterNames ∧
      name = Qualified.join (i + j) inner := by
  induction members generalizing i with
  | nil => simp [parameterNamesFrom]
  | cons first members ih =>
    obtain ⟨locals, m⟩ := first
    rw [parameterNamesFrom, List.mem_append, List.mem_map, ih]
    constructor
    · rintro (⟨inner, hinner, rfl⟩ | ⟨j, mem, inner, hmem, hinner, rfl⟩)
      · exact ⟨0, ⟨locals, m⟩, inner, rfl, hinner, rfl⟩
      · refine ⟨j + 1, mem, inner, hmem, hinner, ?_⟩
        rw [Nat.add_assoc, Nat.add_comm 1 j]
    · rintro ⟨j, mem, inner, hmem, hinner, rfl⟩
      cases j with
      | zero =>
        cases hmem
        exact .inl ⟨inner, hinner, rfl⟩
      | succ j =>
        refine .inr ⟨j, mem, inner, hmem, hinner, ?_⟩
        rw [Nat.add_assoc, Nat.add_comm 1 j]

/-- A listed name that resolves does so in the member that it was listed for. -/
theorem index?_of_mem {k : Nat} (hname : name ∈ (composite c members).parameterNames)
    (hk : (composite c members).index? name = some k) :
    ∃ i mem inner l, name = Qualified.join i inner ∧ members[i]? = some mem ∧
      inner ∈ mem.model.parameterNames ∧ mem.model.index? inner = some l ∧
      k = offset members i + l := by
  obtain ⟨j, mem, inner, hmem, hinner, rfl⟩ := mem_parameterNamesFrom.1 hname
  obtain ⟨i, inner', mem', l, hs, hmem', hl, rfl⟩ := index?_composite.1 hk
  rw [Nat.zero_add] at hs ⊢
  rw [Qualified.split?_join] at hs
  obtain ⟨i', hi', he⟩ := Option.map_eq_some_iff.1 hs
  cases he
  cases (Option.filter_eq_some_iff.1 hi').1
  cases hmem.symm.trans hmem'
  exact ⟨_, mem, inner, l, rfl, hmem, hinner, hl, rfl⟩

/-- Of the names that a model lists no two stand for one parameter. -/
theorem eq_of_index? {m : Model} {a b : Text} {k : Nat} (ha : a ∈ m.parameterNames)
    (hb : b ∈ m.parameterNames) (hka : m.index? a = some k) (hkb : m.index? b = some k) : a = b := by
  induction m generalizing a b k with
  | curve c => exact Named.eq_of_index? hka hkb
  | composite c members ih =>
    obtain ⟨i, mem, inner, l, rfl, hmem, hinner, hl, hk⟩ := index?_of_mem ha hka
    obtain ⟨i', mem', inner', l', rfl, hmem', hinner', hl', hk'⟩ := index?_of_mem hb hkb
    by_cases hi : i = i'
    · subst hi
      cases hmem.symm.trans hmem'
      have hll : l' = l := by omega
      rw [ih mem (List.mem_of_getElem? hmem) hinner hinner' hl (hll ▸ hl')]
    · have hplace : mem.model.place? [] inner = some l := hl
      have hplace' : mem'.model.place? [] inner' = some l' := hl'
      exact absurd (hk.symm.trans hk')
        (offset_add_ne hmem hmem' (place?_lt hplace) (place?_lt hplace') hi)

/-- A name as a composite lists it. A curve has no other names for its parameters. -/
def Listed (m : Model) (name : Text) : Prop := m.isComposite = true → name ∈ m.parameterNames

instance (m : Model) (name : Text) : Decidable (m.Listed name) := by
  unfold Listed
  infer_instance

/-- Two names, as far as they are listed, stand for different parameters. -/
def Apart (m : Model) (a b : Text) : Prop :=
  m.Listed a → m.Listed b → ∀ k, m.index? a = some k → m.index? b ≠ some k

theorem apart_of_ne {m : Model} {a b : Text} (h : a ≠ b) : m.Apart a b := by
  intro ha hb k hka hkb
  cases m with
  | curve c => exact h (Named.eq_of_index? hka hkb)
  | composite c members => exact h (eq_of_index? (ha rfl) (hb rfl) hka hkb)

end Model
end Lineshape
