import Mathlib.Data.List.Induction
import Lineshape.Proofs.Reading.InStep
import Lineshape.Proofs.Reading.Resolved

/-! # Ties that outlive their parameters

A tie of a curve refers to parameters of the curve when it is attached, and goes when its own
parameter goes. It stays when a parameter of its formula goes (`Reader.exists_dangling`). This is the
one way to leave a reference behind: through a run of edits all references resolve exactly if no new
degree or formula takes away a parameter that a tie which stays refers to
(`Reader.resolved_iff_of_edits`). -/

namespace Lineshape
set_option autoImplicit false

namespace Model

/-- The first model has a parameter which the second one lacks, and which the formula of a tie of the
second one refers to. -/
def Loses (m m' : Model) : Prop :=
  ∃ tie ∈ m'.ties, ∃ name ∈ tie.formula.variableNames,
    m.hasParameter name = true ∧ m'.hasParameter name = false

variable {m m' : Model} {c c' : Curve}

theorem Loses.drops (h : m.Loses m') : m.Drops m' := by
  obtain ⟨tie, htie, name, hname, hlost⟩ := h
  refine ⟨name, List.mem_append_left _ (List.mem_flatMap.2 ⟨tie, htie, ?_⟩), hlost⟩
  exact List.mem_cons_of_mem _ hname

/-- An attribute leaves nothing behind but ties whose formula has lost a parameter. -/
theorem Resolved.setAttribute {name : Text} {value : Attribute} (h : (curve c).Resolved)
    (hset : c.setAttribute name value = .ok c') (hloses : ¬ (curve c).Loses (curve c')) :
    (curve c').Resolved := by
  obtain ⟨old, -, -, hchanged⟩ := Curve.setAttribute_eq_ok hset
  rcases Curve.attributeChanged_eq_ok hchanged with rfl | ⟨names, formula?, rfl⟩
  · exact ⟨h.ties, h.bounds⟩
  · constructor
    · intro tie htie
      refine ⟨(hasParameter_declare _ _ _ _).2 (Curve.mem_of_declare.1 tie htie), ?_⟩
      intro other hother
      refine (Bool.eq_false_or_eq_true _).resolve_right fun hnot => hloses ?_
      exact ⟨tie, htie, other, hother, (h.ties tie (List.mem_filter.1 htie).1).2 other hother, hnot⟩
    · intro b hb
      exact (hasParameter_declare _ _ _ _).2 (Curve.mem_of_declare.2 b hb)

/-! ## Edits of a curve -/

/-- A curve of which the references resolve. -/
def Referring (m : Model) : Prop := m.isComposite = false ∧ m.Resolved

/-- An edit that gives no value to the degree or the formula leaves no reference behind. -/
theorem referring_keeps {e : Edit} (he : e.redeclares = false) : e.Keeps Referring where
  parameter := by
    rintro m m' value path name ⟨hc, h⟩ hset
    cases m with
    | composite => cases hc
    | curve c =>
      have hoffers := offers_setAt? hset
      obtain ⟨-, -, rfl⟩ := setAt?_curve_eq_some hset
      exact ⟨rfl, h.mono rfl rfl hoffers⟩
  tie h hattach := ⟨(isComposite_of_attachTie hattach).trans h.1, h.2.attachTie hattach⟩
  bound h hattach := ⟨(isComposite_of_attachBound hattach).trans h.1, h.2.attachBound hattach⟩
  setLocal := by
    rintro m m' i name s ⟨hc, -⟩ hset
    cases m with
    | curve => cases hset
    | composite => cases hc
  configure := by
    rintro m m' name value hattribute ⟨hc, h⟩ hset
    have hoffers := offers_setAttribute (Edit.ne_of_redeclares hattribute he) hset
    cases m with
    | composite => cases hc
    | curve c =>
      obtain ⟨c', hc', rfl⟩ := Result.map_eq_ok.1 hset
      exact ⟨rfl, h.setAttribute hc' fun hlost => hoffers.not_drops hlost.drops⟩
  member := by
    rintro m new - ⟨hc, h⟩
    cases m with
    | curve c => exact ⟨hc, h⟩
    | composite => cases hc

/-- An edit that gives an attribute a value makes that change, or none. -/
theorem edit_of_attribute? {r : Reader} {e : Edit} {name : Text} (he : e.attribute? = some name)
    (m : Model) :
    (m.edit r [] e).1 = m ∨ ∃ value, m.setAttribute name value = .ok (m.edit r [] e).1 := by
  cases hedit : m.edit r [] e with
  | mk m' rest =>
    obtain ⟨events, error?⟩ := rest
    cases error? with
    | none => exact .inr (setAttribute_of_edit he hedit)
    | some error =>
      left
      cases e with
      | setAttribute n value =>
        rw [edit_single (f := (·.setAttribute n value)) rfl] at hedit
        split at hedit <;> cases hedit
        rfl
      | setAttributeText n s =>
        rw [edit_single (f := (·.setAttributeText n s)) rfl] at hedit
        split at hedit <;> cases hedit
        rfl
      | _ => cases he

theorem referring_edit {r : Reader} {path : List Nat} {e : Edit} (h : m.Referring)
    (hloses : e.redeclares = true → ¬ m.Loses (m.edit r path e).1) :
    (m.edit r path e).1.Referring := by
  obtain ⟨hc, hresolved⟩ := id h
  cases m with
  | composite => cases hc
  | curve c =>
    rcases Edit.edit_eq r e (curve c) path with heq | ⟨member, new, hmember, hkeeps, heq⟩
    · rwa [heq]
    · cases path with
      | cons i path => cases hmember
      | nil =>
        cases hmember
        cases he : e.redeclares with
        | false =>
          rw [heq]
          exact hkeeps _ (referring_keeps he) h
        | true =>
          obtain ⟨name, hname, -⟩ := (Option.any_eq_true _ _).1 he
          rcases edit_of_attribute? (r := r) hname (curve c) with hsame | ⟨value, hset⟩
          · rwa [hsame]
          · have hlost := hloses he
            obtain ⟨c', hc', hcurve⟩ := Result.map_eq_ok.1 hset
            rw [← hcurve] at hlost ⊢
            exact ⟨rfl, hresolved.setAttribute hc' hlost⟩

end Model

namespace Reader

/-- All references of a curve resolve all through a run of edits exactly if no edit of its degree or
its formula takes a parameter away that a tie which stays refers to. Every other edit is harmless,
and so is one that fails. -/
theorem resolved_iff_of_edits (r : Reader) {c : Curve} (h : (Model.curve c).Resolved)
    (changes : List (List Nat × Edit)) :
    (∀ front back, changes = front ++ back → ((Model.curve c).edits r front).Resolved) ↔
      ∀ front change back, changes = front ++ change :: back → change.2.redeclares = true →
        ¬ ((Model.curve c).edits r front).Loses ((Model.curve c).edits r (front ++ [change])) := by
  constructor
  · intro hall front change back hsplit _
    have hsplit' : changes = (front ++ [change]) ++ back := by
      rw [hsplit, List.append_assoc, List.singleton_append]
    exact fun hlost => (hall _ _ hsplit').not_drops hlost.drops
  · intro hspared front back hsplit
    suffices hreferring : ((Model.curve c).edits r front).Referring from hreferring.2
    -- the prefixes of the run, each from the one before it
    induction front using List.reverseRecOn generalizing back with
    | nil => exact ⟨rfl, h⟩
    | append_singleton front change ih =>
      rw [List.append_assoc, List.singleton_append] at hsplit
      rw [Model.edits_append]
      refine Model.referring_edit (ih _ hsplit) fun he => ?_
      rw [← Model.edits_append]
      exact hspared _ _ _ hsplit he

/-- A polynomial may lose a coefficient that no tie refers to. -/
theorem resolved_iff_of_edits_polynomial :
    let changes := [([], Edit.setAttributeText "n".toList "2".toList),
      ([], .tie "A0".toList "A1+1".toList), ([], .setAttributeText "n".toList "1".toList)]
    let m := Model.ofShape .polynomial
    m.Resolved ∧ (m.edits {} changes).ties.map Tie.text = ["A0=A1+1".toList] ∧
      (m.edits {} changes).Resolved := by
  intro changes m
  have hnew : m.Resolved := ⟨nofun, nofun⟩
  have hspared : ∀ front change back, changes = front ++ change :: back →
      change.2.redeclares = true →
        ¬ (m.edits {} front).Loses (m.edits {} (front ++ [change])) := by
    intro front change back hsplit _
    dsimp only [changes] at hsplit
    unfold Model.Loses
    match front, hsplit with
    | [], h | [_], h | [_, _], h =>
      cases h
      decide +kernel
    | _ :: _ :: _ :: more, h =>
      have hlength := congrArg List.length h
      simp only [List.cons_append, List.length_cons, List.length_append, List.length_nil] at hlength
      omega
  exact ⟨hnew, by decide +kernel,
    (resolved_iff_of_edits {} hnew changes).2 hspared changes [] (List.append_nil _).symm⟩

/-- Three edits that all succeed leave a tie behind whose formula refers to no parameter, so that it
cannot be applied any more. -/
theorem exists_dangling :
    let changes := [([], Edit.setAttributeText "n".toList "1".toList),
      ([], .tie "A0".toList "A1".toList), ([], .setAttributeText "n".toList "0".toList)]
    let m := Model.ofShape .polynomial
    (∀ k < 3, ∀ change ∈ changes[k]?,
      ((m.edits {} (changes.take k)).edit {} change.1 change.2).2.2.isNone = true) ∧
    let m' := m.edits {} changes
    (∃ tie ∈ m'.ties, ∃ name ∈ tie.formula.variableNames, m'.hasParameter name = false) ∧
      m'.applyTies.2.isSome = true := by
  decide +kernel

end Reader
end Lineshape
