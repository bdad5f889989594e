import Lineshape.Proofs.Curve.InStep
import Lineshape.Proofs.Reading.Reached

/-! # Parameters follow attributes

The parameters of a curve stay in step with its attributes through all edits, successful or not
(`Reader.inStep_of_edits`): a degree is within its limits and has its coefficients, a formula is what
its text is parsed to and has its variables, ties and bounds stand on parameters. -/

namespace Lineshape
set_option autoImplicit false

namespace Model

/-- The model is no curve, or it is a curve in step. -/
def InStep : Model → Prop
  | curve c => c.InStep
  | composite .. => True

theorem inStep_of_sound {m : Model} (h : m.Sound) : m.Throughout InStep := by
  induction h with
  | curve hc ha =>
    have hmem : ∀ {c : Curve} {name : Text}, (curve c).hasParameter name = true →
        name ∈ Named.names c.parameters := fun h =>
      Named.has_iff_mem_names.1 (hasParameter_curve _ _ ▸ h)
    exact .curve (hc.inStep (fun tie htie => hmem (ha.ties tie htie).1)
      fun b hb => hmem (ha.bounds b hb).1)
  | composite _ _ _ _ ih => exact .composite trivial ih

theorem InStep.attachTie {m m' : Model} {parameter formula : Text} {tie : Tie} (h : m.InStep)
    (hattach : m.attachTie parameter formula = .ok (m', tie)) : m'.InStep := by
  obtain ⟨hcreate, rfl⟩ := attachTie_eq_ok.1 hattach
  cases m with
  | composite => trivial
  | curve c =>
    obtain ⟨hparameter, hhas, -⟩ := Tie.variableNames_of_create hcreate
    rw [hasParameter_curve, ← hparameter, Named.has_iff_mem_names] at hhas
    refine Curve.InStep.congr h rfl rfl rfl rfl (fun other hother => ?_) h.bounds
    change other ∈ tie.put c.ties at hother
    rw [Tie.put_eq] at hother
    rcases mem_putBy hother with rfl | hother
    · exact hhas
    · exact h.ties other hother

theorem InStep.attachBound {m m' : Model} {b : Bound} (h : m.InStep)
    (hattach : m.attachBound b = .ok m') : m'.InStep := by
  obtain ⟨hhas, rfl⟩ := attachBound_eq_ok.1 hattach
  cases m with
  | composite => trivial
  | curve c =>
    rw [hasParameter_curve, Named.has_iff_mem_names] at hhas
    refine Curve.InStep.congr h rfl rfl rfl rfl h.ties fun other hother => ?_
    change other ∈ b.put c.bounds at hother
    rw [Bound.put_eq] at hother
    rcases mem_putBy hother with rfl | hother
    · exact hhas
    · exact h.bounds other hother

theorem InStep.keptByChanges : KeptByChanges InStep where
  parameter h := Curve.InStep.congr h rfl rfl (Named.names_set _ _ _) rfl h.ties h.bounds
  tie := InStep.attachTie
  bound := InStep.attachBound
  configure h hset := Curve.InStep.setAttribute h hset
  composite _ _ := trivial

/-! ## Edits of a curve -/

/-- The model is a curve of a shape, in step. -/
def IsInStep (shape : Shape) (m : Model) : Prop := ∃ c, m = curve c ∧ c.shape = shape ∧ c.InStep

/-- Every edit of a curve leaves a curve of its shape. -/
theorem isInStep_keeps (shape : Shape) (e : Edit) : e.Keeps (IsInStep shape) where
  parameter := by
    rintro _ m' value path name ⟨c, rfl, hshape, hc⟩ hset
    obtain ⟨-, -, rfl⟩ := setAt?_curve_eq_some hset
    exact ⟨_, rfl, hshape, InStep.keptByChanges.parameter (c := c) hc⟩
  tie := by
    rintro _ m' parameter formula tie ⟨c, rfl, hshape, hc⟩ hattach
    have hown := InStep.attachTie (m := .curve c) hc hattach
    obtain ⟨-, rfl⟩ := attachTie_eq_ok.1 hattach
    exact ⟨_, rfl, hshape, hown⟩
  bound := by
    rintro _ m' b ⟨c, rfl, hshape, hc⟩ hattach
    have hown := InStep.attachBound (m := .curve c) hc hattach
    obtain ⟨-, rfl⟩ := attachBound_eq_ok.1 hattach
    exact ⟨_, rfl, hshape, hown⟩
  setLocal := by
    rintro _ m' i name s ⟨c, rfl, -, -⟩ hset
    cases hset
  configure := by
    rintro _ m' name value - ⟨c, rfl, hshape, hc⟩ hset
    obtain ⟨c', hc', rfl⟩ := Result.map_eq_ok.1 hset
    obtain ⟨old, -, -, hchanged⟩ := Curve.setAttribute_eq_ok hc'
    exact ⟨c', rfl, (Curve.shape_attributeChanged hchanged).trans hshape, hc.setAttribute hc'⟩
  member := by
    rintro _ new - ⟨c, rfl, hshape, hc⟩
    exact ⟨c, rfl, hshape, hc⟩

theorem isInStep_edits {r : Reader} {shape : Shape} {m : Model} (h : m.IsInStep shape)
    (changes : List (List Nat × Edit)) : (m.edits r changes).IsInStep shape := by
  induction changes generalizing m with
  | nil => exact h
  | cons change changes ih =>
    refine ih (m := (m.edit r change.1 change.2).1) ?_
    obtain ⟨c, rfl, -, -⟩ := id h
    rcases Edit.edit_eq r change.2 (curve c) change.1 with heq | ⟨member, new, hmember, hkeeps, heq⟩
    · rw [heq]
      exact h
    · rw [heq]
      cases hpath : change.1 with
      | nil =>
        rw [hpath] at hmember
        cases hmember
        exact hkeeps _ (isInStep_keeps shape change.2) h
      | cons i path =>
        rw [hpath] at hmember
        cases hmember

/-- A change that is made whole or not at all. -/
theorem edit_single {r : Reader} {e : Edit} {f : Model → Except ModelError Model}
    (h : e.act r = Edit.act.single f) (m : Model) :
    m.edit r [] e = match f m with
      | .ok m' => (m', [], none)
      | .error error => (m, [], some (.model error)) := by
  unfold Model.edit
  rw [h]
  cases hf : f m with
  | ok m' =>
    have hperform : Act.perform m (Edit.act.single f) = (.ok (), ⟨m', []⟩) := by
      change Act.perform m (do Act.put (← Act.ofModel (f m))) = _
      rw [hf]
      rfl
    dsimp only [memberAt?]
    rw [hperform]
    rfl
  | error error =>
    have hperform : Act.perform m (Edit.act.single f) = (.error (.model error), ⟨m, []⟩) := by
      change Act.perform m (do Act.put (← Act.ofModel (f m))) = _
      rw [hf]
      rfl
    dsimp only [memberAt?]
    rw [hperform]
    rfl

/-- An edit that gives an attribute a value makes the change, or leaves everything as it is. -/
theorem setAttribute_of_edit {r : Reader} {e : Edit} {name : Text} {m m' : Model}
    {events : List Event} (he : e.attribute? = some name) (h : m.edit r [] e = (m', events, none)) :
    ∃ value, m.setAttribute name value = .ok m' := by
  have hok : ∀ {f : Model → Except ModelError Model}, e.act r = Edit.act.single f → f m = .ok m' := by
    intro f hact
    rw [edit_single hact] at h
    split at h
    · rename_i hf
      cases h
      exact hf
    · cases h
  cases e with
  | setAttribute n value =>
    cases he
    exact ⟨value, hok rfl⟩
  | setAttributeText n s =>
    cases he
    obtain ⟨old, value, -, -, hset⟩ := setAttributeText_eq_ok (hok rfl)
    exact ⟨value, hset⟩
  | _ => cases he

end Model

namespace Reader

variable {r : Reader}

/-- Through all edits of a curve, its parameters are those that its attributes ask for. The curve is
new, or one of a model that was read and edited. An edit that declares parameters anew keeps the
values of those that stay, and new ones are zero. -/
theorem inStep_of_edits (hr : r.types = .builtin) {c₀ : Curve}
    (h₀ : c₀ = .ofShape c₀.shape ∨
      ∃ m path, r.Reached m ∧ m.memberAt? path = some (.curve c₀))
    (changes : List (List Nat × Edit)) :
    ∃ c, (Model.curve c₀).edits r changes = .curve c ∧ c.shape = c₀.shape ∧ c.InStep ∧
      (∀ formula, c.shape = .userFunction → c.formula? = some formula →
        (Named.names c.parameters).Pairwise (· < ·) ∧ ∀ name,
          name ∈ Named.names c.parameters ↔ name ∈ formula.identifiers ∧ name ≠ ['x']) ∧
      ∀ e name m' events, e.attribute? = some name →
        (Model.curve c).edit r [] e = (m', events, none) →
          ∃ c', m' = .curve c' ∧ c.CarriedFrom c' := by
  have hstart : c₀.InStep := by
    rcases h₀ with hnew | ⟨m, path, hreached, hmember⟩
    · rw [hnew]
      exact (Curve.configured_ofShape _).inStep nofun nofun
    · exact ((throughout_of_reached Model.InStep.keptByChanges (fun _ => trivial)
        (fun hread => Model.inStep_of_sound (sound_of_read hr hread)) hreached).memberAt? hmember).own
  obtain ⟨c, hc, hshape, hinStep⟩ := Model.isInStep_edits (r := r) ⟨c₀, rfl, rfl, hstart⟩ changes
  refine ⟨c, hc, hshape, hinStep, fun formula hs hf => hinStep.variables hs hf, ?_⟩
  intro e name m' events he hedit
  obtain ⟨value, hset⟩ := Model.setAttribute_of_edit he hedit
  obtain ⟨c', hc', rfl⟩ := Result.map_eq_ok.1 hset
  exact ⟨c', rfl, Curve.carriedFrom_setAttribute hc'⟩

/-- A formula is refused and another one takes a parameter away, with the tie on it. -/
theorem inStep_of_edits_formula :
    let changes := [([], Edit.setAttribute "Formula".toList (.string "a*x+b*c".toList)),
      ([], .setParameter "b".toList 5), ([], .tie "c".toList "b".toList), ([], .applyTies),
      ([], .setAttributeText "Formula".toList "b*(x".toList),
      ([], .setAttribute "Formula".toList (.int 1)),
      ([], .setAttributeText "Formula".toList "d+b*x".toList)]
    ∃ c, (Model.ofShape .userFunction).edits {} changes = .curve c ∧ c.InStep ∧
      Named.names c.parameters = ["b".toList, "d".toList] ∧ c.ties.length = 0 ∧
      ∀ e name m' events, e.attribute? = some name →
        (Model.curve c).edit {} [] e = (m', events, none) →
          ∃ c', m' = .curve c' ∧ c.CarriedFrom c' := by
  intro changes
  have hnew : Curve.ofShape .userFunction = .ofShape (Curve.ofShape .userFunction).shape := rfl
  obtain ⟨c, hc, -, hinStep, -, hcarried⟩ := inStep_of_edits (r := {}) rfl (.inl hnew) changes
  have hcheck : (match (Model.ofShape .userFunction).edits {} changes with
      | .curve c => Named.names c.parameters = ["b".toList, "d".toList] ∧ c.ties.length = 0
      | .composite .. => false) = true := by
    decide +kernel
  rw [Model.ofShape, hc] at hcheck
  obtain ⟨hnames, hties⟩ := of_decide_eq_true hcheck
  exact ⟨c, hc, hinStep, hnames, hties, hcarried⟩

end Reader
end Lineshape
