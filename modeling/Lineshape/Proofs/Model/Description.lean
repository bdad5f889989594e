import Lineshape.Model.Text
import Lineshape.Proofs.Curve.Keys
import Lineshape.Proofs.Formula.Reread
import Lineshape.Proofs.Model.Spelling
import Lineshape.Proofs.Model.Ties
import Lineshape.Proofs.Reading.Reached

/-! # Descriptions

What a model text has to tell of a model (`Model.description`), and when it can be told in a text
(`Model.Legible`). The formula of a tie is told by its text, so a model and the one with every
formula read back from its text (`Model.canonical`) have the same description
(`Model.Sound.description_canonical`). -/

namespace Lineshape
set_option autoImplicit false

/-! ## Descriptions -/

/-- What is told of a model: its type, its parameters with their values, its attributes, its ties by
target and formula, its bounds with their factors, and its members with what is kept for them. -/
structure Description where
  type : Text
  parameters : Named Float
  attributes : Slots
  ties : List (Text × Text)
  bounds : List (Text × Float)
  members : List (Slots × Description)

namespace Model

mutual
/-- The description of a model. -/
def description : Model → Description
  | curve c => ⟨c.shape.name, (curve c).parameters, c.attributes,
      c.ties.map fun tie => (tie.parameter, tie.formulaText),
      c.bounds.map fun b => (b.text, b.factor), []⟩
  | composite c members => ⟨c.name, (composite c members).parameters, c.attributes,
      c.ties.map fun tie => (tie.parameter, tie.formulaText),
      c.bounds.map fun b => (b.text, b.factor), descriptions members⟩
/-- The descriptions of several members. -/
def descriptions : List (Member Model) → List (Slots × Description)
  | [] => []
  | ⟨locals, m⟩ :: more => (locals, m.description) :: descriptions more
end

end Model

/-! ## What a text can tell -/

/-- Whether an attribute is a text with a double quote in it. -/
def Attribute.hasQuote : Attribute → Bool
  | .string s => s.contains '"'
  | _ => false

/-- The numbers in an attribute. -/
def Attribute.numbers : Attribute → List Float
  | .double x => [x]
  | .vector xs => xs
  | _ => []

/-- The numbers of a bound. -/
def Bound.numbers (b : Bound) : List Float := b.lower?.toList ++ b.upper?.toList ++ [b.factor]

namespace Model

/-- The numbers that the text of the model itself holds, those of its members left out. -/
def numbers (m : Model) : List Float :=
  m.attributes.flatMap (·.2.numbers) ++ m.bounds.flatMap Bound.numbers ++
    match m with
    | curve c => c.values
    | composite .. => []

/-- The names of the parameters of a user function. -/
def userParameters : Model → List Text
  | curve c => if c.shape = .userFunction then Named.names c.parameters else []
  | composite .. => []

/-- The text of the model itself can be read back: its ties hold, it is no composite without members,
none of its attributes has a quote in it, the parameters of a user function have plain names, and
its numbers are read as they are written. -/
structure Legible (m : Model) : Prop where
  ties : ∀ tie ∈ m.ties, m.HoldsAt [] tie
  members : m.isComposite = true → m.members ≠ []
  attributes : ∀ slot ∈ m.attributes, slot.2.hasQuote = false
  locals : ∀ mem ∈ m.members, ∀ slot ∈ mem.locals, slot.2.hasQuote = false
  names : ∀ name ∈ m.userParameters, Text.isParameterKey name = true
  numbers : ∀ x ∈ m.numbers, Number.read? (Number.plain x) = some x

instance (m : Model) : Decidable m.Legible :=
  decidable_of_iff ((∀ tie ∈ m.ties, m.HoldsAt [] tie) ∧ (m.isComposite = true → m.members ≠ []) ∧
      (∀ slot ∈ m.attributes, slot.2.hasQuote = false) ∧
      (∀ mem ∈ m.members, ∀ slot ∈ mem.locals, slot.2.hasQuote = false) ∧
      (∀ name ∈ m.userParameters, Text.isParameterKey name = true) ∧
      ∀ x ∈ m.numbers, Number.read? (Number.plain x) = some x)
    ⟨fun ⟨ht, hm, ha, hl, hn, hx⟩ => ⟨ht, hm, ha, hl, hn, hx⟩,
      fun h => ⟨h.ties, h.members, h.attributes, h.locals, h.names, h.numbers⟩⟩

/-- The parameters of a model that can be told are named by numbers of members and identifiers. -/
theorem Sound.spelling {m : Model} {name : Text} (h : m.Sound) (hl : m.Throughout Legible)
    (hname : m.hasParameter name = true) : Qualified.Spelling Qualified.PlainName name := by
  induction h generalizing name with
  | @curve c hc _ =>
    have hmem : name ∈ Named.names c.parameters := by
      rwa [hasParameter_curve, Named.has_iff_mem_names] at hname
    have hkey := hc.parameterKey (fun hshape => ?_) name hmem
    · exact .own ⟨hkey.segment, hkey.nonEmpty⟩
    · have huser := hl.own.names
      rwa [userParameters, if_pos hshape] at huser
  | composite _ _ _ _ ih =>
    obtain ⟨i, inner, mem, hsplit, hmem, hinner⟩ := hasParameter_composite.1 hname
    have hin := List.mem_of_getElem? hmem
    cases hl with
    | composite _ hmembers =>
      exact Qualified.spelling_of_split? hsplit (ih mem hin (hmembers mem hin) hinner)

end Model

/-! ## Formulas read back from their texts -/

/-- The tie with its formula as it is read back from the text of the formula. -/
def Tie.canonical (tie : Tie) : Tie :=
  { tie with formula := (Expr.ofText tie.formulaText).toOption.getD tie.formula }

namespace Model

mutual
/-- The model with all formulas of ties as they are read back from their texts. -/
def canonical : Model → Model
  | curve c => curve { c with ties := c.ties.map Tie.canonical }
  | composite c members =>
    composite { c with ties := c.ties.map Tie.canonical } (canonicalMembers members)
/-- The members with all formulas of ties as they are read back from their texts. -/
def canonicalMembers : List (Member Model) → List (Member Model)
  | [] => []
  | ⟨locals, m⟩ :: more => ⟨locals, m.canonical⟩ :: canonicalMembers more
end

theorem canonicalMembers_eq_map (members : List (Member Model)) :
    canonicalMembers members = members.map fun mem => ⟨mem.locals, mem.model.canonical⟩ := by
  induction members with
  | nil => rfl
  | cons mem members ih => rw [canonicalMembers, ih, List.map_cons]

theorem ties_canonical (m : Model) : m.canonical.ties = m.ties.map Tie.canonical := by
  cases m with
  | curve | composite => rfl

theorem memberAt?_canonical (m : Model) (path : List Nat) :
    m.canonical.memberAt? path = (m.memberAt? path).map canonical := by
  induction path generalizing m with
  | nil => rfl
  | cons i path ih =>
    cases m with
    | curve c => rfl
    | composite c members =>
      rw [memberAt?, memberAt?, canonical, Model.members, Model.members, canonicalMembers_eq_map,
        List.getElem?_map]
      cases members[i]? with
      | none => rfl
      | some mem => exact ih mem.model

theorem parameter?_canonical (m : Model) (name : Text) :
    m.canonical.parameter? name = m.parameter? name := by
  induction m generalizing name with
  | curve c => rfl
  | composite c members ih =>
    rw [canonical, parameter?, parameter?]
    cases Qualified.split? name with
    | none => rfl
    | some p =>
      obtain ⟨i, inner⟩ := p
      dsimp only
      rw [parameterIn?_eq, parameterIn?_eq, canonicalMembers_eq_map, List.getElem?_map]
      cases hmem : members[i]? with
      | none => rfl
      | some mem => exact ih mem (List.mem_of_getElem? hmem) inner

theorem hasParameter_canonical (m : Model) (name : Text) :
    m.canonical.hasParameter name = m.hasParameter name := by
  rw [hasParameter_eq, hasParameter_eq, parameter?_canonical]

theorem parameterNames_canonical (m : Model) : m.canonical.parameterNames = m.parameterNames := by
  induction m with
  | curve c => rfl
  | composite c members ih =>
    rw [canonical, parameterNames, parameterNames]
    generalize 0 = i
    induction members generalizing i with
    | nil => rfl
    | cons mem members ihm =>
      rw [canonicalMembers, parameterNamesFrom, parameterNamesFrom, ih mem List.mem_cons_self,
        ihm fun mem' hmem' => ih mem' (List.mem_cons_of_mem mem hmem')]

theorem parameters_canonical (m : Model) : m.canonical.parameters = m.parameters := by
  simp only [parameters, parameterNames_canonical, parameter?_canonical]

end Model

/-- A tie of a model that can be told: it stands on a parameter, its formula names other parameters
and has the value of the parameter. -/
structure Tie.Legible (m : Model) (tie : Tie) : Prop where
  has : m.hasParameter tie.parameter = true
  target : Qualified.Spelling Qualified.PlainName tie.parameter
  free : tie.parameter ∉ tie.formula.variableNames
  parsed : ∃ s, Expr.ofText s = .ok tie.formula
  names : Formula.Arithmetic (fun name => (m.parameter? name).isSome = true ∧ isDotted name = true)
    tie.formula
  holds : ∃ value, Formula.evaluate (m.parameter? ·) tie.formula = .ok value ∧
    m.parameter? tie.parameter = some value

namespace Tie

variable {m : Model} {tie : Tie}

/-- The formula that is read back differs in its brackets only. -/
theorem Legible.exists_back (h : tie.Legible m) : ∃ back,
    Expr.ofText tie.formulaText = .ok back ∧ back.ungrouped = tie.formula.ungrouped ∧
      tie.canonical = ⟨tie.parameter, back⟩ := by
  obtain ⟨s, hparse⟩ := h.parsed
  obtain ⟨back, hback, hungrouped⟩ := Formula.parse_text hparse h.names
  have hread : Expr.ofText tie.formulaText = .ok back := hback _ (Nat.le_refl _)
  refine ⟨back, hread, hungrouped, ?_⟩
  rw [canonical, hread]
  rfl

theorem Legible.formulaText_canonical (h : tie.Legible m) :
    tie.canonical.formulaText = tie.formulaText := by
  obtain ⟨back, -, hungrouped, he⟩ := h.exists_back
  rw [he, formulaText, formulaText, ← Expr.text_ungrouped back, hungrouped, Expr.text_ungrouped]

theorem Legible.holdsAt_canonical (h : tie.Legible m) : m.canonical.HoldsAt [] tie.canonical := by
  obtain ⟨back, -, hungrouped, he⟩ := h.exists_back
  obtain ⟨x, hvalue, htarget⟩ := h.holds
  have hlookup : (m.canonical.valueAt? [] ·) = (m.parameter? ·) :=
    funext fun name => m.parameter?_canonical name
  refine ⟨x, ?_, ?_⟩
  · rw [he, Model.tieValue, hlookup, value, Formula.evaluate_of_ungrouped hungrouped, hvalue]
    rfl
  · rw [he]
    exact (m.parameter?_canonical _).trans htarget

end Tie

namespace Model

theorem Sound.legible_tie {m : Model} {tie : Tie} (h : m.Sound) (hl : m.Throughout Legible)
    (htie : tie ∈ m.ties) : tie.Legible m := by
  obtain ⟨hhas, ⟨s, hparse⟩, hfree⟩ := h.attached.ties tie htie
  obtain ⟨value, hvalue, htarget⟩ := hl.own.ties tie htie
  have hevaluate : Formula.evaluate (m.parameter? ·) tie.formula = .ok value := by
    have hvalue : (Formula.evaluate (m.parameter? ·) tie.formula).mapError
        (ModelError.tieEvaluation tie.parameter tie.formulaText) = .ok value := hvalue
    cases hformula : Formula.evaluate (m.parameter? ·) tie.formula with
    | error fault =>
      rw [hformula] at hvalue
      cases hvalue
    | ok x =>
      rw [hformula] at hvalue
      cases hvalue
      rfl
  refine ⟨hhas, h.spelling hl hhas, hfree, ⟨s, hparse⟩, ?_, value, hevaluate, htarget⟩
  refine (Formula.arithmetic_of_evaluate (Expr.shaped_of_parseLevel hparse).1 hevaluate).mono ?_
  intro name hname hleaf
  refine ⟨hname, Qualified.Spelling.isDotted_of_leafName (h.spelling hl ?_) hleaf⟩
  rw [hasParameter_eq]
  exact hname

theorem Sound.memberAt? {m owner : Model} {path : List Nat} (h : m.Sound)
    (howner : m.memberAt? path = some owner) : owner.Sound := by
  induction path generalizing m with
  | nil =>
    cases howner
    exact h
  | cons i path ih =>
    obtain ⟨mem, hmem, hbelow⟩ := Option.bind_eq_some_iff.1 howner
    cases h with
    | curve => cases hmem
    | composite _ hm => exact ih (hm mem (List.mem_of_getElem? hmem)) hbelow

theorem HoldsAt.of_memberAt? {m owner : Model} {path : List Nat} {tie : Tie}
    (howner : m.memberAt? path = some owner) (h : owner.HoldsAt [] tie) : m.HoldsAt path tie := by
  have hlookup : ∀ name, m.valueAt? path name = owner.valueAt? [] name := by
    intro name
    rw [valueAt?, howner]
    rfl
  obtain ⟨value, hvalue, htarget⟩ := h
  refine ⟨value, ?_, (hlookup _).trans htarget⟩
  rw [← hvalue, tieValue, tieValue, funext hlookup]

/-- In the model that is read back all ties hold again. -/
theorem Sound.applyTies_canonical {m : Model} (h : m.Sound) (hl : m.Throughout Legible) :
    m.canonical.applyTies = (m.canonical, none) := by
  refine applyTies_of_holdsAt fun e he => ?_
  obtain ⟨path, tie'⟩ := e
  obtain ⟨owner', howner', htie'⟩ := mem_schedule.1 he
  refine .of_memberAt? howner' ?_
  rw [memberAt?_canonical] at howner'
  obtain ⟨owner, howner, rfl⟩ := Option.map_eq_some_iff.1 howner'
  rw [ties_canonical] at htie'
  obtain ⟨tie, htie, rfl⟩ := List.mem_map.1 htie'
  exact ((h.memberAt? howner).legible_tie (hl.memberAt? howner) htie).holdsAt_canonical

theorem told_canonical {m : Model} (h : m.Sound) (hl : m.Throughout Legible) :
    ((m.ties.map Tie.canonical).map fun tie => (tie.parameter, tie.formulaText)) =
      m.ties.map fun tie => (tie.parameter, tie.formulaText) := by
  rw [List.map_map]
  refine List.map_congr_left fun tie htie => ?_
  exact Prod.ext rfl (h.legible_tie hl htie).formulaText_canonical

theorem descriptions_canonicalMembers {members : List (Member Model)}
    (h : ∀ mem ∈ members, mem.model.canonical.description = mem.model.description) :
    descriptions (canonicalMembers members) = descriptions members := by
  induction members with
  | nil => rfl
  | cons mem members ih =>
    rw [canonicalMembers, descriptions, descriptions, h mem List.mem_cons_self,
      ih fun mem' hmem' => h mem' (List.mem_cons_of_mem mem hmem')]

/-- Reading formulas back does not change what is told of a model. -/
theorem Sound.description_canonical {m : Model} (h : m.Sound) (hl : m.Throughout Legible) :
    m.canonical.description = m.description := by
  induction h with
  | @curve c hc ha =>
    have hties := told_canonical (.curve hc ha) hl
    rw [canonical, description, description]
    exact congrArg (Description.mk _ _ _ · _ _) hties
  | @composite c members hc hm hk ha ih =>
    have hties := told_canonical (.composite hc hm hk ha) hl
    have hparameters := (Model.composite c members).parameters_canonical
    have hmembers : descriptions (canonicalMembers members) = descriptions members := by
      cases hl with
      | composite _ hmembers =>
        exact descriptions_canonicalMembers fun mem hmem => ih mem hmem (hmembers mem hmem)
    rw [canonical] at hparameters ⊢
    rw [description, description, hparameters, hmembers]
    exact congrArg (Description.mk _ _ _ · _ _) hties

end Model
end Lineshape
