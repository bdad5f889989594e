import Lineshape.Proofs.Reading.Runs
import Mathlib.Logic.Relation

/-! # Steps of reading

While a text is read a model changes by steps of four kinds: an attribute or a parameter gets a
value, a tie or a bound is attached. Every act of reading that changes a model does so by steps, and
a property that steps keep holds of every model that is read (`Reader.holds_of_read`). -/

namespace Lineshape.Reader
set_option autoImplicit false

/-- One change of a model while its text is read. -/
inductive Step (r : Reader) : Model → Model → Prop
  | configure {m m' : Model} {name s : Text} : m.setAttributeText name s = .ok m' → Step r m m'
  | parameter {m m' : Model} {value : Float} {path : List Nat} {name : Text} :
    m.setAt? value path name = some m' → Step r m m'
  | tie {m m' : Model} {parameter formula : Text} {t : Tie} :
    m.attachTie parameter formula = .ok (m', t) → Step r m m'
  | bound {m m' : Model} {kind : Text} {chain : Expr} {b : Bound} {factor : Float} :
    r.createBound kind m chain false = .ok b → m.attachBound { b with factor } = .ok m' →
    Step r m m'

/-- Changes of a model while its text is read. -/
def Reaches (r : Reader) : Model → Model → Prop := Relation.ReflTransGen r.Step

variable {r : Reader}

theorem Reaches.refl (m : Model) : r.Reaches m m := Relation.ReflTransGen.refl

theorem Reaches.trans {m m' m'' : Model} (h : r.Reaches m m') (h' : r.Reaches m' m'') :
    r.Reaches m m'' := Relation.ReflTransGen.trans h h'

theorem Step.reaches {m m' : Model} (h : r.Step m m') : r.Reaches m m' :=
  Relation.ReflTransGen.single h

/-- What every step keeps is kept. -/
theorem Reaches.keeps {P : Model → Prop} (hstep : ∀ m m', P m → r.Step m m' → P m') {m m' : Model}
    (h : r.Reaches m m') (hm : P m) : P m' := by
  induction h with
  | refl => exact hm
  | tail _ hlast ih => exact hstep _ _ ih hlast

/-! ## Ties -/

theorem reaches_run {es : List (List Nat × Tie)} {m m' : Model} (h : m.run es = some m') :
    r.Reaches m m' := by
  induction es generalizing m with
  | nil =>
    cases h
    exact .refl _
  | cons e es ih =>
    obtain ⟨v, hstep, hrun⟩ := Option.bind_eq_some_iff.1 h
    obtain ⟨value, -, hset⟩ := Model.exists_setAt?_of_step hstep
    exact (Step.parameter hset).reaches.trans (ih hrun)

theorem reaches_applyTies {m m' : Model} (h : m.applyTies = (m', none)) : r.Reaches m m' := by
  have hrun : m.run m.schedule = some m' := by
    rw [Model.run_schedule, Model.completed_eq_some]
    exact h
  exact reaches_run hrun

theorem reaches_tieAll {formula : Text} {parameters : List Text} {w w' : Work Model} {u : Unit}
    (h : Act.Runs (tieAll formula parameters) w u w') : r.Reaches w.state w'.state := by
  induction parameters generalizing w with
  | nil =>
    obtain ⟨-, rfl⟩ := Act.runs_pure.1 h
    exact .refl _
  | cons parameter parameters ih =>
    obtain ⟨_, v, htie, h⟩ := Act.runs_bind.1 h
    obtain ⟨t, hattach, -⟩ := Act.runs_tie.1 htie
    exact (Step.tie hattach).reaches.trans (ih h)

theorem reaches_addTie {e : Expr} {w w' : Work Model} {u : Unit} (h : Act.Runs (r.addTie e) w u w') :
    r.Reaches w.state w'.state := by
  rw [addTie] at h
  split at h
  · exact reaches_tieAll h
  · exact absurd h Act.runs_throw

theorem reaches_addTies {e : Expr} {w w' : Work Model} {u : Unit}
    (h : Act.Runs (r.addTies e) w u w') : r.Reaches w.state w'.state := by
  rw [addTies] at h
  generalize tieItems e = items at h
  induction items generalizing w with
  | nil =>
    obtain ⟨-, rfl⟩ := Act.runs_pure.1 h
    exact .refl _
  | cons item items ih =>
    obtain ⟨_, v, htie, h⟩ := Act.runs_bind.1 h
    exact (reaches_addTie htie).trans (ih h)

/-! ## Bounds -/

/-- A bound that is read has the usual factor at first. -/
theorem factor_of_createBound {kind : Text} {m : Model} {chain : Expr} {b : Bound}
    (h : r.createBound kind m chain false = .ok b) : b.factor = defaultFactor := by
  rw [createBound] at h
  split at h
  · rw [Bound.ofChain.eq_def] at h
    dsimp only at h
    split at h
    · cases h
    · split at h
      · cases h
      · split at h
        · cases h
        · cases h
        · split at h
          · split at h
            · cases h
            · split at h
              · cases h
              · cases h
                rfl
          · cases h
  · cases h

/-- The number that a factor gives, the usual one if there is no factor. -/
def factorOf (r : Reader) : Option Expr → Except ReadError Float
  | none => .ok defaultFactor
  | some value => r.factorValue value

/-- Whether a constraint with its factor asks for a bound on a model. -/
def Asks (r : Reader) (m : Model) (p : Expr × Option Expr) (b : Bound) : Prop :=
  ∃ stated factor, r.createBound (kindOf p.1) m p.1 false = .ok stated ∧
    r.factorOf p.2 = .ok factor ∧ b = { stated with factor }

theorem runs_addConstraint {chain : Expr} {factor? : Option Expr} {w w' : Work Model} {u : Unit} :
    Act.Runs (r.addConstraint chain factor?) w u w' ↔
      ∃ b, r.Asks w.state (chain, factor?) b ∧ w.state.attachBound b = .ok w'.state ∧
        w'.journal = w.journal ++ [.boundRead w.state.name b, .bounded w.state.name b] := by
  have hend : ∀ b : Bound, Act.Runs (do
      Act.note (.boundRead w.state.name b)
      Act.bound b : Act Model Unit) w u w' ↔ w.state.attachBound b = .ok w'.state ∧
        w'.journal = w.journal ++ [.boundRead w.state.name b, .bounded w.state.name b] := by
    intro b
    constructor
    · intro h
      obtain ⟨_, v, hnote, h⟩ := Act.runs_bind.1 h
      cases Act.runs_note.1 hnote
      obtain ⟨hattach, hjournal⟩ := Act.runs_bound.1 h
      exact ⟨hattach, by simpa using hjournal⟩
    · rintro ⟨hattach, hjournal⟩
      exact Act.runs_bind.2 ⟨(), _, Act.runs_note.2 rfl,
        Act.runs_bound.2 ⟨hattach, by simpa using hjournal⟩⟩
  rw [addConstraint]
  constructor
  · intro h
    obtain ⟨m, v, hstate, h⟩ := Act.runs_bind.1 h
    obtain ⟨rfl, rfl⟩ := Act.runs_state.1 hstate
    obtain ⟨stated, v, hof, h⟩ := Act.runs_bind.1 h
    obtain ⟨hcreate, rfl⟩ := Act.runs_ofModel.1 hof
    cases factor? with
    | none =>
      obtain ⟨b, v, hb, h⟩ := Act.runs_bind.1 h
      obtain ⟨rfl, rfl⟩ := Act.runs_pure.1 hb
      refine ⟨stated, ⟨stated, defaultFactor, hcreate, rfl, ?_⟩, (hend stated).1 h⟩
      rw [← factor_of_createBound hcreate]
    | some value =>
      obtain ⟨factor, v, hfactor, h⟩ := Act.runs_bind.1 h
      cases hvalue : r.factorValue value with
      | error error =>
        rw [hvalue] at hfactor
        exact absurd hfactor Act.runs_throw
      | ok x =>
        rw [hvalue] at hfactor
        obtain ⟨rfl, rfl⟩ := Act.runs_pure.1 hfactor
        exact ⟨_, ⟨stated, x, hcreate, hvalue, rfl⟩, (hend _).1 h⟩
  · rintro ⟨b, ⟨stated, factor, hcreate, hfactor, rfl⟩, hattach⟩
    refine Act.runs_bind.2 ⟨_, w, Act.runs_state.2 ⟨rfl, rfl⟩,
      Act.runs_bind.2 ⟨stated, w, Act.runs_ofModel.2 ⟨hcreate, rfl⟩, ?_⟩⟩
    cases factor? with
    | none =>
      cases hfactor
      rw [← factor_of_createBound hcreate] at hattach
      exact Act.runs_bind.2 ⟨stated, w, Act.runs_pure.2 ⟨rfl, rfl⟩, (hend stated).2 hattach⟩
    | some value =>
      have hvalue : r.factorValue value = .ok factor := hfactor
      dsimp only
      rw [hvalue]
      exact Act.runs_bind.2 ⟨factor, w, Act.runs_pure.2 ⟨rfl, rfl⟩,
        Act.runs_bind.2 ⟨_, w, Act.runs_pure.2 ⟨rfl, rfl⟩, (hend _).2 hattach⟩⟩

theorem reaches_addConstraints {e : Expr} {w w' : Work Model} {u : Unit}
    (h : Act.Runs (r.addConstraints e) w u w') : r.Reaches w.state w'.state := by
  rw [addConstraints] at h
  generalize Clause.ofItems (e.toList [',']) = clauses at h
  induction clauses generalizing w with
  | nil =>
    obtain ⟨-, rfl⟩ := Act.runs_pure.1 h
    exact .refl _
  | cons clause clauses ih =>
    cases clause with
    | constraint chain factor? =>
      obtain ⟨_, v, hadd, h⟩ := Act.runs_bind.1 h
      obtain ⟨_, ⟨b, factor, hcreate, -, rfl⟩, hattach, -⟩ := runs_addConstraint.1 hadd
      exact (Step.bound hcreate hattach).reaches.trans (ih h)
    | stray item =>
      obtain ⟨m, v, hstate, h⟩ := Act.runs_bind.1 h
      obtain ⟨rfl, rfl⟩ := Act.runs_state.1 hstate
      obtain ⟨_, v', hnote, h⟩ := Act.runs_bind.1 h
      cases Act.runs_note.1 hnote
      have hmore := ih h
      exact hmore

theorem reaches_addConditions {items : List Expr} {w w' : Work Model} {u : Unit}
    (h : Act.Runs (r.addConditions items) w u w') : r.Reaches w.state w'.state := by
  induction items generalizing w with
  | nil =>
    obtain ⟨-, rfl⟩ := Act.runs_pure.1 h
    exact .refl _
  | cons item items ih =>
    obtain ⟨_, v, hadd, h⟩ := Act.runs_bind.1 h
    refine Reaches.trans ?_ (ih h)
    rw [addCondition] at hadd
    split at hadd
    · exact absurd hadd Act.runs_throw
    · split at hadd
      · exact reaches_addTies hadd
      · exact reaches_addConstraints hadd
      · exact absurd hadd Act.runs_throw

theorem reaches_endComposite {parts : List Part} {w w' : Work Model} {u : Unit}
    (h : Act.Runs (r.endComposite parts) w u w') : r.Reaches w.state w'.state := by
  obtain ⟨v, hconditions, happlied, -⟩ := runs_endComposite.1 h
  exact (reaches_addConditions hconditions).trans (reaches_applyTies happlied)

/-! ## Functions -/

theorem setAt?_of_setParameter {m m' : Model} {name : Text} {value : Float}
    (h : m.setParameter name value = .ok m') : m.setAt? value [] name = some m' := by
  rw [Model.setParameter] at h
  change m.set? name value = some m'
  cases hset : m.set? name value with
  | none =>
    rw [hset] at h
    cases h
  | some m'' =>
    rw [hset] at h
    cases h
    rfl

theorem Assigns.reaches {m m' : Model} {key : Text} {value : Expr} {w w' : Work Parents}
    (h : r.Assigns m key value w m' w') : r.Reaches m m' := by
  cases h with
  | slot _ hset => exact (Step.configure hset).reaches
  | constraints _ _ hadd => exact reaches_addConstraints hadd
  | ties _ _ hadd => exact reaches_addTies hadd
  | parent => exact .refl m
  | parameter _ _ _ _ _ hset => exact (Step.parameter (setAt?_of_setParameter hset)).reaches

theorem reaches_readItems {items : List Expr} {m m' : Model} {w w' : Work Parents}
    (h : Act.Runs (r.readItems m items) w m' w') : r.Reaches m m' := by
  induction items generalizing m w with
  | nil =>
    obtain ⟨rfl, -⟩ := Act.runs_pure.1 h
    exact .refl m
  | cons item items ih =>
    obtain ⟨key, value, m₁, v, -, hassigns, h⟩ := runs_readItems_cons.1 h
    exact hassigns.reaches.trans (ih h)

/-- The name of the type that a function asks for. -/
def functionType? (r : Reader) (e : Expr) : Option Text :=
  (functionItems e.bracketsRemoved).head?.bind r.typeName?

/-- A function is a new one of its type after some steps. -/
theorem exists_reaches_readFunction {e : Expr} {m : Model} {w w' : Work Parents}
    (h : Act.Runs (r.readFunction e) w m w') : ∃ type m₀,
      r.functionType? e = some type ∧ r.types.create type = .ok m₀ ∧ r.Reaches m₀ m := by
  obtain ⟨head, items, type, m₀, m₁, hitems, htype, hcreate, hread, happlied⟩ := runs_readFunction.1 h
  have hfunction : r.functionType? e = some type := by
    rw [functionType?, hitems]
    exact htype
  exact ⟨type, m₀, hfunction, hcreate, (reaches_readItems hread).trans (reaches_applyTies happlied)⟩

/-! ## Composites -/

/-- The name of the type that an opening asks for. -/
def openingType? (r : Reader) : Opening → Option Text
  | .header e =>
    match e.toList [','] with
    | [] => none
    | head :: _ => (Item.assignment? head).map fun (_, type) => r.render type
  | .plain => some Composite.plain.name
  | .invalid _ => none

/-- A composite without members is a new one of its type after some steps. -/
theorem exists_reaches_beginComposite {opening : Opening} {m : Model} {w w' : Work Parents}
    (h : Act.Runs (r.beginComposite opening) w m w') : ∃ type m₀,
      r.openingType? opening = some type ∧ r.types.createComposite type = .ok m₀ ∧ r.Reaches m₀ m := by
  cases opening with
  | header e =>
    obtain ⟨head, items, key, type, m₀, hitems, hhead, hcreate, h⟩ := runs_readHeader.1 h
    refine ⟨r.render type, m₀, ?_, hcreate, reaches_readItems (runs_readItems_of_readHeaderItems h)⟩
    rw [openingType?, hitems]
    simp only [hhead, Option.map_some]
  | plain =>
    obtain ⟨hcreate, rfl⟩ := Act.runs_ofModel.1 h
    exact ⟨_, m, rfl, hcreate, .refl m⟩
  | invalid e => exact absurd h Act.runs_throw

end Lineshape.Reader
