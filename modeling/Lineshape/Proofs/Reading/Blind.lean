import Lineshape.Proofs.Reading.InPlace

/-! # Reading with another journal and another limit

What reading a tree does depends neither on the events so far nor on the limit on nesting, which only
the parser asks for (`Reader.agree_readTree`). -/

namespace Lineshape
set_option autoImplicit false

namespace Act

variable {σ τ α β : Type} {x y : Act σ α}

theorem agree_pure (a : α) : Agree (pure a : Act σ α) (pure a) := (look_pure a).blind.agree

theorem agree_throw (e : ReadError) : Agree (throw e : Act σ α) (throw e) := (look_throw e).blind.agree

theorem agree_ofModel (result : Except ModelError α) :
    Agree (ofModel result : Act σ α) (ofModel result) := (look_ofModel result).blind.agree

theorem agree_note (e : Event) : Agree (note e : Act σ Unit) (note e) := (look_note e).blind.agree

theorem agree_state : Agree (state : Act σ σ) state := look_state.blind.agree

theorem agree_put (s : σ) : Agree (put s) (put s) := (whole_put s).blind.agree

theorem Agree.on (h : Agree x y) (s : σ) : Agree (on s x : Act τ (α × σ)) (on s y) := by
  intro t journal journal'
  obtain ⟨hresult, hstate⟩ := h s journal journal'
  have hrun : ∀ (x : Act σ α) journal, (Act.on s x : Act τ (α × σ)).run.run ⟨t, journal⟩ =
      ((x.run.run ⟨s, journal⟩).1.map (·, (x.run.run ⟨s, journal⟩).2.state),
        ⟨t, (x.run.run ⟨s, journal⟩).2.journal⟩) := fun _ _ => rfl
  rw [hrun, hrun, hresult, hstate]
  exact ⟨rfl, rfl⟩

theorem Agree.change {x y : Act Model Unit} (h : Agree x y) (m : Model) :
    Agree (change m x : Act σ Model) (change m y) :=
  (h.on m).bind fun p => agree_pure p.2

theorem agree_applyTies : Agree applyTies applyTies := by
  refine agree_state.bind fun m => ?_
  cases hties : m.applyTies with
  | mk m' error? =>
    refine (agree_put m').bind fun _ => ?_
    cases error? with
    | none => exact agree_pure ()
    | some error => exact agree_throw _

/-- A run can be made after other events. -/
theorem Agree.runs (h : Agree x y) {s : σ} {journal journal' : List Event} {a : α} {w : Work σ}
    (hrun : Runs x ⟨s, journal⟩ a w) : ∃ w', Runs y ⟨s, journal'⟩ a w' ∧ w'.state = w.state := by
  obtain ⟨hresult, hstate⟩ := h s journal journal'
  rw [show x.run.run ⟨s, journal⟩ = (.ok a, w) from hrun] at hresult hstate
  exact ⟨(y.run.run ⟨s, journal'⟩).2, Prod.ext hresult.symm rfl, hstate.symm⟩

end Act

namespace Reader

open Act

variable (r : Reader) (depth : Nat)

/-- The same reader with another limit on nesting. -/
def within : Reader := { r with depth }

theorem render_within (e : Expr) : (r.within depth).render e = r.render e := rfl

theorem agree_tieAll (formula : Text) (parameters : List Text) :
    Agree (tieAll formula parameters) (tieAll formula parameters) := by
  induction parameters with
  | nil => exact agree_pure ()
  | cons parameter more ih => exact (Edit.whole_tie parameter formula).blind.agree.bind fun _ => ih

theorem agree_addTies (e : Expr) : Agree (r.addTies e) ((r.within depth).addTies e) := by
  have htie : ∀ item, Agree (r.addTie item) ((r.within depth).addTie item) := by
    intro item
    change Agree (r.addTie item) (r.addTie item)
    rw [addTie.eq_def]
    split
    · exact agree_tieAll _ _
    · exact agree_throw _
  rw [addTies, addTies]
  induction tieItems e with
  | nil => exact agree_pure ()
  | cons item more ih => exact (htie item).bind fun _ => ih

theorem agree_addConstraints (e : Expr) :
    Agree (r.addConstraints e) ((r.within depth).addConstraints e) := by
  rw [addConstraints, addConstraints]
  induction Clause.ofItems (e.toList [',']) with
  | nil => exact agree_pure ()
  | cons clause more ih =>
    cases clause with
    | constraint chain factor? =>
      exact (Edit.whole_addConstraint r chain factor?).blind.agree.bind fun _ => ih
    | stray item => exact agree_state.bind fun _ => (agree_note _).bind fun _ => ih

/-! ## Items -/

theorem agree_readItem (m : Model) (item : Expr) :
    Agree (r.readItem m item) ((r.within depth).readItem m item) := by
  rw [readItem, readItem]
  cases Item.assignment? item with
  | none => exact agree_throw _
  | some p =>
    obtain ⟨key, value⟩ := p
    dsimp only
    rw [readAssignment, readAssignment]
    split
    · exact agree_ofModel _
    · split
      · exact (r.agree_addConstraints depth _).change m
      · exact (r.agree_addTies depth _).change m
      · exact (agree_state.bind fun s => agree_put _).bind fun _ => agree_pure m
      · rw [render_within]
        dsimp only
        cases Number.read? (r.render value) with
        | none => exact agree_throw _
        | some number => exact agree_ofModel _

theorem agree_readItems (m : Model) (items : List Expr) :
    Agree (r.readItems m items) ((r.within depth).readItems m items) := by
  induction items generalizing m with
  | nil => exact agree_pure m
  | cons item more ih => exact (r.agree_readItem depth m item).bind ih

theorem agree_readFunction (e : Expr) :
    Agree (r.readFunction e) ((r.within depth).readFunction e) := by
  rw [readFunction, readFunction]
  cases functionItems e.bracketsRemoved with
  | nil => exact agree_throw _
  | cons head items =>
    have htype : (r.within depth).typeName? head = r.typeName? head := rfl
    dsimp only
    rw [htype]
    cases r.typeName? head with
    | none => exact agree_throw _
    | some type =>
      exact (agree_ofModel _).bind fun m => (agree_note _).bind fun _ =>
        (r.agree_readItems depth m items).bind fun m => agree_applyTies.change m

/-! ## Composites -/

theorem agree_readHeader (header : Expr) :
    Agree (r.readHeader header) ((r.within depth).readHeader header) := by
  have hitem : ∀ (m : Model) (item : Expr),
      Agree (r.readHeaderItem m item) ((r.within depth).readHeaderItem m item) := by
    intro m item
    rw [readHeaderItem, readHeaderItem]
    cases Item.assignment? item with
    | none => exact agree_throw _
    | some p =>
      dsimp only
      split
      · exact agree_ofModel _
      · split
        · exact (agree_state.bind fun s => agree_put _).bind fun _ => agree_pure m
        · exact agree_throw _
  rw [readHeader, readHeader]
  cases header.toList [','] with
  | nil => exact agree_throw _
  | cons head items =>
    dsimp only
    cases Item.assignment? head with
    | none => exact agree_throw _
    | some p =>
      refine (agree_ofModel _).bind fun m => ?_
      induction items generalizing m with
      | nil => exact agree_pure m
      | cons item more ih => exact (hitem m item).bind ih

theorem agree_beginComposite (opening : Opening) :
    Agree (r.beginComposite opening) ((r.within depth).beginComposite opening) := by
  cases opening with
  | header e => exact r.agree_readHeader depth e
  | plain => exact agree_ofModel _
  | invalid e => exact agree_throw _

theorem agree_readTrailing (items : List Expr) :
    Agree (r.readTrailing items) ((r.within depth).readTrailing items) := by
  induction items with
  | nil => exact agree_pure ()
  | cons item more ih =>
    rw [readTrailing, readTrailing]
    cases Item.assignment? item with
    | none => exact agree_throw _
    | some p =>
      dsimp only
      split
      · exact (agree_state.bind fun s => agree_put _).bind fun _ => ih
      · exact agree_throw _

theorem agree_endComposite (parts : List Part) :
    Agree (r.endComposite parts) ((r.within depth).endComposite parts) := by
  have hitem : ∀ item, Agree (r.addCondition item) ((r.within depth).addCondition item) := by
    intro item
    rw [addCondition, addCondition]
    cases Item.assignment? item with
    | none => exact agree_throw _
    | some p =>
      dsimp only
      split
      · exact r.agree_addTies depth _
      · exact r.agree_addConstraints depth _
      · exact agree_throw _
  have hconditions : Agree (r.addConditions (Part.conditionItems parts))
      ((r.within depth).addConditions (Part.conditionItems parts)) := by
    induction Part.conditionItems parts with
    | nil => exact agree_pure ()
    | cons item more ih => exact (hitem item).bind fun _ => ih
  exact hconditions.bind fun _ => agree_applyTies.bind fun _ => agree_state.bind fun _ => agree_note _

theorem agree_adopt (m new : Model) (sent : Parents) : Agree (adopt m new sent) (adopt m new sent) := by
  have hadd : Agree (Act.addMember new) (Act.addMember new) :=
    agree_state.bind fun _ => (agree_note _).bind fun _ => agree_put _
  refine (hadd.change m).bind fun m' => ?_
  induction sent generalizing m' with
  | nil => exact agree_pure m'
  | cons p more ih =>
    rw [keep.eq_def]
    dsimp only
    split
    · exact (agree_ofModel _).bind ih
    · exact agree_state.bind fun s => (agree_put _).bind fun _ => ih m'

theorem agree_addParts {parts : List Part}
    (h : ∀ part ∈ parts, ∀ m, Agree (r.addPart part m) ((r.within depth).addPart part m)) (m : Model) :
    Agree (r.addParts parts m) ((r.within depth).addParts parts m) := by
  induction parts generalizing m with
  | nil => exact agree_pure m
  | cons part more ih =>
    rw [addParts, addParts]
    exact (h part List.mem_cons_self m).bind (ih fun p hp => h p (List.mem_cons_of_mem part hp))

theorem agree_addPart (part : Part) (m : Model) :
    Agree (r.addPart part m) ((r.within depth).addPart part m) := by
  induction part using Part.induct generalizing m with
  | function e =>
    rw [addPart, addPart]
    exact ((r.agree_readFunction depth e).on []).bind fun p => agree_adopt m p.1 p.2
  | conditions e =>
    rw [addPart, addPart]
    exact agree_pure m
  | composite opening parts items ih =>
    rw [addPart, addPart]
    refine Agree.bind (Agree.on ?_ []) fun p => agree_adopt m p.1 p.2
    exact (r.agree_beginComposite depth opening).bind fun inner =>
      (r.agree_addParts depth ih inner).bind fun inner =>
        ((r.agree_endComposite depth parts).change inner).bind fun inner =>
          (r.agree_readTrailing depth items).bind fun _ => agree_pure inner

/-- What a tree is read as, and what it sends up, depends neither on the events before nor on the limit
on nesting. -/
theorem agree_readTree (e : Expr) : Agree (r.readTree e) ((r.within depth).readTree e) := by
  rw [readTree, readTree]
  split
  · rw [readComposite, readComposite]
    cases Part.sequence? e with
    | none => exact agree_throw _
    | some p =>
      exact (r.agree_beginComposite depth p.1).bind fun m =>
        (r.agree_addParts depth (fun part _ => r.agree_addPart depth part) m).bind fun m =>
          (r.agree_endComposite depth p.2).change m
  · exact r.agree_readFunction depth e

end Reader
end Lineshape
