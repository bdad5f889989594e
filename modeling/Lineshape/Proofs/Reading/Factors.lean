import Lineshape.Proofs.Reading.Gives
import Lineshape.Proofs.Reading.Partly

/-! # Factors of constraints

A list of constraints is read with one item of look-ahead, which a constraint takes if it is a factor.
What comes of it needs no look-ahead to say: every item that is neither blank nor a factor is a
constraint, and it has the factor of the item right behind it, if that is one
(`Clause.constraints_ofItems`). Each constraint is put on the model as a bound, in the place of the
bound that its parameter has, and nothing else changes (`Model.attached_of_addConstraints`). -/

namespace Lineshape
set_option autoImplicit false

/-! ## Outcomes without an error -/

namespace Act

theorem outcome_eq_none {σ : Type} {act : Act σ Unit} {s s' : σ} :
    act.outcome s = (s', none) ↔ ∃ journal, Runs act ⟨s, []⟩ () ⟨s', journal⟩ := by
  unfold Runs
  rw [outcome, perform]
  cases (act.run.run ⟨s, []⟩ : Except ReadError Unit × Work σ) with
  | mk result w =>
    cases result with
    | error error =>
      constructor
      · intro h
        cases h
      · rintro ⟨journal, h⟩
        cases h
    | ok u =>
      constructor
      · intro h
        cases h
        exact ⟨w.journal, rfl⟩
      · rintro ⟨journal, h⟩
        cases h
        rfl

theorem andThen_eq_none {σ : Type} {p : σ × Option ReadError} {s' : σ}
    {next : σ → σ × Option ReadError} :
    andThen p next = (s', none) ↔ ∃ s, p = (s, none) ∧ next s = (s', none) := by
  obtain ⟨s, error?⟩ := p
  cases error? <;> simp [andThen]

end Act

/-! ## What a list asks for -/

namespace Clause

/-- The items of a list, each with the item right behind it. -/
def withNext (items : List Expr) : List (Expr × Option Expr) :=
  items.zip (items.tail.map some ++ [none])

/-- Whether an item is a constraint: it is neither blank nor a factor. -/
def isConstraint (item : Expr) : Bool :=
  !item.bracketsRemoved.isEmptyMarker && (factor? item).isNone

/-- The constraints of a list in order, each with the factor that the item right behind it gives. -/
def asked (items : List Expr) : List (Expr × Option Expr) :=
  ((withNext items).filter fun p => isConstraint p.1).map fun p =>
    (p.1.bracketsRemoved, p.2.bind factor?)

theorem asked_cons (item : Expr) (more : List Expr) : asked (item :: more) =
    if isConstraint item then (item.bracketsRemoved, more.head?.bind factor?) :: asked more
    else asked more := by
  have hnext : withNext (item :: more) = (item, more.head?) :: withNext more := by
    cases more <;> rfl
  rw [asked, hnext, List.filter_cons]
  split
  · rw [List.map_cons]
    rfl
  · rfl

/-- Reading with look-ahead finds every constraint with its factor: a factor that was taken asks for
nothing by itself, and neither does one that was not. -/
theorem constraints_ofItems (items : List Expr) :
    (ofItems items).filterMap Edit.clausePart =
      (asked items).map fun p => .addConstraint p.1 p.2 := by
  fun_induction ofItems items with
  | case1 => rfl
  | case2 item more hblank ih =>
    have hno : isConstraint item = false := by simp [isConstraint, hblank]
    rw [asked_cons, hno, ih]
    rfl
  | case3 item more hblank hfactor ih =>
    have hno : isConstraint item = false := by
      rw [isConstraint, Option.isNone_eq_false_iff.2 hfactor, Bool.and_false]
    rw [asked_cons, hno, List.filterMap_cons, ih]
    rfl
  | case4 item hblank hfactor =>
    have hyes : isConstraint item = true := by simpa [isConstraint, hblank] using hfactor
    rw [asked_cons, hyes]
    rfl
  | case5 item hblank hfactor next rest value hnext ih =>
    have hyes : isConstraint item = true := by simpa [isConstraint, hblank] using hfactor
    have hno : isConstraint next = false := by simp [isConstraint, hnext]
    rw [asked_cons, hyes, asked_cons, hno, List.filterMap_cons, ih]
    simp [hnext, Edit.clausePart]
  | case6 item hblank hfactor next rest hnext ih =>
    have hyes : isConstraint item = true := by simpa [isConstraint, hblank] using hfactor
    rw [asked_cons, hyes, List.filterMap_cons, ih]
    simp [hnext, Edit.clausePart]

end Clause

/-! ## The bound of a constraint -/

namespace Bound

/-- The bounds with one more, at the position of the bound on the same parameter if there is one and
else at the end. -/
def placed (bounds : List Bound) (b : Bound) : List Bound :=
  match bounds.findIdx? (·.parameter = b.parameter) with
  | some i => bounds.set i b
  | none => bounds ++ [b]

theorem put_eq_placed (b : Bound) (bounds : List Bound) : b.put bounds = placed bounds b := by
  induction bounds with
  | nil => rfl
  | cons other more ih =>
    rw [put, placed, List.findIdx?_cons]
    by_cases hother : other.parameter = b.parameter
    · simp [hother]
    · rw [if_neg hother, ih, placed]
      simp only [hother, decide_false, Bool.false_eq_true, if_false]
      cases more.findIdx? (·.parameter = b.parameter) <;> rfl

end Bound

namespace Reader

variable {r : Reader} {m m' : Model}

theorem asks_withBounds (bounds : List Bound) :
    r.Asks (m.withBounds bounds) = r.Asks m := by
  have hhas : (m.withBounds bounds).hasParameter = m.hasParameter :=
    funext fun name => Model.hasParameter_withBounds bounds m name
  have hname : (m.withBounds bounds).name = m.name := by cases m <;> rfl
  funext p b
  rw [Asks, createBound, hhas, hname]
  rfl

theorem Asks.hasParameter {p : Expr × Option Expr} {b : Bound} (h : r.Asks m p b) :
    m.hasParameter b.parameter = true := by
  obtain ⟨stated, factor, hcreate, -, rfl⟩ := h
  rw [createBound] at hcreate
  split at hcreate
  · exact (Bound.ofChain_eq_ok hcreate).2
  · cases hcreate

/-- A constraint that is read puts the bound that it asks for on the model, and changes nothing else. -/
theorem outcome_addConstraint {chain : Expr} {factor? : Option Expr} :
    (r.addConstraint chain factor?).outcome m = (m', none) ↔
      ∃ b, r.Asks m (chain, factor?) b ∧ m' = m.withBounds (Bound.placed m.bounds b) := by
  rw [Act.outcome_eq_none]
  constructor
  · rintro ⟨journal, h⟩
    obtain ⟨b, hasks, hattach, -⟩ := runs_addConstraint.1 h
    rw [Model.attachBound, if_pos hasks.hasParameter, Bound.put_eq_placed] at hattach
    exact ⟨b, hasks, (Except.ok.inj hattach).symm⟩
  · rintro ⟨b, hasks, rfl⟩
    refine ⟨_, runs_addConstraint.2 ⟨b, hasks, ?_, rfl⟩⟩
    rw [Model.attachBound, if_pos hasks.hasParameter, Bound.put_eq_placed]

end Reader

namespace Edit

variable {r : Reader} {m m' : Model}

/-- Constraints in order: each is placed among the bounds that those before it have left. -/
theorem doAll_addConstraint {pairs : List (Expr × Option Expr)} :
    doAll r (pairs.map fun p => addConstraint p.1 p.2) m = (m', none) ↔
      ∃ bounds, List.Forall₂ (r.Asks m) pairs bounds ∧
        m' = m.withBounds (bounds.foldl Bound.placed m.bounds) := by
  induction pairs generalizing m with
  | nil =>
    constructor
    · intro h
      cases h
      exact ⟨[], .nil, (Model.withBounds_bounds _).symm⟩
    · rintro ⟨bounds, hasks, rfl⟩
      cases hasks
      exact Prod.ext (Model.withBounds_bounds m).symm rfl
  | cons p pairs ih =>
    rw [List.map_cons, doAll, Act.andThen_eq_none]
    constructor
    · rintro ⟨m₁, hfirst, hmore⟩
      obtain ⟨b, hb, rfl⟩ := Reader.outcome_addConstraint.1 hfirst
      obtain ⟨bounds, hasks, rfl⟩ := ih.1 hmore
      rw [Reader.asks_withBounds] at hasks
      refine ⟨b :: bounds, .cons hb hasks, ?_⟩
      rw [Model.withBounds_withBounds, Model.bounds_withBounds, List.foldl_cons]
    · rintro ⟨bounds, hasks, rfl⟩
      obtain ⟨b, bounds, hb, hmore, rfl⟩ := List.forall₂_cons_left_iff.1 hasks
      refine ⟨_, Reader.outcome_addConstraint.2 ⟨b, hb, rfl⟩,
        ih.2 ⟨bounds, (Reader.asks_withBounds _).symm ▸ hmore, ?_⟩⟩
      rw [Model.withBounds_withBounds, Model.bounds_withBounds, List.foldl_cons]

end Edit

namespace Model

/-- A list of constraints that is attached puts its bounds on the model in order. -/
theorem exists_asked_of_addConstraints {r : Reader} {m : Model} {list : Expr}
    (h : (m.edit r [] (.addConstraints list)).2.2 = none) :
    ∃ bounds, List.Forall₂ (r.Asks m) (Clause.asked (list.toList [','])) bounds ∧
      (m.edit r [] (.addConstraints list)).1 =
        m.withBounds (bounds.foldl Bound.placed m.bounds) := by
  have houtcome := Edit.outcome_eq (r := r) (.addConstraints list) m
  rw [Edit.outcome_act, Edit.parts, Clause.constraints_ofItems, h] at houtcome
  exact Edit.doAll_addConstraint.1 houtcome

/-- Where a list of constraints is attached, the bounds are those that its constraints ask for, put in
order in the place of the bound that the parameter has. Nothing else of the model changes. -/
theorem attached_of_addConstraints {r : Reader} {m : Model} {list : Expr}
    (h : (m.edit r [] (.addConstraints list)).2.2 = none) :
    ∃ bounds, List.Forall₂ (r.Asks m) (Clause.asked (list.toList [','])) bounds ∧
      (m.edit r [] (.addConstraints list)).1.bounds = bounds.foldl Bound.placed m.bounds ∧
      (m.edit r [] (.addConstraints list)).1.withBounds m.bounds = m := by
  obtain ⟨bounds, hasks, hm⟩ := exists_asked_of_addConstraints h
  refine ⟨bounds, hasks, ?_, ?_⟩
  · rw [hm, bounds_withBounds]
  · rw [hm, withBounds_withBounds, withBounds_bounds]

/-- Factors in front, doubled and behind a blank item have no effect. The second bound on `Sigma` and
its factor stand where the bound that the model had on it stood. -/
theorem attached_of_addConstraints_stray_factors : ∃ m list,
    Reader.read {} "name=Gaussian,constraints=(Sigma<4,PeakCentre<1)".toList = .ok m ∧
      Expr.ofText "penalty=1,0<Sigma,penalty=5,penalty=6,Height<3,(),penalty=7,Sigma>2,penalty=8".toList
        = .ok list ∧
      (m.edit {} [] (.addConstraints list)).2.2 = none ∧
      (m.edit {} [] (.addConstraints list)).1.bounds.map (fun b => (b.parameter, b.factor)) =
        [("Sigma".toList, 8), ("PeakCentre".toList, defaultFactor), ("Height".toList, defaultFactor)] ∧
      ∃ bounds, List.Forall₂ (Reader.Asks {} m) (Clause.asked (list.toList [','])) bounds ∧
        (m.edit {} [] (.addConstraints list)).1.bounds = bounds.foldl Bound.placed m.bounds ∧
        (m.edit {} [] (.addConstraints list)).1.withBounds m.bounds = m := by
  have hcheck : (Reader.read {} "name=Gaussian,constraints=(Sigma<4,PeakCentre<1)".toList).toOption.any
      (fun m => (Expr.ofText
          "penalty=1,0<Sigma,penalty=5,penalty=6,Height<3,(),penalty=7,Sigma>2,penalty=8".toList
        ).toOption.any fun list => (m.edit {} [] (.addConstraints list)).2.2.isNone ∧
          (m.edit {} [] (.addConstraints list)).1.bounds.map (fun b => (b.parameter, b.factor)) =
            [("Sigma".toList, 8), ("PeakCentre".toList, defaultFactor),
              ("Height".toList, defaultFactor)]) = true := by
    decide +kernel
  obtain ⟨m, hread, hm⟩ := Result.exists_of_any hcheck
  obtain ⟨list, hlist, hdone⟩ := Result.exists_of_any hm
  obtain ⟨hnone, hbounds⟩ := of_decide_eq_true hdone
  have hsucceeds := Option.isNone_iff_eq_none.1 hnone
  exact ⟨m, list, hread, hlist, hsucceeds, hbounds, attached_of_addConstraints hsucceeds⟩

end Model
end Lineshape
