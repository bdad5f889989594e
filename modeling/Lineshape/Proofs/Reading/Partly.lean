import Lineshape.Proofs.Reading.InPlace

/-! # Lists of changes that fail

An edit that attaches a list of ties or constraints makes single changes one after the other
(`Edit.outcome_act`), and applying ties sets one parameter after the other. If such an edit fails, the
changes in front of the one that fails have been made, and nothing else (`Model.stopped_of_failed`).
They are not taken back (`Model.exists_partly_done`). -/

namespace Lineshape
set_option autoImplicit false

/-! ## Outcomes of acts -/

namespace Act

variable {σ α β : Type}

/-- What an act leaves of a state, and its error. -/
def outcome (act : Act σ α) (s : σ) : σ × Option ReadError :=
  match act.perform s with
  | (.ok _, w) => (w.state, none)
  | (.error error, w) => (w.state, some error)

theorem outcome_bind {x : Act σ α} {f : α → Act σ β} (hf : ∀ a, Blind (f a)) (s : σ) :
    (x >>= f).outcome s = match x.perform s with
      | (.ok a, w) => (f a).outcome w.state
      | (.error error, w) => (w.state, some error) := by
  rw [outcome, perform, run_bind, perform]
  cases hrun : (x.run.run ⟨s, []⟩ : Except ReadError α × Work σ) with
  | mk result w =>
    cases result with
    | error e => rfl
    | ok a =>
      obtain ⟨state, events⟩ := w
      obtain ⟨hvalue, hleft⟩ := hf a state events
      dsimp only
      rw [outcome]
      cases hrest : ((f a).run.run ⟨state, events⟩ : Except ReadError β × Work σ) with
      | mk result u =>
        cases halone : ((f a).perform state : Except ReadError β × Work σ) with
        | mk result' u' =>
          rw [hrest, halone] at hvalue hleft
          cases hvalue
          dsimp only at hleft
          cases result <;> simp only [hleft]

/-- Go on from an outcome, unless it is an error. -/
def andThen (p : σ × Option ReadError) (next : σ → σ × Option ReadError) : σ × Option ReadError :=
  match p with
  | (s, none) => next s
  | (s, some error) => (s, some error)

theorem andThen_assoc (p : σ × Option ReadError) (f g : σ → σ × Option ReadError) :
    andThen (andThen p f) g = andThen p fun s => andThen (f s) g := by
  obtain ⟨s, error?⟩ := p
  cases error? <;> rfl

theorem andThen_none (p : σ × Option ReadError) : andThen p (fun s => (s, none)) = p := by
  obtain ⟨s, error?⟩ := p
  cases error? <;> rfl

theorem outcome_then {x y : Act σ Unit} (hy : Blind y) (s : σ) :
    (x >>= fun _ => y).outcome s = andThen (x.outcome s) y.outcome := by
  rw [outcome_bind fun _ => hy, outcome]
  cases (x.perform s : Except ReadError Unit × Work σ) with
  | mk result w => cases result <;> rfl

end Act

/-! ## Single changes of an edit -/

namespace Edit

/-- The ties that one item of a list stands for, the last target first. An item that is no tie is an
edit of its own, which fails. -/
def tieParts (r : Reader) (item : Expr) : List Edit :=
  match item.form, item.terms.reverse with
  | .assign, formula :: target :: targets =>
    ((target :: targets).map r.render).map fun parameter => tie parameter (r.render formula)
  | _, _ => [addTie item]

/-- The constraint that one clause of a list stands for; a stray factor stands for none. -/
def clausePart : Clause → Option Edit
  | .constraint chain factor? => some (addConstraint chain factor?)
  | .stray _ => none

/-- The single changes that an edit makes, in order. -/
def parts (r : Reader) : Edit → List Edit
  | addTies list => (Reader.tieItems list).flatMap (tieParts r)
  | addTie item => tieParts r item
  | addConstraints list => (Clause.ofItems (list.toList [','])).filterMap clausePart
  | e => [e]

/-- Make changes in order, and stop at the first that fails. -/
def doAll (r : Reader) : List Edit → Model → Model × Option ReadError
  | [], m => (m, none)
  | e :: more, m => Act.andThen ((e.act r).outcome m) (doAll r more)

variable {r : Reader}

theorem doAll_singleton (e : Edit) (m : Model) : doAll r [e] m = (e.act r).outcome m :=
  Act.andThen_none _

theorem doAll_append (front back : List Edit) (m : Model) :
    doAll r (front ++ back) m = Act.andThen (doAll r front m) (doAll r back) := by
  induction front generalizing m with
  | nil => rfl
  | cons e front ih =>
    rw [List.cons_append, doAll, doAll, Act.andThen_assoc, funext ih]

/-- If changes in order come to an error, then those in front of one that fails have been made. -/
theorem stopped_of_doAll {es : List Edit} {m m' : Model} {error : ReadError}
    (h : doAll r es m = (m', some error)) : ∃ done e rest m₁, es = done ++ e :: rest ∧
      doAll r done m = (m₁, none) ∧ (e.act r).outcome m₁ = (m', some error) := by
  induction es generalizing m with
  | nil => cases h
  | cons e es ih =>
    rw [doAll] at h
    cases hfirst : (e.act r).outcome m with
    | mk m₁ error? =>
      rw [hfirst] at h
      cases error? with
      | some error' =>
        cases h
        exact ⟨[], e, es, m, rfl, rfl, hfirst⟩
      | none =>
        obtain ⟨done, e', rest, m₂, rfl, hdone, hfail⟩ := ih h
        refine ⟨e :: done, e', rest, m₂, rfl, ?_, hfail⟩
        rw [doAll, hfirst]
        exact hdone

/-! ## Lists -/

theorem blind_tieAll (formula : Text) (parameters : List Text) :
    Act.Blind (Reader.tieAll formula parameters) := by
  induction parameters with
  | nil => exact (Act.look_pure ()).blind
  | cons parameter more ih => exact Act.blind_bind (whole_tie parameter formula).blind fun _ => ih

theorem blind_addTie (item : Expr) : Act.Blind (r.addTie item) := by
  rw [Reader.addTie]
  split
  · exact blind_tieAll _ _
  · exact (Act.look_throw _).blind

theorem blind_addEachTie (items : List Expr) : Act.Blind (r.addEachTie items) := by
  induction items with
  | nil => exact (Act.look_pure ()).blind
  | cons item more ih => exact Act.blind_bind (blind_addTie item) fun _ => ih

theorem blind_addClauses (clauses : List Clause) : Act.Blind (r.addClauses clauses) := by
  induction clauses with
  | nil => exact (Act.look_pure ()).blind
  | cons clause more ih =>
    cases clause with
    | constraint chain factor? =>
      exact Act.blind_bind (whole_addConstraint r chain factor?).blind fun _ => ih
    | stray item =>
      exact Act.blind_bind Act.look_state.blind fun _ =>
        Act.blind_bind (Act.look_note _).blind fun _ => ih

theorem outcome_tieAll (formula : Text) (parameters : List Text) (m : Model) :
    (Reader.tieAll formula parameters).outcome m =
      doAll r (parameters.map fun parameter => tie parameter formula) m := by
  induction parameters generalizing m with
  | nil => rfl
  | cons parameter more ih =>
    rw [Reader.tieAll, Act.outcome_then (blind_tieAll formula more), funext ih]
    rfl

theorem outcome_addTie (item : Expr) (m : Model) :
    (r.addTie item).outcome m = doAll r (tieParts r item) m := by
  rw [tieParts]
  split
  · rename_i hform hterms
    rw [Reader.addTie, hform, hterms]
    exact outcome_tieAll _ _ m
  · exact (doAll_singleton (addTie item) m).symm

theorem outcome_addEachTie (items : List Expr) (m : Model) :
    (r.addEachTie items).outcome m = doAll r (items.flatMap (tieParts r)) m := by
  induction items generalizing m with
  | nil => rfl
  | cons item more ih =>
    rw [Reader.addEachTie, Act.outcome_then (blind_addEachTie more), outcome_addTie, funext ih,
      List.flatMap_cons, doAll_append]

theorem outcome_addClauses (clauses : List Clause) (m : Model) :
    (r.addClauses clauses).outcome m = doAll r (clauses.filterMap clausePart) m := by
  induction clauses generalizing m with
  | nil => rfl
  | cons clause more ih =>
    cases clause with
    | constraint chain factor? =>
      rw [Reader.addClauses, Act.outcome_then (blind_addClauses more), funext ih]
      rfl
    | stray item =>
      rw [Reader.addClauses, Act.outcome_bind fun m =>
        Act.blind_bind (Act.look_note _).blind fun _ => blind_addClauses more]
      exact (Act.outcome_then (blind_addClauses more) m).trans (ih m)

/-- An edit makes its single changes in order, and stops at the first that fails. -/
theorem outcome_act (e : Edit) (m : Model) : (e.act r).outcome m = doAll r (e.parts r) m := by
  cases e with
  | addTies list => exact outcome_addEachTie _ m
  | addTie item => exact outcome_addTie item m
  | addConstraints list => exact outcome_addClauses _ m
  | _ => exact (doAll_singleton _ m).symm

/-- Each of these changes is made whole or not at all, other than applying ties. -/
theorem whole_of_mem_parts {e part : Edit} (he : e ≠ applyTies) (h : part ∈ e.parts r) :
    Act.Whole (part.act r) := by
  have htie : ∀ item, ∀ part ∈ tieParts r item, Act.Whole (part.act r) := by
    intro item part hpart
    rw [tieParts] at hpart
    split at hpart
    · obtain ⟨parameter, -, rfl⟩ := List.mem_map.1 hpart
      exact whole_tie _ _
    · rename_i hno
      rw [List.mem_singleton.1 hpart]
      change Act.Whole (r.addTie item)
      rw [Reader.addTie]
      split
      · rename_i hform hterms
        exact (hno _ _ _ hform hterms).elim
      · exact (Act.look_throw _).whole
  cases e with
  | addTies list =>
    obtain ⟨item, -, hpart⟩ := List.mem_flatMap.1 h
    exact htie item part hpart
  | addTie item => exact htie item part h
  | addConstraints list =>
    obtain ⟨clause, -, hpart⟩ := List.mem_filterMap.1 h
    cases clause with
    | constraint chain factor? =>
      cases hpart
      exact whole_addConstraint r chain factor?
    | stray item => cases hpart
  | applyTies => exact absurd rfl he
  | _ =>
    rw [List.mem_singleton.1 h]
    exact whole_of_isSingle rfl r

theorem outcome_eq (e : Edit) (m : Model) :
    (e.act r).outcome m = ((m.edit r [] e).1, (m.edit r [] e).2.2) := by
  have hroot : ∀ new : Model, m.updateAt (fun _ => new) [] = new := fun _ => by cases m <;> rfl
  rw [Model.edit, show m.memberAt? [] = some m from rfl, Act.outcome]
  dsimp only
  rw [hroot]
  cases ((e.act r).perform m : Except ReadError Unit × Work Model) with
  | mk result w => cases result <;> rfl

end Edit

/-! ## Edits that fail -/

namespace Model

/-- How far an edit came that ended with an error and left `m'`: the changes in front of the one that
fails have been made, and that one fails in the model that they lead to. For applying ties the changes
are the ties of the members and then those of the model, each setting one parameter. -/
def StoppedAt (r : Reader) (e : Edit) (error : ReadError) (m m' : Model) : Prop :=
  match e with
  | .applyTies => ∃ done tie rest, m.schedule = done ++ tie :: rest ∧ m.run done = some m' ∧
      m'.step tie = none
  | e => ∃ done part rest, e.parts r = done ++ part :: rest ∧ Edit.doAll r done m = (m', none) ∧
      (m'.edit r [] part).1 = m' ∧ (m'.edit r [] part).2.2 = some error

theorem stoppedAt_of_parts {r : Reader} {e : Edit} {m m' : Model} {error : ReadError}
    (he : e ≠ .applyTies) (h : (e.act r).outcome m = (m', some error)) :
    ∃ done part rest, e.parts r = done ++ part :: rest ∧ Edit.doAll r done m = (m', none) ∧
      (m'.edit r [] part).1 = m' ∧ (m'.edit r [] part).2.2 = some error := by
  rw [Edit.outcome_act] at h
  obtain ⟨done, part, rest, m₁, hparts, hdone, hfail⟩ := Edit.stopped_of_doAll h
  have hpart : part ∈ e.parts r := hparts ▸ List.mem_append_right done List.mem_cons_self
  rw [Edit.outcome_eq] at hfail
  obtain ⟨hleft, herror⟩ := Prod.mk.inj hfail
  have hself := edit_eq_self (Edit.whole_of_mem_parts he hpart).allOrNothing herror
  rw [hself] at hleft
  subst hleft
  exact ⟨done, part, rest, hparts, hdone, hself, herror⟩

theorem outcome_applyTies (m : Model) :
    Act.applyTies.outcome m = (m.applyTies.1, m.applyTies.2.map .model) := by
  have hperform : Act.applyTies.perform m =
      (m.applyTies.2.elim (.ok ()) fun error => .error (.model error), ⟨m.applyTies.1, []⟩) :=
    Act.run_written applyTies ⟨m, []⟩
  rw [Act.outcome, hperform]
  cases m.applyTies.2 <;> rfl

theorem stoppedAt_of_applyTies {m m' : Model} {error : ReadError}
    (h : Act.applyTies.outcome m = (m', some error)) :
    ∃ done tie rest, m.schedule = done ++ tie :: rest ∧ m.run done = some m' ∧ m'.step tie = none := by
  rw [outcome_applyTies] at h
  obtain ⟨rfl, herror⟩ := Prod.mk.inj h
  obtain ⟨error', happly, -⟩ := Option.map_eq_some_iff.1 herror
  have hruns := m.runsOver_schedule
  rw [show m.applyTies = (m.applyTies.1, some error') from Prod.ext rfl happly] at hruns
  exact hruns.stopped

/-- If an edit fails, then its single changes have been made in order up to the one that fails, and
that one has changed nothing. -/
theorem stopped_of_failed {r : Reader} {e : Edit} {m : Model} {error : ReadError}
    (h : (m.edit r [] e).2.2 = some error) : m.StoppedAt r e error (m.edit r [] e).1 := by
  have houtcome : (e.act r).outcome m = ((m.edit r [] e).1, some error) := by
    rw [Edit.outcome_eq, h]
  cases e with
  | applyTies => exact stoppedAt_of_applyTies houtcome
  | _ => exact stoppedAt_of_parts nofun houtcome

/-- Of two ties the second is on no parameter. -/
theorem stopped_of_failed_second_tie : ∃ m list,
    Reader.read {} "name=Gaussian".toList = .ok m ∧
      Expr.ofText "Height=Sigma,Width=1".toList = .ok list ∧
      ∃ error, (m.edit {} [] (.addTies list)).2.2 = some error ∧
        m.StoppedAt {} (.addTies list) error (m.edit {} [] (.addTies list)).1 := by
  have hcheck : (Reader.read {} "name=Gaussian".toList).toOption.any (fun m =>
      (Expr.ofText "Height=Sigma,Width=1".toList).toOption.any fun list =>
        (m.edit {} [] (.addTies list)).2.2.isSome) = true := by decide +kernel
  obtain ⟨m, hread, hm⟩ := Result.exists_of_any hcheck
  obtain ⟨list, hlist, hfails⟩ := Result.exists_of_any hm
  obtain ⟨error, herror⟩ := Option.isSome_iff_exists.1 hfails
  exact ⟨m, list, hread, hlist, error, herror, stopped_of_failed herror⟩

/-- Lists of ties, ties of several parameters, lists of constraints and runs over ties are not taken
back when they fail: one tie or bound has been attached, one parameter has its new value. -/
theorem exists_partly_done : ∃ m : Model,
    Reader.read {} "name=Gaussian,Sigma=3".toList = .ok m ∧ m.ties.length = 0 ∧
      m.bounds.length = 0 ∧
      (∃ list, Expr.ofText "Height=Sigma,Width=1".toList = .ok list ∧
        (m.edit {} [] (.addTies list)).2.2.isSome ∧
        (m.edit {} [] (.addTies list)).1.ties.length = 1) ∧
      (∃ item, Expr.ofText "Width=Height=Sigma".toList = .ok item ∧
        (m.edit {} [] (.addTie item)).2.2.isSome ∧
        (m.edit {} [] (.addTie item)).1.ties.length = 1) ∧
      (∃ list, Expr.ofText "Height<3,Width<1".toList = .ok list ∧
        (m.edit {} [] (.addConstraints list)).2.2.isSome ∧
        (m.edit {} [] (.addConstraints list)).1.bounds.length = 1) ∧
      ∃ tied, tied = m.edits {} [([], .tie "Height".toList "2*Sigma".toList),
          ([], .tie "PeakCentre".toList "log(0-Sigma)".toList)] ∧
        (tied.edit {} [] .applyTies).2.2.isSome ∧ tied.parameter? "Height".toList = some 0 ∧
        (tied.edit {} [] .applyTies).1.parameter? "Height".toList = some 6 := by
  have hcheck : (Reader.read {} "name=Gaussian,Sigma=3".toList).toOption.any (fun m =>
      m.ties.length = 0 ∧ m.bounds.length = 0 ∧
      ((Expr.ofText "Height=Sigma,Width=1".toList).toOption.any fun list =>
        (m.edit {} [] (.addTies list)).2.2.isSome ∧
        (m.edit {} [] (.addTies list)).1.ties.length = 1) ∧
      ((Expr.ofText "Width=Height=Sigma".toList).toOption.any fun item =>
        (m.edit {} [] (.addTie item)).2.2.isSome ∧
        (m.edit {} [] (.addTie item)).1.ties.length = 1) ∧
      ((Expr.ofText "Height<3,Width<1".toList).toOption.any fun list =>
        (m.edit {} [] (.addConstraints list)).2.2.isSome ∧
        (m.edit {} [] (.addConstraints list)).1.bounds.length = 1) ∧
      (let tied := m.edits {} [([], .tie "Height".toList "2*Sigma".toList),
          ([], .tie "PeakCentre".toList "log(0-Sigma)".toList)];
        (tied.edit {} [] .applyTies).2.2.isSome ∧ tied.parameter? "Height".toList = some 0 ∧
        (tied.edit {} [] .applyTies).1.parameter? "Height".toList = some 6)) = true := by
    decide +kernel
  obtain ⟨m, hread, hm⟩ := Result.exists_of_any hcheck
  obtain ⟨hties, hbounds, hlist, hitem, hconstraints, htied⟩ := of_decide_eq_true hm
  obtain ⟨list, hparse, hlist⟩ := Result.exists_of_any hlist
  obtain ⟨item, hparse', hitem⟩ := Result.exists_of_any hitem
  obtain ⟨constraints, hparse'', hconstraints⟩ := Result.exists_of_any hconstraints
  exact ⟨m, hread, hties, hbounds, ⟨list, hparse, of_decide_eq_true hlist⟩,
    ⟨item, hparse', of_decide_eq_true hitem⟩, ⟨constraints, hparse'', of_decide_eq_true hconstraints⟩,
    _, rfl, htied⟩

end Model
end Lineshape
