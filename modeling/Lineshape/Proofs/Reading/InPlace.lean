import Lineshape.Proofs.Curve.InPlace
import Lineshape.Proofs.Reading.Reached

/-! # Edits write by write

What an edit does to a model while it is made: each function below writes into the model that it is
given and stops at an error with what it has written by then. A parameter is looked up from member to
member before it is written, an attribute is stored before the parameters follow it, and a text is
turned into a value before it is stored. Made like this, an edit is what `Edit.act` says
(`Edit.inPlace_eq`), and a single edit that fails leaves the model as it was
(`Model.eq_of_failed`). -/

namespace Lineshape
set_option autoImplicit false

/-- Writing at the place of a name is writing under the name. -/
theorem Named.modify_index? {α : Type} {name : Text} {value : α} {l : Named α} {i : Nat}
    (h : index? name l = some i) :
    l.modify i (fun p => (p.1, value)) = set name value l := by
  induction l generalizing i with
  | nil => cases h
  | cons p l ih =>
    obtain ⟨n, old⟩ := p
    rw [index?] at h
    rw [set]
    split at h
    · rename_i hname
      cases h
      rw [if_pos hname]
      rfl
    · rename_i hname
      obtain ⟨j, hj, rfl⟩ := Option.map_eq_some_iff.1 h
      rw [if_neg hname, List.modify_succ_cons, ih hj]

namespace Model

/-! ## Writes -/

mutual
/-- Write the value of a parameter where it is kept. A composite passes the name on to the member,
without the part that tells which, and reports any error with the name that it was given. -/
def writeParameter (name : Text) (value : Float) : Model → Model × Option ModelError
  | curve c =>
    match Named.index? name c.parameters with
    | none => (curve c, some (.unknownParameter c.shape.name name))
    | some i => (curve { c with parameters := c.parameters.modify i fun p => (p.1, value) }, none)
  | composite c members =>
    match Qualified.split? name with
    | none => (composite c members, some (.unknownParameter c.name name))
    | some (i, inner) =>
      match writeParameterIn i inner value members with
      | (members, true) => (composite c members, none)
      | (members, false) => (composite c members, some (.unknownParameter c.name name))
/-- Write the value of a parameter of the `i`-th of several members, and tell whether it was there. -/
def writeParameterIn (i : Nat) (name : Text) (value : Float) :
    List (Member Model) → List (Member Model) × Bool
  | [] => ([], false)
  | ⟨locals, m⟩ :: more =>
    match i with
    | 0 =>
      let (m, error?) := m.writeParameter name value
      (⟨locals, m⟩ :: more, error?.isNone)
    | i + 1 =>
      let (more, found) := writeParameterIn i name value more
      (⟨locals, m⟩ :: more, found)
end

/-- Store a value in an attribute; in a curve the parameters follow it. -/
def writeAttribute (name : Text) (value : Attribute) : Model → Model × Option ModelError
  | curve c =>
    let (c, error?) := c.writeAttribute name value
    (curve c, error?)
  | composite c members =>
    match c.attributes.replace c.name name value with
    | .error error => (composite c members, some error)
    | .ok attributes => (composite { c with attributes } members, none)

/-- Turn a copy of an attribute into what a text stands for, and store it. -/
def writeAttributeText (name s : Text) (m : Model) : Model × Option ModelError :=
  match m.getAttribute name with
  | .error error => (m, some error)
  | .ok copy =>
    match copy.reread name s with
    | .error error => (m, some error)
    | .ok value => m.writeAttribute name value

/-- Turn a copy of the attribute kept for a member into what a text stands for, and store it. -/
def writeLocal (i : Nat) (name s : Text) (m : Model) : Model × Option ModelError :=
  match m with
  | curve _ => (m, some (.memberOutOfRange i 0))
  | composite c members =>
    match m.localAttribute i name with
    | .error error => (m, some error)
    | .ok copy =>
      match copy.reread name s with
      | .error error => (m, some error)
      | .ok value =>
        match members[i]? with
        | none => (m, some (.memberOutOfRange i members.length))
        | some member =>
          match member.locals.replace c.name name value with
          | .error error => (m, some error)
          | .ok locals => (composite c (members.set i { member with locals }), none)

/-! ## What is written -/

theorem writeParameterIn_eq {i : Nat} {name : Text} {value : Float} {members : List (Member Model)}
    (h : ∀ mem ∈ members, ∀ name,
      mem.model.writeParameter name value = Result.settle mem.model (mem.model.setParameter name value)) :
    writeParameterIn i name value members =
      ((setIn? i name value members).getD members, (setIn? i name value members).isSome) := by
  induction members generalizing i with
  | nil => rfl
  | cons mem members ih =>
    obtain ⟨locals, m⟩ := mem
    rw [List.forall_mem_cons] at h
    cases i with
    | zero =>
      rw [writeParameterIn, setIn?]
      dsimp only
      rw [h.1 name, setParameter]
      cases m.set? name value <;> rfl
    | succ i =>
      rw [writeParameterIn, setIn?]
      dsimp only
      rw [ih h.2]
      cases setIn? i name value members <;> rfl

theorem writeParameter_eq (name : Text) (value : Float) (m : Model) :
    m.writeParameter name value = Result.settle m (m.setParameter name value) := by
  induction m generalizing name with
  | curve c =>
    have hhas : (Named.index? name c.parameters).isSome = Named.has name c.parameters :=
      Named.isSome_index?
    rw [writeParameter, setParameter, set?, ← hhas]
    cases hindex : Named.index? name c.parameters with
    | none => rfl
    | some i =>
      dsimp only
      rw [Named.modify_index? hindex]
      rfl
  | composite c members ih =>
    rw [writeParameter, setParameter, set?]
    cases Qualified.split? name with
    | none => rfl
    | some p =>
      dsimp only
      rw [writeParameterIn_eq fun mem hmem name => ih mem hmem name]
      cases setIn? p.1 p.2 value members <;> rfl

theorem writeAttribute_eq (name : Text) (value : Attribute) (m : Model) :
    m.writeAttribute name value = Result.settle m (m.setAttribute name value) := by
  cases m with
  | curve c =>
    rw [writeAttribute, Curve.writeAttribute_eq, setAttribute]
    cases c.setAttribute name value <;> rfl
  | composite c members =>
    rw [writeAttribute, setAttribute]
    cases c.attributes.replace c.name name value <;> rfl

theorem writeAttributeText_eq (name s : Text) (m : Model) :
    m.writeAttributeText name s = Result.settle m (m.setAttributeText name s) := by
  rw [writeAttributeText, setAttributeText]
  cases m.getAttribute name with
  | error error => rfl
  | ok copy =>
    cases hvalue : copy.reread name s with
    | error error =>
      simp only [hvalue, bind, Except.bind]
      rfl
    | ok value =>
      simp only [hvalue, bind, Except.bind]
      exact writeAttribute_eq name value m

theorem writeLocal_eq (i : Nat) (name s : Text) (m : Model) :
    m.writeLocal i name s = Result.settle m (m.setLocal i name s) := by
  cases m with
  | curve c => rfl
  | composite c members =>
    rw [writeLocal, setLocal]
    cases (composite c members).localAttribute i name with
    | error error => rfl
    | ok copy =>
      cases hvalue : copy.reread name s with
      | error error =>
        simp only [hvalue, bind, Except.bind]
        rfl
      | ok value =>
        cases hmem : members[i]? with
        | none =>
          simp only [hvalue, bind, Except.bind]
          rfl
        | some mem =>
          simp only [hvalue, bind, Except.bind]
          cases mem.locals.replace c.name name value <;> rfl

theorem updateAt_self {m member : Model} {path : List Nat} (h : m.memberAt? path = some member) :
    m.updateAt (fun _ => member) path = m := by
  induction path generalizing m with
  | nil =>
    cases h
    cases member <;> rfl
  | cons i path ih =>
    obtain ⟨mem, hmem, hbelow⟩ := Option.bind_eq_some_iff.1 h
    cases m with
    | curve c => rfl
    | composite c members =>
      change members[i]? = some mem at hmem
      rw [updateAt_member _ _ hmem, ih hbelow]
      obtain ⟨hi, rfl⟩ := List.getElem?_eq_some_iff.1 hmem
      rw [List.set_getElem_self]

end Model

/-! ## Acts that are done whole or not at all -/

namespace Act

variable {σ α β : Type}

/-- The act leaves the state alone. -/
def Reads (act : Act σ α) : Prop := ∀ w, (act.run.run w).2.state = w.state

/-- If the act fails, then it leaves the state alone. -/
def AllOrNothing (act : Act σ α) : Prop :=
  ∀ w v error, act.run.run w = (.error error, v) → v.state = w.state

/-- What an act does to a state does not depend on the events so far. -/
def Blind (act : Act σ α) : Prop := ∀ s journal,
  (act.run.run ⟨s, journal⟩).1 = (act.perform s).1 ∧
    (act.run.run ⟨s, journal⟩).2.state = (act.perform s).2.state

/-- A look at the state, with a value or an error that comes from the state alone. -/
structure Look (act : Act σ α) : Prop where
  reads : Reads act
  blind : Blind act

/-- A change of the state that is made whole or not at all, and that the state alone decides on. -/
structure Whole (act : Act σ α) : Prop where
  allOrNothing : AllOrNothing act
  blind : Blind act

theorem look_pure (a : α) : Look (pure a : Act σ α) := ⟨fun _ => rfl, fun _ _ => ⟨rfl, rfl⟩⟩

theorem look_throw (e : ReadError) : Look (throw e : Act σ α) := ⟨fun _ => rfl, fun _ _ => ⟨rfl, rfl⟩⟩

theorem look_state : Look (state : Act σ σ) := ⟨fun _ => rfl, fun _ _ => ⟨rfl, rfl⟩⟩

theorem look_note (e : Event) : Look (note e : Act σ Unit) := ⟨fun _ => rfl, fun _ _ => ⟨rfl, rfl⟩⟩

theorem look_ofModel (result : Except ModelError α) : Look (ofModel result : Act σ α) := by
  cases result with
  | error e => exact look_throw (.model e)
  | ok a => exact look_pure a

theorem Look.whole {act : Act σ α} (h : Look act) : Whole act := by
  refine ⟨fun w v error hrun => ?_, h.blind⟩
  have hstate := h.reads w
  rw [hrun] at hstate
  exact hstate

theorem whole_put (s : σ) : Whole (put s) := ⟨fun _ _ _ h => (by cases h), fun _ _ => ⟨rfl, rfl⟩⟩

/-- Acts that give the same and leave the same state, whatever was noted before either of them. -/
def Agree (x y : Act σ α) : Prop := ∀ s journal journal',
  (x.run.run ⟨s, journal⟩).1 = (y.run.run ⟨s, journal'⟩).1 ∧
    (x.run.run ⟨s, journal⟩).2.state = (y.run.run ⟨s, journal'⟩).2.state

theorem Blind.agree {x : Act σ α} (h : Blind x) : Agree x x := fun s journal journal' =>
  ⟨(h s journal).1.trans (h s journal').1.symm, (h s journal).2.trans (h s journal').2.symm⟩

theorem Agree.bind {x y : Act σ α} {f g : α → Act σ β} (h : Agree x y) (hf : ∀ a, Agree (f a) (g a)) :
    Agree (x >>= f) (y >>= g) := by
  intro s journal journal'
  obtain ⟨hresult, hstate⟩ := h s journal journal'
  rw [run_bind, run_bind]
  cases hrun : (x.run.run ⟨s, journal⟩ : Except ReadError α × Work σ) with
  | mk result v =>
    cases hrun' : (y.run.run ⟨s, journal'⟩ : Except ReadError α × Work σ) with
    | mk result' v' =>
      rw [hrun, hrun'] at hresult hstate
      obtain ⟨state, events⟩ := v
      obtain ⟨state', events'⟩ := v'
      cases hresult
      cases hstate
      cases result with
      | error e => exact ⟨rfl, rfl⟩
      | ok a => exact hf a state events events'

theorem blind_bind {x : Act σ α} {f : α → Act σ β} (hx : Blind x) (hf : ∀ a, Blind (f a)) :
    Blind (x >>= f) := fun s journal => (hx.agree.bind fun a => (hf a).agree) s journal []

/-- Looks before a change do no harm. -/
theorem whole_bind {x : Act σ α} {f : α → Act σ β} (hx : Look x) (hf : ∀ a, Whole (f a)) :
    Whole (x >>= f) := by
  refine ⟨fun w v error hrun => ?_, blind_bind hx.blind fun a => (hf a).blind⟩
  have hstate := hx.reads w
  rw [run_bind] at hrun
  cases hfront : (x.run.run w : Except ReadError α × Work σ) with
  | mk result u =>
    rw [hfront] at hrun hstate
    cases result with
    | error e =>
      cases hrun
      exact hstate
    | ok a => exact ((hf a).allOrNothing u v error hrun).trans hstate

/-- Write into the state, and stop if there is an error. -/
def written (f : σ → σ × Option ModelError) : Act σ Unit := do
  let (s, error?) := f (← state)
  put s
  match error? with
  | some error => throw (.model error)
  | none => pure ()

theorem run_written (f : σ → σ × Option ModelError) (w : Work σ) :
    (written f).run.run w =
      ((f w.state).2.elim (.ok ()) fun error => .error (.model error), ⟨(f w.state).1, w.journal⟩) := by
  rw [written, run_bind, show (state : Act σ σ).run.run w = (.ok w.state, w) from rfl]
  dsimp only
  cases f w.state with
  | mk s error? => cases error? <;> rfl

end Act

/-! ## Edits -/

namespace Edit

/-- What a change does write by write. -/
def inPlace (r : Reader) : Edit → Act Model Unit
  | setParameter name value => Act.written (·.writeParameter name value)
  | setAttribute name value => Act.written (·.writeAttribute name value)
  | setAttributeText name text => Act.written (·.writeAttributeText name text)
  | setLocal place name text => Act.written (·.writeLocal place name text)
  | e => e.act r

theorem written_eq_single {f : Model → Model × Option ModelError}
    {g : Model → Except ModelError Model} (h : ∀ m, f m = Result.settle m (g m)) :
    Act.written f = Edit.act.single g := by
  refine ExceptT.ext (funext fun w => ?_)
  change _ = (Act.ofModel (g w.state) >>= Act.put : Act Model Unit).run.run w
  refine (Act.run_written f w).trans ?_
  rw [h]
  cases g w.state <;> rfl

theorem inPlace_eq (r : Reader) (e : Edit) : e.inPlace r = e.act r := by
  cases e with
  | setParameter name value => exact written_eq_single (Model.writeParameter_eq name value)
  | setAttribute name value => exact written_eq_single (Model.writeAttribute_eq name value)
  | setAttributeText name text => exact written_eq_single (Model.writeAttributeText_eq name text)
  | setLocal place name text => exact written_eq_single (Model.writeLocal_eq place name text)
  | _ => rfl

/-- Whether an edit is a single change, no list of changes. -/
def isSingle : Edit → Bool
  | applyTies | addTies _ | addTie _ | addConstraints _ => false
  | _ => true

theorem whole_single (f : Model → Except ModelError Model) : Act.Whole (Edit.act.single f) :=
  Act.whole_bind Act.look_state fun m =>
    Act.whole_bind (Act.look_ofModel (f m)) fun m' => Act.whole_put m'

theorem whole_tie (parameter formula : Text) : Act.Whole (Act.tie parameter formula) :=
  Act.whole_bind Act.look_state fun _ => Act.whole_bind (Act.look_ofModel _) fun p =>
    Act.whole_bind (Act.look_note _) fun _ => Act.whole_put p.1

theorem whole_bound (b : Bound) : Act.Whole (Act.bound b) :=
  Act.whole_bind Act.look_state fun _ => Act.whole_bind (Act.look_ofModel _) fun m' =>
    Act.whole_bind (Act.look_note _) fun _ => Act.whole_put m'

theorem whole_addConstraint (r : Reader) (chain : Expr) (factor? : Option Expr) :
    Act.Whole (r.addConstraint chain factor?) := by
  have hend : ∀ (m : Model) (b : Bound), Act.Whole (do
      Act.note (.boundRead m.name b)
      Act.bound b : Act Model Unit) :=
    fun m b => Act.whole_bind (Act.look_note _) fun _ => whole_bound b
  refine Act.whole_bind Act.look_state fun m => Act.whole_bind (Act.look_ofModel _) fun b => ?_
  cases factor? with
  | none => exact Act.whole_bind (Act.look_pure b) fun b => hend m b
  | some value =>
    refine Act.whole_bind ?_ fun factor => hend m { b with factor }
    cases r.factorValue value with
    | error error => exact Act.look_throw error
    | ok x => exact Act.look_pure x

/-- A single change is made whole or not at all. -/
theorem whole_of_isSingle {e : Edit} (h : e.isSingle = true) (r : Reader) :
    Act.Whole (e.act r) := by
  cases e with
  | setParameter | setAttribute | setAttributeText | setLocal => exact whole_single _
  | addMember new =>
    exact Act.whole_bind Act.look_state fun m =>
      Act.whole_bind (Act.look_note _) fun _ => Act.whole_put _
  | tie parameter formula => exact whole_tie parameter formula
  | bound b => exact whole_bound b
  | addConstraint chain factor? => exact whole_addConstraint r chain factor?
  | applyTies | addTies | addTie | addConstraints => cases h

end Edit

/-! ## Models -/

namespace Model

/-- The change of the member at an address, made write by write: the model that is left, the events,
and the error if the change failed. -/
def editInPlace (r : Reader) (path : List Nat) (e : Edit) (m : Model) :
    Model × List Event × Option ReadError :=
  match m.memberAt? path with
  | none => (m, [], none)
  | some member =>
    let (result, work) := (e.inPlace r).perform member
    (m.updateAt (fun _ => work.state) path, work.journal,
      match result with
      | .ok _ => none
      | .error error => some error)

theorem editInPlace_eq (r : Reader) (path : List Nat) (e : Edit) (m : Model) :
    m.editInPlace r path e = m.edit r path e := by
  rw [editInPlace, Edit.inPlace_eq]
  rfl

theorem edit_eq_self {r : Reader} {path : List Nat} {e : Edit} {m : Model} {error : ReadError}
    (he : Act.AllOrNothing (e.act r)) (h : (m.edit r path e).2.2 = some error) :
    (m.edit r path e).1 = m := by
  rw [edit] at h ⊢
  cases hmember : m.memberAt? path with
  | none => rfl
  | some member =>
    rw [hmember] at h
    cases hrun : (e.act r).perform member with
    | mk result w =>
      dsimp only at h ⊢
      rw [hrun] at h ⊢
      cases result with
      | ok u => cases h
      | error error' =>
        have hstate := he ⟨member, []⟩ w error' hrun
        dsimp only
        rw [hstate]
        exact updateAt_self hmember

/-- A single change that fails leaves no trace, in the model itself and in all its members: names and
values of parameters, attributes, attributes kept for members, formulas, ties and bounds are what they
were, although the change is made write by write and an attribute is stored before the parameters
follow it. -/
theorem eq_of_failed {r : Reader} {path : List Nat} {e : Edit} {m : Model} {error : ReadError}
    (he : e.isSingle = true) (h : (m.editInPlace r path e).2.2 = some error) :
    (m.editInPlace r path e).1 = m ∧ m.edit r path e = m.editInPlace r path e := by
  rw [editInPlace_eq] at h ⊢
  exact ⟨edit_eq_self (Edit.whole_of_isSingle he r).allOrNothing h, rfl⟩

/-- A degree that is too high and a formula that cannot be read, for members of a member that have
ties and bounds on them. -/
theorem eq_of_failed_nested :
    let s := "name=FlatBackground;(name=Polynomial,n=2,A2=7,ties=(A0=2*A2),constraints=(A1<3);".toList ++
      "name=UserFunction,Formula=a*x+b,a=2,ties=(b=a))".toList
    let degree := Edit.setAttributeText "n".toList "2000".toList
    let formula := Edit.setAttribute "Formula".toList (.string "a*(x".toList)
    ∃ m, Reader.read {} s = .ok m ∧ degree.isSingle = true ∧ formula.isSingle = true ∧
      (∃ error, (m.editInPlace {} [1, 0] degree).2.2 = some error) ∧
      (∃ error, (m.editInPlace {} [1, 1] formula).2.2 = some error) ∧
      (m.editInPlace {} [1, 0] degree).1 = m ∧ (m.editInPlace {} [1, 1] formula).1 = m := by
  intro s degree formula
  have hcheck : (Reader.read {} s).toOption.any (fun m =>
      (m.editInPlace {} [1, 0] degree).2.2.isSome ∧ (m.editInPlace {} [1, 1] formula).2.2.isSome) =
        true := by decide +kernel
  obtain ⟨m, hread, hm⟩ := Result.exists_of_any hcheck
  obtain ⟨hdegree, hformula⟩ := of_decide_eq_true hm
  obtain ⟨error, herror⟩ := Option.isSome_iff_exists.1 hdegree
  obtain ⟨error', herror'⟩ := Option.isSome_iff_exists.1 hformula
  exact ⟨m, hread, rfl, rfl, ⟨error, herror⟩, ⟨error', herror'⟩, (eq_of_failed rfl herror).1,
    (eq_of_failed rfl herror').1⟩

end Model
end Lineshape
