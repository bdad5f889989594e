import Lineshape.Reading.Edit
import Lineshape.Proofs.Model.Kept
import Lineshape.Proofs.Reading.Steps

/-! # What edits keep

An act keeps a property of its state if the property holds behind it whether the act succeeds or
fails (`Act.Keeps`). An edit keeps every property that is kept by the changes it is made of
(`Edit.Keeps.act`), among them each single value that a run over ties sets, also where the run
ends at a tie without a value. -/

namespace Lineshape
set_option autoImplicit false

/-! ## Runs over ties -/

namespace Model

/-- Whether it stops or not, a run over ties keeps what each value that it sets keeps. -/
theorem RunsOver.holds {P : Model → Prop}
    (hP : ∀ {m m' value path name}, P m → m.setAt? value path name = some m' → P m')
    {es : List (List Nat × Tie)} {m : Model} {p : Model × Option ModelError}
    (h : m.RunsOver es p) (hm : P m) : P p.1 := by
  induction h with
  | nil | stop => exact hm
  | cons hstep _ ih =>
    obtain ⟨value, -, hset⟩ := exists_setAt?_of_step hstep
    exact ih (hP hm hset)

end Model

/-! ## Acts -/

namespace Act

variable {σ α β : Type} {P : σ → Prop}

/-- Whether it succeeds or fails, the act keeps a property of the state. -/
def Keeps (P : σ → Prop) (act : Act σ α) : Prop := ∀ w, P w.state → P (act.run.run w).2.state

theorem keeps_pure (a : α) : Keeps P (pure a : Act σ α) := fun _ hw => hw

theorem keeps_throw (e : ReadError) : Keeps P (throw e : Act σ α) := fun _ hw => hw

theorem keeps_state : Keeps P (state : Act σ σ) := fun _ hw => hw

theorem keeps_note (e : Event) : Keeps P (note e : Act σ Unit) := fun _ hw => hw

theorem keeps_ofModel (result : Except ModelError α) : Keeps P (ofModel result : Act σ α) := by
  cases result with
  | error e => exact keeps_throw (.model e)
  | ok a => exact keeps_pure a

theorem keeps_bind {x : Act σ α} {f : α → Act σ β} (hx : Keeps P x) (hf : ∀ a, Keeps P (f a)) :
    Keeps P (x >>= f) := by
  intro w hw
  have hv := hx w hw
  rw [run_bind]
  cases hrun : (x.run.run w : Except ReadError α × Work σ) with
  | mk result v =>
    rw [hrun] at hv
    cases result with
    | error e => exact hv
    | ok a => exact hf a v hv

end Act

/-! ## Edits -/

/-- The attribute that an edit gives a value. -/
def Edit.attribute? : Edit → Option Text
  | setAttribute name _ | setAttributeText name _ => some name
  | _ => none

/-- Whether an edit gives a value to an attribute that parameters of some curves depend on. -/
def Edit.redeclares (e : Edit) : Bool :=
  e.attribute?.any fun name => name = "n".toList || name = "Formula".toList

theorem Edit.ne_of_redeclares {e : Edit} {name : Text} (hname : e.attribute? = some name)
    (h : e.redeclares = false) : name ≠ "n".toList ∧ name ≠ "Formula".toList := by
  rw [redeclares, hname, Option.any_some, Bool.or_eq_false_iff] at h
  exact ⟨of_decide_eq_false h.1, of_decide_eq_false h.2⟩

/-- The member that an edit adds. -/
def Edit.member? : Edit → Option Model
  | addMember new => some new
  | _ => none

/-- A property of models that is kept by each change that an edit can consist of. -/
structure Edit.Keeps (e : Edit) (P : Model → Prop) : Prop where
  parameter : ∀ {m m' value path name}, P m → m.setAt? value path name = some m' → P m'
  tie : ∀ {m m' parameter formula tie}, P m → m.attachTie parameter formula = .ok (m', tie) → P m'
  bound : ∀ {m m' b}, P m → m.attachBound b = .ok m' → P m'
  setLocal : ∀ {m m' : Model} {i name s}, P m → m.setLocal i name s = .ok m' → P m'
  configure : ∀ {m m' name value}, e.attribute? = some name → P m →
    m.setAttribute name value = .ok m' → P m'
  member : ∀ {m new}, e.member? = some new → P m → P (m.addMember new)

namespace Edit

variable {r : Reader} {e : Edit} {P : Model → Prop}

/-- An act that begins with the state keeps what it keeps from each state. -/
theorem keeps_of_state {α : Type} {f : Model → Act Model α}
    (h : ∀ w, P w.state → P ((f w.state).run.run w).2.state) : Act.Keeps P (Act.state >>= f) := h

theorem keeps_single {f : Model → Except ModelError Model}
    (hf : ∀ {m m'}, P m → f m = .ok m' → P m') : Act.Keeps P (Edit.act.single f) := by
  refine keeps_of_state fun w hw => ?_
  cases hm : f w.state with
  | error error => exact hw
  | ok m => exact hf hw hm

theorem keeps_tie (h : e.Keeps P) (parameter formula : Text) :
    Act.Keeps P (Act.tie parameter formula) := by
  refine keeps_of_state fun w hw => ?_
  cases hm : w.state.attachTie parameter formula with
  | error error => exact hw
  | ok p => exact h.tie hw hm

theorem keeps_bound (h : e.Keeps P) (b : Bound) : Act.Keeps P (Act.bound b) := by
  refine keeps_of_state fun w hw => ?_
  cases hm : w.state.attachBound b with
  | error error => exact hw
  | ok m => exact h.bound hw hm

theorem keeps_applyTies (h : e.Keeps P) : Act.Keeps P Act.applyTies := by
  refine keeps_of_state fun w hw => ?_
  have hm := w.state.runsOver_schedule.holds h.parameter hw
  cases happly : w.state.applyTies with
  | mk m error? =>
    rw [happly] at hm
    cases error? with
    | none => exact hm
    | some error => exact hm

theorem keeps_tieAll (h : e.Keeps P) (formula : Text) (parameters : List Text) :
    Act.Keeps P (Reader.tieAll formula parameters) := by
  induction parameters with
  | nil => exact Act.keeps_pure ()
  | cons parameter more ih => exact Act.keeps_bind (keeps_tie h parameter formula) fun _ => ih

theorem keeps_addTie (h : e.Keeps P) (item : Expr) : Act.Keeps P (r.addTie item) := by
  rw [Reader.addTie]
  split
  · exact keeps_tieAll h _ _
  · exact Act.keeps_throw _

theorem keeps_addTies (h : e.Keeps P) (list : Expr) : Act.Keeps P (r.addTies list) := by
  rw [Reader.addTies]
  generalize Reader.tieItems list = items
  induction items with
  | nil => exact Act.keeps_pure ()
  | cons item items ih => exact Act.keeps_bind (keeps_addTie h item) fun _ => ih

theorem keeps_addConstraint (h : e.Keeps P) (chain : Expr) (factor? : Option Expr) :
    Act.Keeps P (r.addConstraint chain factor?) := by
  have hend : ∀ (m : Model) (b : Bound), Act.Keeps P (do
      Act.note (.boundRead m.name b)
      Act.bound b : Act Model Unit) :=
    fun m b => Act.keeps_bind (Act.keeps_note _) fun _ => keeps_bound h b
  refine Act.keeps_bind Act.keeps_state fun m => Act.keeps_bind (Act.keeps_ofModel _) fun b => ?_
  cases factor? with
  | none => exact Act.keeps_bind (Act.keeps_pure b) fun b => hend m b
  | some value =>
    refine Act.keeps_bind ?_ fun factor => hend m { b with factor }
    cases r.factorValue value with
    | error error => exact Act.keeps_throw error
    | ok x => exact Act.keeps_pure x

theorem keeps_addConstraints (h : e.Keeps P) (list : Expr) :
    Act.Keeps P (r.addConstraints list) := by
  rw [Reader.addConstraints]
  generalize Clause.ofItems (list.toList [',']) = clauses
  induction clauses with
  | nil => exact Act.keeps_pure ()
  | cons clause clauses ih =>
    cases clause with
    | constraint chain factor? =>
      exact Act.keeps_bind (keeps_addConstraint h chain factor?) fun _ => ih
    | stray item =>
      exact Act.keeps_bind Act.keeps_state fun m => Act.keeps_bind (Act.keeps_note _) fun _ => ih

/-- An edit keeps what its changes keep. -/
theorem Keeps.act (h : e.Keeps P) : Act.Keeps P (e.act r) := by
  cases e with
  | setParameter name value =>
    exact keeps_single fun hm hset => h.parameter hm (Reader.setAt?_of_setParameter hset)
  | setAttribute name value => exact keeps_single fun hm hset => h.configure rfl hm hset
  | setAttributeText name s =>
    refine keeps_single fun hm hset => ?_
    obtain ⟨old, value, -, -, hset⟩ := Model.setAttributeText_eq_ok hset
    exact h.configure rfl hm hset
  | setLocal place name s => exact keeps_single fun hm hset => h.setLocal hm hset
  | addMember new => exact fun w hw => h.member rfl hw
  | tie parameter formula => exact keeps_tie h parameter formula
  | bound b => exact keeps_bound h b
  | applyTies => exact keeps_applyTies h
  | addTies list => exact keeps_addTies h list
  | addTie item => exact keeps_addTie h item
  | addConstraints list => exact keeps_addConstraints h list
  | addConstraint chain factor? => exact keeps_addConstraint h chain factor?

/-- What an edit of a member keeps holds of the member behind it. -/
theorem edit_eq (r : Reader) (e : Edit) (m : Model) (path : List Nat) :
    (m.edit r path e).1 = m ∨ ∃ member new, m.memberAt? path = some member ∧
      (∀ P : Model → Prop, e.Keeps P → P member → P new) ∧
      (m.edit r path e).1 = m.updateAt (fun _ => new) path := by
  rw [Model.edit]
  cases hmember : m.memberAt? path with
  | none => exact .inl rfl
  | some member =>
    exact .inr ⟨member, _, rfl, fun P h hP => h.act ⟨member, []⟩ hP, rfl⟩

end Edit

end Lineshape
