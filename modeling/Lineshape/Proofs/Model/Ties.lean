import Lineshape.Proofs.Formula.Leaves
import Lineshape.Proofs.Model.Address
import Lineshape.Proofs.Result

/-! # Applying ties

All ties of a model and of its members stand in one list, in the order in which they are applied
(`Model.schedule`), and applying them is a run over this list (`Model.runsOver_schedule`). After the
run a tie holds if neither it nor a later tie sets a parameter that its formula reads, and no later
tie sets its own parameter (`Model.holdsAt_of_run`). If all ties hold, applying them changes nothing
(`Model.applyTies_of_holdsAt`). -/

namespace Lineshape.Model
set_option autoImplicit false

/-! ## The order of ties -/

mutual
/-- The ties of the members and then those of the model, each with the path to its owner. -/
def schedule : Model → List (List Nat × Tie)
  | curve c => c.ties.map fun tie => ([], tie)
  | composite c members => scheduleFrom 0 members ++ c.ties.map fun tie => ([], tie)
/-- The ties of members that are numbered from `i` on. -/
def scheduleFrom (i : Nat) : List (Member Model) → List (List Nat × Tie)
  | [] => []
  | ⟨_, m⟩ :: more => m.schedule.map (fun e => (i :: e.1, e.2)) ++ scheduleFrom (i + 1) more
end

theorem mem_scheduleFrom {i : Nat} {members : List (Member Model)} {path : List Nat} {tie : Tie} :
    (path, tie) ∈ scheduleFrom i members ↔ ∃ j mem p, members[j]? = some mem ∧
      (p, tie) ∈ mem.model.schedule ∧ path = (i + j) :: p := by
  induction members generalizing i with
  | nil => simp [scheduleFrom]
  | cons first members ih =>
    obtain ⟨locals, m⟩ := first
    rw [scheduleFrom, List.mem_append, List.mem_map, ih]
    constructor
    · rintro (⟨⟨p, t⟩, hm, he⟩ | ⟨j, mem, p, hj, hm, he⟩)
      · cases he
        exact ⟨0, ⟨locals, m⟩, p, rfl, hm, rfl⟩
      · refine ⟨j + 1, mem, p, hj, hm, he.trans ?_⟩
        rw [Nat.add_assoc, Nat.add_comm 1 j]
    · rintro ⟨j, mem, p, hj, hm, he⟩
      cases j with
      | zero =>
        cases hj
        exact .inl ⟨(p, tie), hm, congrArg (·, tie) he.symm⟩
      | succ j =>
        refine .inr ⟨j, mem, p, hj, hm, he.trans ?_⟩
        rw [Nat.add_assoc, Nat.add_comm 1 j]

/-- The list holds exactly the ties at every level. -/
theorem mem_schedule {path : List Nat} {tie : Tie} {m : Model} :
    (path, tie) ∈ m.schedule ↔ ∃ owner, m.memberAt? path = some owner ∧ tie ∈ owner.ties := by
  induction m generalizing path with
  | curve c =>
    rw [schedule, List.mem_map]
    constructor
    · rintro ⟨t, ht, he⟩
      cases he
      exact ⟨curve c, rfl, ht⟩
    · rintro ⟨owner, ho, ht⟩
      cases path with
      | nil =>
        cases ho
        exact ⟨tie, ht, rfl⟩
      | cons i path => cases ho
  | composite c members ih =>
    rw [schedule, List.mem_append, mem_scheduleFrom, List.mem_map]
    constructor
    · rintro (⟨j, mem, p, hj, hm, he⟩ | ⟨t, ht, he⟩)
      · obtain ⟨owner, ho, ht⟩ := (ih mem (List.mem_of_getElem? hj)).1 hm
        rw [Nat.zero_add] at he
        refine ⟨owner, ?_, ht⟩
        rw [he, memberAt?]
        exact Option.bind_eq_some_iff.2 ⟨mem, hj, ho⟩
      · cases he
        exact ⟨composite c members, rfl, ht⟩
    · rintro ⟨owner, ho, ht⟩
      cases path with
      | nil =>
        cases ho
        exact .inr ⟨tie, ht, rfl⟩
      | cons i path =>
        obtain ⟨mem, hi, ho⟩ := Option.bind_eq_some_iff.1 ho
        refine .inl ⟨i, mem, path, hi, (ih mem (List.mem_of_getElem? hi)).2 ⟨owner, ho, ht⟩, ?_⟩
        rw [Nat.zero_add]

/-! ## Running over ties -/

/-- The value of a tie of the member at a path. -/
def tieValue (path : List Nat) (tie : Tie) (m : Model) : Except ModelError Float :=
  tie.value (m.valueAt? path ·)

/-- The model with one tie applied, if it has a value. -/
def step (m : Model) (e : List Nat × Tie) : Option Model :=
  match m.tieValue e.1 e.2 with
  | .ok value => m.setAt? value e.1 e.2.parameter
  | .error _ => none

/-- The model with ties applied in order. -/
def run (m : Model) : List (List Nat × Tie) → Option Model
  | [] => some m
  | e :: more => (m.step e).bind (run · more)

theorem run_append (m : Model) (front back : List (List Nat × Tie)) :
    m.run (front ++ back) = (m.run front).bind (run · back) := by
  induction front generalizing m with
  | nil => rfl
  | cons e front ih =>
    rw [List.cons_append, run, run, Option.bind_assoc]
    exact congrArg (m.step e).bind (funext fun m' => ih m')

/-- The model after applying all ties, if none of them failed. -/
def completed : Model × Option ModelError → Option Model
  | (m, none) => some m
  | (_, some _) => none

theorem completed_eq_some {p : Model × Option ModelError} {m : Model} :
    completed p = some m ↔ p = (m, none) := by
  obtain ⟨m', error?⟩ := p
  cases error? with
  | none => simp [completed]
  | some error => simp [completed]

/-- A run over ties that comes to its end, or stops at a tie that fails. -/
inductive RunsOver : Model → List (List Nat × Tie) → Model × Option ModelError → Prop
  | nil {m : Model} : RunsOver m [] (m, none)
  | stop {m : Model} {e : List Nat × Tie} {es : List (List Nat × Tie)} {error : ModelError} :
    m.step e = none → RunsOver m (e :: es) (m, some error)
  | cons {m m' : Model} {e : List Nat × Tie} {es : List (List Nat × Tie)}
    {p : Model × Option ModelError} : m.step e = some m' → RunsOver m' es p → RunsOver m (e :: es) p

theorem RunsOver.append {m m' : Model} {front back : List (List Nat × Tie)}
    {p : Model × Option ModelError} (h : m.RunsOver front (m', none)) (hback : m'.RunsOver back p) :
    m.RunsOver (front ++ back) p := by
  generalize hq : (m', none) = q at h
  induction h with
  | nil =>
    cases hq
    exact hback
  | stop => cases hq
  | cons hstep _ ih => exact .cons hstep (ih hq)

theorem RunsOver.append_of_stopped {m m' : Model} {front : List (List Nat × Tie)}
    {error : ModelError} (h : m.RunsOver front (m', some error)) (back : List (List Nat × Tie)) :
    m.RunsOver (front ++ back) (m', some error) := by
  generalize hq : (m', some error) = q at h ⊢
  induction h with
  | nil => cases hq
  | stop hstep => exact .stop hstep
  | cons hstep _ ih => exact .cons hstep (ih hq)

theorem RunsOver.run_eq {m : Model} {es : List (List Nat × Tie)} {p : Model × Option ModelError}
    (h : m.RunsOver es p) : m.run es = completed p := by
  induction h with
  | nil => rfl
  | stop hstep =>
    rw [run, hstep]
    rfl
  | cons hstep _ ih =>
    rw [run, hstep]
    exact ih

/-- A run that stops has applied the ties in front of the one that fails. -/
theorem RunsOver.stopped {m m' : Model} {es : List (List Nat × Tie)} {error : ModelError}
    (h : m.RunsOver es (m', some error)) :
    ∃ done e rest, es = done ++ e :: rest ∧ m.run done = some m' ∧ m'.step e = none := by
  generalize hq : (m', some error) = q at h
  induction h with
  | nil => cases hq
  | stop hstep =>
    cases hq
    exact ⟨[], _, _, rfl, rfl, hstep⟩
  | cons hstep _ ih =>
    obtain ⟨done, e, rest, rfl, hrun, hfail⟩ := ih hq
    refine ⟨_ :: done, e, rest, rfl, ?_, hfail⟩
    rw [run, hstep]
    exact hrun

theorem runsOver_own (m : Model) (ties : List Tie) :
    m.RunsOver (ties.map fun tie => ([], tie)) (m.applyInOrder ties) := by
  induction ties generalizing m with
  | nil => exact .nil
  | cons tie ties ih =>
    have hstep : m.step ([], tie) = match tie.value (m.parameter? ·) with
        | .ok value => m.set? tie.parameter value
        | .error _ => none := rfl
    rw [List.map_cons, applyInOrder]
    cases htie : tie.value (m.parameter? ·) with
    | error error =>
      rw [htie] at hstep
      exact .stop hstep
    | ok value =>
      rw [htie] at hstep
      dsimp only [setParameter] at hstep ⊢
      cases hset : m.set? tie.parameter value with
      | none => exact .stop (hstep.trans hset)
      | some m' => exact .cons (hstep.trans hset) (ih m')

/-! ## Ties of a member in the composite -/

variable {c : Composite} {members : List (Member Model)} {i : Nat} {mem : Member Model}

theorem tieValue_member (hmem : members[i]? = some mem) (path : List Nat) (tie : Tie) :
    (composite c members).tieValue (i :: path) tie = mem.model.tieValue path tie := by
  have hlookup : ∀ name, (composite c members).valueAt? (i :: path) name =
      mem.model.valueAt? path name := by
    intro name
    rw [valueAt?_composite]
    change members[i]?.bind _ = _
    rw [hmem, Option.bind_some]
  rw [tieValue, tieValue, funext hlookup]

theorem step_member (hmem : members[i]? = some mem) (e : List Nat × Tie) :
    (composite c members).step (i :: e.1, e.2) =
      (mem.model.step e).map fun m => composite c (members.set i { mem with model := m }) := by
  rw [step, step, tieValue_member hmem]
  cases mem.model.tieValue e.1 e.2 with
  | error error => rfl
  | ok value =>
    change members[i]?.bind _ = _
    rw [hmem, Option.bind_some]

theorem RunsOver.member (hmem : members[i]? = some mem) {es : List (List Nat × Tie)}
    {p : Model × Option ModelError} (h : mem.model.RunsOver es p) :
    (composite c members).RunsOver (es.map fun e => (i :: e.1, e.2))
      (composite c (members.set i { mem with model := p.1 }), p.2) := by
  have hself : members.set i mem = members := by
    obtain ⟨hi, rfl⟩ := List.getElem?_eq_some_iff.1 hmem
    rw [List.set_getElem_self]
  generalize hm : mem.model = m at h
  induction h generalizing members mem with
  | nil =>
    subst hm
    exact hself.symm ▸ .nil
  | @stop m e es error hstep =>
    subst hm
    have hfail : (composite c members).step (i :: e.1, e.2) = none := by
      rw [step_member hmem, hstep, Option.map_none]
    exact hself.symm ▸ .stop hfail
  | @cons m m' e es p hstep _ ih =>
    subst hm
    have hnext : (composite c members).step (i :: e.1, e.2) =
        some (composite c (members.set i { mem with model := m' })) := by
      rw [step_member hmem, hstep, Option.map_some]
    have hget : (members.set i { mem with model := m' })[i]? = some { mem with model := m' } :=
      List.getElem?_set_self (List.getElem?_eq_some_iff.1 hmem).1
    have hrest := ih hget (List.set_set ..) rfl
    rw [List.set_set] at hrest
    exact .cons hnext hrest

/-- Applying the ties of members one after the other is a run in the composite. -/
theorem runsOver_scheduleFrom (front back : List (Member Model))
    (h : ∀ mem ∈ back, mem.model.RunsOver mem.model.schedule mem.model.applyTies) :
    (composite c (front ++ back)).RunsOver (scheduleFrom front.length back)
      (composite c (front ++ (applyTiesOf back).1), (applyTiesOf back).2) := by
  induction back generalizing front with
  | nil => exact .nil
  | cons first back ih =>
    obtain ⟨locals, m⟩ := first
    have hmem : (front ++ ⟨locals, m⟩ :: back)[front.length]? = some ⟨locals, m⟩ := by
      rw [List.getElem?_append_right (Nat.le_refl _), Nat.sub_self, List.getElem?_cons_zero]
    have hfirst := (h ⟨locals, m⟩ List.mem_cons_self).member (c := c) hmem
    rw [List.set_append_right _ _ (Nat.le_refl _), Nat.sub_self, List.set_cons_zero] at hfirst
    rw [scheduleFrom, applyTiesOf]
    cases happly : m.applyTies with
    | mk m' error? =>
      rw [happly] at hfirst
      cases error? with
      | some error => exact hfirst.append_of_stopped _
      | none =>
        have hback := ih (front ++ [⟨locals, m'⟩]) fun mem hm => h mem (List.mem_cons_of_mem _ hm)
        rw [List.length_append, List.length_singleton, List.append_assoc, List.append_assoc] at hback
        exact hfirst.append hback

/-- Applying all ties is a run over all ties in order, also if it stops at one that fails. -/
theorem runsOver_schedule (m : Model) : m.RunsOver m.schedule m.applyTies := by
  induction m with
  | curve c => exact runsOver_own (curve c) c.ties
  | composite c members ih =>
    have hmembers := runsOver_scheduleFrom (c := c) [] members ih
    rw [schedule, applyTies]
    cases happly : applyTiesOf members with
    | mk members' error? =>
      rw [happly] at hmembers
      cases error? with
      | some error => exact hmembers.append_of_stopped _
      | none => exact hmembers.append (runsOver_own (composite c members') c.ties)

theorem run_schedule (m : Model) : m.run m.schedule = completed m.applyTies :=
  m.runsOver_schedule.run_eq

/-! ## Ties that hold -/

/-- The parameter of a tie has the value of its formula. -/
def HoldsAt (m : Model) (path : List Nat) (tie : Tie) : Prop :=
  ∃ value, m.tieValue path tie = .ok value ∧ m.valueAt? path tie.parameter = some value

/-- The place of the parameter that a tie sets. -/
def target? (m : Model) (e : List Nat × Tie) : Option Nat := m.place? e.1 e.2.parameter

/-- A tie does not set a parameter that the formula of a tie reads. -/
def Spares (m : Model) (e : List Nat × Tie) (path : List Nat) (tie : Tie) : Prop :=
  ∀ name ∈ tie.formula.leafNames, m.place? path name ≠ m.target? e

/-- Neither a tie nor one of the later ones sets what its formula reads, and none of the later ones
sets its parameter. -/
def Undisturbed (m : Model) (path : List Nat) (tie : Tie) (later : List (List Nat × Tie)) : Prop :=
  (∀ e ∈ (path, tie) :: later, m.Spares e path tie) ∧
    ∀ e ∈ later, m.target? e ≠ m.target? (path, tie)

instance (m : Model) (path : List Nat) (tie : Tie) : Decidable (m.HoldsAt path tie) :=
  match h : m.tieValue path tie with
  | .ok value => decidable_of_iff (m.valueAt? path tie.parameter = some value) (by
      constructor
      · intro hget
        exact ⟨value, h, hget⟩
      · rintro ⟨value', hvalue, hget⟩
        rw [h] at hvalue
        cases hvalue
        exact hget)
  | .error _ => .isFalse (by
      rintro ⟨value, hvalue, -⟩
      rw [h] at hvalue
      cases hvalue)

instance (m : Model) (e : List Nat × Tie) (path : List Nat) (tie : Tie) :
    Decidable (m.Spares e path tie) := by
  unfold Spares
  infer_instance

instance (m : Model) (path : List Nat) (tie : Tie) (later : List (List Nat × Tie)) :
    Decidable (m.Undisturbed path tie later) := by
  unfold Undisturbed
  infer_instance

variable {m m' : Model} {path : List Nat} {tie : Tie} {e : List Nat × Tie}

theorem exists_setAt?_of_step (h : m.step e = some m') :
    ∃ value, m.tieValue e.1 e.2 = .ok value ∧ m.setAt? value e.1 e.2.parameter = some m' := by
  rw [step] at h
  split at h
  · rename_i value hvalue
    exact ⟨value, hvalue, h⟩
  · cases h

/-- Applying a tie gives the value of its formula to its parameter and changes no other. -/
theorem valueAt?_step (h : m.step e = some m') :
    ∃ value, m.tieValue e.1 e.2 = .ok value ∧ ∀ path name, m'.valueAt? path name =
      if m.place? path name = m.target? e then some value else m.valueAt? path name := by
  obtain ⟨value, hvalue, hset⟩ := exists_setAt?_of_step h
  exact ⟨value, hvalue, valueAt?_setAt? hset⟩

theorem place?_step (h : m.step e = some m') (path : List Nat) (name : Text) :
    m'.place? path name = m.place? path name := by
  obtain ⟨value, -, hset⟩ := exists_setAt?_of_step h
  exact place?_setAt? hset path name

theorem place?_run {es : List (List Nat × Tie)} (h : m.run es = some m') (path : List Nat)
    (name : Text) : m'.place? path name = m.place? path name := by
  induction es generalizing m with
  | nil =>
    cases h
    rfl
  | cons e es ih =>
    obtain ⟨v, hstep, hrun⟩ := Option.bind_eq_some_iff.1 h
    rw [ih hrun, place?_step hstep]

theorem tieValue_congr
    (h : ∀ name ∈ tie.formula.leafNames, m'.valueAt? path name = m.valueAt? path name) :
    m'.tieValue path tie = m.tieValue path tie := by
  rw [tieValue, tieValue, Tie.value, Tie.value, Formula.evaluate_congr h]

/-- A tie that sets nothing its formula reads holds once it is applied. -/
theorem holdsAt_of_step (h : m.step (path, tie) = some m') (hs : m.Spares (path, tie) path tie) :
    m'.HoldsAt path tie := by
  obtain ⟨value, hvalue, hset⟩ := valueAt?_step h
  refine ⟨value, ?_, ?_⟩
  · rw [← hvalue]
    refine tieValue_congr fun name hname => ?_
    rw [hset, if_neg (hs name hname)]
  · rw [hset, if_pos (show m.place? path tie.parameter = m.target? (path, tie) from rfl)]

/-- Applying a tie that sets neither what another tie reads nor what it sets keeps that one. -/
theorem HoldsAt.step (hold : m.HoldsAt path tie) (h : m.step e = some m') (hs : m.Spares e path tie)
    (ht : m.target? e ≠ m.target? (path, tie)) : m'.HoldsAt path tie := by
  obtain ⟨value, hvalue, hget⟩ := hold
  obtain ⟨v, -, hset⟩ := valueAt?_step h
  refine ⟨value, ?_, ?_⟩
  · rw [← hvalue]
    refine tieValue_congr fun name hname => ?_
    rw [hset, if_neg (hs name hname)]
  · rw [hset, if_neg (show m.place? path tie.parameter ≠ m.target? e from Ne.symm ht), hget]

theorem HoldsAt.run {later : List (List Nat × Tie)} (hold : m.HoldsAt path tie)
    (h : m.run later = some m') (hs : ∀ e ∈ later, m.Spares e path tie)
    (ht : ∀ e ∈ later, m.target? e ≠ m.target? (path, tie)) : m'.HoldsAt path tie := by
  induction later generalizing m with
  | nil =>
    cases h
    exact hold
  | cons e later ih =>
    obtain ⟨v, hstep, hrun⟩ := Option.bind_eq_some_iff.1 h
    have hplace := place?_step hstep
    refine ih (hold.step hstep (hs e List.mem_cons_self) (ht e List.mem_cons_self)) hrun ?_ ?_
    · intro e' he'
      rw [Spares, target?]
      simp only [hplace]
      exact hs e' (List.mem_cons_of_mem e he')
    · intro e' he'
      rw [target?, target?, hplace, hplace]
      exact ht e' (List.mem_cons_of_mem e he')

/-- An undisturbed tie holds after a run. -/
theorem holdsAt_of_run {before later : List (List Nat × Tie)}
    (h : m.run (before ++ (path, tie) :: later) = some m')
    (hu : m'.Undisturbed path tie later) : m'.HoldsAt path tie := by
  rw [run_append] at h
  obtain ⟨v, hbefore, h⟩ := Option.bind_eq_some_iff.1 h
  obtain ⟨w, hstep, hlater⟩ := Option.bind_eq_some_iff.1 h
  have hw := place?_run hlater
  have hv := place?_step hstep
  simp only [Undisturbed, Spares, target?, hw] at hu
  refine (holdsAt_of_step hstep ?_).run hlater ?_ ?_
  · simpa only [Spares, target?, hv] using hu.1 _ List.mem_cons_self
  · exact fun e he => hu.1 e (List.mem_cons_of_mem _ he)
  · exact hu.2

/-- Running over ties that hold changes nothing. -/
theorem run_of_holdsAt {es : List (List Nat × Tie)} (h : ∀ e ∈ es, m.HoldsAt e.1 e.2) :
    m.run es = some m := by
  induction es with
  | nil => rfl
  | cons e es ih =>
    obtain ⟨value, hvalue, hget⟩ := h e List.mem_cons_self
    have hstep : m.step e = some m := by
      rw [Model.step, hvalue]
      exact setAt?_self hget
    rw [Model.run, hstep, Option.bind_some]
    exact ih fun e' he' => h e' (List.mem_cons_of_mem e he')

/-- Where all ties hold, applying them changes nothing. -/
theorem applyTies_of_holdsAt (h : ∀ e ∈ m.schedule, m.HoldsAt e.1 e.2) :
    m.applyTies = (m, none) :=
  completed_eq_some.1 ((run_schedule m).symm.trans (run_of_holdsAt h))

/-! ## What applying ties keeps -/

theorem schedule_setAt? {value : Float} {path : List Nat} {name : Text}
    (h : m.setAt? value path name = some m') : m'.schedule = m.schedule := by
  have hset : ∀ (k i : Nat) (members : List (Member Model)) (mem : Member Model) (new : Model),
      members[i]? = some mem → new.schedule = mem.model.schedule →
      scheduleFrom k (members.set i { mem with model := new }) = scheduleFrom k members := by
    intro k i members mem new hmem hnew
    induction members generalizing k i with
    | nil => rfl
    | cons first members ih =>
      cases i with
      | zero =>
        cases hmem
        rw [List.set_cons_zero, scheduleFrom, scheduleFrom, hnew]
      | succ i => rw [List.set_cons_succ, scheduleFrom, scheduleFrom, ih (k + 1) i hmem]
  induction m generalizing path name m' with
  | curve c =>
    obtain ⟨-, -, rfl⟩ := setAt?_curve_eq_some h
    rfl
  | composite c members ih =>
    obtain ⟨i, p, n, mem, new, -, hmem, hnew, rfl⟩ := setAt?_composite_eq_some h
    rw [schedule, schedule, hset 0 i members mem new hmem (ih mem (List.mem_of_getElem? hmem) hnew)]

theorem schedule_run {es : List (List Nat × Tie)} (h : m.run es = some m') :
    m'.schedule = m.schedule := by
  induction es generalizing m with
  | nil =>
    cases h
    rfl
  | cons e es ih =>
    obtain ⟨v, hstep, hrun⟩ := Option.bind_eq_some_iff.1 h
    obtain ⟨value, -, hset⟩ := exists_setAt?_of_step hstep
    rw [ih hrun, schedule_setAt? hset]

end Lineshape.Model
