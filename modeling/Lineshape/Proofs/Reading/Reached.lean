import Lineshape.Proofs.Model.Names
import Lineshape.Proofs.Model.Sound
import Lineshape.Proofs.Reading.Edits

/-! # Models reached by edits

A model is reached by reading a text and then by edits of it and of its members, successful or not
(`Reader.Reached`). In such a model no function has two ties or two bounds on one name, and no tie
names its own parameter (`Reader.distinct_of_reached`). The same parameter under two names escapes
this, but among names as the function lists them there is only one for each parameter
(`Reader.onePerParameter_of_reached`). -/

namespace Lineshape
set_option autoImplicit false

namespace Model

/-- A property holds of a model and of its members at every level. -/
inductive Throughout (P : Model → Prop) : Model → Prop
  | curve {c : Curve} : P (curve c) → Throughout P (curve c)
  | composite {c : Composite} {members : List (Member Model)} : P (composite c members) →
    (∀ mem ∈ members, Throughout P mem.model) → Throughout P (composite c members)

theorem Throughout.own {P : Model → Prop} {m : Model} (h : m.Throughout P) : P m := by
  cases h with
  | curve h => exact h
  | composite h _ => exact h

mutual
/-- Whether a model passes a test at every level. -/
def all (p : Model → Bool) : Model → Bool
  | curve c => p (curve c)
  | composite c members => p (composite c members) && allMembers p members
/-- Whether members pass a test at every level. -/
def allMembers (p : Model → Bool) : List (Member Model) → Bool
  | [] => true
  | ⟨_, m⟩ :: more => all p m && allMembers p more
end

theorem allMembers_eq_true {p : Model → Bool} {members : List (Member Model)} :
    allMembers p members = true ↔ ∀ mem ∈ members, mem.model.all p = true := by
  induction members with
  | nil => simp [allMembers]
  | cons mem more ih =>
    rw [allMembers, Bool.and_eq_true, ih, List.forall_mem_cons]

theorem all_eq_true {P : Model → Prop} [DecidablePred P] {m : Model} :
    m.all (fun m => P m) = true ↔ m.Throughout P := by
  induction m with
  | curve c =>
    rw [all, decide_eq_true_eq]
    exact ⟨.curve, Throughout.own⟩
  | composite c members ih =>
    rw [all, Bool.and_eq_true, decide_eq_true_eq, allMembers_eq_true]
    constructor
    · rintro ⟨hown, hm⟩
      exact .composite hown fun mem hmem => (ih mem hmem).1 (hm mem hmem)
    · intro h
      cases h with
      | composite hown hm => exact ⟨hown, fun mem hmem => (ih mem hmem).2 (hm mem hmem)⟩

instance {P : Model → Prop} [DecidablePred P] (m : Model) : Decidable (m.Throughout P) :=
  decidable_of_iff _ all_eq_true

theorem Throughout.memberAt? {P : Model → Prop} {m owner : Model} {path : List Nat}
    (h : m.Throughout P) (howner : m.memberAt? path = some owner) : owner.Throughout P := by
  induction path generalizing m with
  | nil =>
    cases howner
    exact h
  | cons i path ih =>
    obtain ⟨mem, hmem, hbelow⟩ := Option.bind_eq_some_iff.1 howner
    cases h with
    | curve => cases hmem
    | composite _ hm => exact ih (hm mem (List.mem_of_getElem? hmem)) hbelow

theorem Throughout.set {P : Model → Prop} {c : Composite} {members : List (Member Model)} {i : Nat}
    {new : Member Model} (hown : P (.composite c (members.set i new)))
    (hm : ∀ mem ∈ members, mem.model.Throughout P) (hnew : new.model.Throughout P) :
    (Model.composite c (members.set i new)).Throughout P := by
  refine .composite hown fun mem hmem => ?_
  rcases List.mem_or_eq_of_mem_set hmem with hmem | rfl
  · exact hm mem hmem
  · exact hnew

theorem updateAt_member {c : Composite} {members : List (Member Model)} {i : Nat}
    {mem : Member Model} (f : Model → Model) (path : List Nat) (h : members[i]? = some mem) :
    (composite c members).updateAt f (i :: path) =
      composite c (members.set i { mem with model := mem.model.updateAt f path }) := by
  rw [updateAt, List.modify_eq_set_getElem?, h]
  rfl

/-- Another member at an address changes a composite only below. -/
theorem Throughout.updateAt {P : Model → Prop} {m member new : Model} {path : List Nat}
    (hown : ∀ {c members members'}, P (.composite c members) → P (.composite c members'))
    (h : m.Throughout P) (hmember : m.memberAt? path = some member) (hnew : new.Throughout P) :
    (m.updateAt (fun _ => new) path).Throughout P := by
  induction path generalizing m with
  | nil =>
    cases m with
    | curve | composite => exact hnew
  | cons i path ih =>
    obtain ⟨mem, hmem, hbelow⟩ := Option.bind_eq_some_iff.1 hmember
    cases h with
    | curve => cases hmem
    | @composite c members hc hm =>
      change members[i]? = some mem at hmem
      rw [updateAt_member _ _ hmem]
      exact .set (hown hc) hm (ih (hm mem (List.mem_of_getElem? hmem)) hbelow)

theorem Throughout.withTies {P : Model → Prop} {m : Model} {ties : List Tie} (h : m.Throughout P)
    (hown : P (m.withTies ties)) : (m.withTies ties).Throughout P := by
  cases h with
  | curve _ => exact .curve hown
  | composite _ hm => exact .composite hown hm

theorem Throughout.withBounds {P : Model → Prop} {m : Model} {bounds : List Bound}
    (h : m.Throughout P) (hown : P (m.withBounds bounds)) : (m.withBounds bounds).Throughout P := by
  cases h with
  | curve _ => exact .curve hown
  | composite _ hm => exact .composite hown hm

/-! ## Properties that changes keep -/

/-- The second model has the parameters of the first. -/
def Offers (m m' : Model) : Prop := ∀ name, m.hasParameter name = true → m'.hasParameter name = true

theorem offers_addMember (m new : Model) : m.Offers (m.addMember new) := by
  cases m with
  | curve c => exact fun _ hhas => hhas
  | composite c members => exact fun _ hhas => hasParameter_append hhas

theorem offers_setLocal {m m' : Model} {i : Nat} {name s : Text} (h : m.setLocal i name s = .ok m') :
    m.Offers m' := by
  cases m with
  | curve c => cases h
  | composite c members =>
    obtain ⟨mem, old, value, hmem, -, -, rfl⟩ := setLocal_eq_ok h
    intro name hhas
    rwa [hasParameter_set_locals hmem]

theorem offers_setAt? {m m' : Model} {value : Float} {path : List Nat} {name : Text}
    (h : m.setAt? value path name = some m') : m.Offers m' := by
  intro other hhas
  rwa [hasParameter_setAt? h]

/-- A property of a model itself that is kept by each change of it, and by changes of the members of a
composite that take no parameter away. -/
structure KeptByChanges (P : Model → Prop) : Prop where
  parameter : ∀ {c : Curve} {name value}, P (curve c) →
    P (curve { c with parameters := Named.set name value c.parameters })
  tie : ∀ {m m' parameter formula tie}, P m → m.attachTie parameter formula = .ok (m', tie) → P m'
  bound : ∀ {m m' b}, P m → m.attachBound b = .ok m' → P m'
  configure : ∀ {c c' : Curve} {name value}, P (curve c) → c.setAttribute name value = .ok c' →
    P (curve c')
  composite : ∀ {c : Composite} {attributes members members'}, P (composite c members) →
    (composite c members).Offers (composite { c with attributes } members') →
    P (composite { c with attributes } members')

namespace KeptByChanges

variable {P : Model → Prop} {m m' : Model} {name : Text}

theorem setAt? (hP : KeptByChanges P) {value : Float} {path : List Nat} (h : m.Throughout P)
    (hset : m.setAt? value path name = some m') : m'.Throughout P := by
  induction m generalizing path name m' with
  | curve c =>
    obtain ⟨-, -, rfl⟩ := setAt?_curve_eq_some hset
    exact .curve (hP.parameter h.own)
  | composite c members ih =>
    have hoffers := offers_setAt? hset
    obtain ⟨i, p, n, mem, new, -, hmem, hnew, rfl⟩ := setAt?_composite_eq_some hset
    cases h with
    | composite hc hm =>
      have hin := List.mem_of_getElem? hmem
      exact .set (hP.composite hc hoffers) hm (ih mem hin (hm mem hin) hnew)

theorem attachTie (hP : KeptByChanges P) {parameter formula : Text} {tie : Tie}
    (h : m.Throughout P) (hattach : m.attachTie parameter formula = .ok (m', tie)) :
    m'.Throughout P := by
  have hown := hP.tie h.own hattach
  obtain ⟨-, rfl⟩ := attachTie_eq_ok.1 hattach
  exact h.withTies hown

theorem attachBound (hP : KeptByChanges P) {b : Bound} (h : m.Throughout P)
    (hattach : m.attachBound b = .ok m') : m'.Throughout P := by
  have hown := hP.bound h.own hattach
  obtain ⟨-, rfl⟩ := attachBound_eq_ok.1 hattach
  exact h.withBounds hown

theorem setAttribute (hP : KeptByChanges P) {value : Attribute} (h : m.Throughout P)
    (hset : m.setAttribute name value = .ok m') : m'.Throughout P := by
  cases h with
  | curve hc =>
    obtain ⟨c', hc', rfl⟩ := Result.map_eq_ok.1 hset
    exact .curve (hP.configure hc hc')
  | composite hc hm =>
    obtain ⟨attributes, -, hset⟩ := Result.bind_eq_ok.1 hset
    cases hset
    exact .composite (hP.composite hc fun _ hhas => hhas) hm

theorem setLocal (hP : KeptByChanges P) {i : Nat} {s : Text} (h : m.Throughout P)
    (hset : m.setLocal i name s = .ok m') : m'.Throughout P := by
  cases h with
  | curve => cases hset
  | composite hc hm =>
    have hoffers := offers_setLocal hset
    obtain ⟨mem, old, value, hmem, -, -, rfl⟩ := setLocal_eq_ok hset
    exact .set (hP.composite hc hoffers) hm (hm mem (List.mem_of_getElem? hmem))

theorem addMember (hP : KeptByChanges P) {new : Model} (h : m.Throughout P)
    (hnew : new.Throughout P) : (m.addMember new).Throughout P := by
  cases h with
  | curve hc => exact .curve hc
  | composite hc hm =>
    refine .composite (hP.composite hc (offers_addMember _ new)) fun mem hmem => ?_
    rcases List.mem_append.1 hmem with hmem | hmem
    · exact hm mem hmem
    · rw [List.mem_singleton.1 hmem]
      exact hnew

/-- An edit keeps such a property at every level. -/
theorem keeps (hP : KeptByChanges P) {e : Edit}
    (h : ∀ new, e.member? = some new → new.Throughout P) : e.Keeps (Throughout P) where
  parameter := hP.setAt?
  tie := hP.attachTie
  bound := hP.attachBound
  setLocal := hP.setLocal
  configure _ := hP.setAttribute
  member hnew hm := hP.addMember hm (h _ hnew)

end KeptByChanges

/-! ## One tie and one bound for each name -/

/-- No two ties and no two bounds of the model itself stand on one name, and no tie names its own
parameter. -/
structure Distinct (m : Model) : Prop where
  ties : (m.ties.map (·.parameter)).Nodup
  bounds : (m.bounds.map (·.parameter)).Nodup
  free : ∀ tie ∈ m.ties, tie.parameter ∉ tie.formula.variableNames

theorem Distinct.congr {m m' : Model} (h : m.Distinct) (hties : m'.ties.Sublist m.ties)
    (hbounds : m'.bounds.Sublist m.bounds) : m'.Distinct where
  ties := h.ties.sublist (hties.map _)
  bounds := h.bounds.sublist (hbounds.map _)
  free tie htie := h.free tie (hties.subset htie)

theorem Attached.distinct {m : Model} (h : m.Attached) : m.Distinct where
  ties := h.distinctTies
  bounds := h.distinctBounds
  free tie htie := (h.ties tie htie).2.free

theorem distinct_of_sound {m : Model} (h : m.Sound) : m.Throughout Distinct := by
  induction h with
  | curve _ ha => exact .curve ha.distinct
  | composite _ _ _ ha ih => exact .composite ha.distinct ih

theorem Distinct.attachTie {m m' : Model} {parameter formula : Text} {tie : Tie} (h : m.Distinct)
    (hattach : m.attachTie parameter formula = .ok (m', tie)) : m'.Distinct := by
  obtain ⟨hcreate, rfl⟩ := attachTie_eq_ok.1 hattach
  obtain ⟨hparameter, -, hnames⟩ := Tie.variableNames_of_create hcreate
  refine ⟨?_, ?_, ?_⟩
  · rw [ties_withTies, Tie.put_eq]
    exact nodup_putBy h.ties
  · rw [bounds_withTies]
    exact h.bounds
  · intro other hother
    rw [ties_withTies, Tie.put_eq] at hother
    rcases mem_putBy hother with rfl | hother
    · exact fun hmem => (hnames _ hmem).1 hparameter
    · exact h.free other hother

theorem Distinct.attachBound {m m' : Model} {b : Bound} (h : m.Distinct)
    (hattach : m.attachBound b = .ok m') : m'.Distinct := by
  obtain ⟨-, rfl⟩ := attachBound_eq_ok.1 hattach
  refine ⟨?_, ?_, ?_⟩
  · rw [ties_withBounds]
    exact h.ties
  · rw [bounds_withBounds, Bound.put_eq]
    exact nodup_putBy h.bounds
  · rw [ties_withBounds]
    exact h.free

theorem Distinct.setAttribute {c c' : Curve} {name : Text} {value : Attribute}
    (h : (curve c).Distinct) (hset : c.setAttribute name value = .ok c') : (curve c').Distinct := by
  obtain ⟨attributes, -, hchanged⟩ := Result.bind_eq_ok.1 hset
  rcases Curve.attributeChanged_eq_ok hchanged with rfl | ⟨names, formula?, rfl⟩
  · exact h.congr (List.Sublist.refl _) (List.Sublist.refl _)
  · exact h.congr List.filter_sublist List.filter_sublist

theorem Distinct.keptByChanges : KeptByChanges Distinct where
  parameter h := h.congr (List.Sublist.refl _) (List.Sublist.refl _)
  tie := Distinct.attachTie
  bound := Distinct.attachBound
  configure := Distinct.setAttribute
  composite h _ := h.congr (List.Sublist.refl _) (List.Sublist.refl _)

end Model

namespace Reader

/-- The models that are read, and what becomes of them by edits. A member that is added is such a
model too. -/
inductive Reached (r : Reader) : Model → Prop
  | read {s : Text} {m : Model} : r.read s = .ok m → Reached r m
  | edit {m : Model} (path : List Nat) (e : Edit) : Reached r m →
    (∀ new, e.member? = some new → Reached r new) → Reached r (m.edit r path e).1

variable {r : Reader} {m : Model}

/-- What holds at every level of the models that are read, is kept by changes and does not depend on
members, holds at every level of the models that are reached. -/
theorem throughout_of_reached {P : Model → Prop} (hP : Model.KeptByChanges P)
    (hown : ∀ {c members members'}, P (.composite c members) → P (.composite c members'))
    (hread : ∀ {s m}, r.read s = .ok m → m.Throughout P) (h : r.Reached m) : m.Throughout P := by
  induction h with
  | read h => exact hread h
  | @edit m path e hm hnew ih ihnew =>
    rcases Edit.edit_eq r e m path with heq | ⟨member, new, hmember, hkeeps, heq⟩
    · rw [heq]
      exact ih
    · rw [heq]
      exact ih.updateAt hown hmember (hkeeps _ (hP.keeps ihnew) (ih.memberAt? hmember))

theorem distinct_of_reached (hr : r.types = .builtin) (h : r.Reached m) :
    m.Throughout Model.Distinct :=
  throughout_of_reached Model.Distinct.keptByChanges
    (fun h => h.congr (List.Sublist.refl _) (List.Sublist.refl _))
    (fun hread => Model.distinct_of_sound (sound_of_read hr hread)) h

/-- In a model that is reached every function has at most one tie and one bound on each parameter,
and no tie reads its own parameter, as far as parameters are named as the function lists them. -/
theorem onePerParameter_of_reached (hr : r.types = .builtin) (h : r.Reached m) {path : List Nat}
    {owner : Model} (howner : m.memberAt? path = some owner) :
    owner.Distinct ∧ owner.ties.Pairwise (fun s t => owner.Apart s.parameter t.parameter) ∧
      owner.bounds.Pairwise (fun a b => owner.Apart a.parameter b.parameter) ∧
      ∀ tie ∈ owner.ties, ∀ name ∈ tie.formula.variableNames, owner.Apart tie.parameter name := by
  have hdistinct := ((distinct_of_reached hr h).memberAt? howner).own
  refine ⟨hdistinct, ?_, ?_, ?_⟩
  · exact (List.pairwise_map.1 hdistinct.ties).imp Model.apart_of_ne
  · exact (List.pairwise_map.1 hdistinct.bounds).imp Model.apart_of_ne
  · intro tie htie name hname
    refine Model.apart_of_ne ?_
    rintro rfl
    exact hdistinct.free tie htie hname

/-- Tying a parameter again in a composite within a composite leaves one tie on it. -/
theorem onePerParameter_of_reached_tied_again :
    let s := "(name=Polynomial,n=1;name=FlatBackground;ties=(f0.A0=f1.A0));".toList ++
      "name=FlatBackground;constraints=(f0.f0.A1<5,f0.f0.A1<6)".toList
    let changes := [([0], Edit.tie "f0.A0".toList "f0.A1".toList),
      ([0], Edit.tie "f1.A0".toList "2".toList)]
    ∃ m owner, read {} s = .ok m ∧ Reached {} (m.edits {} changes) ∧
      (m.edits {} changes).memberAt? [0] = some owner ∧
      owner.ties.map Tie.text = ["f0.A0=f0.A1".toList, "f1.A0=2".toList] ∧ owner.Distinct ∧
      owner.ties.Pairwise (fun s t => owner.Apart s.parameter t.parameter) := by
  intro s changes
  have hcheck : (read {} s).toOption.any (fun m => match (m.edits {} changes).memberAt? [0] with
      | some owner => owner.ties.map Tie.text = ["f0.A0=f0.A1".toList, "f1.A0=2".toList]
      | none => false) = true := by
    decide +kernel
  obtain ⟨m, hread, hm⟩ := Result.exists_of_any hcheck
  have hreached : Reached {} (m.edits {} changes) := .edit [0] _ (.edit [0] _ (.read hread) nofun) nofun
  split at hm
  · rename_i owner howner
    obtain ⟨hdistinct, hties, -⟩ := onePerParameter_of_reached rfl hreached howner
    exact ⟨m, owner, hread, hreached, howner, of_decide_eq_true hm, hdistinct, hties⟩
  · cases hm

/-- Under a second name a parameter can be tied and bounded once more, and tied to itself. -/
theorem exists_reached_two_names : ∃ m, Reached {} m ∧
    m.ties.map (m.index? ·.parameter) = [some 0, some 0] ∧
    m.bounds.map (m.index? ·.parameter) = [some 0, some 0] ∧
    ∃ tie ∈ m.ties, ∃ name ∈ tie.formula.variableNames, m.index? name = m.index? tie.parameter := by
  have hcheck : (read {} ("name=Polynomial,n=1;name=Polynomial,n=1;".toList ++
      "ties=(f0.A0=f00.A0,f00.A0=f1.A0);constraints=(f0.A0<5,f00.A0<6)".toList)).toOption.any
      (fun m => m.ties.map (m.index? ·.parameter) = [some 0, some 0] ∧
        m.bounds.map (m.index? ·.parameter) = [some 0, some 0] ∧
        ∃ tie ∈ m.ties, ∃ name ∈ tie.formula.variableNames,
          m.index? name = m.index? tie.parameter) = true := by
    decide +kernel
  obtain ⟨m, hread, hm⟩ := Result.exists_of_any hcheck
  exact ⟨m, .read hread, of_decide_eq_true hm⟩

end Reader
end Lineshape
