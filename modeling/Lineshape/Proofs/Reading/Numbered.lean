import Lineshape.Proofs.Curve.Keys
import Lineshape.Proofs.Reading.Reached

/-! # Numbering of parameters

The parameters of a model are numbered in the order of its list of names, those of each member behind
those of the members before it. Looking a name up, reading its value and setting it agree on which
names there are, and setting changes the value at the number of the name and nothing else
(`Reader.numbered_of_reached`). -/

namespace Lineshape
set_option autoImplicit false

theorem Named.index?_of_getElem? {α : Type} {name : Text} {l : Named α} {k : Nat}
    (h : (names l).Nodup) (hname : (names l)[k]? = some name) : index? name l = some k := by
  induction l generalizing k with
  | nil => cases hname
  | cons p l ih =>
    obtain ⟨n, value⟩ := p
    have hnodup := List.nodup_cons.1 h
    rw [index?]
    cases k with
    | zero =>
      cases hname
      exact if_pos rfl
    | succ k =>
      have hrest : (names l)[k]? = some name := hname
      rw [if_neg, ih hnodup.2 hrest, Option.map_some]
      rintro rfl
      exact hnodup.1 (List.mem_of_getElem? hrest)

theorem Curve.nodup_attributeChanged {name : Text} {c c' : Curve}
    (hc : (Named.names c.parameters).Nodup) (h : c.attributeChanged name = .ok c') :
    (Named.names c'.parameters).Nodup := by
  have hdeclare : ∀ (names : List Text), names.Nodup →
      (Named.names (c.declare names).parameters).Nodup := by
    intro names hnames
    have heq : Named.names (c.declare names).parameters = names := by
      rw [declare, Named.names, List.map_map]
      exact List.map_id' names
    rw [heq]
    exact hnames
  have hdegree : ∀ {c'}, c.declareCoefficients = .ok c' → (Named.names c'.parameters).Nodup := by
    intro c' h
    obtain ⟨-, -, rfl⟩ := declareCoefficients_eq_ok h
    exact hdeclare _ (nodup_coefficientNames _)
  rw [attributeChanged] at h
  split at h
  · split at h
    · exact hdegree h
    · cases h
      exact hc
  · split at h
    · exact hdegree h
    · cases h
      exact hc
  · split at h
    · rcases compile_eq_ok h with ⟨-, rfl⟩ | ⟨-, formula, -, rfl⟩
      · exact hdeclare [] List.nodup_nil
      · exact hdeclare _ (nodup_formulaParameters formula)
    · cases h
      exact hc
  · cases h
    exact hc

namespace Model

/-- A curve has no two parameters of one name. -/
def DistinctNames : Model → Prop
  | curve c => (Named.names c.parameters).Nodup
  | composite .. => True

/-- A machine word is enough to number the members of a composite. -/
def Addressable (m : Model) : Prop := m.members.length ≤ Whole.wordCount

instance (m : Model) : Decidable m.Addressable := inferInstanceAs (Decidable (_ ≤ _))

/-! ## Distinct names are kept -/

theorem distinctNames_of_sound {m : Model} (h : m.Sound) : m.Throughout DistinctNames := by
  induction h with
  | curve hc _ => exact .curve hc.nodup_names
  | composite _ _ _ _ ih => exact .composite trivial ih

theorem DistinctNames.attachTie {m m' : Model} {parameter formula : Text} {tie : Tie}
    (h : m.Throughout DistinctNames) (hattach : m.attachTie parameter formula = .ok (m', tie)) :
    m'.Throughout DistinctNames := by
  obtain ⟨-, rfl⟩ := attachTie_eq_ok.1 hattach
  refine h.withTies ?_
  cases h with
  | curve hc => exact hc
  | composite _ _ => trivial

theorem DistinctNames.attachBound {m m' : Model} {b : Bound} (h : m.Throughout DistinctNames)
    (hattach : m.attachBound b = .ok m') : m'.Throughout DistinctNames := by
  obtain ⟨-, rfl⟩ := attachBound_eq_ok.1 hattach
  refine h.withBounds ?_
  cases h with
  | curve hc => exact hc
  | composite _ _ => trivial

theorem DistinctNames.setAt? {m m' : Model} {value : Float} {path : List Nat} {name : Text}
    (h : m.Throughout DistinctNames) (hset : m.setAt? value path name = some m') :
    m'.Throughout DistinctNames := by
  induction m generalizing path name m' with
  | curve c =>
    obtain ⟨-, -, rfl⟩ := setAt?_curve_eq_some hset
    have hc : (Named.names c.parameters).Nodup := h.own
    refine .curve ?_
    rw [DistinctNames, Named.names_set]
    exact hc
  | composite c members ih =>
    obtain ⟨i, p, n, mem, new, -, hmem, hnew, rfl⟩ := setAt?_composite_eq_some hset
    cases h with
    | composite _ hm =>
      have hin := List.mem_of_getElem? hmem
      exact .set trivial hm (ih mem hin (hm mem hin) hnew)

theorem DistinctNames.setAttribute {m m' : Model} {name : Text} {value : Attribute}
    (h : m.Throughout DistinctNames) (hset : m.setAttribute name value = .ok m') :
    m'.Throughout DistinctNames := by
  cases h with
  | @curve c hc =>
    obtain ⟨c', hc', rfl⟩ := Result.map_eq_ok.1 hset
    obtain ⟨attributes, -, hchanged⟩ := Result.bind_eq_ok.1 hc'
    exact .curve (Curve.nodup_attributeChanged (c := { c with attributes }) hc hchanged)
  | composite _ hm =>
    obtain ⟨attributes, -, hset⟩ := Result.bind_eq_ok.1 hset
    cases hset
    exact .composite trivial hm

theorem DistinctNames.setLocal {m m' : Model} {i : Nat} {name s : Text}
    (h : m.Throughout DistinctNames) (hset : m.setLocal i name s = .ok m') :
    m'.Throughout DistinctNames := by
  cases h with
  | curve => cases hset
  | composite _ hm =>
    obtain ⟨mem, old, value, hmem, -, -, rfl⟩ := setLocal_eq_ok hset
    exact .set trivial hm (hm mem (List.mem_of_getElem? hmem))

theorem DistinctNames.addMember {m new : Model} (h : m.Throughout DistinctNames)
    (hnew : new.Throughout DistinctNames) : (m.addMember new).Throughout DistinctNames := by
  cases h with
  | curve hc => exact .curve hc
  | composite _ hm =>
    refine .composite trivial fun mem hmem => ?_
    rcases List.mem_append.1 hmem with hmem | hmem
    · exact hm mem hmem
    · rw [List.mem_singleton.1 hmem]
      exact hnew

theorem DistinctNames.keeps {e : Edit}
    (h : ∀ new, e.member? = some new → new.Throughout DistinctNames) :
    e.Keeps (Throughout DistinctNames) where
  parameter := DistinctNames.setAt?
  tie := DistinctNames.attachTie
  bound := DistinctNames.attachBound
  setLocal := DistinctNames.setLocal
  configure _ := DistinctNames.setAttribute
  member hnew hm := DistinctNames.addMember hm (h _ hnew)

/-! ## The list of names -/

theorem length_parameterNamesFrom {members : List (Member Model)}
    (h : ∀ mem ∈ members, mem.model.parameterNames.length = mem.model.parameterCount) (i : Nat) :
    (parameterNamesFrom i members).length = parameterCountOf members := by
  induction members generalizing i with
  | nil => rfl
  | cons mem members ih =>
    obtain ⟨locals, m⟩ := mem
    rw [parameterNamesFrom, parameterCountOf, List.length_append, List.length_map,
      h _ List.mem_cons_self, ih (fun mem hmem => h mem (List.mem_cons_of_mem _ hmem))]

theorem length_parameterNames (m : Model) : m.parameterNames.length = m.parameterCount := by
  induction m with
  | curve c => exact List.length_map ..
  | composite c members ih => exact length_parameterNamesFrom ih 0

/-- A name at a place of the list comes from one member, and has its place among the names of this
member behind the names of the members before. -/
theorem exists_of_getElem?_names {members : List (Member Model)} {i k : Nat} {name : Text}
    (h : (parameterNamesFrom i members)[k]? = some name) :
    ∃ j mem inner l, members[j]? = some mem ∧ mem.model.parameterNames[l]? = some inner ∧
      name = Qualified.join (i + j) inner ∧ k = offset members j + l := by
  induction members generalizing i k with
  | nil => cases h
  | cons first members ih =>
    obtain ⟨locals, m⟩ := first
    have hcount := length_parameterNames m
    rw [parameterNamesFrom, List.getElem?_append, List.length_map] at h
    split at h
    · rw [List.getElem?_map] at h
      obtain ⟨inner, hinner, rfl⟩ := Option.map_eq_some_iff.1 h
      exact ⟨0, ⟨locals, m⟩, inner, k, rfl, hinner, rfl, (Nat.zero_add k).symm⟩
    · obtain ⟨j, mem, inner, l, hmem, hinner, rfl, hk⟩ := ih h
      refine ⟨j + 1, mem, inner, l, hmem, hinner, ?_, ?_⟩
      · rw [Nat.add_assoc, Nat.add_comm 1 j]
      · rw [offset_cons]
        change _ = m.parameterCount + _ + l
        omega

/-- Every name resolves to its place in the list. -/
theorem index?_of_getElem? {m : Model} (hnames : m.Throughout DistinctNames)
    (hwords : m.Throughout Addressable) {k : Nat} {name : Text}
    (h : m.parameterNames[k]? = some name) : m.index? name = some k := by
  induction m generalizing k name with
  | curve c => exact Named.index?_of_getElem? hnames.own h
  | composite c members ih =>
    obtain ⟨j, mem, inner, l, hmem, hinner, rfl, rfl⟩ := exists_of_getElem?_names h
    have hin := List.mem_of_getElem? hmem
    have hlt : j < members.length := (List.getElem?_eq_some_iff.1 hmem).1
    have hword : members.length ≤ Whole.wordCount := hwords.own
    have hfilter : (some j).filter (· < Whole.wordCount) = some j :=
      Option.filter_eq_some_iff.2 ⟨rfl, decide_eq_true (hlt.trans_le hword)⟩
    have hsplit : Qualified.split? (Qualified.join (0 + j) inner) = some (j, inner) := by
      rw [Nat.zero_add, Qualified.split?_join, hfilter]
      rfl
    cases hnames with
    | composite _ hm =>
      cases hwords with
      | composite _ hw =>
        exact index?_composite.2
          ⟨j, inner, mem, l, hsplit, hmem, ih mem hin (hm mem hin) (hw mem hin) hinner, rfl⟩

theorem nodup_parameterNames {m : Model} (hnames : m.Throughout DistinctNames)
    (hwords : m.Throughout Addressable) : m.parameterNames.Nodup := by
  refine List.nodup_iff_injective_get.2 fun a b hab => ?_
  have ha := index?_of_getElem? hnames hwords (List.getElem?_eq_getElem a.2)
  have hb := index?_of_getElem? hnames hwords (List.getElem?_eq_getElem b.2)
  rw [List.get_eq_getElem, List.get_eq_getElem] at hab
  rw [hab, hb] at ha
  exact Fin.ext (Option.some.inj ha).symm

/-! ## Setting a parameter -/

/-- What a model has besides its parameters and the members themselves. -/
def settings (m : Model) : Text × Slots × List Tie × List Bound × List Slots :=
  (m.name, m.attributes, m.ties, m.bounds, m.members.map (·.locals))

theorem parameterNamesFrom_set {members : List (Member Model)} {i j : Nat} {mem new : Member Model}
    (hmem : members[j]? = some mem) (hnames : new.model.parameterNames = mem.model.parameterNames) :
    parameterNamesFrom i (members.set j new) = parameterNamesFrom i members := by
  induction members generalizing i j with
  | nil => rfl
  | cons first members ih =>
    cases j with
    | zero =>
      cases hmem
      rw [List.set_cons_zero, parameterNamesFrom, parameterNamesFrom, hnames]
    | succ j =>
      rw [List.set_cons_succ, parameterNamesFrom, parameterNamesFrom, ih hmem]

theorem parameterNames_setAt? {value : Float} {m m' : Model} {path : List Nat} {name : Text}
    (h : m.setAt? value path name = some m') : m'.parameterNames = m.parameterNames := by
  induction m generalizing path name m' with
  | curve c =>
    obtain ⟨-, -, rfl⟩ := setAt?_curve_eq_some h
    exact Named.names_set name value c.parameters
  | composite c members ih =>
    obtain ⟨i, p, n, mem, new, -, hmem, hnew, rfl⟩ := setAt?_composite_eq_some h
    exact parameterNamesFrom_set hmem (ih mem (List.mem_of_getElem? hmem) hnew)

/-- Setting a parameter changes nothing but parameters, at no level. -/
theorem settings_setAt? {value : Float} {m m' : Model} {p : List Nat} {n : Text}
    (h : m.setAt? value p n = some m') (path : List Nat) :
    (m'.memberAt? path).map settings = (m.memberAt? path).map settings := by
  induction m generalizing p n m' path with
  | curve c =>
    obtain ⟨-, -, rfl⟩ := setAt?_curve_eq_some h
    cases path with
    | nil | cons => rfl
  | composite c members ih =>
    obtain ⟨i, p, n, mem, new, -, hmem, hnew, rfl⟩ := setAt?_composite_eq_some h
    obtain ⟨hi, hget⟩ := List.getElem?_eq_some_iff.1 hmem
    cases path with
    | nil =>
      have hlocals : (members.map (·.locals)).set i mem.locals = members.map (·.locals) := by
        rw [← List.map_set, ← hget, List.set_getElem_self]
      change some (c.name, c.attributes, c.ties, c.bounds, (members.set i _).map (·.locals)) = _
      rw [List.map_set, hlocals]
      rfl
    | cons j path =>
      change ((members.set i _)[j]?.bind _).map settings = (members[j]?.bind _).map settings
      by_cases hij : i = j
      · subst hij
        rw [List.getElem?_set_self hi, hmem]
        exact ih mem (List.mem_of_getElem? hmem) hnew path
      · rw [List.getElem?_set_ne hij]

theorem exists_set? {m : Model} {name : Text} {k : Nat} (h : m.index? name = some k)
    (value : Float) : ∃ m', m.setAt? value [] name = some m' := by
  induction m generalizing name k with
  | curve c =>
    have hhas : Named.has name c.parameters = true := by
      rw [← hasParameter_curve, hasParameter, h]
      rfl
    exact ⟨_, if_pos hhas⟩
  | composite c members ih =>
    obtain ⟨i, inner, mem, l, hs, hmem, hl, -⟩ := index?_composite.1 h
    obtain ⟨new, hnew⟩ := ih mem (List.mem_of_getElem? hmem) hl
    refine ⟨composite c (members.set i { mem with model := new }), ?_⟩
    rw [setAt?_composite, descend, hs, Option.map_some, Option.bind_some]
    simp only [hmem, Option.bind_some, hnew, Option.map_some]

/-- The values of the parameters in order. -/
def values (m : Model) : List Float := m.parameters.map Prod.snd

theorem values_eq (m : Model) :
    m.values = m.parameterNames.map fun name => (m.parameter? name).getD Literal.notANumber := by
  rw [values, parameters, List.map_map]
  rfl

theorem values_setAt? {m m' : Model} (hnames : m.Throughout DistinctNames)
    (hwords : m.Throughout Addressable) {name : Text} {value : Float} {i : Nat}
    (hi : m.index? name = some i) (h : m.setAt? value [] name = some m') :
    m'.values = m.values.set i value := by
  rw [values_eq, values_eq, parameterNames_setAt? h]
  refine List.ext_getElem? fun k => ?_
  rw [List.getElem?_set, List.getElem?_map, List.getElem?_map]
  cases hk : m.parameterNames[k]? with
  | none =>
    have hlen : m.parameterNames.length ≤ k := List.getElem?_eq_none_iff.1 hk
    have hplace : m.place? [] name = some i := hi
    have hlt : i < m.parameterCount := place?_lt hplace
    rw [← length_parameterNames] at hlt
    rw [if_neg (by omega)]
    rfl
  | some other =>
    have hindex : m.place? [] other = some k := index?_of_getElem? hnames hwords hk
    have hplace : m.place? [] name = some i := hi
    have hvalue : m'.parameter? other = if some k = some i then some value else m.parameter? other := by
      rw [← hindex, ← hplace]
      exact valueAt?_setAt? h [] other
    have hlt : k < m.parameterNames.length := (List.getElem?_eq_some_iff.1 hk).1
    rw [Option.map_some, hvalue, List.length_map]
    by_cases hik : i = k
    · rw [if_pos (congrArg some hik.symm), if_pos hik, if_pos (hik ▸ hlt)]
      rfl
    · rw [if_neg fun he => hik (Option.some.inj he).symm, if_neg hik, Option.map_some]

/-! ## Agreement -/

/-- The names of the parameters, what they stand for, and reading and setting them agree. -/
structure Numbered (m : Model) : Prop where
  nodup : m.parameterNames.Nodup
  length : m.parameterNames.length = m.parameterCount
  index : ∀ i < m.parameterCount, ∃ name, m.parameterNames[i]? = some name ∧ m.index? name = some i
  get : ∀ name, (∃ value, m.getParameter name = .ok value) ↔ ∃ i, m.index? name = some i
  set : ∀ name value, (∃ m', m.setParameter name value = .ok m') ↔ ∃ i, m.index? name = some i
  update : ∀ name value i m', m.index? name = some i → m.setParameter name value = .ok m' →
    m'.parameterNames = m.parameterNames ∧ m'.values = m.values.set i value ∧
      m'.getParameter name = .ok value ∧
      ∀ path, (m'.memberAt? path).map settings = (m.memberAt? path).map settings

theorem exists_getParameter {m : Model} {name : Text} :
    (∃ value, m.getParameter name = .ok value) ↔ ∃ i, m.index? name = some i := by
  have hsome : (m.index? name).isSome = (m.parameter? name).isSome := isSome_place? m [] name
  rw [← Option.isSome_iff_exists, hsome, getParameter]
  cases m.parameter? name with
  | none => exact ⟨nofun, nofun⟩
  | some value => exact ⟨fun _ => rfl, fun _ => ⟨value, rfl⟩⟩

theorem exists_setParameter {m : Model} {name : Text} {value : Float} :
    (∃ m', m.setParameter name value = .ok m') ↔ ∃ i, m.index? name = some i := by
  constructor
  · rintro ⟨m', h⟩
    exact exists_place?_of_setAt? (Reader.setAt?_of_setParameter h)
  · rintro ⟨i, h⟩
    obtain ⟨m', hset⟩ := exists_set? h value
    have hset' : m.set? name value = some m' := hset
    exact ⟨m', by rw [setParameter, hset']; rfl⟩

theorem numbered {m : Model} (hnames : m.Throughout DistinctNames)
    (hwords : m.Throughout Addressable) : m.Numbered where
  nodup := nodup_parameterNames hnames hwords
  length := length_parameterNames m
  index i hi := by
    rw [← length_parameterNames] at hi
    have hname := List.getElem?_eq_getElem hi
    exact ⟨_, hname, index?_of_getElem? hnames hwords hname⟩
  get _ := exists_getParameter
  set _ _ := exists_setParameter
  update name value i m' hi hset := by
    have hset := Reader.setAt?_of_setParameter hset
    have hget : m'.parameter? name = some value :=
      (valueAt?_setAt? hset [] name).trans (if_pos rfl)
    refine ⟨parameterNames_setAt? hset, values_setAt? hnames hwords hi hset, ?_, settings_setAt? hset⟩
    rw [getParameter, hget]
    rfl

end Model

namespace Reader

variable {r : Reader} {m : Model}

theorem distinctNames_of_reached (hr : r.types = .builtin) (h : r.Reached m) :
    m.Throughout Model.DistinctNames := by
  induction h with
  | read hread => exact Model.distinctNames_of_sound (sound_of_read hr hread)
  | @edit m path e hm hnew ih ihnew =>
    rcases Edit.edit_eq r e m path with heq | ⟨member, new, hmember, hkeeps, heq⟩
    · rw [heq]
      exact ih
    · rw [heq]
      have hmem := hkeeps _ (Model.DistinctNames.keeps ihnew) (ih.memberAt? hmember)
      exact ih.updateAt (fun _ => trivial) hmember hmem

/-- In a model that is reached, and in every member of it, names, numbers and values of parameters
agree, as long as the members of a composite can be numbered by machine words. -/
theorem numbered_of_reached (hr : r.types = .builtin) (h : r.Reached m)
    (hwords : m.Throughout Model.Addressable) {path : List Nat} {owner : Model}
    (howner : m.memberAt? path = some owner) : owner.Numbered :=
  Model.numbered ((distinctNames_of_reached hr h).memberAt? howner) (hwords.memberAt? howner)

/-- A composite within a composite, beside a member that lost two parameters to an edit. -/
theorem numbered_of_reached_lower_degree :
    let s := "(name=Polynomial,n=1;name=FlatBackground);name=Polynomial,n=2".toList
    let changes := [([1], Edit.setAttribute "n".toList (.int 0))]
    ∃ m owner, read {} s = .ok m ∧ Reached {} (m.edits {} changes) ∧
      (m.edits {} changes).memberAt? [] = some owner ∧ owner.Numbered ∧
      owner.parameterNames = ["f0.f0.A0".toList, "f0.f0.A1".toList, "f0.f1.A0".toList,
        "f1.A0".toList] := by
  intro s changes
  have hcheck : (read {} s).toOption.any (fun m =>
      (m.edits {} changes).Throughout Model.Addressable ∧
        (m.edits {} changes).parameterNames = ["f0.f0.A0".toList, "f0.f0.A1".toList,
          "f0.f1.A0".toList, "f1.A0".toList]) = true := by
    decide +kernel
  obtain ⟨m, hread, hm⟩ := Result.exists_of_any hcheck
  obtain ⟨hwords, hparameters⟩ := of_decide_eq_true hm
  have hreached : Reached {} (m.edits {} changes) :=
    .edit [1] _ (.read hread) (by intro new hnew; cases hnew)
  have howner : (m.edits {} changes).memberAt? [] = some (m.edits {} changes) := rfl
  exact ⟨m, _, hread, hreached, howner, numbered_of_reached rfl hreached hwords howner, hparameters⟩

end Reader
end Lineshape
