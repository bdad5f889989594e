import Lineshape.Model.Conditions

/-! # Addresses of parameters

An address is the path to a member and the name of a parameter there. Several addresses may name one
parameter, `f0.A0` of a composite and `A0` of its first member for instance; they have one place
among all parameters. Setting a parameter changes the value at the addresses of its place and nothing
else (`Model.valueAt?_setAt?`, `Model.place?_setAt?`). -/

namespace Lineshape
set_option autoImplicit false

namespace Model

/-! ## Members by their places -/

/-- The number of parameters of the members before a place. -/
def offset (members : List (Member Model)) (i : Nat) : Nat := parameterCountOf (members.take i)

theorem offset_cons (mem : Member Model) (members : List (Member Model)) (i : Nat) :
    offset (mem :: members) (i + 1) = mem.model.parameterCount + offset members i := by
  obtain ⟨locals, m⟩ := mem
  rw [offset, List.take_succ_cons, parameterCountOf]
  rfl

theorem indexIn?_eq (i : Nat) (name : Text) (members : List (Member Model)) :
    indexIn? i name members =
      members[i]?.bind fun mem => (mem.model.index? name).map (offset members i + ·) := by
  induction members generalizing i with
  | nil => rfl
  | cons mem members ih =>
    obtain ⟨locals, m⟩ := mem
    cases i with
    | zero =>
      rw [indexIn?, List.getElem?_cons_zero, Option.bind_some]
      have hzero : offset (⟨locals, m⟩ :: members) 0 = 0 := rfl
      simp only [hzero, Nat.zero_add, Option.map_id']
    | succ i =>
      rw [indexIn?, List.getElem?_cons_succ, ih, offset_cons]
      cases members[i]? with
      | none => rfl
      | some other =>
        simp only [Option.bind_some, Option.map_map, Function.comp_def, Nat.add_assoc]

theorem parameterIn?_eq (i : Nat) (name : Text) (members : List (Member Model)) :
    parameterIn? i name members = members[i]?.bind fun mem => mem.model.parameter? name := by
  induction members generalizing i with
  | nil => rfl
  | cons mem members ih =>
    obtain ⟨locals, m⟩ := mem
    cases i with
    | zero => rfl
    | succ i => rw [parameterIn?, List.getElem?_cons_succ, ih]

theorem setIn?_eq (i : Nat) (name : Text) (value : Float) (members : List (Member Model)) :
    setIn? i name value members = members[i]?.bind fun mem =>
      (mem.model.set? name value).map fun m => members.set i { mem with model := m } := by
  induction members generalizing i with
  | nil => rfl
  | cons mem members ih =>
    obtain ⟨locals, m⟩ := mem
    cases i with
    | zero => rfl
    | succ i =>
      rw [setIn?, List.getElem?_cons_succ, ih]
      cases members[i]? with
      | none => rfl
      | some other => simp only [Option.bind_some, Option.map_map, Function.comp_def, List.set_cons_succ]

/-! ## Values and places at addresses -/

/-- The place of the member that an address leads into, and the address from there. -/
def descend : List Nat → Text → Option (Nat × List Nat × Text)
  | i :: path, name => some (i, path, name)
  | [], name => (Qualified.split? name).map fun (i, inner) => (i, [], inner)

/-- The value of the parameter at an address. -/
def valueAt? (path : List Nat) (name : Text) (m : Model) : Option Float :=
  (m.memberAt? path).bind (·.parameter? name)

/-- The place among all parameters of the parameter at an address. -/
def place? : List Nat → Text → Model → Option Nat
  | [], name, m => m.index? name
  | i :: path, name, m =>
    m.members[i]?.bind fun mem => (place? path name mem.model).map (offset m.members i + ·)

/-- The model with another value of the parameter at an address. -/
def setAt? (value : Float) : List Nat → Text → Model → Option Model
  | [], name, m => m.set? name value
  | _ :: _, _, curve _ => none
  | i :: path, name, composite c members =>
    members[i]?.bind fun mem => (setAt? value path name mem.model).map fun m =>
      composite c (members.set i { mem with model := m })

variable (path : List Nat) (name : Text) (c : Composite) (members : List (Member Model))

theorem valueAt?_composite :
    (composite c members).valueAt? path name =
      (descend path name).bind fun (i, path, name) =>
        members[i]?.bind fun mem => mem.model.valueAt? path name := by
  cases path with
  | nil =>
    change (composite c members).parameter? name = _
    rw [parameter?, descend]
    cases Qualified.split? name with
    | none => rfl
    | some p => exact parameterIn?_eq p.1 p.2 members
  | cons i path =>
    rw [descend, Option.bind_some, valueAt?, memberAt?, Option.bind_assoc]
    rfl

theorem place?_composite :
    (composite c members).place? path name =
      (descend path name).bind fun (i, path, name) =>
        members[i]?.bind fun mem => (mem.model.place? path name).map (offset members i + ·) := by
  cases path with
  | nil =>
    rw [place?, index?, descend]
    cases Qualified.split? name with
    | none => rfl
    | some p => exact indexIn?_eq p.1 p.2 members
  | cons i path => rfl

theorem setAt?_composite (value : Float) :
    (composite c members).setAt? value path name =
      (descend path name).bind fun (i, path, name) =>
        members[i]?.bind fun mem => (mem.model.setAt? value path name).map fun m =>
          composite c (members.set i { mem with model := m }) := by
  cases path with
  | nil =>
    rw [setAt?, set?, descend]
    cases Qualified.split? name with
    | none => rfl
    | some p =>
      obtain ⟨i, inner⟩ := p
      change (setIn? i inner value members).map (composite c) = members[i]?.bind fun mem =>
        (mem.model.set? inner value).map fun m => composite c (members.set i { mem with model := m })
      rw [setIn?_eq, Option.map_bind]
      simp only [Function.comp_def, Option.map_map]
  | cons i path => rfl

variable {path name c members}

theorem place?_of_descend {i : Nat} {p : List Nat} {n : Text}
    (h : descend path name = some (i, p, n)) :
    (composite c members).place? path name =
      members[i]?.bind fun mem => (mem.model.place? p n).map (offset members i + ·) := by
  rw [place?_composite, h, Option.bind_some]

/-- A parameter has a place if and only if it has a value. -/
theorem isSome_place? (m : Model) (path : List Nat) (name : Text) :
    (m.place? path name).isSome = (m.valueAt? path name).isSome := by
  induction m generalizing path name with
  | curve c =>
    cases path with
    | nil => exact Named.isSome_index?
    | cons i path => rfl
  | composite c members ih =>
    rw [place?_composite, valueAt?_composite]
    cases descend path name with
    | none => rfl
    | some d =>
      obtain ⟨i, p, n⟩ := d
      simp only [Option.bind_some]
      cases hmem : members[i]? with
      | none => rfl
      | some mem =>
        rw [Option.bind_some, Option.bind_some, Option.isSome_map]
        exact ih mem (List.mem_of_getElem? hmem) p n

theorem hasParameter_eq (m : Model) (name : Text) :
    m.hasParameter name = (m.parameter? name).isSome := isSome_place? m [] name

/-- Setting a parameter of a composite changes one member. -/
theorem setAt?_composite_eq_some {value : Float} {m : Model}
    (h : (composite c members).setAt? value path name = some m) :
    ∃ i p n mem new, descend path name = some (i, p, n) ∧ members[i]? = some mem ∧
      mem.model.setAt? value p n = some new ∧
      m = composite c (members.set i { mem with model := new }) := by
  rw [setAt?_composite] at h
  obtain ⟨⟨i, p, n⟩, hd, h⟩ := Option.bind_eq_some_iff.1 h
  obtain ⟨mem, hmem, h⟩ := Option.bind_eq_some_iff.1 h
  obtain ⟨new, hnew, h⟩ := Option.map_eq_some_iff.1 h
  exact ⟨i, p, n, mem, new, hd, hmem, hnew, h.symm⟩

/-- Only the parameters of a curve itself can be set. -/
theorem setAt?_curve_eq_some {value : Float} {curve' : Curve} {m : Model}
    (h : (curve curve').setAt? value path name = some m) :
    path = [] ∧ Named.has name curve'.parameters = true ∧
      m = curve { curve' with parameters := Named.set name value curve'.parameters } := by
  cases path with
  | nil =>
    rw [setAt?, set?] at h
    split at h
    · rename_i hhas
      cases h
      exact ⟨rfl, hhas, rfl⟩
    · cases h
  | cons i path => cases h

/-! ## Places -/

theorem offset_add_le {i j : Nat} {mem : Member Model} (h : members[i]? = some mem) (hij : i < j) :
    offset members i + mem.model.parameterCount ≤ offset members j := by
  induction members generalizing i j with
  | nil => cases h
  | cons first members ih =>
    obtain ⟨j, rfl⟩ : ∃ k, j = k + 1 := ⟨j - 1, by omega⟩
    rw [offset_cons]
    cases i with
    | zero =>
      cases h
      have hzero : offset (mem :: members) 0 = 0 := rfl
      omega
    | succ i =>
      have := ih (j := j) h (by omega)
      rw [offset_cons]
      omega

theorem offset_add_ne {i j k l : Nat} {a b : Member Model} (ha : members[i]? = some a)
    (hb : members[j]? = some b) (hk : k < a.model.parameterCount) (hl : l < b.model.parameterCount)
    (hij : i ≠ j) : offset members i + k ≠ offset members j + l := by
  rcases Nat.lt_or_gt_of_ne hij with hlt | hlt
  · have := offset_add_le ha hlt
    omega
  · have := offset_add_le hb hlt
    omega

end Model

theorem Named.index?_lt {α : Type} {name : Text} {l : Named α} {k : Nat}
    (h : index? name l = some k) : k < l.length := by
  induction l generalizing k with
  | nil => cases h
  | cons p l ih =>
    obtain ⟨n, value⟩ := p
    rw [index?] at h
    split at h
    · cases h
      exact Nat.zero_lt_succ _
    · obtain ⟨k', hk, rfl⟩ := Option.map_eq_some_iff.1 h
      exact Nat.succ_lt_succ (ih hk)

theorem Named.eq_of_index? {α : Type} {name other : Text} {l : Named α} {k : Nat}
    (h : index? name l = some k) (ho : index? other l = some k) : name = other := by
  induction l generalizing k with
  | nil => cases h
  | cons p l ih =>
    obtain ⟨n, value⟩ := p
    rw [index?] at h ho
    split at h
    · cases h
      split at ho
      · simp_all
      · obtain ⟨k', -, hk⟩ := Option.map_eq_some_iff.1 ho
        cases hk
    · obtain ⟨k', hk, rfl⟩ := Option.map_eq_some_iff.1 h
      split at ho
      · cases ho
      · obtain ⟨k'', hk', he⟩ := Option.map_eq_some_iff.1 ho
        cases Nat.succ.inj he
        exact ih hk hk'

theorem Named.set_eq_self {α : Type} {name : Text} {value : α} {l : Named α}
    (h : get? name l = some value) : set name value l = l := by
  induction l with
  | nil => rfl
  | cons p l ih =>
    obtain ⟨n, old⟩ := p
    rw [get?] at h
    rw [set]
    split at h
    · rename_i hn
      cases h
      rw [if_pos hn]
    · rename_i hn
      rw [if_neg hn, ih h]

theorem Named.index?_congr {α : Type} {l l' : Named α} (h : names l = names l') (name : Text) :
    index? name l = index? name l' := by
  induction l generalizing l' with
  | nil =>
    cases l' with
    | nil => rfl
    | cons p l' => cases h
  | cons p l ih =>
    cases l' with
    | nil => cases h
    | cons p' l' =>
      obtain ⟨hn, hl⟩ := List.cons.inj h
      obtain ⟨n, value⟩ := p
      obtain ⟨n', value'⟩ := p'
      cases hn
      rw [index?, index?, ih hl]

namespace Model

variable {path : List Nat} {name : Text}

theorem place?_lt {m : Model} {k : Nat} (h : m.place? path name = some k) :
    k < m.parameterCount := by
  induction m generalizing path name k with
  | curve c =>
    cases path with
    | nil => exact Named.index?_lt h
    | cons i path => cases h
  | composite c members ih =>
    rw [place?_composite] at h
    obtain ⟨⟨i, p, n⟩, -, h⟩ := Option.bind_eq_some_iff.1 h
    obtain ⟨mem, hmem, h⟩ := Option.bind_eq_some_iff.1 h
    obtain ⟨l, hl, rfl⟩ := Option.map_eq_some_iff.1 h
    have hlt := ih mem (List.mem_of_getElem? hmem) hl
    have hle := offset_add_le hmem (List.getElem?_eq_some_iff.1 hmem).1
    have hall : offset members members.length = parameterCountOf members := by
      rw [offset, List.take_length]
    rw [hall] at hle
    change offset members i + l < parameterCountOf members
    omega

/-! ## Setting a parameter -/

theorem parameterCountOf_set {members : List (Member Model)} {i : Nat} {mem new : Member Model}
    (hmem : members[i]? = some mem)
    (hcount : new.model.parameterCount = mem.model.parameterCount) :
    parameterCountOf (members.set i new) = parameterCountOf members := by
  induction members generalizing i with
  | nil => rfl
  | cons first members ih =>
    cases i with
    | zero =>
      cases hmem
      rw [List.set_cons_zero, parameterCountOf, parameterCountOf, hcount]
    | succ i =>
      rw [List.set_cons_succ, parameterCountOf, parameterCountOf, ih hmem]

theorem offset_set {members : List (Member Model)} {i : Nat} {mem new : Member Model}
    (hmem : members[i]? = some mem) (hcount : new.model.parameterCount = mem.model.parameterCount)
    (j : Nat) : offset (members.set i new) j = offset members j := by
  rw [offset, offset, List.take_set]
  by_cases hij : i < j
  · exact parameterCountOf_set (by rw [List.getElem?_take_of_lt hij, hmem]) hcount
  · rw [List.set_eq_of_length_le (by rw [List.length_take]; omega)]

theorem parameterCount_setAt? {value : Float} {m m' : Model}
    (h : m.setAt? value path name = some m') : m'.parameterCount = m.parameterCount := by
  induction m generalizing path name m' with
  | curve c =>
    obtain ⟨-, -, rfl⟩ := setAt?_curve_eq_some h
    have hlen := congrArg List.length (Named.names_set name value c.parameters)
    rw [Named.names, Named.names, List.length_map, List.length_map] at hlen
    exact hlen
  | composite c members ih =>
    obtain ⟨i, p, n, mem, new, -, hmem, hnew, rfl⟩ := setAt?_composite_eq_some h
    exact parameterCountOf_set hmem (ih mem (List.mem_of_getElem? hmem) hnew)

theorem place?_setAt? {value : Float} {m m' : Model} {p : List Nat} {n : Text}
    (h : m.setAt? value p n = some m') (path : List Nat) (name : Text) :
    m'.place? path name = m.place? path name := by
  induction m generalizing p n path name m' with
  | curve c =>
    obtain ⟨-, -, rfl⟩ := setAt?_curve_eq_some h
    cases path with
    | nil => exact Named.index?_congr (Named.names_set n value c.parameters) name
    | cons i path => rfl
  | composite c members ih =>
    obtain ⟨i, p, n, mem, new, -, hmem, hnew, rfl⟩ := setAt?_composite_eq_some h
    have hin := List.mem_of_getElem? hmem
    rw [place?_composite, place?_composite]
    cases descend path name with
    | none => rfl
    | some d =>
      obtain ⟨j, path, name⟩ := d
      have hoffset : offset (members.set i { mem with model := new }) j = offset members j :=
        offset_set hmem (parameterCount_setAt? hnew) j
      simp only [Option.bind_some, hoffset]
      by_cases hij : i = j
      · subst hij
        rw [List.getElem?_set_self (List.getElem?_eq_some_iff.1 hmem).1, hmem, Option.bind_some,
          Option.bind_some, ih mem hin hnew]
      · rw [List.getElem?_set_ne hij]

/-- What can be set has a place. -/
theorem hasParameter_setAt? {value : Float} {m m' : Model} {p : List Nat} {n : Text}
    (h : m.setAt? value p n = some m') (name : Text) : m'.hasParameter name = m.hasParameter name :=
  congrArg Option.isSome (place?_setAt? h [] name)

theorem exists_place?_of_setAt? {value : Float} {m m' : Model}
    (h : m.setAt? value path name = some m') : ∃ k, m.place? path name = some k := by
  induction m generalizing path name m' with
  | curve c =>
    obtain ⟨rfl, hhas, -⟩ := setAt?_curve_eq_some h
    exact Option.isSome_iff_exists.1 (Named.isSome_index?.trans hhas)
  | composite c members ih =>
    obtain ⟨i, p, n, mem, new, hd, hmem, hnew, -⟩ := setAt?_composite_eq_some h
    obtain ⟨k, hk⟩ := ih mem (List.mem_of_getElem? hmem) hnew
    refine ⟨offset members i + k, ?_⟩
    rw [place?_of_descend hd, hmem, Option.bind_some, hk, Option.map_some]

/-- Setting a parameter gives the value to all its addresses, and changes no other parameter. -/
theorem valueAt?_setAt? {value : Float} {m m' : Model} {p : List Nat} {n : Text}
    (h : m.setAt? value p n = some m') (path : List Nat) (name : Text) :
    m'.valueAt? path name =
      if m.place? path name = m.place? p n then some value else m.valueAt? path name := by
  induction m generalizing p n path name m' with
  | curve c =>
    obtain ⟨rfl, hhas, rfl⟩ := setAt?_curve_eq_some h
    obtain ⟨k, hk⟩ := exists_place?_of_setAt? h
    cases path with
    | cons i path =>
      rw [if_neg]
      · rfl
      · rw [hk]
        nofun
    | nil =>
      change Named.get? name (Named.set n value c.parameters) = _
      by_cases hname : name = n
      · subst hname
        rw [if_pos rfl, Named.get?_set_self hhas]
      · rw [Named.get?_set_of_ne hname, if_neg]
        · rfl
        · intro he
          exact hname (Named.eq_of_index? (he.trans hk) hk)
  | composite c members ih =>
    obtain ⟨k, hk⟩ := exists_place?_of_setAt? h
    obtain ⟨i, p', n', mem, new, hd, hmem, hnew, rfl⟩ := setAt?_composite_eq_some h
    have hin := List.mem_of_getElem? hmem
    have hplace : (composite c members).place? p n =
        (mem.model.place? p' n').map (offset members i + ·) := by
      rw [place?_of_descend hd, hmem, Option.bind_some]
    rw [valueAt?_composite, valueAt?_composite]
    cases hdesc : descend path name with
    | none =>
      rw [if_neg]
      · rfl
      · rw [hk, place?_composite, hdesc]
        nofun
    | some d =>
      obtain ⟨j, path', name'⟩ := d
      simp only [Option.bind_some]
      have hother : (composite c members).place? path name = members[j]?.bind fun mem =>
          (mem.model.place? path' name').map (offset members j + ·) := place?_of_descend hdesc
      by_cases hij : i = j
      · subst hij
        rw [List.getElem?_set_self (List.getElem?_eq_some_iff.1 hmem).1, hmem, Option.bind_some,
          Option.bind_some, ih mem hin hnew, hplace, hother, hmem, Option.bind_some]
        have hiff : ∀ x y : Option Nat,
            x.map (offset members i + ·) = y.map (offset members i + ·) ↔ x = y := by
          intro x y
          cases x <;> cases y <;> simp
        simp only [hiff]
      · rw [List.getElem?_set_ne hij, if_neg]
        intro he
        -- the members have their parameters at disjoint places
        rw [hplace, hother] at he
        obtain ⟨l, hl⟩ := exists_place?_of_setAt? hnew
        rw [hl, Option.map_some] at he
        obtain ⟨mem', hmem', he⟩ := Option.bind_eq_some_iff.1 he
        obtain ⟨l', hl', he⟩ := Option.map_eq_some_iff.1 he
        exact offset_add_ne hmem hmem' (place?_lt hl) (place?_lt hl') hij he.symm

/-- Setting a parameter to the value that it has changes nothing. -/
theorem setAt?_self {m : Model} {value : Float} (h : m.valueAt? path name = some value) :
    m.setAt? value path name = some m := by
  induction m generalizing path name with
  | curve c =>
    cases path with
    | cons i path => cases h
    | nil =>
      have hget : Named.get? name c.parameters = some value := h
      have hhas : Named.has name c.parameters = true := by rw [Named.has, hget]; rfl
      rw [setAt?, set?, if_pos hhas, Named.set_eq_self hget]
  | composite c members ih =>
    rw [valueAt?_composite] at h
    obtain ⟨⟨i, p, n⟩, hd, h⟩ := Option.bind_eq_some_iff.1 h
    obtain ⟨mem, hmem, h⟩ := Option.bind_eq_some_iff.1 h
    have hi := List.getElem?_eq_some_iff.1 hmem
    rw [setAt?_composite, hd, Option.bind_some]
    simp only [hmem, Option.bind_some, ih mem (List.mem_of_getElem? hmem) h, Option.map_some]
    have hset : members.set i mem = members := by
      rw [← hi.2, List.set_getElem_self]
    exact congrArg (fun ms => some (composite c ms)) hset

end Model
end Lineshape
