import Lineshape.Proofs.Curve.Configured
import Lineshape.Proofs.Model.Attached
import Lineshape.Proofs.Reading.Invariant

/-! # Sound models

What holds of every model that was read with the built-in types: curves have the parameters that
their attributes ask for, composites are of a built-in type, and ties and bounds stand on parameters
of the model (`Reader.sound_of_read`). -/

namespace Lineshape
set_option autoImplicit false

/-! ## Composites of the built-in types -/

/-- The composite has the attributes of a built-in type. -/
structure Composite.Configured (c : Composite) : Prop where
  type : ∃ base ∈ [Composite.plain, Composite.multiDomain], c.name = base.name ∧
    c.defaults = base.defaults ∧ c.localDefaults = base.localDefaults
  attributes : ∃ b, c.attributes = [("NumDeriv".toList, .bool b)]

/-- The attributes that a composite keeps for a member are those of a new member, with other texts. -/
def Composite.Keeps (c : Composite) (locals : Slots) : Prop :=
  (c.localDefaults = [] ∧ locals = []) ∨
    ∃ default s, c.localDefaults = [("domains".toList, .string default)] ∧ Text.Trimmed s ∧
      locals = [("domains".toList, .string s)]

theorem Composite.Configured.keeps_new {c : Composite} (h : c.Configured) :
    c.Keeps c.localDefaults := by
  have htrimmed : Text.Trimmed "All".toList := by decide
  obtain ⟨base, hbase, -, -, hlocals⟩ := h.type
  rcases List.mem_cons.1 hbase with rfl | hbase
  · exact .inl ⟨hlocals, hlocals⟩
  · rw [List.mem_singleton.1 hbase] at hlocals
    exact .inr ⟨"All".toList, "All".toList, hlocals, htrimmed, hlocals⟩

theorem Attribute.trimmed_of_reread {old value : Attribute} {name s : Text}
    (h : old.reread name s = .ok value) :
    old.type = value.type ∧ ∀ t, value = .string t → Text.Trimmed t := by
  rw [Attribute.reread] at h
  cases hread : Attribute.read? old.type (Text.trim s) with
  | none =>
    rw [hread] at h
    cases h
  | some a =>
    rw [hread] at h
    cases h
    refine ⟨(Attribute.type_of_read? hread).symm, ?_⟩
    rintro t rfl
    have htype : old.type = .string := (Attribute.type_of_read? hread).symm
    rw [htype] at hread
    cases hread
    exact Text.trimmed_trim s

theorem Composite.Keeps.set {c : Composite} {locals : Slots} {name s : Text} {old value : Attribute}
    (h : c.Keeps locals) (hold : Named.get? name locals = some old)
    (hvalue : old.reread name s = .ok value) : c.Keeps (Named.set name value locals) := by
  obtain ⟨htype, htrimmed⟩ := Attribute.trimmed_of_reread hvalue
  rcases h with ⟨-, rfl⟩ | ⟨default, t, hdefaults, -, rfl⟩
  · cases hold
  · obtain ⟨rfl, rfl⟩ | ⟨-, hnil⟩ := Named.get?_cons_eq_some.1 hold
    · cases value with
      | string t' => exact .inr ⟨default, t', hdefaults, htrimmed t' rfl, rfl⟩
      | _ => cases htype
    · cases hnil

/-! ## Sound models -/

namespace Model

/-- Every curve and every composite in the model is as its attributes ask for, and what is attached
to it stands on its parameters. -/
inductive Sound : Model → Prop
  | curve {c : Curve} : c.Configured → Attached (curve c) → Sound (curve c)
  | composite {c : Composite} {members : List (Member Model)} : c.Configured →
    (∀ mem ∈ members, Sound mem.model) → (∀ mem ∈ members, c.Keeps mem.locals) →
    Attached (composite c members) → Sound (composite c members)

theorem Sound.attached {m : Model} (h : m.Sound) : m.Attached := by
  cases h with
  | curve _ h => exact h
  | composite _ _ _ h => exact h

theorem Sound.configured {c : Composite} {members : List (Member Model)}
    (h : Sound (.composite c members)) : c.Configured := by
  cases h with
  | composite hc _ _ _ => exact hc

theorem hasParameter_curve (c : Curve) (name : Text) :
    (curve c).hasParameter name = Named.has name c.parameters := Named.isSome_index?

theorem Sound.withTies {m : Model} {ties : List Tie} (h : m.Sound)
    (hattached : (m.withTies ties).Attached) : (m.withTies ties).Sound := by
  cases h with
  | curve hc _ => exact .curve (hc.congr rfl rfl rfl rfl) hattached
  | composite hc hm hk _ => exact .composite ⟨hc.type, hc.attributes⟩ hm hk hattached

theorem Sound.withBounds {m : Model} {bounds : List Bound} (h : m.Sound)
    (hattached : (m.withBounds bounds).Attached) : (m.withBounds bounds).Sound := by
  cases h with
  | curve hc _ => exact .curve (hc.congr rfl rfl rfl rfl) hattached
  | composite hc hm hk _ => exact .composite ⟨hc.type, hc.attributes⟩ hm hk hattached

/-- Parameter values do not matter. -/
theorem Sound.setAt? {m m' : Model} {value : Float} {path : List Nat} {name : Text} (h : m.Sound)
    (hset : m.setAt? value path name = some m') : m'.Sound := by
  have hattached : ∀ {m m' : Model} {path : List Nat} {name : Text}, m.Attached →
      m.setAt? value path name = some m' → m'.ties = m.ties → m'.bounds = m.bounds → m'.Attached := by
    intro m m' path name h hset hties hbounds
    apply h.congr (hties ▸ List.Sublist.refl _) (hbounds ▸ List.Sublist.refl _)
    · intro tie htie
      rw [hasParameter_setAt? hset]
      exact (h.ties tie (hties ▸ htie)).1
    · intro b hb
      rw [hasParameter_setAt? hset]
      exact (h.bounds b (hbounds ▸ hb)).1
  induction m generalizing path name m' with
  | curve c =>
    cases h with
    | curve hc h =>
      obtain ⟨-, -, rfl⟩ := setAt?_curve_eq_some hset
      exact .curve (hc.congr rfl rfl (Named.names_set _ _ _) rfl) (hattached h hset rfl rfl)
  | composite c members ih =>
    cases h with
    | composite hc hm hk h =>
      obtain ⟨i, p, n, mem, new, -, hmem, hnew, rfl⟩ := setAt?_composite_eq_some hset
      have hin := List.mem_of_getElem? hmem
      refine .composite hc ?_ ?_ (hattached h hset rfl rfl)
      · intro mem' hmem'
        rcases List.mem_or_eq_of_mem_set hmem' with hold | rfl
        · exact hm mem' hold
        · exact ih mem hin (hm mem hin) hnew
      · intro mem' hmem'
        rcases List.mem_or_eq_of_mem_set hmem' with hold | rfl
        · exact hk mem' hold
        · exact hk mem hin

theorem Sound.setAttributeText {m m' : Model} {name s : Text} (h : m.Sound)
    (hset : m.setAttributeText name s = .ok m') : m'.Sound := by
  obtain ⟨old, value, hold, hvalue, hset⟩ := setAttributeText_eq_ok hset
  obtain ⟨htype, htrimmed⟩ := Attribute.trimmed_of_reread hvalue
  cases h with
  | @curve c hc h =>
    obtain ⟨c', hc', rfl⟩ := Result.map_eq_ok.1 hset
    refine .curve (hc.setAttribute hold htype htrimmed hc') ?_
    obtain ⟨attributes, -, hchanged⟩ := Result.bind_eq_ok.1 hc'
    rcases Curve.attributeChanged_eq_ok hchanged with rfl | ⟨names, formula?, rfl⟩
    · exact ⟨h.ties, h.distinctTies, h.bounds, h.distinctBounds⟩
    · have hhas : ∀ other, names.contains other = true →
          Named.has other (c.declare names).parameters = true := by
        intro other hother
        rw [Named.has_iff_mem_names, Curve.names_declare]
        exact List.contains_iff_mem.1 hother
      apply h.congr
      · exact List.filter_sublist
      · exact List.filter_sublist
      · intro tie htie
        rw [hasParameter_curve]
        exact hhas _ (List.mem_filter.1 htie).2
      · intro b hb
        rw [hasParameter_curve]
        exact hhas _ (List.mem_filter.1 hb).2
  | @composite c members hc hm hk h =>
    obtain ⟨attributes, hreplace, hset⟩ := Result.bind_eq_ok.1 hset
    cases hset
    obtain ⟨-, rfl⟩ := Slots.replace_eq_ok hreplace
    refine .composite ⟨hc.type, ?_⟩ hm hk ⟨h.ties, h.distinctTies, h.bounds, h.distinctBounds⟩
    obtain ⟨b, hb⟩ := hc.attributes
    have hold' : Named.get? name c.attributes = some old := hold
    rw [hb] at hold'
    obtain ⟨rfl, rfl⟩ | ⟨-, hnil⟩ := Named.get?_cons_eq_some.1 hold'
    · cases value with
      | bool b' => exact ⟨b', by rw [hb]; rfl⟩
      | _ => cases htype
    · cases hnil

/-! ## Members -/

theorem hasParameter_append {c : Composite} {members : List (Member Model)} {mem : Member Model}
    {name : Text} (h : (composite c members).hasParameter name = true) :
    (composite c (members ++ [mem])).hasParameter name = true := by
  rw [hasParameter] at h ⊢
  obtain ⟨k, hk⟩ := Option.isSome_iff_exists.1 h
  have hplace : (composite c members).place? [] name = some k := hk
  rw [place?_composite] at hplace
  obtain ⟨⟨i, p, n⟩, hd, hplace⟩ := Option.bind_eq_some_iff.1 hplace
  obtain ⟨mem', hmem', hplace⟩ := Option.bind_eq_some_iff.1 hplace
  obtain ⟨k', hk', -⟩ := Option.map_eq_some_iff.1 hplace
  have hlt := (List.getElem?_eq_some_iff.1 hmem').1
  have hnew : (composite c (members ++ [mem])).place? [] name =
      some (offset (members ++ [mem]) i + k') := by
    rw [place?_of_descend hd, List.getElem?_append_left hlt, hmem', Option.bind_some, hk',
      Option.map_some]
  exact Option.isSome_iff_exists.2 ⟨_, hnew⟩

theorem hasParameter_set_locals {c : Composite} {members : List (Member Model)} {i : Nat}
    {mem : Member Model} (hmem : members[i]? = some mem) (locals : Slots) (name : Text) :
    (composite c (members.set i { mem with locals })).hasParameter name =
      (composite c members).hasParameter name := by
  have hplace : (composite c (members.set i { mem with locals })).place? [] name =
      (composite c members).place? [] name := by
    rw [place?_composite, place?_composite]
    cases descend [] name with
    | none => rfl
    | some d =>
      obtain ⟨j, path, n⟩ := d
      have hoffset : offset (members.set i { mem with locals }) j = offset members j := by
        apply offset_set hmem
        rfl
      simp only [Option.bind_some, hoffset]
      by_cases hij : i = j
      · subst hij
        rw [List.getElem?_set_self (List.getElem?_eq_some_iff.1 hmem).1, hmem, Option.bind_some,
          Option.bind_some]
      · rw [List.getElem?_set_ne hij]
  exact congrArg Option.isSome hplace

theorem Sound.addMember {c : Composite} {members : List (Member Model)} {new : Model}
    (h : Sound (.composite c members)) (hnew : new.Sound) :
    Sound (.composite c (members ++ [⟨c.localDefaults, new⟩])) := by
  cases h with
  | composite hc hm hk h =>
    refine .composite hc ?_ ?_ ?_
    · intro mem hmem
      rcases List.mem_append.1 hmem with hmem | hmem
      · exact hm mem hmem
      · rw [List.mem_singleton.1 hmem]
        exact hnew
    · intro mem hmem
      rcases List.mem_append.1 hmem with hmem | hmem
      · exact hk mem hmem
      · rw [List.mem_singleton.1 hmem]
        exact hc.keeps_new
    · exact h.congr (List.Sublist.refl _) (List.Sublist.refl _)
        (fun tie htie => hasParameter_append (h.ties tie htie).1)
        fun b hb => hasParameter_append (h.bounds b hb).1

theorem Sound.setLocal {m m' : Model} {i : Nat} {name s : Text} (h : m.Sound)
    (hset : m.setLocal i name s = .ok m') : m'.Sound := by
  cases h with
  | curve => cases hset
  | composite hc hm hk h =>
    obtain ⟨mem, old, value, hmem, hold, hvalue, rfl⟩ := setLocal_eq_ok hset
    have hin := List.mem_of_getElem? hmem
    refine .composite hc ?_ ?_ ?_
    · intro mem' hmem'
      rcases List.mem_or_eq_of_mem_set hmem' with hmem' | rfl
      · exact hm mem' hmem'
      · exact hm mem hin
    · intro mem' hmem'
      rcases List.mem_or_eq_of_mem_set hmem' with hmem' | rfl
      · exact hk mem' hmem'
      · exact (hk mem hin).set hold hvalue
    · apply h.congr
      · exact List.Sublist.refl _
      · exact List.Sublist.refl _
      · intro tie htie
        rw [hasParameter_set_locals hmem]
        exact (h.ties tie htie).1
      · intro b hb
        rw [hasParameter_set_locals hmem]
        exact (h.bounds b hb).1

end Model

/-! ## What is read -/

namespace Catalogue

/-- A new function of a built-in type. -/
theorem create_builtin {name : Text} {m : Model} (h : builtin.create name = .ok m) :
    (∃ shape, m = .ofShape shape) ∨
      ∃ base ∈ [Composite.plain, Composite.multiDomain], m = .composite base [] := by
  have hentry : ∀ {entry}, Named.get? name builtin = some entry →
      (∃ shape, entry = .simple (.ofShape shape)) ∨
        ∃ base ∈ [Composite.plain, Composite.multiDomain], entry = .composite base := by
    intro entry hget
    rcases List.mem_append.1 (Named.mem_of_get? hget) with hmem | hmem
    · obtain ⟨shape, -, he⟩ := List.mem_map.1 hmem
      cases he
      exact .inl ⟨shape, rfl⟩
    · right
      rcases List.mem_cons.1 hmem with he | hmem
      · cases he
        exact ⟨_, List.mem_cons_self, rfl⟩
      · cases List.mem_singleton.1 hmem
        exact ⟨_, List.mem_cons_of_mem _ List.mem_cons_self, rfl⟩
  rw [create] at h
  split at h
  · rename_i model hget
    cases h
    rcases hentry hget with ⟨shape, he⟩ | ⟨base, -, he⟩
    · cases he
      exact .inl ⟨shape, rfl⟩
    · cases he
  · rename_i c hget
    cases h
    rcases hentry hget with ⟨shape, he⟩ | ⟨base, hbase, he⟩
    · cases he
    · cases he
      exact .inr ⟨c, hbase, rfl⟩
  · cases h

/-- A new function of a built-in type has nothing attached. -/
theorem create_builtin_unattached {name : Text} {m : Model} (h : builtin.create name = .ok m) :
    m.ties = [] ∧ m.bounds = [] := by
  rcases create_builtin h with ⟨shape, rfl⟩ | ⟨base, hbase, rfl⟩
  · exact ⟨rfl, rfl⟩
  · rcases List.mem_cons.1 hbase with rfl | hbase
    · exact ⟨rfl, rfl⟩
    · rw [List.mem_singleton.1 hbase]
      exact ⟨rfl, rfl⟩

theorem sound_of_create {name : Text} {m : Model} (h : builtin.create name = .ok m) : m.Sound := by
  have hnew := create_builtin_unattached h
  rcases create_builtin h with ⟨shape, rfl⟩ | ⟨base, hbase, rfl⟩
  · exact .curve (Curve.configured_ofShape shape) (Model.attached_new hnew.1 hnew.2)
  · refine .composite ⟨⟨base, hbase, rfl, rfl, rfl⟩, ?_⟩ nofun nofun
      (Model.attached_new hnew.1 hnew.2)
    rcases List.mem_cons.1 hbase with rfl | hbase
    · exact ⟨false, rfl⟩
    · rw [List.mem_singleton.1 hbase]
      exact ⟨false, rfl⟩

theorem unmarked_builtin : builtin.Unmarked := Catalogue.unmarked_of_all (by decide)

end Catalogue

namespace Reader

theorem stated_of_createBound {r : Reader} {kind : Text} {m : Model} {chain : Expr} {b : Bound}
    (h : r.createBound kind m chain false = .ok b) : b.Stated := by
  rw [createBound] at h
  split at h
  · exact (Bound.ofChain_eq_ok h).1
  · cases h

theorem invariant_sound {r : Reader} (hr : r.types = .builtin) : r.Invariant Model.Sound where
  create h := Catalogue.sound_of_create (hr ▸ h)
  step := by
    intro m m' hm hstep
    cases hstep with
    | configure hset => exact hm.setAttributeText hset
    | parameter hset => exact hm.setAt? hset
    | tie hattach =>
      have hattached := hm.attached.attachTie hattach
      obtain ⟨-, rfl⟩ := Model.attachTie_eq_ok.1 hattach
      exact hm.withTies hattached
    | @bound kind chain b factor hcreate hattach =>
      have hb := stated_of_createBound hcreate
      have hfactor : Bound.Stated { b with factor } :=
        ⟨hb.parameter, hb.limited, hb.ordered, hb.own⟩
      have hattached := hm.attached.attachBound hfactor hattach
      obtain ⟨-, rfl⟩ := Model.attachBound_eq_ok.1 hattach
      exact hm.withBounds hattached
  member hm hnew := hm.addMember hnew
  setLocal hm hset := hm.setLocal hset

/-- Every model that is read with the built-in types is sound. -/
theorem sound_of_read {r : Reader} (hr : r.types = .builtin) {s : Text} {m : Model}
    (h : r.read s = .ok m) : m.Sound :=
  holds_of_read (hr ▸ Catalogue.unmarked_builtin) (invariant_sound hr) h

end Reader
end Lineshape
