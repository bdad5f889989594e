import Lineshape.Proofs.Curve.Keys

/-! # Curves rebuilt from their attributes

A curve in step with its attributes is determined by its shape, its attributes and the values of its
parameters, apart from what is attached to it (`Curve.Configured.eq_of_blank`). A new curve of the
shape takes the attributes one by one (`Curve.Configured.exists_setAttribute`). -/

namespace Lineshape
set_option autoImplicit false

namespace Named

variable {α : Type}

/-- The list with several values replaced. -/
def setAll (l values : Named α) : Named α := values.foldl (fun l p => set p.1 p.2 l) l

theorem setAll_cons_of_ne {n : Text} {x : α} {l values : Named α} (h : n ∉ names values) :
    setAll ((n, x) :: l) values = (n, x) :: setAll l values := by
  induction values generalizing l with
  | nil => rfl
  | cons p values ih =>
    obtain ⟨m, y⟩ := p
    have hne : n ≠ m := fun he => h (he ▸ List.mem_cons_self)
    have hset : set m y ((n, x) :: l) = (n, x) :: set m y l := if_neg hne
    change setAll (set m y ((n, x) :: l)) values = (n, x) :: setAll (set m y l) values
    rw [hset, ih fun hm => h (List.mem_cons_of_mem m hm)]

/-- All values replaced in order give the list of the new values. -/
theorem setAll_eq {l values : Named α} (hnames : names l = names values)
    (hnodup : (names values).Nodup) : setAll l values = values := by
  induction values generalizing l with
  | nil => exact List.map_eq_nil_iff.1 hnames
  | cons p values ih =>
    obtain ⟨n, y⟩ := p
    cases l with
    | nil => cases hnames
    | cons q l =>
      obtain ⟨m, x⟩ := q
      obtain ⟨hm, hrest⟩ := List.cons.inj hnames
      have hm : m = n := hm
      subst hm
      obtain ⟨hfree, hnodup⟩ := List.nodup_cons.1 hnodup
      have hset : set m y ((m, x) :: l) = (m, y) :: l := if_pos rfl
      change setAll (set m y ((m, x) :: l)) values = _
      rw [hset, setAll_cons_of_ne hfree, ih hrest hnodup]

theorem get?_of_mem {l : Named α} (hnodup : (names l).Nodup) {name : Text} {x : α}
    (h : (name, x) ∈ l) : get? name l = some x := by
  induction l with
  | nil => cases h
  | cons p l ih =>
    obtain ⟨n, y⟩ := p
    obtain ⟨hfree, hnodup⟩ := List.nodup_cons.1 hnodup
    rcases List.mem_cons.1 h with he | h
    · cases he
      exact if_pos rfl
    · have hne : n ≠ name := by
        rintro rfl
        exact hfree (List.mem_map.2 ⟨_, h, rfl⟩)
      exact (if_neg hne).trans (ih hnodup h)

end Named

theorem Shape.attribute_keys (shape : Shape) {name : Text}
    (h : name ∈ Named.names shape.attributes) : isDotted name = true ∧ name.head? ≠ some '$' ∧
      name ≠ "ties".toList ∧ name ≠ "constraints".toList := by
  have hall : ∀ shape ∈ all, ∀ name ∈ Named.names shape.attributes, isDotted name = true ∧
      name.head? ≠ some '$' ∧ name ≠ "ties".toList ∧ name ≠ "constraints".toList := by decide
  exact hall shape (by cases shape <;> decide) name h

namespace Curve

variable {c c' : Curve}

/-- The attributes of a curve are those of its shape, with other values of the same types. -/
theorem Configured.attribute_types (h : c.Configured) :
    c.attributes.map (fun slot => (slot.1, slot.2.type)) =
      c.shape.attributes.map fun slot => (slot.1, slot.2.type) := by
  unfold Configured at h
  split at h
  · rename_i hshape
    obtain ⟨n, -, hattributes, -⟩ := h
    rw [hshape, hattributes]
    rfl
  · rename_i hshape
    obtain ⟨n, start, stop, -, hattributes, -⟩ := h
    rw [hshape, hattributes]
    rfl
  · rename_i hshape
    obtain ⟨s, -, hattributes, -⟩ := h
    rw [hshape, hattributes]
    rfl
  · rename_i hshape
    obtain ⟨xs, ys, hattributes, -⟩ := h
    rw [hshape, hattributes]
    rfl
  · obtain ⟨hattributes, -⟩ := h
    rw [hattributes]
    generalize c.shape = shape at *
    cases shape <;> first | contradiction | rfl

theorem Configured.attribute_names (h : c.Configured) :
    Named.names c.attributes = Named.names c.shape.attributes := by
  have hmap := congrArg (List.map Prod.fst) h.attribute_types
  rw [List.map_map, List.map_map] at hmap
  exact hmap

theorem Configured.attribute_keys (h : c.Configured) {name : Text}
    (hname : name ∈ Named.names c.attributes) : isDotted name = true ∧ name.head? ≠ some '$' ∧
      name ≠ "ties".toList ∧ name ≠ "constraints".toList :=
  c.shape.attribute_keys (h.attribute_names ▸ hname)

theorem Configured.nodup_attributes (h : c.Configured) : (Named.names c.attributes).Nodup := by
  rw [h.attribute_names]
  generalize c.shape = shape
  cases shape <;> decide

theorem Named.get?_types {l l' : Slots} (h : l.map (fun slot => (slot.1, slot.2.type)) =
      l'.map fun slot => (slot.1, slot.2.type)) {name : Text} {value : Attribute}
    (hvalue : Named.get? name l = some value) :
    ∃ old, Named.get? name l' = some old ∧ old.type = value.type := by
  induction l generalizing l' with
  | nil => cases hvalue
  | cons p l ih =>
    cases l' with
    | nil => cases h
    | cons q l' =>
      obtain ⟨hhead, hrest⟩ := List.cons.inj h
      obtain ⟨hname, htype⟩ := Prod.mk.inj hhead
      obtain ⟨n, x⟩ := p
      obtain ⟨n', y⟩ := q
      have hname : n = n' := hname
      subst hname
      rcases Named.get?_cons_eq_some.1 hvalue with ⟨hn, rfl⟩ | ⟨hn, hvalue⟩
      · exact ⟨y, if_pos hn, htype.symm⟩
      · obtain ⟨old, hold, htype⟩ := ih hrest hvalue
        exact ⟨old, (if_neg hn).trans hold, htype⟩

/-- Curves of one shape with the same attributes have parameters of the same names and the same
formula. -/
theorem Configured.congr_attributes (h : c.Configured) (h' : c'.Configured)
    (hshape : c'.shape = c.shape) (hattributes : c'.attributes = c.attributes) :
    Named.names c'.parameters = Named.names c.parameters ∧ c'.formula? = c.formula? := by
  have hnone : c.formula?.isNone = true → c'.formula?.isNone = true → c'.formula? = c.formula? := by
    intro hn hn'
    rw [Option.isNone_iff_eq_none.1 hn, Option.isNone_iff_eq_none.1 hn']
  unfold Configured at h h'
  rw [hshape, hattributes] at h'
  split at h
  · rename_i hc
    rw [hc] at h'
    obtain ⟨n, -, ha, hnames, hformula⟩ := h
    obtain ⟨n', -, ha', hnames', hformula'⟩ := h'
    rw [ha] at ha'
    cases ha'
    exact ⟨hnames'.trans hnames.symm, hnone hformula hformula'⟩
  · rename_i hc
    rw [hc] at h'
    obtain ⟨n, start, stop, -, ha, hnames, hformula⟩ := h
    obtain ⟨n', start', stop', -, ha', hnames', hformula'⟩ := h'
    rw [ha] at ha'
    cases ha'
    exact ⟨hnames'.trans hnames.symm, hnone hformula hformula'⟩
  · rename_i hc
    rw [hc] at h'
    obtain ⟨s, -, ha, hs⟩ := h
    obtain ⟨s', -, ha', hs'⟩ := h'
    rw [ha] at ha'
    cases ha'
    rcases hs with ⟨hblank, hformula, hnil⟩ | ⟨hblank, formula, hparse, hformula, hnames⟩
    · rcases hs' with ⟨-, hformula', hnil'⟩ | ⟨hblank', -⟩
      · exact ⟨by rw [hnil, hnil'], by rw [hformula, hformula']⟩
      · rw [hblank] at hblank'
        cases hblank'
    · rcases hs' with ⟨hblank', -⟩ | ⟨-, formula', hparse', hformula', hnames'⟩
      · rw [hblank] at hblank'
        cases hblank'
      · rw [hparse] at hparse'
        cases hparse'
        exact ⟨hnames'.trans hnames.symm, hformula'.trans hformula.symm⟩
  · rename_i hc
    rw [hc] at h'
    obtain ⟨xs, ys, ha, hnames, hformula⟩ := h
    obtain ⟨xs', ys', ha', hnames', hformula'⟩ := h'
    exact ⟨hnames'.trans hnames.symm, hnone hformula hformula'⟩
  · obtain ⟨-, hnames, hformula⟩ := h
    have hplain : Named.names c'.parameters = Named.names c.shape.parameters ∧
        c'.formula?.isNone = true := by
      generalize c.shape = shape at *
      cases shape <;> first | contradiction | exact h'.2
    exact ⟨hplain.1.trans hnames.symm, hnone hformula hplain.2⟩

/-! ## Attributes taken over -/

theorem exists_declareCoefficients {n : Nat} (h : Named.get? "n".toList c.attributes = some (.int n))
    (hn : (n : Int) ≤ maxDegree) : ∃ c', c.declareCoefficients = .ok c' := by
  rw [declareCoefficients, h]
  exact ⟨_, if_pos ⟨Int.natCast_nonneg n, hn⟩⟩

/-- The value of an attribute of a curve in step with its attributes suits every curve of the shape. -/
theorem Configured.exists_attributeChanged (h : c.Configured) (hshape : c'.shape = c.shape)
    {name : Text} {value : Attribute} (hvalue : Named.get? name c.attributes = some value)
    (hvalue' : Named.get? name c'.attributes = some value) :
    ∃ c'', c'.attributeChanged name = .ok c'' := by
  unfold Configured at h
  rw [attributeChanged, hshape]
  split at h
  · rename_i hc
    obtain ⟨n, hn, hattributes, -⟩ := h
    rw [hattributes] at hvalue
    obtain ⟨rfl, rfl⟩ | ⟨-, hnil⟩ := Named.get?_cons_eq_some.1 hvalue
    · rw [hc]
      exact exists_declareCoefficients hvalue' hn
    · cases hnil
  · rename_i hc
    obtain ⟨n, start, stop, hn, hattributes, -⟩ := h
    rw [hattributes] at hvalue
    rw [hc]
    dsimp only
    split
    · rename_i hname
      subst hname
      cases hvalue
      exact exists_declareCoefficients hvalue' hn
    · exact ⟨c', rfl⟩
  · rename_i hc
    obtain ⟨s, -, hattributes, hs⟩ := h
    rw [hattributes] at hvalue
    rw [hc]
    dsimp only
    split
    · rename_i hname
      subst hname
      cases hvalue
      rw [compile, hvalue']
      dsimp only
      rcases hs with ⟨hblank, -⟩ | ⟨hblank, formula, hparse, -⟩
      · exact ⟨_, if_pos hblank⟩
      · rw [hblank, hparse]
        exact ⟨_, rfl⟩
    · exact ⟨c', rfl⟩
  · rename_i hc
    rw [hc]
    exact ⟨c', rfl⟩
  · split
    · contradiction
    · contradiction
    · contradiction
    · exact ⟨c', rfl⟩

theorem Configured.trimmed (h : c.Configured) {name s : Text}
    (hs : (name, .string s) ∈ c.attributes) : Text.Trimmed s := by
  unfold Configured at h
  split at h
  · obtain ⟨n, -, hattributes, -⟩ := h
    simp [hattributes] at hs
  · obtain ⟨n, start, stop, -, hattributes, -⟩ := h
    simp [hattributes] at hs
  · obtain ⟨text, htext, hattributes, -⟩ := h
    rw [hattributes, List.mem_singleton] at hs
    cases hs
    exact htext
  · obtain ⟨xs, ys, hattributes, -⟩ := h
    simp [hattributes] at hs
  · rw [h.1] at hs
    cases hs

/-- A curve of the same shape without ties and bounds, in step with its attributes. -/
structure Blank (c c' : Curve) : Prop where
  shape : c'.shape = c.shape
  configured : c'.Configured
  ties : c'.ties = []
  bounds : c'.bounds = []

theorem blank_ofShape (c : Curve) : Blank c (.ofShape c.shape) :=
  ⟨rfl, configured_ofShape c.shape, rfl, rfl⟩

/-- A blank curve takes over each attribute. -/
theorem Configured.exists_setAttribute (h : c.Configured) (hblank : Blank c c') {name : Text}
    {value : Attribute} (hmem : (name, value) ∈ c.attributes) :
    ∃ old c'', Named.get? name c'.attributes = some old ∧ old.type = value.type ∧
      c'.setAttribute name value = .ok c'' ∧ Blank c c'' ∧
      c''.attributes = Named.set name value c'.attributes := by
  obtain ⟨hshape, hconfigured, hties, hbounds⟩ := hblank
  have htypes := h.attribute_types
  rw [← hshape, ← hconfigured.attribute_types] at htypes
  have hvalue := Named.get?_of_mem h.nodup_attributes hmem
  obtain ⟨old, hold, htype⟩ := Named.get?_types htypes hvalue
  have hreplace : c'.attributes.replace c'.shape.name name value =
      .ok (Named.set name value c'.attributes) := by
    rw [Slots.replace, Slots.get, hold]
    exact if_pos htype
  have hset : Named.get? name (Named.set name value c'.attributes) = some value :=
    Named.get?_set_self (by rw [Named.has, hold]; rfl)
  have hnext : ({ c' with attributes := Named.set name value c'.attributes } : Curve).shape = c.shape :=
    hshape
  obtain ⟨c'', hchanged⟩ := h.exists_attributeChanged hnext hvalue hset
  have hdone : c'.setAttribute name value = .ok c'' :=
    Result.bind_eq_ok.2 ⟨_, hreplace, hchanged⟩
  have hblank : Blank c c'' := by
    refine ⟨(shape_attributeChanged hchanged).trans hshape, hconfigured.setAttribute hold htype ?_ hdone,
      ?_, ?_⟩
    · rintro s rfl
      exact h.trimmed hmem
    · rcases attributeChanged_eq_ok hchanged with rfl | ⟨names, formula?, rfl⟩
      · exact hties
      · exact (congrArg (List.filter _) hties).trans rfl
    · rcases attributeChanged_eq_ok hchanged with rfl | ⟨names, formula?, rfl⟩
      · exact hbounds
      · exact (congrArg (List.filter _) hbounds).trans rfl
  exact ⟨old, c'', hold, htype, hdone, hblank, attributes_attributeChanged hchanged⟩

/-- With all attributes and all values of parameters taken over, a blank curve is the curve without
its ties and bounds. -/
theorem Configured.eq_of_blank (h : c.Configured) (hblank : Blank c c')
    (hattributes : c'.attributes = c.attributes) :
    { c' with parameters := Named.setAll c'.parameters c.parameters } =
      { c with ties := [], bounds := [] } := by
  obtain ⟨hshape, hconfigured, hties, hbounds⟩ := hblank
  obtain ⟨hnames, hformula⟩ := h.congr_attributes hconfigured hshape hattributes
  have hparameters := Named.setAll_eq hnames h.nodup_names
  obtain ⟨shape, parameters, attributes, formula?, ties, bounds⟩ := c'
  cases hshape
  cases hattributes
  cases hformula
  cases hties
  cases hbounds
  exact congrArg (fun l => Curve.mk c.shape l c.attributes c.formula? [] []) hparameters

end Curve
end Lineshape
