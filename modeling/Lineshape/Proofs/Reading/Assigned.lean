import Lineshape.Proofs.Expr.Joined
import Lineshape.Proofs.Number.RoundTrip
import Lineshape.Proofs.Reading.Bare
import Lineshape.Proofs.Reading.Constraints
import Lineshape.Proofs.Reading.Headers

/-! # Parameters set by their names

An item of a model text sets a parameter if its key is the name of the parameter and its value is a
number. The key could mean something else: it could be that of an attribute, or reserved for ties or
for constraints. Of the parameters that functions have, only those of a formula can have such a name.

* `Key.isReserved`: the keys that always have a meaning of their own.
* `Curve.Made`: what attributes make of a new function; there are no ties to apply.
* `Reader.applyTies_ne_of_taken`: with a name that is taken, a number never sets the parameter.
* `Reader.exists_item_of_parameter`: with any other name it does, and it changes nothing else. -/

namespace Lineshape
set_option autoImplicit false

/-! ## Keys -/

/-- Whether a key always has a meaning of its own: a list of ties, or one of constraints. -/
def Key.isReserved (key : Text) : Bool := key = "ties".toList || "constraint".toList.isPrefixOf key

theorem Key.ofText_of_unbroken {name : Text} (h : Unbroken name) (hfree : isReserved name = false) :
    ofText name ∈ [.name, .composite, .other name] := by
  obtain ⟨c, rest, rfl, hstart⟩ := h.begins
  rw [isReserved, Bool.or_eq_false_iff] at hfree
  exact ofText_of_start hstart (of_decide_eq_false hfree.1) hfree.2

/-- A reserved key gives ties or constraints. -/
theorem Key.ofText_of_isReserved {name : Text} (h : isReserved name = true) :
    ofText name = .ties ∨ ofText name = .constraints := by
  rw [isReserved, Bool.or_eq_true, decide_eq_true_eq] at h
  rcases h with rfl | hconstraint
  · exact .inl rfl
  · have hne : ∀ other ∈ ["name".toList, "composite".toList, "ties".toList], name ≠ other := by
      rintro other hother rfl
      exact absurd hconstraint ((by decide : ∀ s ∈ ["name".toList, "composite".toList, "ties".toList],
        ¬ "constraint".toList.isPrefixOf s = true) name hother)
    simp only [List.forall_mem_cons] at hne
    rw [ofText.eq_def, if_neg hne.1, if_neg hne.2.1, if_neg hne.2.2.1, if_pos hconstraint]
    exact .inr rfl

namespace Curve

variable {c : Curve} {shape : Shape} {name : Text}

/-- Only a parameter from a formula can have the name of an attribute, or a reserved one. -/
theorem Configured.key (h : c.Configured) (hname : name ∈ Named.names c.parameters)
    (hfree : c.shape = .userFunction → name ∉ Named.names c.attributes ∧ Key.isReserved name = false) :
    name ∉ Named.names c.attributes ∧ Key.ofText name ∈ [.name, .composite, .other name] := by
  by_cases huser : c.shape = .userFunction
  · exact ⟨(hfree huser).1, Key.ofText_of_unbroken (h.unbroken name hname) (hfree huser).2⟩
  · have hkey := h.parameterKey (fun he => absurd he huser) name hname
    exact ⟨hkey.free, hkey.key⟩

/-! ## Curves made by attributes -/

/-- A curve of a shape without ties, with attributes and parameters that belong together. -/
structure Made (shape : Shape) (c : Curve) : Prop where
  ofShape : c.shape = shape
  configured : c.Configured
  names : Named.names c.attributes = Named.names shape.attributes
  untied : c.ties = []

theorem made_ofShape (shape : Shape) : Made shape (ofShape shape) where
  ofShape := rfl
  configured := configured_ofShape shape
  names := rfl
  untied := rfl

theorem Made.setAttributeText {s : Text} {m : Model} (h : Made shape c)
    (hset : (Model.curve c).setAttributeText name s = .ok m) :
    ∃ c', m = .curve c' ∧ Made shape c' := by
  obtain ⟨old, value, hold, hreread, hset⟩ := Model.setAttributeText_eq_ok hset
  obtain ⟨htype, htrimmed⟩ := Attribute.trimmed_of_reread hreread
  obtain ⟨c', hc', rfl⟩ := Result.map_eq_ok.1 hset
  obtain ⟨-, -, -, hchanged⟩ := setAttribute_eq_ok hc'
  refine ⟨c', rfl, ?_, h.configured.setAttribute hold htype htrimmed hc', ?_, ?_⟩
  · rw [shape_attributeChanged hchanged]
    exact h.ofShape
  · rw [attributes_attributeChanged hchanged, Named.names_set]
    exact h.names
  · rcases attributeChanged_eq_ok hchanged with rfl | ⟨names, formula?, rfl⟩
    · exact h.untied
    · change c.ties.filter _ = []
      rw [h.untied]
      rfl

/-- Ties that are not there are applied without an effect. -/
theorem Made.applyTies_eq (h : Made shape c) : (Model.curve c).applyTies = (.curve c, none) :=
  Model.Untied.applyTies_eq (.curve h.untied)

end Curve

namespace Reader

variable {r : Reader} {shape : Shape} {c : Curve} {items : List Expr} {name : Text}

/-- An item that sets an attribute of functions of a shape. -/
def SetsAttribute (shape : Shape) (item : Expr) : Prop :=
  ∃ key value, Item.assignment? item = some (key, value) ∧ key ∈ Named.names shape.attributes

theorem made_of_readItems {m : Model} {w w' : Work Parents} (hc : Curve.Made shape c)
    (hitems : ∀ item ∈ items, SetsAttribute shape item)
    (h : Act.Runs (r.readItems (.curve c) items) w m w') :
    ∃ c', m = .curve c' ∧ Curve.Made shape c' := by
  induction items generalizing c w with
  | nil =>
    obtain ⟨rfl, -⟩ := Act.runs_pure.1 h
    exact ⟨c, rfl, hc⟩
  | cons item items ih =>
    obtain ⟨⟨key, value, hassign, hkey⟩, hitems⟩ := List.forall_mem_cons.1 hitems
    obtain ⟨key', value', m₁, v, hassign', hassigns, hmore⟩ := runs_readItems_cons.1 h
    cases hassign.symm.trans hassign'
    have hhas : (Model.curve c).hasAttribute key = true :=
      Named.has_iff_mem_names.2 (hc.names ▸ hkey)
    obtain ⟨c₁, rfl, hc₁⟩ := hc.setAttributeText (hassigns.of_hasAttribute hhas).1
    exact ih hc₁ hitems hmore

/-! ## Numbers where something else is expected -/

/-- A tree that is neither a list, nor a chain, nor blank. -/
structure Lone (e : Expr) : Prop where
  node : e.IsNode
  notAssignment : e.form ≠ .assign
  notEmpty : e.isEmptyMarker = false
  items : e.toList [','] = [e]
  few : e.terms.length < 2

/-- The tree of a number is a literal, perhaps behind a sign. -/
theorem tree_number {s : Text} {x : Float} (h : Number.read? s = some x) (op : Text) :
    ∃ literal, (Literal.magnitude? literal).isSome = true ∧ literal ≠ Expr.emptyName ∧
      ((Number.phrase s).tree op = ⟨literal, op, []⟩ ∨
        ∃ c, (c = '-' ∨ c = '+') ∧ (Number.phrase s).tree op = ⟨[c], op, [⟨literal, [], []⟩]⟩) := by
  rw [Number.read?.eq_def] at h
  split at h
  · rename_i rest
    obtain ⟨y, hy, -⟩ := Option.map_eq_some_iff.1 h
    exact ⟨rest, by rw [hy]; rfl, (Literal.magnitude_word hy).2, .inr ⟨'-', .inl rfl, rfl⟩⟩
  · rename_i rest
    exact ⟨rest, by rw [h]; rfl, (Literal.magnitude_word h).2, .inr ⟨'+', .inr rfl, rfl⟩⟩
  · rename_i hminus hplus
    refine ⟨s, by rw [h]; rfl, (Literal.magnitude_word h).2, .inl ?_⟩
    rw [Number.phrase.eq_def]
    split
    · exact absurd rfl (hminus _)
    · exact absurd rfl (hplus _)
    · rfl

theorem render_number {s : Text} {x : Float} (hr : r.operators = .standard)
    (h : Number.read? s = some x) (op : Text) : r.render ((Number.phrase s).tree op) = s := by
  obtain ⟨-, -, -, -, htree⟩ := Number.phrase_spec h
  rw [render, hr]
  exact htree op

theorem lone_number {s : Text} {x : Float} (h : Number.read? s = some x) (op : Text) :
    Lone ((Number.phrase s).tree op) := by
  obtain ⟨literal, -, hne, he | ⟨c, rfl | rfl, he⟩⟩ := tree_number h op
  all_goals rw [he]
  · exact ⟨.inr (by simp), by simp [Expr.form, Expr.isLeaf], decide_eq_false hne,
      if_neg (by simp [Expr.isLeaf]), by simp⟩
  all_goals exact ⟨.inl (by simp), by simp [Expr.form, Expr.isLeaf], rfl, rfl, by simp⟩

/-- A number is not made of the name of an attribute. -/
theorem formula_notMem_identifiers {s : Text} {x : Float} (h : Number.read? s = some x) (op : Text) :
    "Formula".toList ∉ ((Number.phrase s).tree op).identifiers := by
  obtain ⟨literal, hliteral, -, he⟩ := tree_number h op
  have hleaf : ∀ op, "Formula".toList ∉ Expr.identifiers ⟨literal, op, []⟩ := by
    intro op hmem
    rw [Expr.identifiers] at hmem
    split at hmem
    · rw [← List.mem_singleton.1 hmem] at hliteral
      exact absurd hliteral (by decide)
    · cases hmem
  obtain he | ⟨c, -, he⟩ := he
  · rw [he]
    exact hleaf op
  · rw [he, Expr.identifiers, Expr.identifiersOf, List.append_nil]
    exact hleaf []

section

variable {e : Expr} {w w' : Work Model} {u : Unit}

theorem not_runs_addTies (h : Lone e) : ¬ Act.Runs (r.addTies e) w u w' := by
  intro hruns
  rw [addTies, tieItems, h.items, List.map_singleton, h.node.bracketsRemoved_eq,
    List.filter_cons_of_pos (by rw [h.notEmpty]; rfl)] at hruns
  obtain ⟨_, v, hruns, -⟩ := Act.runs_bind.1 hruns
  rw [addTie] at hruns
  split at hruns
  · rename_i hform _
    exact h.notAssignment hform
  · exact Act.runs_throw hruns

theorem not_runs_addConstraints (h : Lone e) : ¬ Act.Runs (r.addConstraints e) w u w' := by
  intro hruns
  have hfactor : Clause.factor? e = none := by
    have hassign : Item.assignment? e = none := by
      rw [Item.assignment?]
      split
      · rename_i hform _
        exact absurd hform h.notAssignment
      · rfl
    rw [Clause.factor?, hassign]
  have hclauses : Clause.ofItems [e] = [.constraint e none] := by
    simp [Clause.ofItems, h.node.bracketsRemoved_eq, h.notEmpty, hfactor]
  have hbound : ∀ owner isParameter b,
      Bound.ofChain r.operators owner isParameter e false ≠ .ok b := by
    intro owner isParameter b hb
    rw [Bound.ofChain, if_pos h.few] at hb
    cases hb
  rw [addConstraints, h.items, hclauses] at hruns
  obtain ⟨_, v, hruns, -⟩ := Act.runs_bind.1 hruns
  obtain ⟨m, v, -, hruns⟩ := Act.runs_bind.1 hruns
  obtain ⟨b, v, hruns, -⟩ := Act.runs_bind.1 hruns
  obtain ⟨hcreated, -⟩ := Act.runs_ofModel.1 hruns
  rw [createBound] at hcreated
  split at hcreated
  · exact hbound _ _ _ hcreated
  · cases hcreated

end

/-- A formula is never a number if the name of the attribute is one of its parameters. -/
theorem not_made_of_number {c' : Curve} {x : Float} (hc : Curve.Made .userFunction c')
    (hformula : Named.get? "Formula".toList c'.attributes = some (.string (Number.plain x)))
    (hname : "Formula".toList ∈ Named.names c'.parameters) : False := by
  have hconfigured := hc.configured
  rw [Curve.Configured, hc.ofShape] at hconfigured
  obtain ⟨s, -, hattributes, ⟨-, -, hnone⟩ | ⟨-, formula, hparse, -, hnames⟩⟩ := hconfigured
  · rw [hnone] at hname
    cases hname
  · rw [hattributes] at hformula
    cases hformula
    have hread := Number.read?_plain_self x
    obtain ⟨hvalid, htext, -⟩ := Number.phrase_spec hread
    have hlevels : (Number.phrase (Number.plain x)).levels ≤ defaultDepth + 1 :=
      (Number.levels_phrase _).trans (by decide)
    have htrim : Text.trim (Number.plain x) = (Number.phrase (Number.plain x)).text := by
      rw [htext, (Attribute.trimmed_of_read hread).trim_eq]
    have htree : Expr.ofText (Number.plain x) = .ok ((Number.phrase (Number.plain x)).tree []) :=
      Phrase.parseLevel_eq hvalid hlevels htrim
    rw [htree, Except.ok.injEq] at hparse
    subst hparse
    rw [hnames] at hname
    have hmem := (List.mem_filter.1 hname).1
    exact formula_notMem_identifiers hread [] (Text.mem_sortDistinct.1 hmem)

/-- A number that is assigned to the attribute of a function with a formula becomes the formula. -/
theorem formula_of_setAttributeText {c' : Curve} {x : Float} (hc : Curve.Made .userFunction c)
    (h : (Model.curve c).setAttributeText "Formula".toList (Number.plain x) = .ok (.curve c')) :
    Named.get? "Formula".toList c'.attributes = some (.string (Number.plain x)) := by
  obtain ⟨old, value, hold, hreread, hset⟩ := Model.setAttributeText_eq_ok h
  obtain ⟨s, hstring⟩ : ∃ s, c.attributes = [("Formula".toList, .string s)] := by
    have hconfigured := hc.configured
    rw [Curve.Configured, hc.ofShape] at hconfigured
    obtain ⟨s, -, hstring, -⟩ := hconfigured
    exact ⟨s, hstring⟩
  have hget : Named.get? "Formula".toList c.attributes = some old := hold
  rw [hstring] at hget
  obtain rfl : .string s = old := Option.some.inj hget
  have hstored : Attribute.reread "Formula".toList (Number.plain x) (.string s) =
      .ok (.string (Number.plain x)) :=
    Attribute.reread_eq_ok (Attribute.trimmed_of_read (Number.read?_plain_self x)) rfl rfl
  obtain rfl : value = .string (Number.plain x) :=
    Except.ok.inj (hreread.symm.trans hstored)
  have hattributes : c'.attributes = Named.set "Formula".toList _ c.attributes :=
    (Model.setAttribute_eq_ok hset).1
  rw [hattributes, hstring]
  rfl

/-- A number does not set a parameter with the name of an attribute, or with a reserved one. -/
theorem applyTies_ne_of_taken {m : Model} {w w' : Work Parents} {x : Float}
    (hc : Curve.Made .userFunction c) (hr : r.operators = .standard)
    (hname : name ∈ Named.names c.parameters)
    (htaken : name = "Formula".toList ∨ Key.isReserved name = true)
    (h : Act.Runs (r.readAssignment (.curve c) name ((Number.phrase (Number.plain x)).tree ['='])) w
      m w') :
    m.applyTies ≠ (.curve { c with parameters := Named.set name x c.parameters }, none) := by
  intro hties
  have hread := Number.read?_plain_self x
  have hlone := lone_number hread ['=']
  have hhas : (Model.curve c).hasAttribute name = true ↔ name = "Formula".toList := by
    have hnames : Named.names c.attributes = ["Formula".toList] := hc.names
    rw [Model.hasAttribute, Named.has_iff_mem_names]
    change name ∈ Named.names c.attributes ↔ _
    rw [hnames, List.mem_singleton]
  have hkey : ¬ (Model.curve c).hasAttribute name = true →
      Key.ofText name = .ties ∨ Key.ofText name = .constraints := fun hfree =>
    Key.ofText_of_isReserved (htaken.resolve_left fun he => hfree (hhas.2 he))
  cases runs_readAssignment.1 h with
  | slot hattribute hset =>
    obtain rfl := hhas.1 hattribute
    rw [unquoted, render_number hr hread, Item.unquote_of_head (Attribute.head_of_read hread)] at hset
    obtain ⟨c', rfl, hmade⟩ := hc.setAttributeText hset
    rw [hmade.applyTies_eq, Prod.mk.injEq, Model.curve.injEq] at hties
    obtain ⟨rfl, -⟩ := hties
    exact not_made_of_number hmade (formula_of_setAttributeText hc hset)
      (by rwa [Named.names_set])
  | constraints _ _ hadd =>
    rw [hlone.node.bracketsRemoved_eq] at hadd
    exact not_runs_addConstraints hlone hadd
  | ties _ _ hadd =>
    rw [hlone.node.bracketsRemoved_eq] at hadd
    exact not_runs_addTies hlone hadd
  | parent hfree hparent =>
    rw [hparent] at hkey
    rcases hkey hfree with hkey | hkey <;> cases hkey
  | parameter hfree hconstraints hties =>
    exact (hkey hfree).elim hties hconstraints

/-! ## Assignments as items -/

/-- An assignment to a plain word is read as such wherever items stand, one level above its value. -/
theorem stands_assignment_of_lt {key : Text} {value : Phrase} {n : Nat} (hword : Word true key)
    (hplain : Text.Plain key) (hvalue : value.Tight 3) (hpiece : Piece value.text)
    (hlevels : value.levels < n) (hn : 2 ≤ n) :
    Expr.Stands ',' n (Model.item key value.text) ⟨['='], [], [⟨key, [], []⟩, value.tree ['=']]⟩ ∧
      Sealed ';' (Model.item key value.text) := by
  have hitem : (Phrase.assign (.word key true) value).Tight 2 :=
    Phrase.tight_assign (.word hword) hvalue (Nat.le_refl 2)
  have htext : (Phrase.assign (.word key true) value).text = Model.item key value.text := rfl
  have hwhole : Piece (Model.item key value.text) := .item hplain hpiece
  have hdepth : (Phrase.assign (.word key true) value).levels ≤ n := by
    have hone : (Phrase.word key true).levels = 1 := rfl
    rw [Phrase.assign, Phrase.levels, hone]
    split <;> omega
  have htrimmed := Phrase.trimmed hitem.valid
  have hparse : Expr.parseLevel .standard n [] _ = _ :=
    Phrase.parseLevel_eq hitem.valid hdepth htrimmed.trim_eq
  rw [htext] at htrimmed hparse
  rw [Phrase.tree_assign (.word hword)] at hparse
  exact ⟨⟨hwhole.chunk rfl, htrimmed, hparse⟩, hwhole.hidden ';' rfl⟩

theorem stands_assignment {key : Text} {value : Phrase} (hword : Word true key)
    (hplain : Text.Plain key) (hvalue : value.Tight 3) (hlevels : value.levels ≤ 2)
    (hpiece : Piece value.text) {n : Nat} (hn : 3 ≤ n) :
    Expr.Stands ',' n (Model.item key value.text) ⟨['='], [], [⟨key, [], []⟩, value.tree ['=']]⟩ ∧
      Sealed ';' (Model.item key value.text) :=
  stands_assignment_of_lt hword hplain hvalue hpiece (Nat.lt_of_le_of_lt hlevels hn)
    (Nat.le_of_succ_le hn)

theorem stands_parameter (hc : c.Configured) (hname : name ∈ Named.names c.parameters) (x : Float)
    {n : Nat} (hn : 3 ≤ n) :
    Expr.Stands ',' n (Model.item name (Number.plain x))
        ⟨['='], [], [⟨name, [], []⟩, (Number.phrase (Number.plain x)).tree ['=']]⟩ ∧
      Sealed ';' (Model.item name (Number.plain x)) := by
  obtain ⟨hvalid, htext, hrank, -⟩ := Number.phrase_spec (Number.read?_plain_self x)
  have hpiece : Piece (Number.phrase (Number.plain x)).text := by
    rw [htext]
    exact .number x
  have hstands := stands_assignment (hc.unbroken name hname).word (hc.plain_parameter hname)
    ⟨hvalid, .inl hrank⟩ (Number.levels_phrase _) hpiece hn
  rwa [htext] at hstands

/-- An item behind a text that describes a function is one more item of the function. -/
theorem exists_parseLevel_snoc {n : Nat} {s item : Text} {head e x : Expr} (hs : Expr.Extensible s)
    (hparse : Expr.parseLevel .standard n [] s = .ok e)
    (hitems : functionItems e.bracketsRemoved = head :: items) (hitem : Expr.Stands ',' n item x)
    (hlow : Sealed ';' item) :
    ∃ e', Expr.parseLevel .standard (n + 1) [] (s ++ ',' :: item) = .ok e' ∧
      functionItems e'.bracketsRemoved = head :: items ++ [x.withOp [',']] := by
  rw [(Expr.isNode_of_parseLevel hs.trimmed hs.unbracketed hparse).bracketsRemoved_eq] at hitems
  have hlist := toList_of_functionItems hitems
  obtain ⟨separator, hsep, hname, hterms⟩ :
      ∃ separator, (separator = ',' ∨ separator = '=') ∧ e.name = [separator] ∧ e.terms ≠ [] := by
    rw [functionItems] at hitems
    split at hitems
    · rename_i hform
      obtain ⟨first, more, he⟩ := Part.exists_terms_of_form hform (by decide)
      exact ⟨'=', .inr rfl, Part.name_of_form.2.2 hform, by rw [he]; simp⟩
    · rename_i hform
      exact ⟨',', .inl rfl, Part.name_of_form.2.1 hform, by rw [hitems]; simp⟩
    · cases hitems
  refine ⟨_, Expr.parseLevel_snoc hsep hname hterms hs hparse hitem hlow [], ?_⟩
  rw [Expr.IsNode.bracketsRemoved_eq (.inl (by simp)), hlist]
  rfl

variable {head e e' item value : Expr} {type : Text} {m : Model} {w w' : Work Parents} {x : Float}

/-- How the items of a function description are read, and its ties applied. -/
theorem runs_readFunction_iff (htype : r.typeName? head = some type)
    (hcreate : r.types.create type = .ok (.ofShape shape))
    (hitems : functionItems e.bracketsRemoved = head :: items) :
    Act.Runs (r.readFunction e) w m w' ↔ ∃ m₁, m₁.applyTies = (m, none) ∧
      Act.Runs (r.readItems (.ofShape shape) items)
        { w with journal := w.journal ++ [.creating type] } m₁ w' := by
  rw [runs_readFunction]
  constructor
  · rintro ⟨head', items', type', m₀, m₁, hitems', htype', hcreate', hread, happlied⟩
    cases hitems.symm.trans hitems'
    cases htype.symm.trans htype'
    cases hcreate.symm.trans hcreate'
    exact ⟨m₁, happlied, hread⟩
  · rintro ⟨m₁, happlied, hread⟩
    exact ⟨head, items, type, _, m₁, hitems, htype, hcreate, hread, happlied⟩

/-- What an item behind other items does. -/
theorem runs_readItems_snoc {v : Work Parents} (hassign : Item.assignment? item = some (name, value))
    (hread : Act.Runs (r.readItems m items) w (.curve c) v) {m' : Model} :
    Act.Runs (r.readItems m (items ++ [item])) w m' w' ↔
      Act.Runs (r.readAssignment (.curve c) name value) v m' w' := by
  have hitem : r.readItems (.curve c) [item] = r.readAssignment (.curve c) name value >>= pure := by
    rw [readItems, readItem, hassign]
    rfl
  rw [readItems_append, Act.runs_bind]
  constructor
  · rintro ⟨m₁, v₁, hread₁, h⟩
    obtain ⟨hm, rfl⟩ : Except.ok m₁ = Except.ok (Model.curve c) ∧ v₁ = v :=
      Prod.mk.inj (hread₁.symm.trans hread)
    cases hm
    rwa [hitem, bind_pure] at h
  · intro h
    refine ⟨_, v, hread, ?_⟩
    rwa [hitem, bind_pure]

/-- Every parameter of a function that attributes alone have set up can be set by its name, unless a
formula gives it a name that is taken: that of the attribute, or a reserved one. The item of the
parameter and a number stands behind the others, and the function that is read then differs in the
value of this parameter alone. With a name that is taken that is never so. -/
theorem exists_item_of_parameter (hr : r.operators = .standard) (htype : r.typeName? head = some type)
    (hcreate : r.types.create type = .ok (.ofShape shape))
    (hitems : functionItems e.bracketsRemoved = head :: items)
    (hattributes : ∀ item ∈ items, SetsAttribute shape item)
    (hread : Act.Runs (r.readFunction e) w m w') (hname : m.hasParameter name = true) (x : Float) :
    ∃ (c : Curve) (item : Expr), m = .curve c ∧
      (∀ n op, 3 ≤ n → Expr.parseLevel .standard n op (Model.item name (Number.plain x)) =
        .ok (item.withOp op)) ∧
      (∀ n s, 3 ≤ n → Expr.Extensible s → Expr.parseLevel .standard n [] s = .ok e →
        ∃ e', Expr.parseLevel .standard (n + 1) [] (s ++ ',' :: Model.item name (Number.plain x)) =
            .ok e' ∧ functionItems e'.bracketsRemoved = head :: items ++ [item.withOp [',']]) ∧
      ∀ op e', functionItems e'.bracketsRemoved = head :: items ++ [item.withOp op] →
        (Act.Runs (r.readFunction e') w
            (.curve { c with parameters := Named.set name x c.parameters }) w' ↔
          (shape = .userFunction → name ≠ "Formula".toList ∧ Key.isReserved name = false)) := by
  obtain ⟨m₁, hties, hmade⟩ := (runs_readFunction_iff htype hcreate hitems).1 hread
  obtain ⟨c, rfl, hc⟩ := made_of_readItems (Curve.made_ofShape shape) hattributes hmade
  rw [hc.applyTies_eq, Prod.mk.injEq] at hties
  obtain ⟨rfl, -⟩ := hties
  rw [Model.hasParameter_curve] at hname
  have hmem : name ∈ Named.names c.parameters := Named.has_iff_mem_names.1 hname
  have hvalue := render_number hr (Number.read?_plain_self x) ['=']
  refine ⟨c, ⟨['='], [], [⟨name, [], []⟩, (Number.phrase (Number.plain x)).tree ['=']]⟩, rfl,
    fun n op hn => ?_, fun n s hn hs hparse => ?_, fun op e' he' => ?_⟩
  · exact Expr.parseLevel_withOp (stands_parameter hc.configured hmem x hn).1.parse op
  · obtain ⟨hstands, hlow⟩ := stands_parameter hc.configured hmem x hn
    exact exists_parseLevel_snoc hs hparse hitems hstands hlow
  · rw [runs_readFunction_iff htype hcreate he']
    constructor
    · rintro ⟨m', hties, hread'⟩ rfl
      have hassigned := (runs_readItems_snoc rfl hmade).1 hread'
      by_contra htaken
      rw [not_and_or, Decidable.not_not, Bool.not_eq_false] at htaken
      exact applyTies_ne_of_taken hc hr hmem htaken hassigned hties
    · intro hfree
      have hkey := hc.configured.key hmem fun huser => by
        obtain ⟨hformula, hreserved⟩ := hfree (hc.ofShape ▸ huser)
        refine ⟨fun h => hformula ?_, hreserved⟩
        rw [hc.names, ← hc.ofShape, huser] at h
        exact List.mem_singleton.1 h
      have hset := readAssignment_of_parameter r ((congrArg Number.read? hvalue).trans
        (Number.read?_plain_self x)) hmem hkey.1 hkey.2
      refine ⟨_, Model.Untied.applyTies_eq (.curve hc.untied), (runs_readItems_snoc rfl hmade).2 ?_⟩
      rw [hset]
      exact Act.runs_ofModel.2 ⟨rfl, rfl⟩

/-- Parameters of a formula may have the names of other keys. -/
theorem exists_item_of_parameter_name :
    let r : Reader := {}
    let s := "name=UserFunction,Formula=x,Formula=\"name*sin(h e*x)\"".toList
    ∃ e e' c w', Expr.parse r.operators r.depth s = .ok e ∧
      Expr.parse r.operators (r.depth + 1) (s ++ ",name=-1.5".toList) = .ok e' ∧
      Act.Runs (r.readFunction e) { state := [] } (.curve c) w' ∧
      Act.Runs (r.readFunction e') { state := [] }
        (.curve { c with parameters := Named.set "name".toList (-1.5) c.parameters }) w' := by
  intro r s
  have hcheck : (Expr.parse r.operators r.depth s).toOption.any (fun e =>
      (functionItems e.bracketsRemoved).head?.any fun head =>
        functionItems e.bracketsRemoved = head :: (functionItems e.bracketsRemoved).tail ∧
        r.typeName? head = some Shape.userFunction.name ∧
        (functionItems e.bracketsRemoved).tail.all (fun item => (Item.assignment? item).any fun p =>
          p.1 ∈ Named.names Shape.userFunction.attributes) = true ∧
        ((r.readFunction e).run.run { state := [] }).1.toOption.any
          (fun m => m.hasParameter "name".toList) = true) = true := by
    decide +kernel
  obtain ⟨e, he, hcheck⟩ := Result.exists_of_any hcheck
  obtain ⟨head, -, hcheck⟩ := (Option.any_eq_true _ _).1 hcheck
  obtain ⟨hitems, htype, hkeys, hread⟩ := of_decide_eq_true hcheck
  obtain ⟨m, hm, hname⟩ := Result.exists_of_any hread
  obtain ⟨w', hruns⟩ : ∃ w', Act.Runs (r.readFunction e) { state := [] } m w' := ⟨_, Prod.ext hm rfl⟩
  have hattributes : ∀ item ∈ (functionItems e.bracketsRemoved).tail,
      SetsAttribute .userFunction item := by
    intro item hitem
    obtain ⟨⟨key, value⟩, hassign, hkey⟩ := (Option.any_eq_true _ _).1 (List.all_eq_true.1 hkeys item hitem)
    exact ⟨key, value, hassign, of_decide_eq_true hkey⟩
  obtain ⟨c, item, rfl, -, htext, hset⟩ :=
    exists_item_of_parameter rfl htype rfl hitems hattributes hruns hname (-1.5)
  have hlast : s.getLast? = some '"' := by decide +kernel
  have hs : Expr.Extensible s := by
    refine ⟨by decide +kernel, by decide +kernel, fun c hc => ?_⟩
    rw [hlast] at hc
    cases hc
    rfl
  have htaken : ',' :: Model.item "name".toList (Number.plain (-1.5)) = ",name=-1.5".toList := by
    decide +kernel
  have hdepth : 3 ≤ r.depth + 1 := by simp [r, defaultDepth]
  obtain ⟨e', he', hitems'⟩ := htext (r.depth + 1) s hdepth hs he
  rw [htaken] at he'
  exact ⟨e, e', c, w', he, he', hruns, (hset _ e' hitems').2 fun _ => by decide⟩

/-- A formula may give a function a parameter that is called `ties`, and no number can be assigned
to it. -/
theorem exists_unassignable :
    let r : Reader := {}
    ∃ e e' m w', Expr.parse r.operators r.depth "name=UserFunction,Formula=ties*x".toList = .ok e ∧
      Expr.parse r.operators r.depth "name=UserFunction,Formula=ties*x,ties=1".toList = .ok e' ∧
      Act.Runs (r.readFunction e) { state := [] } m w' ∧ m.hasParameter "ties".toList = true ∧
      ((r.readFunction e').run.run { state := [] }).1 = .error (.invalidInput "1".toList) := by
  intro r
  have hcheck : (Expr.parse r.operators r.depth "name=UserFunction,Formula=ties*x".toList).toOption.any
      (fun e => (Expr.parse r.operators r.depth
        "name=UserFunction,Formula=ties*x,ties=1".toList).toOption.any fun e' =>
          ((r.readFunction e).run.run { state := [] }).1.toOption.any
            (fun m => m.hasParameter "ties".toList) &&
          match ((r.readFunction e').run.run { state := [] }).1 with
          | .error (.invalidInput part) => part = "1".toList
          | _ => false) = true := by
    decide +kernel
  obtain ⟨e, he, hcheck⟩ := Result.exists_of_any hcheck
  obtain ⟨e', he', hcheck⟩ := Result.exists_of_any hcheck
  obtain ⟨hread, hrefused⟩ := Bool.and_eq_true_iff.1 hcheck
  obtain ⟨m, hm, hname⟩ := Result.exists_of_any hread
  obtain ⟨w', hruns⟩ : ∃ w', Act.Runs (r.readFunction e) { state := [] } m w' := ⟨_, Prod.ext hm rfl⟩
  refine ⟨e, e', m, w', he, he', hruns, hname, ?_⟩
  split at hrefused
  · rename_i part heq
    rw [heq, of_decide_eq_true hrefused]
  · cases hrefused

end Reader
end Lineshape
