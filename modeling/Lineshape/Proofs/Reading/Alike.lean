import Lineshape.Proofs.Reading.Grouped

/-! # Parts of model texts that are read alike

`Reader.ReadsAlike` says of two trees that they are read alike wherever they stand as a part of a model
text, or as the whole of it. Bracket groups around them change nothing, and it is kept by the lists and
sequences around them. -/

namespace Lineshape
set_option autoImplicit false

namespace Reader

/-- Compositions that begin, go on and end alike. -/
structure ComposesAlike (r : Reader) (p p' : Opening × List Part) : Prop where
  begins : r.beginComposite p'.1 = r.beginComposite p.1
  members : ∀ m, r.addParts p'.2 m = r.addParts p.2 m
  ends : r.endComposite p'.2 = r.endComposite p.2

/-- Trees that are read alike as a part of a sequence. -/
structure TermAlike (r : Reader) (e e' : Expr) : Prop where
  header : (Opening.of e').isHeader = (Opening.of e).isHeader
  begins : r.beginComposite (Opening.of e') = r.beginComposite (Opening.of e)
  part : ∀ m, r.addPart (Part.ofExpr e') m = r.addPart (Part.ofExpr e) m
  conditions : r.addConditions (Part.conditionItems [Part.ofExpr e']) =
    r.addConditions (Part.conditionItems [Part.ofExpr e])

/-- Trees that are read alike wherever they stand as a part of a model text, or as the whole of it. -/
structure ReadsAlike (r : Reader) (e e' : Expr) : Prop extends TermAlike r e e' where
  ungrouped : e'.ungrouped = e.ungrouped
  tree : r.readTree e'.bracketsRemoved = r.readTree e.bracketsRemoved
  composes : Option.Rel r.ComposesAlike (Part.sequence? e) (Part.sequence? e')

variable {r : Reader} {e e' : Expr}

theorem ComposesAlike.refl (p : Opening × List Part) : r.ComposesAlike p p := ⟨rfl, fun _ => rfl, rfl⟩

theorem TermAlike.refl (e : Expr) : r.TermAlike e e := ⟨rfl, rfl, fun _ => rfl, rfl⟩

theorem ReadsAlike.refl (e : Expr) : r.ReadsAlike e e where
  toTermAlike := .refl e
  ungrouped := rfl
  tree := rfl
  composes := by
    cases Part.sequence? e with
    | none => exact .none
    | some p => exact .some (.refl p)

/-- Groups around a part change nothing. -/
theorem ReadsAlike.covers {t t' : Expr} (h : r.ReadsAlike e e') (ht : t.Covers e) (ht' : t'.Covers e') :
    r.ReadsAlike t t' := by
  have hpart : ∀ {t e : Expr}, t.Covers e → Part.ofExpr t = Part.ofExpr e ∧
      Opening.of t = Opening.of e ∧ Part.sequence? t = Part.sequence? e := by
    intro t e ht
    rw [← Part.ofExpr_bracketsRemoved t, ← Opening.of_bracketsRemoved t,
      ← Part.sequence?_bracketsRemoved t, ht.node, Part.ofExpr_bracketsRemoved,
      Opening.of_bracketsRemoved, Part.sequence?_bracketsRemoved]
    exact ⟨rfl, rfl, rfl⟩
  obtain ⟨hof, hopening, hsequence⟩ := hpart ht
  obtain ⟨hof', hopening', hsequence'⟩ := hpart ht'
  constructor
  · constructor
    · rw [hopening, hopening', h.header]
    · rw [hopening, hopening', h.begins]
    · rw [hof, hof']
      exact h.part
    · rw [hof, hof', h.conditions]
  · rw [ht.ungrouped, ht'.ungrouped, h.ungrouped]
  · rw [ht.node, ht'.node, h.tree]
  · rw [hsequence, hsequence']
    exact h.composes

/-! ## Sequences -/

theorem addConditions_part (r : Reader) (p : Part) :
    r.addConditions (Part.conditionItems [p.alone]) = r.addConditions (Part.conditionItems [p]) := by
  cases p with
  | conditions e =>
    have hsingle : ∀ e : Expr, Part.conditionItems [.conditions e] = e.toList [','] :=
      fun e => List.append_nil _
    rw [Part.alone, hsingle, hsingle, addConditions_withOp]
  | function e => rfl
  | composite o parts items => rfl

theorem TermAlike.withOp (h : r.TermAlike e e') (op : Text) : r.TermAlike (e.withOp op) (e'.withOp op) where
  header := by
    rw [(r.beginComposite_withOp e op).2, (r.beginComposite_withOp e' op).2, h.header]
  begins := by
    rw [(r.beginComposite_withOp e op).1, (r.beginComposite_withOp e' op).1, h.begins]
  part m := by
    rw [← addPart_alone, Part.alone_ofExpr, addPart_alone, h.part, ← addPart_alone,
      ← Part.alone_ofExpr e op, addPart_alone]
  conditions := by
    rw [← addConditions_part, Part.alone_ofExpr, addConditions_part, h.conditions,
      ← addConditions_part, ← Part.alone_ofExpr e op, addConditions_part]

/-- Sequences of terms that are read alike compose alike. -/
theorem composesAlike_of_terms {first first' : Expr} {more more' : List Expr}
    (hfirst : r.TermAlike first first') (hmore : List.Forall₂ r.TermAlike more more') :
    r.ComposesAlike
      (Opening.of first, if (Opening.of first).isHeader then more.map Part.ofExpr
        else (first :: more).map Part.ofExpr)
      (Opening.of first', if (Opening.of first').isHeader then more'.map Part.ofExpr
        else (first' :: more').map Part.ofExpr) := by
  have hmembers : ∀ {terms terms' : List Expr}, List.Forall₂ r.TermAlike terms terms' → ∀ m,
      r.addParts (terms'.map Part.ofExpr) m = r.addParts (terms.map Part.ofExpr) m := by
    intro terms terms' h
    induction h with
    | nil => exact fun m => rfl
    | cons hterm _ ih =>
      intro m
      rw [List.map_cons, List.map_cons, addParts, addParts, hterm.part]
      exact bind_congr ih
  have hends : ∀ {terms terms' : List Expr}, List.Forall₂ r.TermAlike terms terms' →
      r.endComposite (terms'.map Part.ofExpr) = r.endComposite (terms.map Part.ofExpr) := by
    intro terms terms' h
    rw [endComposite, endComposite]
    refine congrArg (· >>= _) ?_
    induction h with
    | nil => rfl
    | @cons term term' _ _ hterm _ ih =>
      rw [List.map_cons, List.map_cons, Part.conditionItems_cons, Part.conditionItems_cons (Part.ofExpr term),
        addConditions_append, addConditions_append, hterm.conditions, ih]
  constructor
  · exact hfirst.begins
  · dsimp only
    rw [hfirst.header]
    split
    · exact hmembers hmore
    · exact hmembers (.cons hfirst hmore)
  · dsimp only
    rw [hfirst.header]
    split
    · exact hends hmore
    · exact hends (.cons hfirst hmore)

theorem addPart_composite_congr {p p' : Opening × List Part} {items items' : List Expr}
    (h : r.ComposesAlike p p') (hitems : r.readTrailing items' = r.readTrailing items) (m : Model) :
    r.addPart (.composite p'.1 p'.2 items') m = r.addPart (.composite p.1 p.2 items) m := by
  rw [addPart, addPart, h.begins, h.ends, hitems]
  simp only [h.members]

theorem readParts_of_composesAlike {p p' : Opening × List Part} (h : r.ComposesAlike p p') :
    r.readParts p'.1 p'.2 = r.readParts p.1 p.2 := by
  rw [readParts, readParts, h.begins, h.ends]
  simp only [h.members]

theorem exists_composesAlike {terms terms' : List Expr} (h : List.Forall₂ r.TermAlike terms terms')
    (hne : terms ≠ []) (op : Text) :
    ∃ p p', Part.sequence? ⟨[';'], op, terms⟩ = some p ∧ Part.sequence? ⟨[';'], op, terms'⟩ = some p' ∧
      r.ComposesAlike p p' := by
  cases h with
  | nil => exact absurd rfl hne
  | cons hfirst hmore =>
    exact ⟨_, _, Part.sequence?_sequence op _ _, Part.sequence?_sequence op _ _,
      composesAlike_of_terms hfirst hmore⟩

theorem readTree_of_sequence? {p : Opening × List Part} (h : Part.sequence? e = some p) :
    r.readTree e.bracketsRemoved = r.readParts p.1 p.2 := by
  rw [readTree, if_pos (Part.form_of_sequence? h), readComposite, Part.sequence?_bracketsRemoved, h]

/-- A sequence is read alike if its terms are. -/
theorem readsAlike_sequence {terms terms' : List Expr} (h : List.Forall₂ r.TermAlike terms terms')
    (hungrouped : terms'.map Expr.ungrouped = terms.map Expr.ungrouped) (op : Text) :
    r.ReadsAlike ⟨[';'], op, terms⟩ ⟨[';'], op, terms'⟩ := by
  by_cases hne : terms = []
  · cases h with
    | nil => exact .refl _
    | cons => cases hne
  · obtain ⟨p, p', hsequence, hsequence', hcompose⟩ := exists_composesAlike h hne op
    have hpart := Part.ofExpr_of_sequence? hsequence
    have hpart' := Part.ofExpr_of_sequence? hsequence'
    constructor
    · constructor
      · rw [Part.opening_of_composite hpart, Part.opening_of_composite hpart']
      · rw [Part.opening_of_composite hpart, Part.opening_of_composite hpart']
      · rw [hpart, hpart']
        exact addPart_composite_congr hcompose rfl
      · rw [hpart, hpart']
        rfl
    · exact Expr.ungrouped_congr (List.cons_ne_nil _ _) hungrouped
    · rw [readTree_of_sequence? hsequence, readTree_of_sequence? hsequence',
        readParts_of_composesAlike hcompose]
    · rw [hsequence, hsequence']
      exact .some hcompose

/-! ## Lists -/

theorem sequence?_withOp (e : Expr) (op : Text) : Part.sequence? (e.withOp op) = Part.sequence? e := by
  obtain ⟨name, op', terms⟩ := e
  cases terms with
  | nil => rfl
  | cons first more => rw [Expr.withOp, Part.sequence?, Part.sequence?]

theorem assignment?_of_sequence? {p : Opening × List Part} (h : Part.sequence? e = some p) :
    Item.assignment? e = none := by
  cases hassign : Item.assignment? e with
  | none => rfl
  | some q =>
    rw [Part.sequence?_of_assign (Part.form_of_assignment? hassign)] at h
    cases h

/-- A list that begins with a composite in brackets is no function. -/
theorem readTree_nested {p : Opening × List Part} (h : Part.sequence? e = some p) (op : Text)
    (items : List Expr) :
    r.readTree (Expr.bracketsRemoved ⟨[','], op, e :: items⟩) = throw .nameNotFirst := by
  have htype : r.typeName? e = none := by
    rw [typeName?, assignment?_of_sequence? h]
  have hlist : r.readTree ⟨[','], op, e :: items⟩ = r.readFunction ⟨[','], op, e :: items⟩ := rfl
  have hitems : functionItems ⟨[','], op, e :: items⟩ = e :: items := rfl
  have hnode : Expr.bracketsRemoved ⟨[','], op, e :: items⟩ = ⟨[','], op, e :: items⟩ :=
    Expr.bracketsRemoved_node (List.cons_ne_nil _ _)
  rw [hnode, hlist]
  simp only [readFunction, hnode, hitems, htype]

/-- A list that begins with a composite in brackets is read alike if the composite is. -/
theorem readsAlike_nested (h : r.ReadsAlike e e') (hform : e.bracketsRemoved.form = .sequence)
    (o op : Text) (items : List Expr) :
    r.ReadsAlike ⟨[','], op, e.withOp o :: items⟩ ⟨[','], op, e'.withOp o :: items⟩ := by
  obtain ⟨opening, parts, hsequence, -⟩ := Part.ofExpr_of_sequence hform
  rw [Part.sequence?_bracketsRemoved] at hsequence
  obtain ⟨p, p', hp, hp', hcompose⟩ : ∃ p p', Part.sequence? e = some p ∧ Part.sequence? e' = some p' ∧
      r.ComposesAlike p p' := by
    have hcomposes := h.composes
    rw [hsequence] at hcomposes
    generalize hsequence' : Part.sequence? e' = q at hcomposes
    cases hcomposes with
    | some hcompose => exact ⟨_, _, hsequence, rfl, hcompose⟩
  have hpart : ∀ {e : Expr} {p : Opening × List Part}, Part.sequence? e = some p →
      Part.ofExpr ⟨[','], op, e.withOp o :: items⟩ = .composite p.1 p.2 items := by
    intro e p hp
    rw [Part.ofExpr_list, sequence?_withOp, hp]
    rfl
  have hnone : ∀ e : Expr, Part.sequence? ⟨[','], op, e.withOp o :: items⟩ = none := by
    intro e
    rw [Part.sequence?, if_neg (fun h => List.cons_ne_nil _ _ h.1), if_neg (by decide)]
  constructor
  · constructor
    · rw [Part.opening_of_composite (hpart hp), Part.opening_of_composite (hpart hp')]
    · rw [Part.opening_of_composite (hpart hp), Part.opening_of_composite (hpart hp')]
    · rw [hpart hp, hpart hp']
      exact addPart_composite_congr hcompose rfl
    · rw [hpart hp, hpart hp']
      rfl
  · exact Expr.ungrouped_exchange (List.cons_ne_nil _ _) h.ungrouped [] items o op
  · rw [readTree_nested ((sequence?_withOp e o).trans hp), readTree_nested ((sequence?_withOp e' o).trans hp')]
  · rw [hnone, hnone]
    exact .none

/-! ## Lists of items -/

section Items

variable {item item' : Expr} {items items' : List Expr}

theorem sequence?_congr (h : Item.Alike r item item') :
    Part.sequence? item' = Part.sequence? item := by
  cases h with
  | refl => rfl
  | list => rw [Part.sequence?_of_assign rfl, Part.sequence?_of_assign rfl]

theorem firstKey?_congr (h : Item.Alike r item item') (op : Text) :
    Item.firstKey? ⟨[','], op, item' :: items'⟩ = Item.firstKey? ⟨[','], op, item :: items⟩ := by
  have hkey := congrArg (Option.map Key.ofText) (firstKey_congr h)
  rw [Option.map_map, Option.map_map] at hkey
  exact hkey

theorem isNested_congr (h : Item.Alike r item item') (op : Text) (items items' : List Expr) :
    Item.isNested ⟨[','], op, item' :: items'⟩ = Item.isNested ⟨[','], op, item :: items⟩ := by
  cases h <;> rfl

theorem ungrouped_list (h : List.Forall₂ (Item.Alike r) items items') (op : Text) :
    (⟨[','], op, items'⟩ : Expr).ungrouped = (⟨[','], op, items⟩ : Expr).ungrouped := by
  refine Expr.ungrouped_congr (List.cons_ne_nil _ _) ?_
  induction h with
  | nil => rfl
  | cons hitem _ ih => rw [List.map_cons, List.map_cons, ungrouped_items hitem, ih]

theorem readHeader_congr (hr : r.operators = .standard)
    (h : List.Forall₂ (Item.Alike r) (item :: items) (item' :: items')) (op : Text) :
    r.readHeader ⟨[','], op, item' :: items'⟩ = r.readHeader ⟨[','], op, item :: items⟩ := by
  have hrender := render_congr hr (ungrouped_list h op)
  obtain ⟨hitem, hmore⟩ := List.forall₂_cons.1 h
  have htoList : ∀ (item : Expr) (items : List Expr),
      Expr.toList [','] ⟨[','], op, item :: items⟩ = item :: items := fun _ _ => rfl
  rw [readHeader, readHeader, htoList, htoList]
  cases hitem with
  | refl => simp only [hrender, readHeaderItems_congr hr hmore]
  | @list c o value value' hlist =>
    have htype := render_congr hr hlist.ungrouped
    change (Act.ofModel (r.types.createComposite (r.render value')) >>= _) =
      (Act.ofModel (r.types.createComposite (r.render value)) >>= _)
    rw [htype]
    exact bind_congr (readHeaderItems_congr hr hmore)

theorem readFunction_congr (hr : r.operators = .standard)
    (h : List.Forall₂ (Item.Alike r) (item :: items) (item' :: items')) (op : Text) :
    r.readFunction ⟨[','], op, item' :: items'⟩ = r.readFunction ⟨[','], op, item :: items⟩ := by
  obtain ⟨hitem, hmore⟩ := List.forall₂_cons.1 h
  have hnode : ∀ items : List Expr, Expr.bracketsRemoved ⟨[','], op, items⟩ = ⟨[','], op, items⟩ :=
    fun items => Expr.bracketsRemoved_node (List.cons_ne_nil _ _)
  have hitems : ∀ items : List Expr, ∀ item, functionItems ⟨[','], op, item :: items⟩ = item :: items :=
    fun _ _ => rfl
  simp only [readFunction, hnode, hitems, typeName?_congr hitem, readItems_congr hr hmore]

theorem opening_congr (hr : r.operators = .standard)
    (h : List.Forall₂ (Item.Alike r) (item :: items) (item' :: items')) (op : Text) :
    (Opening.of ⟨[','], op, item' :: items'⟩).isHeader =
        (Opening.of ⟨[','], op, item :: items⟩).isHeader ∧
      r.beginComposite (Opening.of ⟨[','], op, item' :: items'⟩) =
        r.beginComposite (Opening.of ⟨[','], op, item :: items⟩) := by
  have hrender := render_congr hr (ungrouped_list h op)
  have hheader := readHeader_congr hr h op
  obtain ⟨hitem, -⟩ := List.forall₂_cons.1 h
  have hnode : ∀ items : List Expr, Expr.bracketsRemoved ⟨[','], op, items⟩ = ⟨[','], op, items⟩ :=
    fun items => Expr.bracketsRemoved_node (List.cons_ne_nil _ _)
  rw [Opening.of, Opening.of, hnode, hnode, firstKey?_congr hitem, isNested_congr hitem op items items']
  have hinvalid : r.beginComposite (.invalid ⟨[','], op, item' :: items'⟩) =
      r.beginComposite (.invalid ⟨[','], op, item :: items⟩) := by
    rw [beginComposite, beginComposite, hrender]
  generalize Item.firstKey? ⟨[','], op, item :: items⟩ = key
  split
  · exact ⟨rfl, hheader⟩
  · exact ⟨rfl, rfl⟩
  · exact ⟨rfl, rfl⟩
  · exact ⟨rfl, rfl⟩
  · split
    · exact ⟨rfl, rfl⟩
    · exact ⟨rfl, hinvalid⟩
  · exact ⟨rfl, hinvalid⟩

theorem readsAlike_cons (hr : r.operators = .standard)
    (h : List.Forall₂ (Item.Alike r) (item :: items) (item' :: items')) (op : Text) :
    r.ReadsAlike ⟨[','], op, item :: items⟩ ⟨[','], op, item' :: items'⟩ := by
  obtain ⟨hheader, hbegins⟩ := opening_congr hr h op
  have hfunction := readFunction_congr hr h op
  obtain ⟨hitem, hmore⟩ := List.forall₂_cons.1 h
  have hnone : ∀ (item : Expr) (items : List Expr), Part.sequence? ⟨[','], op, item :: items⟩ = none := by
    intro item items
    rw [Part.sequence?, if_neg (fun h => List.cons_ne_nil _ _ h.1), if_neg (by decide)]
  have hparts : (∀ m, r.addPart (Part.ofExpr ⟨[','], op, item' :: items'⟩) m =
        r.addPart (Part.ofExpr ⟨[','], op, item :: items⟩) m) ∧
      r.addConditions (Part.conditionItems [Part.ofExpr ⟨[','], op, item' :: items'⟩]) =
        r.addConditions (Part.conditionItems [Part.ofExpr ⟨[','], op, item :: items⟩]) := by
    rw [Part.ofExpr_list, Part.ofExpr_list, sequence?_congr hitem]
    cases Part.sequence? item with
    | some p => exact ⟨addPart_composite_congr (.refl p) (readTrailing_congr hr hmore), rfl⟩
    | none =>
      rw [Option.elim_none, Option.elim_none, Part.ofItems, Part.ofItems, firstKey?_congr hitem]
      have hconditions : r.addConditions (Part.conditionItems [.conditions ⟨[','], op, item' :: items'⟩]) =
          r.addConditions (Part.conditionItems [.conditions ⟨[','], op, item :: items⟩]) := by
        have hlist : ∀ (item : Expr) (items : List Expr),
            Part.conditionItems [.conditions ⟨[','], op, item :: items⟩] = item :: items :=
          fun _ _ => List.append_nil _
        rw [hlist, hlist, addConditions_congr h]
      generalize Item.firstKey? ⟨[','], op, item :: items⟩ = key
      split
      · exact ⟨fun m => rfl, hconditions⟩
      · exact ⟨fun m => rfl, hconditions⟩
      · refine ⟨fun m => ?_, rfl⟩
        rw [addPart, addPart, hfunction]
  constructor
  · exact ⟨hheader, hbegins, hparts.1, hparts.2⟩
  · exact ungrouped_list h op
  · rw [Expr.bracketsRemoved_node (List.cons_ne_nil _ _), Expr.bracketsRemoved_node (List.cons_ne_nil _ _)]
    exact hfunction
  · rw [hnone, hnone]
    exact .none

/-- A list of items is read alike if its items are. -/
theorem readsAlike_items (hr : r.operators = .standard) (h : List.Forall₂ (Item.Alike r) items items')
    (op : Text) : r.ReadsAlike ⟨[','], op, items⟩ ⟨[','], op, items'⟩ := by
  cases h with
  | nil => exact .refl _
  | cons hitem hmore => exact readsAlike_cons hr (.cons hitem hmore) op

theorem bracketsRemoved_item (c : Conditions) (op : Text) (value : Expr) :
    (c.item op value).bracketsRemoved = c.item op value :=
  Expr.bracketsRemoved_node (List.cons_ne_nil _ _)

theorem ofExpr_item (c : Conditions) (op : Text) (value : Expr) :
    Part.ofExpr (c.item op value) = .conditions (c.item op value) := by
  rw [Part.ofExpr, if_neg (fun h => List.cons_ne_nil _ _ h.1), if_neg (by decide), if_neg (by decide)]
  cases c <;> rfl

theorem opening_item (c : Conditions) (op : Text) (value : Expr) :
    Opening.of (c.item op value) = .plain := by
  rw [Opening.of, bracketsRemoved_item]
  cases c <;> rfl

/-- A list on its own is no function. -/
theorem readTree_item (c : Conditions) (op : Text) (value : Expr) :
    r.readTree (c.item op value) = throw .nameNotFirst := by
  have htype : r.typeName? (c.item op value) = none := by cases c <;> rfl
  have hfunction : r.readTree (c.item op value) = r.readFunction (c.item op value) := rfl
  have hitems : functionItems (c.item op value) = [c.item op value] := rfl
  rw [hfunction]
  simp only [readFunction, bracketsRemoved_item, hitems, htype]

/-- The same of an item on its own. -/
theorem readsAlike_item (h : Item.Alike r item item') : r.ReadsAlike item item' := by
  have hungrouped := ungrouped_items h
  have hcondition := addCondition_congr h
  cases h with
  | refl => exact .refl item
  | @list c op value value' hlist =>
    constructor
    · constructor
      · rw [opening_item, opening_item]
      · rw [opening_item, opening_item]
      · rw [ofExpr_item, ofExpr_item]
        exact fun m => rfl
      · have hsingle : ∀ v : Expr, Part.conditionItems [.conditions (c.item op v)] = [c.item op v] :=
          fun _ => rfl
        rw [ofExpr_item, ofExpr_item, hsingle, hsingle, addConditions, hcondition]
        rfl
    · exact hungrouped
    · rw [bracketsRemoved_item, bracketsRemoved_item, readTree_item, readTree_item]
    · rw [Part.sequence?_of_assign rfl, Part.sequence?_of_assign rfl]
      exact .none

end Items

end Reader

end Lineshape
