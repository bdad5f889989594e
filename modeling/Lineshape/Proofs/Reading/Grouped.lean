import Lineshape.Proofs.Expr.Enclosed
import Lineshape.Proofs.Reading.Rearranged

/-! # Bracket groups in lists of ties and constraints

Lists of ties and constraints take their items out of bracket groups, with one exception: a factor
in a group is taken for a constraint. `Conditions.Alike` says of two lists that they attach the same
(`Conditions.alike_exchange`), and `Item.Alike` of two items that they do it with such lists. -/

namespace Lineshape
set_option autoImplicit false

/-! ## The node below groups -/

/-- The same node below bracket groups, whatever operators are before it. -/
def Expr.SameNode (e e' : Expr) : Prop := e'.bracketsRemoved.withOp [] = e.bracketsRemoved.withOp []

namespace Expr

theorem SameNode.refl (e : Expr) : SameNode e e := rfl

theorem SameNode.isEmptyMarker {e e' : Expr} (h : SameNode e e') :
    e'.bracketsRemoved.isEmptyMarker = e.bracketsRemoved.isEmptyMarker := by
  change (e'.bracketsRemoved.withOp []).isEmptyMarker = _
  rw [h]
  rfl

theorem sameNode_withOp (e : Expr) (op : Text) : SameNode e (e.withOp op) := by
  obtain ⟨op', h⟩ := e.bracketsRemoved_withOp op
  rw [SameNode, h]
  rfl

theorem ungrouped_congr {name op : Text} {terms terms' : List Expr} (hname : name ≠ [])
    (h : terms'.map ungrouped = terms.map ungrouped) :
    (⟨name, op, terms'⟩ : Expr).ungrouped = (⟨name, op, terms⟩ : Expr).ungrouped := by
  have hnode : ∀ terms : List Expr, (⟨name, op, terms⟩ : Expr).IsNode := fun _ => .inl hname
  rw [(hnode terms).ungrouped_eq, (hnode terms').ungrouped_eq, h]

/-- One term in exchange for one that differs in bracket groups. -/
theorem ungrouped_exchange {e e' : Expr} {name : Text} (hname : name ≠ []) (h : e'.ungrouped = e.ungrouped)
    (terms terms' : List Expr) (o op : Text) :
    (⟨name, op, terms ++ e'.withOp o :: terms'⟩ : Expr).ungrouped =
      (⟨name, op, terms ++ e.withOp o :: terms'⟩ : Expr).ungrouped := by
  refine ungrouped_congr hname ?_
  simp only [List.map_append, List.map_cons, ungrouped_withOp, h]

theorem toList_exchange (name : Text) (terms terms' : List Expr) (op : Text) (x : Expr) :
    toList name ⟨name, op, terms ++ x :: terms'⟩ = terms ++ x :: terms' := by
  refine if_pos ⟨rfl, ?_⟩
  rw [isLeaf]
  simp

theorem Covers.sameNode {e e' : Expr} (h : e'.Covers e) (op op' : Text) :
    SameNode (e.withOp op) (e'.withOp op') := by
  have hold := sameNode_withOp e op
  have hnew := sameNode_withOp e' op'
  rw [SameNode] at hold hnew ⊢
  rw [hnew, h.node, hold]

end Expr

namespace Reader

variable {r : Reader} {e e' : Expr}

/-! ## Ties -/

theorem addTie_withOp (r : Reader) (e : Expr) (op : Text) : r.addTie (e.withOp op) = r.addTie e := by
  unfold addTie
  rw [render_withOp]
  rfl

theorem addTies_congr (h : List.Forall₂ Expr.SameNode (e.toList [',']) (e'.toList [','])) :
    r.addTies e' = r.addTies e := by
  rw [addTies, addTies, tieItems, tieItems]
  generalize e.toList [','] = items at h
  generalize e'.toList [','] = items' at h
  induction h with
  | nil => rfl
  | @cons item item' items items' hitem _ ih =>
    have hempty := hitem.isEmptyMarker
    have htie : r.addTie item'.bracketsRemoved = r.addTie item.bracketsRemoved := by
      rw [← addTie_withOp r item'.bracketsRemoved [], hitem, addTie_withOp]
    rw [List.map_cons, List.map_cons, List.filter_cons, List.filter_cons, hempty]
    split
    · rw [addEachTie, addEachTie, htie, ih]
    · exact ih

/-! ## Constraints -/

theorem addConstraint_withOp (r : Reader) (chain : Expr) (op : Text) (factor? : Option Expr) :
    r.addConstraint (chain.withOp op) factor? = r.addConstraint chain factor? := by
  have hbound : ∀ m isDefault, r.createBound (kindOf (chain.withOp op)) m (chain.withOp op) isDefault =
      r.createBound (kindOf chain) m chain isDefault := by
    intro m isDefault
    have hrender := Expr.render_withOp r.operators chain op
    unfold createBound Bound.ofChain
    rw [hrender]
    rfl
  unfold addConstraint
  simp only [hbound]

end Reader

namespace Clause

/-- Items that ask for the same in a list of constraints: below bracket groups they are the same, and
a factor is the same as it stands. -/
structure SameItem (item item' : Expr) : Prop where
  node : Expr.SameNode item item'
  factor : factor? item' = factor? item
  stray : (factor? item).isSome = true → item'.withOp [] = item.withOp []

theorem SameItem.refl (item : Expr) : SameItem item item := ⟨.refl item, rfl, fun _ => rfl⟩

/-- A clause without the operator before its chain, or before the item. -/
def alone : Clause → Clause
  | .constraint chain factor? => .constraint (chain.withOp []) factor?
  | .stray item => .stray (item.withOp [])

theorem SameItem.alone_constraint {item item' : Expr} (h : SameItem item item') (factor? : Option Expr) :
    alone (.constraint item'.bracketsRemoved factor?) =
      alone (.constraint item.bracketsRemoved factor?) := by
  rw [alone, h.node]
  rfl

theorem ofItems_congr {items items' : List Expr} (h : List.Forall₂ SameItem items items') :
    (ofItems items').map alone = (ofItems items).map alone := by
  fun_induction ofItems items generalizing items' with
  | case1 =>
    cases h
    rfl
  | case2 item more hempty ih =>
    obtain ⟨item', more', hitem, hmore, rfl⟩ := List.forall₂_cons_left_iff.1 h
    rw [ofItems.eq_def]
    dsimp only
    rw [hitem.node.isEmptyMarker, if_pos hempty]
    exact ih hmore
  | case3 item more hempty hfactor ih =>
    obtain ⟨item', more', hitem, hmore, rfl⟩ := List.forall₂_cons_left_iff.1 h
    rw [ofItems.eq_def]
    dsimp only
    rw [hitem.node.isEmptyMarker, hitem.factor, if_neg hempty, if_pos hfactor, List.map_cons,
      List.map_cons, alone, hitem.stray hfactor, ih hmore]
    rfl
  | case4 item hempty hfactor =>
    obtain ⟨item', more', hitem, hmore, rfl⟩ := List.forall₂_cons_left_iff.1 h
    cases hmore
    rw [ofItems, hitem.node.isEmptyMarker, hitem.factor, if_neg hempty, if_neg hfactor, List.map_cons,
      hitem.alone_constraint]
    rfl
  | case5 item hempty hfactor next rest value hvalue ih =>
    obtain ⟨item', more', hitem, hmore, rfl⟩ := List.forall₂_cons_left_iff.1 h
    obtain ⟨next', rest', hnext, hrest, rfl⟩ := List.forall₂_cons_left_iff.1 hmore
    have hvalue' := hnext.factor.trans hvalue
    rw [ofItems, hitem.node.isEmptyMarker, hitem.factor, if_neg hempty, if_neg hfactor]
    simp only [hvalue']
    rw [List.map_cons, List.map_cons, hitem.alone_constraint, ih hrest]
  | case6 item hempty hfactor next rest hvalue ih =>
    obtain ⟨item', more', hitem, hmore, rfl⟩ := List.forall₂_cons_left_iff.1 h
    obtain ⟨next', rest', hnext, hrest, rfl⟩ := List.forall₂_cons_left_iff.1 hmore
    have hvalue' := hnext.factor.trans hvalue
    rw [ofItems, hitem.node.isEmptyMarker, hitem.factor, if_neg hempty, if_neg hfactor]
    simp only [hvalue']
    rw [List.map_cons, List.map_cons, hitem.alone_constraint, ih hmore]

end Clause

namespace Reader

variable {r : Reader} {e e' : Expr}

theorem addClauses_alone (r : Reader) (clauses : List Clause) :
    r.addClauses (clauses.map Clause.alone) = r.addClauses clauses := by
  induction clauses with
  | nil => rfl
  | cons clause clauses ih =>
    cases clause with
    | constraint chain factor? =>
      rw [List.map_cons, Clause.alone, addClauses, addClauses, addConstraint_withOp, ih]
    | stray item =>
      rw [List.map_cons, Clause.alone, addClauses, addClauses, ih, render_withOp]

theorem addConstraints_congr (h : List.Forall₂ Clause.SameItem (e.toList [',']) (e'.toList [','])) :
    r.addConstraints e' = r.addConstraints e := by
  rw [addConstraints, addConstraints, ← addClauses_alone, Clause.ofItems_congr h, addClauses_alone]

end Reader

/-! ## Lists of ties and constraints -/

/-- The lists that a function may have. -/
inductive Conditions where
  /-- A list of ties. -/
  | ties
  /-- A list of constraints. -/
  | constraints
deriving DecidableEq

namespace Conditions

variable {r : Reader} {c : Conditions} {e e' : Expr}

/-- The key that a list is the value of. -/
def key : Conditions → Text
  | ties => "ties".toList
  | constraints => "constraints".toList

/-- An item with a list as its value. -/
abbrev item (c : Conditions) (op : Text) (value : Expr) : Expr := ⟨['='], op, [⟨c.key, [], []⟩, value]⟩

/-- Attach what a list says. -/
def add (r : Reader) : Conditions → Expr → Act Model Unit
  | ties => r.addTies
  | constraints => r.addConstraints

/-- Lists that say the same, and are the same up to bracket groups. -/
structure Alike (r : Reader) (c : Conditions) (e e' : Expr) : Prop where
  ungrouped : e'.ungrouped = e.ungrouped
  add : c.add r e'.bracketsRemoved = c.add r e.bracketsRemoved

theorem add_withOp (r : Reader) (c : Conditions) (e : Expr) (op : Text) :
    c.add r (e.withOp op) = c.add r e := by
  cases c with
  | ties =>
    refine Reader.addTies_congr ?_
    rcases e.toList_withOp [','] op with h | ⟨h, h'⟩
    · rw [h]
      exact List.forall₂_same.2 fun item _ => .refl item
    · rw [h, h']
      exact .cons (Expr.sameNode_withOp e op) .nil
  | constraints =>
    refine Reader.addConstraints_congr ?_
    rcases e.toList_withOp [','] op with h | ⟨h, h'⟩
    · rw [h]
      exact List.forall₂_same.2 fun item _ => .refl item
    · rw [h, h']
      exact .cons ⟨Expr.sameNode_withOp e op, rfl, fun _ => rfl⟩ .nil

/-- A list says the same whatever operator is before it. -/
theorem Alike.withOp (h : c.Alike r e e') (op : Text) : c.Alike r (e.withOp op) (e'.withOp op) where
  ungrouped := by rw [Expr.ungrouped_withOp, Expr.ungrouped_withOp, h.ungrouped]
  add := by
    obtain ⟨o, ho⟩ := e.bracketsRemoved_withOp op
    obtain ⟨o', ho'⟩ := e'.bracketsRemoved_withOp op
    rw [ho, ho', add_withOp, add_withOp, h.add]

/-- Groups around a list change nothing. -/
theorem Alike.covers {t t' : Expr} (h : c.Alike r e e') (ht : t.Covers e) (ht' : t'.Covers e') :
    c.Alike r t t' where
  ungrouped := by rw [ht.ungrouped, ht'.ungrouped, h.ungrouped]
  add := by rw [ht.node, ht'.node, h.add]

/-- An item of a list may be in other groups; but a factor has to be seen as it stands. -/
theorem alike_exchange (h : e'.Covers e) (hfactor : c = .constraints → Clause.factor? e' = Clause.factor? e ∧
      ((Clause.factor? e).isSome = true → e' = e)) (terms terms' : List Expr) (o op : Text) :
    c.Alike r ⟨[','], op, terms ++ e.withOp o :: terms'⟩ ⟨[','], op, terms ++ e'.withOp o :: terms'⟩ where
  ungrouped := Expr.ungrouped_exchange (List.cons_ne_nil _ _) h.ungrouped terms terms' o op
  add := by
    have hnode : ∀ terms : List Expr, Expr.bracketsRemoved ⟨[','], op, terms⟩ = ⟨[','], op, terms⟩ :=
      fun _ => Expr.bracketsRemoved_node (List.cons_ne_nil _ _)
    have htoList := Expr.toList_exchange [','] terms terms' op
    have hitem := h.sameNode o o
    rw [hnode, hnode]
    cases c with
    | ties =>
      refine Reader.addTies_congr ?_
      rw [htoList, htoList]
      exact List.rel_append (List.forall₂_same.2 fun item _ => .refl item)
        (.cons hitem (List.forall₂_same.2 fun item _ => .refl item))
    | constraints =>
      obtain ⟨hsame, hstray⟩ := hfactor rfl
      refine Reader.addConstraints_congr ?_
      rw [htoList, htoList]
      refine List.rel_append (List.forall₂_same.2 fun item _ => .refl item)
        (.cons ⟨hitem, hsame, fun hsome => ?_⟩ (List.forall₂_same.2 fun item _ => .refl item))
      rw [hstray hsome]

end Conditions

/-! ## Items -/

/-- The same item, or items with lists that say the same. -/
inductive Item.Alike (r : Reader) : Expr → Expr → Prop
  | refl (item : Expr) : Alike r item item
  | list (c : Conditions) (op : Text) {value value' : Expr} : c.Alike r value value' →
    Alike r (c.item op value) (c.item op value')

namespace Reader

variable {r : Reader} {item item' : Expr} {items items' : List Expr}

theorem render_congr {e e' : Expr} (hr : r.operators = .standard) (h : e'.ungrouped = e.ungrouped) :
    r.render e' = r.render e := by
  rw [render, render, hr]
  exact Expr.text_congr (h.trans (Expr.withOp_of_eq (Expr.ungrouped_op e)).symm)

theorem ungrouped_items (h : Item.Alike r item item') : item'.ungrouped = item.ungrouped := by
  cases h with
  | refl => rfl
  | @list c op value value' hlist =>
    have hnode : ∀ v : Expr, (c.item op v).IsNode := fun v => .inl (List.cons_ne_nil _ _)
    rw [(hnode value).ungrouped_eq, (hnode value').ungrouped_eq]
    simp only [List.map_cons, hlist.ungrouped]

theorem firstKey_congr (h : Item.Alike r item item') :
    (Item.assignment? item').map Prod.fst = (Item.assignment? item).map Prod.fst := by
  cases h <;> rfl

theorem typeName?_congr (h : Item.Alike r item item') : r.typeName? item' = r.typeName? item := by
  cases h with
  | refl => rfl
  | list c op hlist => cases c <;> rfl

theorem unquoted_congr {value value' : Expr} {c : Conditions} (hr : r.operators = .standard)
    (h : c.Alike r value value') : r.unquoted value' = r.unquoted value :=
  congrArg Item.unquote (render_congr hr h.ungrouped)

theorem readItem_congr (hr : r.operators = .standard) (h : Item.Alike r item item') (m : Model) :
    r.readItem m item' = r.readItem m item := by
  cases h with
  | refl => rfl
  | @list c op value value' hlist =>
    change r.readAssignment m c.key value' = r.readAssignment m c.key value
    rw [readAssignment, readAssignment, unquoted_congr hr hlist]
    have hadd := hlist.add
    cases c with
    | ties =>
      change (if _ then _ else Act.change m (Conditions.ties.add r _)) = _
      rw [hadd]
      rfl
    | constraints =>
      change (if _ then _ else Act.change m (Conditions.constraints.add r _)) = _
      rw [hadd]
      rfl

theorem readHeaderItem_congr (hr : r.operators = .standard) (h : Item.Alike r item item') (m : Model) :
    r.readHeaderItem m item' = r.readHeaderItem m item := by
  cases h with
  | refl => rfl
  | @list c op value value' hlist =>
    change (if m.hasAttribute c.key then Act.ofModel (m.setAttributeText c.key (r.unquoted value'))
      else _) = _
    rw [unquoted_congr hr hlist]
    cases c <;> rfl

theorem addCondition_congr (h : Item.Alike r item item') :
    r.addCondition item' = r.addCondition item := by
  cases h with
  | refl => rfl
  | list c op hlist =>
    cases c with
    | ties => exact hlist.add
    | constraints => exact hlist.add

theorem readTrailing_cons_congr (hr : r.operators = .standard) (h : Item.Alike r item item') (more : List Expr) :
    r.readTrailing (item' :: more) = r.readTrailing (item :: more) := by
  have hrender := render_congr hr (ungrouped_items h)
  cases h with
  | refl => rfl
  | list c op hlist =>
    rw [readTrailing, readTrailing, hrender]
    cases c <;> rfl

/-! ## Lists of items -/

theorem readItems_congr (hr : r.operators = .standard) (h : List.Forall₂ (Item.Alike r) items items')
    (m : Model) : r.readItems m items' = r.readItems m items := by
  induction h generalizing m with
  | nil => rfl
  | cons hitem _ ih =>
    rw [readItems, readItems, readItem_congr hr hitem]
    exact bind_congr ih

theorem readHeaderItems_congr (hr : r.operators = .standard)
    (h : List.Forall₂ (Item.Alike r) items items') (m : Model) :
    r.readHeaderItems m items' = r.readHeaderItems m items := by
  induction h generalizing m with
  | nil => rfl
  | cons hitem _ ih =>
    rw [readHeaderItems, readHeaderItems, readHeaderItem_congr hr hitem]
    exact bind_congr ih

theorem readTrailing_congr (hr : r.operators = .standard)
    (h : List.Forall₂ (Item.Alike r) items items') : r.readTrailing items' = r.readTrailing items := by
  induction h with
  | nil => rfl
  | cons hitem _ ih =>
    rw [readTrailing_cons_congr hr hitem, readTrailing, readTrailing, ih]

theorem addConditions_congr (h : List.Forall₂ (Item.Alike r) items items') :
    r.addConditions items' = r.addConditions items := by
  induction h with
  | nil => rfl
  | cons hitem _ ih => rw [addConditions, addConditions, addCondition_congr hitem, ih]

end Reader

end Lineshape
