import Lineshape.Proofs.Reading.Alike
import Lineshape.Proofs.Reading.Factors

/-! # Bracket groups that reading does not see through

An item in a bracket group beside other items is never read, and neither is a factor in one: it is taken
for a constraint. `Reader.Refused` says of a tree that no model text is read with it as a part of it; it
passes on to the lists and sequences around it. -/

namespace Lineshape
set_option autoImplicit false

/-! ## Acts that fail -/

namespace Act

variable {σ τ α β : Type} {x : Act σ α} {f : α → Act σ β}

/-- The act gives nothing, wherever it is started. -/
def Fails (x : Act σ α) : Prop := ∀ w a w', ¬ Runs x w a w'

theorem fails_throw (e : ReadError) : Fails (throw e : Act σ α) := fun _ _ _ => runs_throw

theorem Fails.bind (h : Fails x) (f : α → Act σ β) : Fails (x >>= f) := by
  intro w b w' hrun
  obtain ⟨a, v, hx, -⟩ := runs_bind.1 hrun
  exact h w a v hx

theorem fails_bind (h : ∀ w a w', Runs x w a w' → Fails (f a)) : Fails (x >>= f) := by
  intro w b w' hrun
  obtain ⟨a, v, hx, hf⟩ := runs_bind.1 hrun
  exact h w a v hx v b w' hf

theorem Fails.on (h : Fails x) (s : σ) : Fails (on s x : Act τ (α × σ)) := by
  intro w p w' hrun
  obtain ⟨v, hx, -⟩ := runs_on.1 hrun
  exact h _ _ _ hx

theorem Fails.change {x : Act Model Unit} (h : Fails x) (m : Model) : Fails (change m x : Act σ Model) := by
  intro w m' w' hrun
  obtain ⟨v, hx, -⟩ := runs_change.1 hrun
  exact h _ _ _ hx

end Act

open Act

/-! ## Factors -/

theorem Clause.exists_constraint {item : Expr} {items : List Expr} (hmem : item ∈ items)
    (hconstraint : isConstraint item = true) :
    ∃ factor?, constraint item.bracketsRemoved factor? ∈ ofItems items := by
  have hasked : ∃ factor?, (item.bracketsRemoved, factor?) ∈ asked items := by
    induction items with
    | nil => cases hmem
    | cons first more ih =>
      rw [asked_cons]
      rcases List.mem_cons.1 hmem with rfl | hmem
      · rw [if_pos hconstraint]
        exact ⟨_, List.mem_cons_self⟩
      · obtain ⟨factor?, h⟩ := ih hmem
        refine ⟨factor?, ?_⟩
        split
        · exact List.mem_cons_of_mem _ h
        · exact h
  obtain ⟨factor?, hasked⟩ := hasked
  have hpart := List.mem_map_of_mem (f := fun p : Expr × Option Expr => Edit.addConstraint p.1 p.2) hasked
  rw [← constraints_ofItems, List.mem_filterMap] at hpart
  obtain ⟨clause, hclause, hpart⟩ := hpart
  cases clause with
  | constraint chain factor? =>
    cases hpart
    exact ⟨_, hclause⟩
  | stray => cases hpart

namespace Reader

variable {r : Reader} {e item : Expr} {items : List Expr}

theorem fails_addConstraint {chain : Expr} (h : kindOf chain ∉ r.kinds) (factor? : Option Expr) :
    Fails (r.addConstraint chain factor?) := by
  refine fails_bind fun _ m _ _ => Fails.bind ?_ _
  rw [createBound, if_neg (by simpa using h)]
  exact fails_throw _

theorem fails_addClauses {chain : Expr} {factor? : Option Expr} {clauses : List Clause}
    (h : Fails (r.addConstraint chain factor?)) (hmem : .constraint chain factor? ∈ clauses) :
    Fails (r.addClauses clauses) := by
  induction clauses with
  | nil => cases hmem
  | cons first more ih =>
    cases hmem with
    | head => exact h.bind _
    | tail _ hmore =>
      cases first with
      | constraint => exact fails_bind fun _ _ _ _ => ih hmore
      | stray => exact fails_bind fun _ _ _ _ => fails_bind fun _ _ _ _ => ih hmore

/-- A factor in a group is no constraint of any kind. -/
theorem fails_addConstraints (hkinds : ['='] ∉ r.kinds) (hmem : item ∈ e.toList [','])
    (hgroup : item.form ≠ .assign) (hfactor : item.bracketsRemoved.form = .assign) :
    Fails (r.addConstraints e) := by
  obtain ⟨-, -, hname⟩ := Part.name_of_form (e := item.bracketsRemoved)
  have hconstraint : Clause.isConstraint item = true := by
    have hmarker : item.bracketsRemoved.isEmptyMarker = false := by
      rw [Expr.isEmptyMarker, hname hfactor]
      exact Bool.and_false _
    rw [Clause.isConstraint, Clause.factor?, Part.assignment?_eq_none hgroup, hmarker]
    rfl
  obtain ⟨factor?, hclause⟩ := Clause.exists_constraint hmem hconstraint
  refine fails_addClauses (fails_addConstraint ?_ factor?) hclause
  rw [kindOf, hname hfactor]
  exact hkinds

end Reader

/-! ## Items -/

/-- No function of a type has an attribute with the key of a list of ties or constraints. -/
def Catalogue.FreeKeys (types : Catalogue) : Prop :=
  ∀ name m, types.create name = .ok m → ∀ c : Conditions, m.hasAttribute c.key = false

theorem Catalogue.freeKeys_builtin : Catalogue.builtin.FreeKeys := by
  intro name m hcreate c
  have hfree : ∀ name ∈ Named.names m.attributes,
      decide (name ≠ Conditions.ties.key ∧ name ≠ Conditions.constraints.key) = true :=
    attributes_of_all (by decide +kernel) hcreate
  rw [Model.hasAttribute, Bool.eq_false_iff]
  intro hhas
  obtain ⟨hties, hconstraints⟩ := of_decide_eq_true (hfree _ (Named.has_iff_mem_names.1 hhas))
  cases c with
  | ties => exact hties rfl
  | constraints => exact hconstraints rfl

/-- An item that is no item of any model text: it is in a group, or it has a list that is refused. -/
inductive Item.Unread (r : Reader) : Expr → Prop
  | group {item : Expr} : assignment? item = none → Part.sequence? item = none → Unread r item
  | list (c : Conditions) (op : Text) {value : Expr} : Fails (c.add r value.bracketsRemoved) →
    Unread r (c.item op value)

namespace Reader

variable {r : Reader} {e item : Expr} {items : List Expr}

theorem typeName?_unread (h : Item.Unread r item) : r.typeName? item = none := by
  cases h with
  | group hassign => rw [typeName?, hassign]
  | list c => cases c <;> rfl

theorem sequence?_unread (h : Item.Unread r item) : Part.sequence? item = none := by
  cases h with
  | group _ hsequence => exact hsequence
  | list => exact Part.sequence?_of_assign rfl

theorem fails_readItem (h : Item.Unread r item) {m : Model}
    (hm : ∀ c : Conditions, m.hasAttribute c.key = false) : Fails (r.readItem m item) := by
  cases h with
  | group hassign =>
    rw [readItem, hassign]
    exact fails_throw _
  | list c op hfails =>
    change Fails (r.readAssignment m c.key _)
    rw [readAssignment, if_neg (Bool.eq_false_iff.1 (hm c))]
    cases c with
    | ties => exact hfails.change m
    | constraints => exact hfails.change m

theorem fails_readHeaderItem (h : Item.Unread r item) {m : Model}
    (hm : ∀ c : Conditions, m.hasAttribute c.key = false) : Fails (r.readHeaderItem m item) := by
  cases h with
  | group hassign =>
    rw [readHeaderItem, hassign]
    exact fails_throw _
  | @list c op value =>
    change Fails (if m.hasAttribute c.key then Act.ofModel (m.setAttributeText c.key (r.unquoted value))
      else _)
    rw [if_neg (Bool.eq_false_iff.1 (hm c))]
    cases c with
    | ties => exact fails_throw _
    | constraints => exact fails_throw _

theorem fails_addCondition (h : Item.Unread r item) : Fails (r.addCondition item) := by
  cases h with
  | group hassign =>
    rw [addCondition, hassign]
    exact fails_throw _
  | list c op hfails =>
    cases c with
    | ties => exact hfails
    | constraints => exact hfails

/-! ### Lists of items -/

theorem Reaches.freeKeys {m m' : Model} (h : r.Reaches m m')
    (hm : ∀ c : Conditions, m.hasAttribute c.key = false) (c : Conditions) :
    m'.hasAttribute c.key = false := by
  refine h.keeps (P := fun m => ∀ c : Conditions, m.hasAttribute c.key = false) ?_ hm c
  intro m m' hm hstep c
  have hnames := names_attributes_of_step hstep
  rw [Model.hasAttribute, Bool.eq_false_iff, Ne, Named.has_iff_mem_names, hnames,
    ← Named.has_iff_mem_names, ← Ne, ← Bool.eq_false_iff]
  exact hm c

theorem fails_readItems (h : Item.Unread r item) (hmem : item ∈ items) {m : Model}
    (hm : ∀ c : Conditions, m.hasAttribute c.key = false) : Fails (r.readItems m items) := by
  induction items generalizing m with
  | nil => cases hmem
  | cons first more ih =>
    cases hmem with
    | head => exact (fails_readItem h hm).bind _
    | tail _ hmore =>
      refine fails_bind fun w m' w' hrun => ih hmore ?_
      have hone : Runs (r.readItems m [first]) w m' w' :=
        runs_bind.2 ⟨m', w', hrun, runs_pure.2 ⟨rfl, rfl⟩⟩
      exact (reaches_readItems hone).freeKeys hm

theorem fails_readHeaderItems (h : Item.Unread r item) (hmem : item ∈ items) {m : Model}
    (hm : ∀ c : Conditions, m.hasAttribute c.key = false) : Fails (r.readHeaderItems m items) := by
  induction items generalizing m with
  | nil => cases hmem
  | cons first more ih =>
    cases hmem with
    | head => exact (fails_readHeaderItem h hm).bind _
    | tail _ hmore =>
      refine fails_bind fun w m' w' hrun => ih hmore ?_
      have hone : Runs (r.readHeaderItems m [first]) w m' w' :=
        runs_bind.2 ⟨m', w', hrun, runs_pure.2 ⟨rfl, rfl⟩⟩
      exact (reaches_readItems (runs_readItems_of_readHeaderItems hone)).freeKeys hm

theorem fails_readTrailing (h : Item.Unread r item) (hmem : item ∈ items) :
    Fails (r.readTrailing items) := by
  induction items with
  | nil => cases hmem
  | cons first more ih =>
    cases hmem with
    | head =>
      cases h with
      | group hassign =>
        rw [readTrailing, hassign]
        exact fails_throw _
      | list c => cases c <;> exact fails_throw _
    | tail _ hmore =>
      rw [readTrailing]
      split
      · exact fails_throw _
      · split
        · exact fails_bind fun _ _ _ _ => ih hmore
        · exact fails_throw _

theorem fails_addConditions (h : Item.Unread r item) (hmem : item ∈ items) :
    Fails (r.addConditions items) := by
  induction items with
  | nil => cases hmem
  | cons first more ih =>
    cases hmem with
    | head => exact (fails_addCondition h).bind _
    | tail _ hmore => exact fails_bind fun _ _ _ _ => ih hmore

/-! ## Parts of model texts -/

/-- A tree that is no part of any sequence that is read. -/
structure TermRefused (r : Reader) (e : Expr) : Prop where
  header : (Opening.of e).isHeader = true → Fails (r.beginComposite (Opening.of e))
  part : (∀ m, Fails (r.addPart (Part.ofExpr e) m)) ∨
    Fails (r.addConditions (Part.conditionItems [Part.ofExpr e]))

/-- A tree that is no part of any model text that is read, and not the whole of one either. -/
structure Refused (r : Reader) (e : Expr) : Prop extends TermRefused r e where
  tree : Fails (r.readTree e.bracketsRemoved)

theorem Refused.covers {t : Expr} (h : r.Refused e) (ht : t.Covers e) : r.Refused t := by
  have hpart : Part.ofExpr t = Part.ofExpr e := by
    rw [← Part.ofExpr_bracketsRemoved, ht.node, Part.ofExpr_bracketsRemoved]
  have hopening : Opening.of t = Opening.of e := by
    rw [← Opening.of_bracketsRemoved, ht.node, Opening.of_bracketsRemoved]
  constructor
  · constructor
    · rw [hopening]
      exact h.header
    · rw [hpart]
      exact h.part
  · rw [ht.node]
    exact h.tree

theorem TermRefused.withOp (h : r.TermRefused e) (op : Text) : r.TermRefused (e.withOp op) where
  header := by
    obtain ⟨hbegins, hheader⟩ := r.beginComposite_withOp e op
    rw [hbegins, hheader]
    exact h.header
  part := by
    refine h.part.imp (fun hpart m => ?_) fun hconditions => ?_
    · rw [← addPart_alone, Part.alone_ofExpr, addPart_alone]
      exact hpart m
    · rw [← addConditions_part, Part.alone_ofExpr, addConditions_part]
      exact hconditions

/-! ### Sequences -/

theorem fails_addParts {part : Part} {parts : List Part} (h : ∀ m, Fails (r.addPart part m))
    (hmem : part ∈ parts) (m : Model) : Fails (r.addParts parts m) := by
  induction parts generalizing m with
  | nil => cases hmem
  | cons first more ih =>
    rw [addParts]
    cases hmem with
    | head => exact (h m).bind _
    | tail _ hmore => exact fails_bind fun _ m' _ _ => ih hmore m'

theorem fails_readParts {parts : List Part} (h : r.TermRefused e) (hmem : Part.ofExpr e ∈ parts)
    (opening : Opening) : Fails (r.readParts opening parts) := by
  refine fails_bind fun _ m _ _ => ?_
  rcases h.part with hpart | hconditions
  · exact (fails_addParts hpart hmem m).bind _
  · obtain ⟨front, back, rfl⟩ := List.append_of_mem hmem
    refine fails_bind fun _ m' _ _ => Fails.change (Fails.bind ?_ _) m'
    have hitems : Part.conditionItems (front ++ Part.ofExpr e :: back) =
        Part.conditionItems front ++ (Part.conditionItems [Part.ofExpr e] ++ Part.conditionItems back) := by
      rw [← Part.conditionItems_cons, Part.conditionItems, List.flatMap_append]
      rfl
    rw [hitems, addConditions_append, addConditions_append]
    exact fails_bind fun _ _ _ _ => hconditions.bind _

theorem fails_addPart_composite {p : Opening × List Part} (h : Fails (r.readParts p.1 p.2))
    (items : List Expr) (m : Model) : Fails (r.addPart (.composite p.1 p.2 items) m) := by
  rw [addPart]
  refine Fails.bind (Fails.on ?_ []) _
  intro w m' w' hrun
  obtain ⟨m₁, w₁, hbegin, hrun⟩ := runs_bind.1 hrun
  obtain ⟨m₂, w₂, hparts, hrun⟩ := runs_bind.1 hrun
  obtain ⟨m₃, w₃, hends, hrun⟩ := runs_bind.1 hrun
  exact h w m₃ w₃ (runs_bind.2 ⟨m₁, w₁, hbegin, runs_bind.2 ⟨m₂, w₂, hparts, hends⟩⟩)

theorem refused_of_sequence? {p : Opening × List Part} (hsequence : Part.sequence? e = some p)
    (h : Fails (r.readParts p.1 p.2)) : r.Refused e := by
  have hpart := Part.ofExpr_of_sequence? hsequence
  constructor
  · constructor
    · rw [Part.opening_of_composite hpart]
      exact nofun
    · rw [hpart]
      exact .inl (fails_addPart_composite h [])
  · rw [readTree_of_sequence? hsequence]
    exact h

/-- A sequence with a term that is refused is refused. -/
theorem refused_sequence (h : r.TermRefused e) (terms terms' : List Expr) (op : Text) :
    r.Refused ⟨[';'], op, terms ++ e :: terms'⟩ := by
  cases terms with
  | nil =>
    refine refused_of_sequence? (Part.sequence?_sequence op e terms') ?_
    dsimp only
    split
    · rename_i hheader
      exact (h.header hheader).bind _
    · exact fails_readParts h (List.mem_map_of_mem List.mem_cons_self) _
  | cons first more =>
    refine refused_of_sequence? (Part.sequence?_sequence op first (more ++ e :: terms'))
      (fails_readParts h ?_ _)
    have hmem : e ∈ more ++ e :: terms' := List.mem_append_right _ List.mem_cons_self
    split
    · exact List.mem_map_of_mem hmem
    · exact List.mem_map_of_mem (List.mem_cons_of_mem first hmem)

/-! ### Lists -/

/-- A list that begins with a composite in brackets that is refused is refused. -/
theorem refused_nested (h : r.Refused e) (hform : e.bracketsRemoved.form = .sequence) (o op : Text)
    (items : List Expr) : r.Refused ⟨[','], op, e.withOp o :: items⟩ := by
  obtain ⟨opening, parts, hsequence, -⟩ := Part.ofExpr_of_sequence hform
  have htree := h.tree
  rw [Part.sequence?_bracketsRemoved] at hsequence
  rw [readTree_of_sequence? hsequence] at htree
  rw [← sequence?_withOp e o] at hsequence
  have hpart : Part.ofExpr ⟨[','], op, e.withOp o :: items⟩ = .composite opening parts items := by
    rw [Part.ofExpr_list, hsequence]
    rfl
  constructor
  · constructor
    · rw [Part.opening_of_composite hpart]
      exact nofun
    · rw [hpart]
      exact .inl (fails_addPart_composite htree items)
  · rw [readTree_nested hsequence]
    exact fails_throw _

theorem firstKey_unread (h : Item.Unread r item) :
    (Item.assignment? item).map (fun p => Key.ofText p.1) ≠ some .composite := by
  cases h with
  | group hassign =>
    rw [hassign]
    exact nofun
  | list c => cases c <;> exact nofun

theorem opening_of_isHeader (h : (Opening.of e).isHeader = true) :
    Item.firstKey? e.bracketsRemoved = some .composite ∧ Opening.of e = .header e.bracketsRemoved := by
  rw [Opening.of] at h ⊢
  split at h
  · rename_i hkey
    rw [hkey]
    exact ⟨rfl, rfl⟩
  · cases h
  · cases h
  · cases h
  · split at h
    · cases h
    · cases h
  · cases h

section Items

variable {head : Expr} {more : List Expr} (h : Item.Unread r item) (hmem : head = item ∨ item ∈ more)
  (op : Text)

include h hmem

theorem fails_readFunction_items (htypes : r.types.FreeKeys) :
    Fails (r.readFunction ⟨[','], op, head :: more⟩) := by
  have hnode : Expr.bracketsRemoved ⟨[','], op, head :: more⟩ = ⟨[','], op, head :: more⟩ :=
    Expr.bracketsRemoved_node (List.cons_ne_nil _ _)
  have hlist : functionItems ⟨[','], op, head :: more⟩ = head :: more := rfl
  simp only [readFunction, hnode, hlist]
  cases htype : r.typeName? head with
  | none => exact fails_throw _
  | some type =>
    rcases hmem with rfl | hmem
    · rw [typeName?_unread h] at htype
      cases htype
    · refine fails_bind fun w m w' hof => fails_bind fun _ _ _ _ => Fails.bind ?_ _
      exact fails_readItems h hmem (htypes _ m (runs_ofModel.1 hof).1)

theorem fails_beginComposite_items (htypes : r.types.FreeKeys)
    (hheader : (Opening.of ⟨[','], op, head :: more⟩).isHeader = true) :
    Fails (r.beginComposite (Opening.of ⟨[','], op, head :: more⟩)) := by
  obtain ⟨hkey, hopening⟩ := opening_of_isHeader hheader
  rw [Expr.bracketsRemoved_node (List.cons_ne_nil _ _)] at hkey hopening
  have hmore : item ∈ more := by
    rcases hmem with rfl | hmem
    · exact absurd hkey (firstKey_unread h)
    · exact hmem
  have htoList : Expr.toList [','] ⟨[','], op, head :: more⟩ = head :: more := rfl
  rw [hopening]
  simp only [beginComposite, readHeader, htoList]
  cases Item.assignment? head with
  | none => exact fails_throw _
  | some p =>
    refine fails_bind fun w m w' hof => fails_readHeaderItems h hmore ?_
    exact htypes _ m (Catalogue.createComposite_eq_ok (runs_ofModel.1 hof).1).1

theorem fails_part_items (htypes : r.types.FreeKeys) :
    (∀ m, Fails (r.addPart (Part.ofExpr ⟨[','], op, head :: more⟩) m)) ∨
      Fails (r.addConditions (Part.conditionItems [Part.ofExpr ⟨[','], op, head :: more⟩])) := by
  rw [Part.ofExpr_list]
  cases hsequence : Part.sequence? head with
  | some p =>
    have hmore : item ∈ more := by
      rcases hmem with rfl | hmem
      · rw [sequence?_unread h] at hsequence
        cases hsequence
      · exact hmem
    refine .inl fun m => ?_
    rw [Option.elim_some, addPart]
    refine Fails.bind (Fails.on ?_ []) _
    exact fails_bind fun _ _ _ _ => fails_bind fun _ _ _ _ => fails_bind fun _ _ _ _ =>
      (fails_readTrailing h hmore).bind _
  | none =>
    have hconditions : Fails (r.addConditions
        (Part.conditionItems [.conditions ⟨[','], op, head :: more⟩])) := by
      have hlist : Part.conditionItems [.conditions ⟨[','], op, head :: more⟩] = head :: more :=
        List.append_nil _
      rw [hlist]
      refine fails_addConditions h ?_
      rcases hmem with rfl | hmem
      · exact List.mem_cons_self
      · exact List.mem_cons_of_mem head hmem
    rw [Option.elim_none, Part.ofItems]
    split
    · exact .inr hconditions
    · exact .inr hconditions
    · refine .inl fun m => ?_
      rw [addPart]
      exact ((fails_readFunction_items h hmem op htypes).on []).bind _

end Items

/-- A list of items with one that is never read is refused. -/
theorem refused_items (htypes : r.types.FreeKeys) (h : Item.Unread r item) (terms terms' : List Expr)
    (op : Text) : r.Refused ⟨[','], op, terms ++ item :: terms'⟩ := by
  obtain ⟨head, more, hitems, hmem⟩ : ∃ head more, terms ++ item :: terms' = head :: more ∧
      (head = item ∨ item ∈ more) := by
    cases terms with
    | nil => exact ⟨item, terms', rfl, .inl rfl⟩
    | cons first more => exact ⟨first, more ++ item :: terms', rfl, .inr (by simp)⟩
  rw [hitems]
  refine ⟨⟨fails_beginComposite_items h hmem op htypes, fails_part_items h hmem op htypes⟩, ?_⟩
  rw [Expr.bracketsRemoved_node (List.cons_ne_nil _ _)]
  exact fails_readFunction_items h hmem op htypes

/-- The same of an item on its own, with a list that is refused. -/
theorem refused_item (c : Conditions) (op : Text) {value : Expr}
    (h : Fails (c.add r value.bracketsRemoved)) : r.Refused (c.item op value) := by
  constructor
  · constructor
    · rw [opening_item]
      exact nofun
    · rw [ofExpr_item]
      exact .inr ((fails_addCondition (.list c op h)).bind _)
  · rw [bracketsRemoved_item, readTree_item]
    exact fails_throw _

end Reader
end Lineshape
