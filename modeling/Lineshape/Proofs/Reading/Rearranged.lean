import Lineshape.Proofs.Expr.Groups
import Lineshape.Proofs.Reading.Routing

/-! # The order of the parts of a composite

Ties and constraints of a composite are attached when all members are there, so their lists may stand
anywhere among the members. Only how a composite begins depends on its first part
(`Reader.runs_readComposite_rearranged`). -/

namespace Lineshape
set_option autoImplicit false

/-! ## The operator before a part -/

theorem Expr.toList_withOp (sep : Text) (e : Expr) (op : Text) :
    (e.withOp op).toList sep = e.toList sep ∨
      (e.toList sep = [e] ∧ (e.withOp op).toList sep = [e.withOp op]) := by
  by_cases h : e.name = sep ∧ !e.isLeaf
  · exact .inl ((if_pos h).trans (if_pos h).symm)
  · exact .inr ⟨if_neg h, if_neg h⟩

theorem Expr.bracketsRemoved_withOp (e : Expr) (op : Text) :
    ∃ op', (e.withOp op).bracketsRemoved = e.bracketsRemoved.withOp op' := by
  rcases isNode_or_group e with h | ⟨op', inner, rfl⟩
  · have hop : (e.withOp op).IsNode := h
    exact ⟨op, by rw [h.bracketsRemoved_eq, hop.bracketsRemoved_eq]⟩
  · refine ⟨inner.bracketsRemoved.op, ?_⟩
    rw [bracketsRemoved_group, withOp_of_eq rfl]
    exact bracketsRemoved_group op inner

theorem Item.firstKey?_withOp (e : Expr) (op : Text) :
    Item.firstKey? (e.withOp op) = Item.firstKey? e := by
  rw [firstKey?, firstKey?]
  rcases e.toList_withOp [','] op with h | ⟨h, h'⟩
  · rw [h]
  · rw [h, h']
    rfl

namespace Part

/-- The part without the operator before it. -/
def alone : Part → Part
  | .function e => .function (e.withOp [])
  | .conditions e => .conditions (e.withOp [])
  | .composite opening parts items => .composite opening parts items

theorem isMember_alone (p : Part) : p.alone.isMember = p.isMember := by
  cases p <;> rfl

theorem ofExprs_eq_map (terms : List Expr) : ofExprs terms = terms.map ofExpr := by
  induction terms with
  | nil => rfl
  | cons e terms ih => rw [ofExprs, ih, List.map_cons]

/-- The opening and the parts of a sequence that is not in brackets. -/
theorem sequence?_sequence (op : Text) (first : Expr) (more : List Expr) :
    sequence? ⟨[';'], op, first :: more⟩ = some (Opening.of first,
      if (Opening.of first).isHeader then more.map ofExpr else (first :: more).map ofExpr) := by
  rw [sequence?, if_neg (fun h => List.cons_ne_nil _ _ h.1), if_pos rfl, ofExprs_eq_map]
  rfl

theorem alone_ofItems (e : Expr) (op : Text) : (ofItems (e.withOp op)).alone = (ofItems e).alone := by
  rw [ofItems, ofItems, Item.firstKey?_withOp]
  split <;> rfl

theorem alone_ofExpr (e : Expr) (op : Text) : (ofExpr (e.withOp op)).alone = (ofExpr e).alone := by
  obtain ⟨name, op', terms⟩ := e
  cases terms with
  | nil => exact alone_ofItems ⟨name, op', []⟩ op
  | cons first more =>
    have hitems := alone_ofItems ⟨name, op', first :: more⟩ op
    rw [Expr.withOp] at hitems ⊢
    rw [ofExpr, ofExpr]
    split
    · rfl
    · split
      · rfl
      · split
        · split
          · rfl
          · exact hitems
        · exact hitems

end Part

namespace Reader

variable {r : Reader}

theorem render_withOp (r : Reader) (e : Expr) (op : Text) : r.render (e.withOp op) = r.render e :=
  Expr.render_withOp r.operators e op

theorem functionItems_withOp (e : Expr) (op : Text) :
    functionItems (e.withOp op) = functionItems e ∨
      (functionItems e = [e] ∧ functionItems (e.withOp op) = [e.withOp op]) := by
  have hform : (e.withOp op).form = e.form := rfl
  rw [functionItems, functionItems, hform]
  split
  · exact .inr ⟨rfl, rfl⟩
  · exact .inl rfl
  · exact .inl rfl

theorem readFunction_withOp (r : Reader) (e : Expr) (op : Text) :
    r.readFunction (e.withOp op) = r.readFunction e := by
  obtain ⟨op', he⟩ := e.bracketsRemoved_withOp op
  rw [readFunction, readFunction, he]
  rcases functionItems_withOp e.bracketsRemoved op' with h | ⟨h, h'⟩
  · rw [h, render_withOp]
  · rw [h, h']
    rfl

theorem readHeader_withOp (r : Reader) (e : Expr) (op : Text) :
    r.readHeader (e.withOp op) = r.readHeader e := by
  rw [readHeader, readHeader, render_withOp]
  rcases e.toList_withOp [','] op with h | ⟨h, h'⟩
  · rw [h]
  · rw [h, h']
    rfl

theorem addPart_alone (r : Reader) (p : Part) (m : Model) : r.addPart p.alone m = r.addPart p m := by
  cases p with
  | function e => rw [Part.alone, addPart, addPart, readFunction_withOp]
  | conditions e => rfl
  | composite opening parts items => rfl

theorem addParts_members (r : Reader) (parts : List Part) (m : Model) :
    r.addParts ((Part.members parts).map Part.alone) m = r.addParts parts m := by
  induction parts generalizing m with
  | nil => rfl
  | cons p parts ih =>
    cases p with
    | conditions e =>
      rw [addParts, addPart, pure_bind, ← ih]
      rfl
    | function e =>
      rw [Part.members, List.filter_cons_of_pos rfl, List.map_cons, addParts, addParts, addPart_alone]
      exact bind_congr fun m => ih m
    | composite opening parts items =>
      rw [Part.members, List.filter_cons_of_pos rfl, List.map_cons, addParts, addParts, addPart_alone]
      exact bind_congr fun m => ih m

/-! ## Conditions -/

theorem addConditions_append (r : Reader) (front back : List Expr) :
    r.addConditions (front ++ back) = r.addConditions front >>= fun _ => r.addConditions back := by
  induction front with
  | nil => rw [List.nil_append, addConditions, pure_bind]
  | cons item front ih => rw [List.cons_append, addConditions, addConditions, ih, bind_assoc]

theorem addCondition_withOp (r : Reader) (e : Expr) (op : Text) :
    r.addCondition (e.withOp op) = r.addCondition e := by
  unfold addCondition
  rw [render_withOp]
  rfl

theorem addConditions_withOp (r : Reader) (e : Expr) (op : Text) :
    r.addConditions ((e.withOp op).toList [',']) = r.addConditions (e.toList [',']) := by
  rcases e.toList_withOp [','] op with h | ⟨h, h'⟩
  · rw [h]
  · rw [h, h', addConditions, addCondition_withOp]
    rfl

end Reader

/-- The lists of ties and constraints among the parts of a composite. -/
def Part.conditionParts (parts : List Part) : List Part := parts.filter (!·.isMember)

theorem Part.conditionItems_cons (p : Part) (parts : List Part) :
    conditionItems (p :: parts) = conditionItems [p] ++ conditionItems parts := by
  rw [conditionItems, conditionItems, conditionItems, List.flatMap_cons, List.flatMap_singleton]

namespace Reader

variable {r : Reader}

theorem addConditions_alone (r : Reader) (parts : List Part) :
    r.addConditions (Part.conditionItems ((Part.conditionParts parts).map Part.alone)) =
      r.addConditions (Part.conditionItems parts) := by
  induction parts with
  | nil => rfl
  | cons p parts ih =>
    cases p with
    | conditions e =>
      have hfirst : ∀ e : Expr, Part.conditionItems [.conditions e] = e.toList [','] :=
        fun e => List.append_nil _
      rw [Part.conditionParts, List.filter_cons_of_pos rfl, List.map_cons, Part.alone,
        Part.conditionItems_cons, Part.conditionItems_cons (.conditions e), hfirst, hfirst,
        addConditions_append, addConditions_append, addConditions_withOp]
      exact congrArg _ (funext fun _ => ih)
    | function e => exact ih
    | composite opening parts items => exact ih

/-- A composite is read alike from parts with the same members in order and the same conditions in
order, whatever stands between them. -/
theorem readParts_congr {opening opening' : Opening} {parts parts' : List Part}
    (hbegin : r.beginComposite opening' = r.beginComposite opening)
    (hmembers : (Part.members parts').map Part.alone = (Part.members parts).map Part.alone)
    (hconditions : (Part.conditionParts parts').map Part.alone =
      (Part.conditionParts parts).map Part.alone) :
    r.readParts opening' parts' = r.readParts opening parts := by
  have hadd : ∀ m, r.addParts parts' m = r.addParts parts m := by
    intro m
    rw [← addParts_members, hmembers, addParts_members]
  have hend : r.endComposite parts' = r.endComposite parts := by
    rw [endComposite, endComposite, ← addConditions_alone, hconditions, addConditions_alone]
  rw [readParts, readParts, hbegin, hend]
  exact bind_congr fun m => by rw [hadd]

end Reader

/-! ## How a sequence begins -/

namespace Part

theorem form_of_sequence? {e : Expr} {p : Opening × List Part} (h : sequence? e = some p) :
    e.bracketsRemoved.form = .sequence := by
  induction e with
  | node name op terms ih =>
    cases terms with
    | nil => cases h
    | cons first more =>
      rw [sequence?] at h
      split at h
      · rename_i hgroup
        obtain ⟨rfl, rfl⟩ := hgroup
        rw [Expr.bracketsRemoved_group]
        exact ih first (List.mem_singleton_self first) h
      · split at h
        · rename_i hname
          rw [hname, Expr.bracketsRemoved_node (List.cons_ne_nil _ _)]
          rfl
        · cases h

theorem ofExpr_of_sequence? {e : Expr} {o : Opening} {parts : List Part}
    (h : sequence? e = some (o, parts)) : ofExpr e = .composite o parts [] := by
  rw [← ofExpr_bracketsRemoved]
  obtain ⟨o', parts', hsequence, hof⟩ := ofExpr_of_sequence (form_of_sequence? h)
  rw [sequence?_bracketsRemoved, h] at hsequence
  cases hsequence
  exact hof

/-- A composite among the parts has no key in front, and is nested. -/
theorem isNested_of_composite {e : Expr} {o : Opening} {parts : List Part} {items : List Expr}
    (hnode : e.IsNode) (h : ofExpr e = .composite o parts items) :
    Item.firstKey? e = none ∧ Item.isNested e = true := by
  obtain ⟨name, op, terms⟩ := e
  cases terms with
  | nil => exact absurd h (ofItems_ne_composite _ _ _ _)
  | cons first more =>
    rw [ofExpr, if_neg hnode.not_group] at h
    split at h
    · rename_i hname
      rw [hname]
      exact ⟨rfl, rfl⟩
    · split at h
      · rename_i hname
        split at h
        · rename_i o' parts' hsequence
          have hform := form_of_sequence? hsequence
          have hnone : Item.assignment? first = none := by
            cases hassign : Item.assignment? first with
            | none => rfl
            | some p =>
              rw [sequence?_of_assign (form_of_assignment? hassign)] at hsequence
              cases hsequence
          rw [hname]
          constructor
          · change (Item.assignment? first).map _ = none
            rw [hnone]
            rfl
          · exact decide_eq_true hform
        · exact absurd h (ofItems_ne_composite _ _ _ _)
      · exact absurd h (ofItems_ne_composite _ _ _ _)

theorem opening_of_composite {e : Expr} {o : Opening} {parts : List Part} {items : List Expr}
    (h : ofExpr e = .composite o parts items) : Opening.of e = .plain := by
  have hnode := Expr.isNode_bracketsRemoved e
  rw [← ofExpr_bracketsRemoved] at h
  obtain ⟨hkey, hnested⟩ := isNested_of_composite hnode h
  rw [Opening.of, hkey]
  exact if_pos hnested

theorem ofExpr_eq_ofItems {e : Expr} (h : ∀ o parts items, ofExpr e ≠ .composite o parts items)
    (hnode : e.IsNode) : ofExpr e = ofItems e := by
  obtain ⟨name, op, terms⟩ := e
  cases terms with
  | nil => rfl
  | cons first more =>
    have hcases := h
    rw [ofExpr, if_neg hnode.not_group] at hcases ⊢
    split
    · rename_i hname
      rw [if_pos hname] at hcases
      exact absurd rfl (hcases _ _ _)
    · rename_i hname
      rw [if_neg hname] at hcases
      split
      · rename_i hlist
        rw [if_pos hlist] at hcases
        split
        · rename_i o parts hsequence
          rw [hsequence] at hcases
          exact absurd rfl (hcases _ _ _)
        · rfl
      · rfl

end Part

theorem Item.firstKey?_of_functionItems {e head : Expr} {items : List Expr}
    (h : Reader.functionItems e = head :: items) :
    firstKey? e = (assignment? head).map fun (key, _) => .ofText key := by
  rw [Reader.functionItems] at h
  split at h
  · rename_i hform
    obtain ⟨first, more, he⟩ := Part.exists_terms_of_form hform (by decide)
    rw [Part.name_of_form.2.2 hform] at he
    cases h
    rw [he]
    rfl
  · rename_i hform
    obtain ⟨first, more, he⟩ := Part.exists_terms_of_form hform (by decide)
    rw [Part.name_of_form.2.1 hform] at he
    rw [he] at h ⊢
    cases h
    rfl
  · cases h

namespace Opening

theorem of_bracketsRemoved (e : Expr) : of e.bracketsRemoved = of e := by
  rw [of, of, (Expr.isNode_bracketsRemoved e).bracketsRemoved_eq]

/-- A list of ties and constraints in front begins a plain sum. -/
theorem of_conditions {e : Expr} (h : (Part.ofExpr e).isMember = false) : of e = .plain := by
  rw [← of_bracketsRemoved]
  rw [← Part.ofExpr_bracketsRemoved] at h
  have hnode := Expr.isNode_bracketsRemoved e
  generalize e.bracketsRemoved = e at h hnode
  have hitems : Part.ofExpr e = Part.ofItems e := by
    refine Part.ofExpr_eq_ofItems (fun o parts items he => ?_) hnode
    rw [he] at h
    cases h
  rw [hitems, Part.ofItems] at h
  rw [of, hnode.bracketsRemoved_eq]
  split at h
  · rename_i hkey
    rw [hkey]
  · rename_i hkey
    rw [hkey]
  · cases h

end Opening

namespace Reader

variable {r : Reader}

/-- A member that can be read and does not begin like a header begins a plain sum. -/
theorem opening_of_addPart {e : Expr} {m m' : Model} {w w' : Work Parents}
    (hmember : (Part.ofExpr e).isMember = true) (hheader : (Opening.of e).isHeader = false)
    (h : Act.Runs (r.addPart (Part.ofExpr e) m) w m' w') : Opening.of e = .plain := by
  rw [← Opening.of_bracketsRemoved] at hheader ⊢
  rw [← Part.ofExpr_bracketsRemoved] at hmember h
  have hnode := Expr.isNode_bracketsRemoved e
  generalize e.bracketsRemoved = e at hmember h hnode hheader
  rw [Opening.of, hnode.bracketsRemoved_eq] at hheader ⊢
  cases hpart : Part.ofExpr e with
  | conditions e' =>
    rw [hpart] at hmember
    cases hmember
  | composite o parts items =>
    obtain ⟨hkey, hnested⟩ := Part.isNested_of_composite hnode hpart
    rw [hkey]
    exact if_pos hnested
  | function e' =>
    have hitems := Part.ofExpr_eq_ofItems (fun o parts items he => by rw [hpart] at he; cases he) hnode
    rw [hpart] at h
    rw [hpart, Part.ofItems] at hitems
    have he : e' = e := by
      split at hitems
      · cases hitems
      · cases hitems
      · exact Part.function.inj hitems
    subst he
    obtain ⟨⟨new, sent⟩, v, hon, -⟩ := Act.runs_bind.1 h
    obtain ⟨v', hread, -, -⟩ := Act.runs_on.1 hon
    rw [readFunction, hnode.bracketsRemoved_eq] at hread
    split at hread
    · exact absurd hread Act.runs_throw
    · rename_i head items hhead
      have hkey := Item.firstKey?_of_functionItems hhead
      split at hread
      · exact absurd hread Act.runs_throw
      · rename_i type htype
        rw [typeName?] at htype
        split at htype
        · rename_i key value hassign
          rw [hassign] at hkey
          rw [hkey] at hheader ⊢
          dsimp only [Option.map_some] at hheader ⊢
          split at htype
          · rename_i hname
            rw [hname]
          · rename_i hname
            rw [hname] at hheader
            cases hheader
          · cases htype
        · cases htype

theorem beginComposite_withOp (r : Reader) (e : Expr) (op : Text) :
    r.beginComposite (Opening.of (e.withOp op)) = r.beginComposite (Opening.of e) ∧
      (Opening.of (e.withOp op)).isHeader = (Opening.of e).isHeader := by
  obtain ⟨op', he⟩ := e.bracketsRemoved_withOp op
  have hnested : ∀ e : Expr, Item.isNested (e.withOp op') = Item.isNested e := fun _ => rfl
  rw [Opening.of, Opening.of, he]
  generalize e.bracketsRemoved = e
  rw [Item.firstKey?_withOp, hnested]
  split
  · exact ⟨r.readHeader_withOp e op', rfl⟩
  · exact ⟨rfl, rfl⟩
  · exact ⟨rfl, rfl⟩
  · exact ⟨rfl, rfl⟩
  · split
    · exact ⟨rfl, rfl⟩
    · refine ⟨?_, rfl⟩
      rw [beginComposite, beginComposite, render_withOp]
  · refine ⟨?_, rfl⟩
    rw [beginComposite, beginComposite, render_withOp]

end Reader

/-! ## Rearranged sequences -/

/-- The terms of a sequence that are no lists of ties and constraints, without the operators before
them. A header counts as one. -/
def Expr.memberTerms (terms : List Expr) : List Expr :=
  (terms.filter fun e => (Part.ofExpr e).isMember).map (·.withOp [])

/-- The lists of ties and constraints among the terms of a sequence, without the operators before
them. -/
def Expr.conditionTerms (terms : List Expr) : List Expr :=
  (terms.filter fun e => !(Part.ofExpr e).isMember).map (·.withOp [])

/-- The terms of a sequence in another order: members keep their order, lists of ties and constraints
keep theirs, and a header stays in front. Without a header the first member does not look like one. -/
structure Expr.Rearranged (terms terms' : List Expr) : Prop where
  members : memberTerms terms' = memberTerms terms
  conditions : conditionTerms terms' = conditionTerms terms
  header : ∀ first ∈ terms.head?, (Opening.of first).isHeader = true →
    ∃ first' ∈ terms'.head?, first'.withOp [] = first.withOp []
  plain : ∀ first ∈ terms.head?, (Opening.of first).isHeader = false →
    ∀ member ∈ (memberTerms terms).head?, (Opening.of member).isHeader = false

namespace Expr

theorem alone_filter {terms terms' : List Expr} (p : Part → Bool)
    (h : (terms'.filter fun e => p (Part.ofExpr e)).map (·.withOp []) =
      (terms.filter fun e => p (Part.ofExpr e)).map (·.withOp [])) :
    ((terms'.map Part.ofExpr).filter p).map Part.alone =
      ((terms.map Part.ofExpr).filter p).map Part.alone := by
  have hmap : ∀ l : List Expr, ((l.map Part.ofExpr).filter p).map Part.alone =
      ((l.filter fun e => p (Part.ofExpr e)).map (·.withOp [])).map
        fun e => (Part.ofExpr e).alone := by
    intro l
    rw [List.filter_map, List.map_map, List.map_map]
    exact List.map_congr_left fun e _ => (Part.alone_ofExpr e []).symm
  rw [hmap, h, hmap]

/-- Behind first terms that differ in their operators only, the rest is rearranged too. -/
theorem filter_tail {first first' : Expr} {more more' : List Expr} (p : Part → Bool)
    (hp : ∀ q : Part, p q.alone = p q) (hfirst : first'.withOp [] = first.withOp [])
    (h : ((first' :: more').filter fun e => p (Part.ofExpr e)).map (·.withOp []) =
      ((first :: more).filter fun e => p (Part.ofExpr e)).map (·.withOp [])) :
    (more'.filter fun e => p (Part.ofExpr e)).map (·.withOp []) =
      (more.filter fun e => p (Part.ofExpr e)).map (·.withOp []) := by
  have hsame : p (Part.ofExpr first') = p (Part.ofExpr first) := by
    rw [← hp, ← Part.alone_ofExpr first' [], hfirst, Part.alone_ofExpr, hp]
  rw [List.filter_cons, List.filter_cons, hsame] at h
  split at h
  · exact (List.cons.inj h).2
  · exact h

end Expr

namespace Reader

variable {r : Reader}

theorem readComposite_sequence (r : Reader) (op : Text) (first : Expr) (more : List Expr) :
    r.readComposite ⟨[';'], op, first :: more⟩ = r.readParts (Opening.of first)
      (if (Opening.of first).isHeader then more.map Part.ofExpr
        else (first :: more).map Part.ofExpr) := by
  rw [readComposite, Part.sequence?_sequence]

/-- With or without members in front, the first term of a rearranged sequence begins the same
composite. -/
theorem opening_of_rearranged {first first' : Expr} {more more' : List Expr} {m m' : Model}
    {w w' : Work Parents} (h : Expr.Rearranged (first :: more) (first' :: more'))
    (hheader : (Opening.of first).isHeader = false)
    (hread : Act.Runs (r.addParts ((first :: more).map Part.ofExpr) m) w m' w') :
    Opening.of first' = .plain := by
  cases hmember : (Part.ofExpr first').isMember with
  | false => exact Opening.of_conditions hmember
  | true =>
    have hfront : Expr.memberTerms (first' :: more') = first'.withOp [] :: Expr.memberTerms more' :=
      congrArg (List.map _) (List.filter_cons_of_pos (p := fun e => (Part.ofExpr e).isMember) hmember)
    have hplain : (Opening.of (first'.withOp [])).isHeader = false :=
      h.plain first rfl hheader _ (by rw [← h.members, hfront]; rfl)
    have hparts : Part.members ((first' :: more').map Part.ofExpr) =
        Part.ofExpr first' :: Part.members (more'.map Part.ofExpr) := List.filter_cons_of_pos hmember
    rw [← addParts_members, Part.members, ← Expr.alone_filter Part.isMember h.members] at hread
    change Act.Runs (r.addParts ((Part.members _).map _) m) w m' w' at hread
    rw [hparts, List.map_cons, addParts] at hread
    obtain ⟨m₁, v, hadd, -⟩ := Act.runs_bind.1 hread
    rw [addPart_alone] at hadd
    exact opening_of_addPart hmember ((r.beginComposite_withOp first' []).2 ▸ hplain) hadd

/-- A sequence that is read as a composite is read as the same composite in every other order that
keeps the members in order and the lists of ties and constraints in order, and with the same
attributes sent up. -/
theorem runs_readComposite_rearranged {terms terms' : List Expr} {op op' : Text} {m : Model}
    {w w' : Work Parents} (harranged : Expr.Rearranged terms terms')
    (h : Act.Runs (r.readComposite ⟨[';'], op, terms⟩) w m w') :
    Act.Runs (r.readComposite ⟨[';'], op', terms'⟩) w m w' := by
  cases terms with
  | nil => exact absurd h Act.runs_throw
  | cons first more =>
    cases terms' with
    | nil =>
      have hmembers := harranged.members
      have hconditions := harranged.conditions
      rw [Expr.memberTerms, Expr.memberTerms, List.filter_cons] at hmembers
      rw [Expr.conditionTerms, Expr.conditionTerms, List.filter_cons] at hconditions
      cases hmember : (Part.ofExpr first).isMember with
      | false =>
        rw [hmember] at hconditions
        cases hconditions
      | true =>
        rw [hmember] at hmembers
        cases hmembers
    | cons first' more' =>
      have hmembers := harranged.members
      have hconditions := harranged.conditions
      rw [readComposite_sequence] at h ⊢
      cases hheader : (Opening.of first).isHeader with
      | true =>
        obtain ⟨_, ⟨⟩, hfirst⟩ := harranged.header first rfl hheader
        obtain ⟨hbegin, hsame⟩ := r.beginComposite_withOp first []
        obtain ⟨hbegin', hsame'⟩ := r.beginComposite_withOp first' []
        rw [hfirst, hbegin] at hbegin'
        rw [hfirst, hsame, hheader] at hsame'
        rw [if_pos hheader] at h
        rw [if_pos hsame'.symm]
        rw [readParts_congr hbegin'.symm]
        · exact h
        · exact Expr.alone_filter Part.isMember
            (Expr.filter_tail Part.isMember Part.isMember_alone hfirst hmembers)
        · exact Expr.alone_filter (!·.isMember)
            (Expr.filter_tail (!·.isMember) (fun q => by rw [Part.isMember_alone]) hfirst hconditions)
      | false =>
        rw [if_neg (by rw [hheader]; exact Bool.false_ne_true)] at h
        obtain ⟨m₀, v₀, hbegin, hrest⟩ := Act.runs_bind.1 h
        obtain ⟨m₁, v₁, hadd, -⟩ := Act.runs_bind.1 hrest
        have hopening' := opening_of_rearranged harranged hheader hadd
        have hopening : r.beginComposite (Opening.of first) = r.beginComposite .plain := by
          cases hof : Opening.of first with
          | header e =>
            rw [hof] at hheader
            cases hheader
          | plain => rfl
          | invalid e =>
            rw [hof] at hbegin
            exact absurd hbegin Act.runs_throw
        rw [hopening', if_neg (by exact Bool.false_ne_true), readParts_congr hopening.symm]
        · exact h
        · exact Expr.alone_filter Part.isMember hmembers
        · exact Expr.alone_filter (!·.isMember) hconditions

/-- Ties in front of the first member, and constraints between the members. -/
theorem runs_readComposite_rearranged_leading_ties :
    let r : Reader := { types := .builtin }
    let s := "name=FlatBackground,$domains=1;name=Polynomial,n=1;ties=(f0.A0=f1.A1);".toList ++
      "constraints=(f1.A0<5)".toList
    let s' := "ties=(f0.A0=f1.A1);name=FlatBackground,$domains=1;constraints=(f1.A0<5);".toList ++
      "name=Polynomial,n=1".toList
    ∃ e e' m w', Expr.parse r.operators r.depth s = .ok e ∧
      Expr.parse r.operators r.depth s' = .ok e' ∧
      Act.Runs (r.readComposite e) { state := [] } m w' ∧
      Act.Runs (r.readComposite e') { state := [] } m w' ∧ m.members.length = 2 := by
  intro r s s'
  have hcheck : (Expr.parse r.operators r.depth s).toOption.any (fun e =>
      (Expr.parse r.operators r.depth s').toOption.any fun e' =>
        e = ⟨[';'], [], e.terms⟩ ∧ e' = ⟨[';'], [], e'.terms⟩ ∧
        Expr.memberTerms e'.terms = Expr.memberTerms e.terms ∧
        Expr.conditionTerms e'.terms = Expr.conditionTerms e.terms ∧
        (∀ first ∈ e.terms.head?, (Opening.of first).isHeader = false) ∧
        (∀ member ∈ (Expr.memberTerms e.terms).head?, (Opening.of member).isHeader = false) ∧
        ((r.readComposite e).run.run { state := [] }).1.toOption.any
          (·.members.length = 2) = true) = true := by
    decide +kernel
  obtain ⟨e, he, hcheck⟩ := Result.exists_of_any hcheck
  obtain ⟨e', he', hcheck⟩ := Result.exists_of_any hcheck
  obtain ⟨hsequence, hsequence', hmembers, hconditions, hfirst, hmember, hread⟩ :=
    of_decide_eq_true hcheck
  have harranged : Expr.Rearranged e.terms e'.terms :=
    ⟨hmembers, hconditions, fun first h hheader => absurd hheader (by simp [hfirst first h]),
      fun _ _ _ => hmember⟩
  obtain ⟨m, hm, hlength⟩ := Result.exists_of_any hread
  obtain ⟨w', hruns⟩ : ∃ w', Act.Runs (r.readComposite e) { state := [] } m w' :=
    ⟨_, Prod.ext hm rfl⟩
  refine ⟨e, e', m, w', he, he', hruns, ?_, of_decide_eq_true hlength⟩
  rw [hsequence] at hruns
  rw [hsequence']
  exact runs_readComposite_rearranged harranged hruns

end Reader
end Lineshape
