import Lineshape.Proofs.Reading.Sent

/-! # Where sent attributes arrive

A composite keeps for each member the attributes that were sent from inside this member, past all
composites within it that keep an attribute of the name for themselves; of several the last one in
the text counts, and where there is none a member has what a new one has
(`Reader.localAttribute_of_read`). -/

namespace Lineshape
set_option autoImplicit false

namespace Part

/-- A property that goes from the parts of a composite to the composite holds of all parts. -/
theorem induct {motive : Part → Prop} (function : ∀ e, motive (.function e))
    (conditions : ∀ e, motive (.conditions e))
    (composite : ∀ o parts items, (∀ p ∈ parts, motive p) → motive (.composite o parts items))
    (p : Part) : motive p :=
  Part.rec (motive_1 := motive) (motive_2 := fun ps => ∀ p ∈ ps, motive p) function conditions
    composite (by simp) (fun _ _ h hs => by simpa using ⟨h, hs⟩) p

/-- Whether a part is a member of its composite. -/
def isMember : Part → Bool
  | .conditions _ => false
  | _ => true

/-- The members among the parts of a composite. -/
def members (parts : List Part) : List Part := parts.filter isMember

/-- The part at an address, a list of places among members. -/
def partAt? : List Nat → Part → Option Part
  | [], p => some p
  | i :: path, .composite _ parts _ => (members parts)[i]?.bind (partAt? path)
  | _ :: _, _ => none

/-- The opening and the parts of a composite. -/
def inner? : Part → Option (Opening × List Part)
  | .composite o parts _ => some (o, parts)
  | _ => none

theorem exists_of_inner? {p : Part} {o : Opening} {parts : List Part}
    (h : p.inner? = some (o, parts)) : ∃ items, p = .composite o parts items := by
  cases p with
  | function | conditions => cases h
  | composite o parts items =>
    cases h
    exact ⟨items, rfl⟩

theorem sentItemsOf_append (front back : List Part) :
    sentItemsOf (front ++ back) = sentItemsOf front ++ sentItemsOf back := by
  induction front with
  | nil => rfl
  | cons part front ih => rw [List.cons_append, sentItemsOf, sentItemsOf, ih, List.append_assoc]

/-! ## Parts of trees -/

theorem ofExpr_bracketsRemoved (e : Expr) : ofExpr e.bracketsRemoved = ofExpr e := by
  induction e with
  | node name op terms ih =>
    rw [Expr.bracketsRemoved.eq_def]
    split
    · rename_i t he
      cases he
      rw [ih t (List.mem_singleton_self t), ofExpr, if_pos ⟨rfl, rfl⟩]
    · rfl

theorem sequence?_bracketsRemoved (e : Expr) : sequence? e.bracketsRemoved = sequence? e := by
  induction e with
  | node name op terms ih =>
    rw [Expr.bracketsRemoved.eq_def]
    split
    · rename_i t he
      cases he
      rw [ih t (List.mem_singleton_self t), sequence?, if_pos ⟨rfl, rfl⟩]
    · rfl

/-- A tree with terms and one of the names that a model text gives a meaning. -/
theorem exists_terms_of_form {e : Expr} {f : Form} (h : e.form = f) (hf : f ≠ .leaf) :
    ∃ first more, e = ⟨e.name, e.op, first :: more⟩ := by
  obtain ⟨name, op, terms⟩ := e
  cases terms with
  | nil =>
    exact absurd h.symm hf
  | cons first more => exact ⟨first, more, rfl⟩

theorem name_of_form {e : Expr} :
    (e.form = .sequence → e.name = [';']) ∧ (e.form = .list → e.name = [',']) ∧
      (e.form = .assign → e.name = ['=']) := by
  rw [Expr.form]
  split
  · simp
  · split
    · rename_i hname
      exact ⟨fun _ => hname, nofun, nofun⟩
    · split
      · rename_i hname
        exact ⟨nofun, fun _ => hname, nofun⟩
      · split
        · rename_i hname
          exact ⟨nofun, nofun, fun _ => hname⟩
        · split
          · simp
          · simp

theorem ofExpr_of_sequence {e : Expr} (h : e.form = .sequence) :
    ∃ o parts, sequence? e = some (o, parts) ∧ ofExpr e = .composite o parts [] := by
  obtain ⟨first, more, he⟩ := exists_terms_of_form h nofun
  rw [name_of_form.1 h] at he
  rw [he, sequence?, ofExpr, if_neg (by simp), if_pos rfl, if_neg (by simp), if_pos rfl]
  exact ⟨_, _, rfl, rfl⟩

theorem ofExpr_list (op : Text) (first : Expr) (more : List Expr) :
    ofExpr ⟨[','], op, first :: more⟩ = (sequence? first).elim (ofItems ⟨[','], op, first :: more⟩)
      fun p => .composite p.1 p.2 more := by
  rw [ofExpr, if_neg (by simp), if_neg (by decide), if_pos rfl]
  cases sequence? first <;> rfl

theorem sequence?_of_assign {e : Expr} (h : e.form = .assign) : sequence? e = none := by
  obtain ⟨first, more, he⟩ := exists_terms_of_form h nofun
  rw [name_of_form.2.2 h] at he
  rw [he, sequence?, if_neg (by simp), if_neg (by decide)]

theorem form_of_assignment? {e : Expr} {p : Text × Expr} (h : Item.assignment? e = some p) :
    e.form = .assign := by
  rw [Item.assignment?] at h
  split at h
  · assumption
  · cases h

theorem assignment?_eq_none {e : Expr} (h : e.form ≠ .assign) : Item.assignment? e = none :=
  Option.eq_none_iff_forall_ne_some.2 fun _ hassign => h (form_of_assignment? hassign)

/-- The text of a function is the text of no composite. -/
theorem ofExpr_of_functionItems {e head : Expr} {items : List Expr} {p : Text × Expr}
    (h : Reader.functionItems e = head :: items) (hhead : Item.assignment? head = some p) :
    ofExpr e = ofItems e := by
  rw [Reader.functionItems] at h
  split at h
  · rename_i hform
    obtain ⟨first, more, he⟩ := exists_terms_of_form hform nofun
    rw [name_of_form.2.2 hform] at he
    rw [he, ofExpr, if_neg (by simp), if_neg (by decide), if_neg (by decide)]
  · rename_i hform
    obtain ⟨first, more, he⟩ := exists_terms_of_form hform nofun
    rw [name_of_form.2.1 hform] at he
    rw [he] at h ⊢
    cases h
    rw [ofExpr_list, sequence?_of_assign (form_of_assignment? hhead)]
    rfl
  · cases h

theorem ofItems_ne_composite (e : Expr) (o : Opening) (parts : List Part) (items : List Expr) :
    ofItems e ≠ .composite o parts items := by
  rw [ofItems]
  split
  · nofun
  · nofun
  · nofun

end Part

/-- No new function of a type has an attribute that begins with the mark of items that are sent. -/
def Catalogue.Unmarked (types : Catalogue) : Prop :=
  ∀ name m, types.create name = .ok m → m.Unmarked

theorem Named.mem_of_get? {α : Type} {name : Text} {value : α} {l : Named α}
    (h : Named.get? name l = some value) : (name, value) ∈ l := by
  induction l with
  | nil => cases h
  | cons p l ih =>
    obtain ⟨n, v⟩ := p
    rw [Named.get?] at h
    split at h
    · rename_i hn
      cases h
      rw [hn]
      exact List.mem_cons_self
    · exact List.mem_cons_of_mem _ (ih h)

/-- A catalogue can be searched for attributes. -/
theorem Catalogue.attributes_of_all {types : Catalogue} {P : Text → Bool}
    (h : types.all (fun entry => (Named.names (match entry.2 with
      | .simple m => m.attributes
      | .composite c => c.attributes)).all P) = true)
    {name : Text} {m : Model} (hcreate : types.create name = .ok m) :
    ∀ a ∈ Named.names m.attributes, P a = true := by
  have hall : ∀ {name : Text} {entry : TypeEntry}, Named.get? name types = some entry →
      ∀ a ∈ Named.names (match entry with
        | .simple m => m.attributes
        | .composite c => c.attributes), P a = true := by
    intro name entry hget
    exact List.all_eq_true.1 (List.all_eq_true.1 h _ (Named.mem_of_get? hget))
  rw [create] at hcreate
  split at hcreate
  · rename_i model hget
    cases hcreate
    exact hall hget
  · rename_i c hget
    cases hcreate
    exact hall hget
  · cases hcreate

/-- A catalogue can be searched for marks. -/
theorem Catalogue.unmarked_of_all {types : Catalogue}
    (h : types.all (fun entry => (Named.names (match entry.2 with
      | .simple m => m.attributes
      | .composite c => c.attributes)).all fun name => name.head? ≠ some '$') = true) :
    types.Unmarked := fun _ _ hcreate a ha => of_decide_eq_true (attributes_of_all h hcreate a ha)

theorem Catalogue.createComposite_eq_ok {types : Catalogue} {name : Text} {m : Model}
    (h : types.createComposite name = .ok m) :
    types.create name = .ok m ∧ ∃ c, Named.get? name types = some (.composite c) ∧
      m = .composite c [] := by
  rw [createComposite] at h
  rw [create]
  split at h
  · cases h
  · rename_i c hc
    cases h
    rw [hc]
    exact ⟨rfl, c, rfl, rfl⟩
  · cases h

namespace Reader

variable {r : Reader}

/-- What is sent to the slot of a member that has this value as long as nothing is. -/
def slotValue (r : Reader) (attr : Text) (part : Part) (default : Attribute) :
    Except ModelError Attribute :=
  match r.lastSent attr part.sentItems with
  | none => .ok default
  | some s => default.reread attr s

/-- The slots of a member hold what its part sends. -/
def Routed (r : Reader) (defaults : Slots) (part : Part) (slots : Slots) : Prop :=
  ∀ attr default, Named.get? attr defaults = some default →
    ∃ value, Named.get? attr slots = some value ∧ r.slotValue attr part default = .ok value

/-- In the model of a part all composites have the slots that their parts ask for. -/
def Built (r : Reader) (part : Part) (m : Model) : Prop :=
  ∀ path o parts items, part.partAt? path = some (.composite o parts items) →
    ∃ locals, (m.memberAt? path).bind Model.kept = some (r.localsOf o, locals) ∧
      List.Forall₂ (r.Routed (r.localsOf o)) (Part.members parts) locals

theorem Built.keepsLike {part : Part} {m m' : Model} (h : r.Built part m) (hm : m.KeepsLike m') :
    r.Built part m' := by
  intro path o parts items hpart
  obtain ⟨locals, hkept, hrouted⟩ := h path o parts items hpart
  refine ⟨locals, ?_, hrouted⟩
  have hbind : ∀ x : Option Model, x.bind Model.kept = (x.map Model.kept).join := by
    intro x
    cases x <;> rfl
  rw [hbind, hm path, ← hbind, hkept]

/-- A part that is no composite has no composites in it. -/
theorem built_of_ne_composite {part : Part} (h : ∀ o parts items, part ≠ .composite o parts items)
    (m : Model) : r.Built part m := by
  intro path o parts items hpart
  cases path with
  | nil => exact absurd (Option.some.inj hpart) (h o parts items)
  | cons i path =>
    cases part with
    | function e => cases hpart
    | conditions e => cases hpart
    | composite o' parts' items' => exact absurd rfl (h o' parts' items')

/-! ## Keeping what a member sends -/

/-- What keeping attributes that a member sent does: to the slots of the member, and to the attributes
on their way up. -/
structure Retains (defaults : Slots) (sent : Parents) (slots slots' : Slots) (p p' : Parents) :
    Prop where
  slots : ∀ attr value, Named.has attr defaults = true → Named.get? attr slots = some value →
    ∃ v, Named.get? attr slots' = some v ∧ Except.ok v = match Named.get? attr sent with
      | none => .ok value
      | some s => value.reread attr s
  sent : ∀ attr, Named.get? attr p' = if Named.has attr defaults then Named.get? attr p else
    (Named.get? attr sent).or (Named.get? attr p)
  nodup : (Named.names p).Nodup → (Named.names p').Nodup

section Retains

variable {defaults slots slots' : Slots} {sent p p' : Parents} {attr text : Text}

theorem Retains.nil : Retains defaults [] slots slots p p where
  slots _ value _ hget := ⟨value, hget, rfl⟩
  sent _ := by
    split
    · rfl
    · rfl
  nodup := id

theorem get?_cons_sent (attr text : Text) (sent : Parents) (a : Text) :
    Named.get? a ((attr, text) :: sent) = if attr = a then some text else Named.get? a sent := rfl

/-- An attribute with a slot of its own is kept in it. -/
theorem Retains.keep {old value : Attribute} (hattr : attr ∉ Named.names sent)
    (hhas : Named.has attr defaults = true) (hold : Named.get? attr slots = some old)
    (hreread : old.reread attr text = .ok value)
    (h : Retains defaults sent (Named.set attr value slots) slots' p p') :
    Retains defaults ((attr, text) :: sent) slots slots' p p' where
  slots a x ha hget := by
    rw [get?_cons_sent]
    by_cases he : attr = a
    · subst he
      cases hold.symm.trans hget
      have hself : Named.get? attr (Named.set attr value slots) = some value :=
        Named.get?_set_self (by rw [Named.has, hold]; rfl)
      obtain ⟨v, hv, hok⟩ := h.slots attr value ha hself
      rw [Named.get?_eq_none hattr] at hok
      cases hok
      rw [if_pos rfl]
      exact ⟨value, hv, hreread.symm⟩
    · rw [if_neg he]
      exact h.slots a x ha (by rw [Named.get?_set_of_ne (Ne.symm he), hget])
  sent a := by
    rw [h.sent, get?_cons_sent]
    by_cases he : attr = a
    · subst he
      rw [if_pos hhas, if_pos hhas]
    · rw [if_neg he]
  nodup := h.nodup

/-- An attribute without a slot goes further up. -/
theorem Retains.pass (hattr : attr ∉ Named.names sent) (hhas : ¬ Named.has attr defaults = true)
    (h : Retains defaults sent slots slots' (p.put attr text) p') :
    Retains defaults ((attr, text) :: sent) slots slots' p p' where
  slots a x ha hget := by
    have he : attr ≠ a := by
      rintro rfl
      exact hhas ha
    rw [get?_cons_sent, if_neg he]
    exact h.slots a x ha hget
  sent a := by
    rw [h.sent, get?_cons_sent, Named.get?_put]
    by_cases he : attr = a
    · subst he
      rw [if_neg hhas, if_neg hhas, Named.get?_eq_none hattr, if_pos rfl, if_pos rfl]
      rfl
    · rw [if_neg he, if_neg (Ne.symm he)]
  nodup hp := h.nodup (Named.nodup_put hp)

end Retains

theorem keep_runs {c : Composite} {members : List (Member Model)} {place : Nat}
    {mem : Member Model} {sent : Parents} {w w' : Work Parents} {m' : Model}
    (hmem : members[place]? = some mem) (hnodup : (Named.names sent).Nodup)
    (h : Act.Runs (keep (.composite c members) place sent) w m' w') :
    ∃ slots, m' = .composite c (members.set place ⟨slots, mem.model⟩) ∧
      Retains c.localDefaults sent mem.locals slots w.state w'.state := by
  obtain ⟨hplace, hget⟩ := List.getElem?_eq_some_iff.1 hmem
  induction sent generalizing members mem w with
  | nil =>
    obtain ⟨rfl, rfl⟩ := Act.runs_pure.1 h
    refine ⟨mem.locals, ?_, .nil⟩
    have heta : (⟨mem.locals, mem.model⟩ : Member Model) = mem := rfl
    rw [heta, ← hget, List.set_getElem_self]
  | cons p sent ih =>
    obtain ⟨attr, text⟩ := p
    obtain ⟨hattr, hnodup⟩ := List.nodup_cons.1 hnodup
    obtain ⟨hhas, m₁, hset, h⟩ | ⟨hhas, h⟩ := runs_keep_cons.1 h
    · obtain ⟨mem', old, value, hmem', hold, hreread, rfl⟩ := Model.setLocal_eq_ok hset
      cases hmem.symm.trans hmem'
      have hself := List.getElem?_set_self (a := ⟨Named.set attr value mem.locals, mem.model⟩) hplace
      obtain ⟨hplace', hget'⟩ := List.getElem?_eq_some_iff.1 hself
      obtain ⟨slots, hm, hretains⟩ := ih hself hnodup h hplace' hget'
      exact ⟨slots, by rw [hm, List.set_set], .keep hattr hhas hold hreread hretains⟩
    · obtain ⟨slots, hm, hretains⟩ := ih hmem hnodup h hplace hget
      exact ⟨slots, hm, .pass hattr hhas hretains⟩

/-- What adding the members of some parts does: to the members, and to the attributes on their way
up. -/
structure Adds (r : Reader) (defaults : Slots) (parts : List Part) (p p' : Parents)
    (new : List (Member Model)) : Prop where
  members : List.Forall₂ (fun part mem => r.Routed defaults part mem.locals ∧ r.Built part mem.model)
    (Part.members parts) new
  sent : ∀ attr, Named.get? attr p' = if Named.has attr defaults then Named.get? attr p else
    (r.lastSent attr (Part.sentItemsOf parts)).or (Named.get? attr p)
  nodup : (Named.names p).Nodup → (Named.names p').Nodup

theorem Adds.append {defaults : Slots} {parts parts' : List Part} {p p' p'' : Parents}
    {new new' : List (Member Model)} (h : r.Adds defaults parts p p' new)
    (h' : r.Adds defaults parts' p' p'' new') :
    r.Adds defaults (parts ++ parts') p p'' (new ++ new') := by
  refine ⟨?_, ?_, fun hp => h'.nodup (h.nodup hp)⟩
  · rw [Part.members, List.filter_append]
    exact List.rel_append h.members h'.members
  · intro attr
    rw [h'.sent, h.sent, Part.sentItemsOf_append, lastSent_append, Option.or_assoc]
    split
    · rfl
    · rfl

theorem adds_adopt (part : Part) {c : Composite} {members : List (Member Model)} {new m' : Model}
    {sent : Parents} {w w' : Work Parents} (hpart : part.isMember = true)
    (hsent : ∀ attr, Named.get? attr sent = r.lastSent attr part.sentItems)
    (hnodup : (Named.names sent).Nodup) (hbuilt : r.Built part new)
    (h : Act.Runs (adopt (.composite c members) new sent) w m' w') :
    ∃ mem, m' = .composite c (members ++ [mem]) ∧
      r.Adds c.localDefaults [part] w.state w'.state [mem] := by
  have hmem : (members ++ [⟨c.localDefaults, new⟩])[members.length]? = some ⟨c.localDefaults, new⟩ := by
    rw [List.getElem?_append_right (Nat.le_refl _), Nat.sub_self, List.getElem?_cons_zero]
  obtain ⟨slots, rfl, hretains⟩ := keep_runs hmem hnodup (runs_adopt.1 h)
  refine ⟨⟨slots, new⟩, ?_, ?_, ?_, hretains.nodup⟩
  · rw [List.set_append_right _ _ (Nat.le_refl _), Nat.sub_self, List.set_cons_zero]
  · rw [Part.members, List.filter_singleton, hpart]
    refine .cons ⟨?_, hbuilt⟩ .nil
    intro attr default hdefault
    have hhas : Named.has attr c.localDefaults = true := by
      rw [Named.has, hdefault]
      rfl
    obtain ⟨value, hvalue, hok⟩ := hretains.slots attr default hhas hdefault
    rw [hsent] at hok
    exact ⟨value, hvalue, hok.symm⟩
  · intro attr
    rw [hretains.sent, hsent, Part.sentItemsOf, Part.sentItemsOf, List.append_nil]

/-! ## Reading parts -/

/-- What a function sends up. -/
theorem sent_readFunction {e : Expr} {m : Model} {w w' : Work Parents} (hr : r.types.Unmarked)
    (h : Act.Runs (r.readFunction e) w m w') :
    w'.state = r.sendAll w.state (Part.function e).sentItems := by
  obtain ⟨head, items, type, m₀, m₁, hitems, -, hcreate, hread, -⟩ := runs_readFunction.1 h
  have hstate := state_readItems (hr type m₀ hcreate) hread
  rw [Part.sentItems, hitems]
  exact hstate

/-- A composite as it begins has no members, keeps what its opening says, and sends up the items of
its header. -/
theorem beginComposite_runs {o : Opening} {m : Model} {w w' : Work Parents} (hr : r.types.Unmarked)
    (h : Act.Runs (r.beginComposite o) w m w') :
    (∃ c, m = .composite c [] ∧ c.localDefaults = r.localsOf o) ∧
      w'.state = r.sendAll w.state o.sentItems := by
  constructor
  · obtain ⟨type, m₀, htype, hcreate, hreach⟩ := exists_reaches_beginComposite h
    obtain ⟨-, c, hget, rfl⟩ := Catalogue.createComposite_eq_ok hcreate
    have hkept := hreach.keepsLike []
    have hlocals : r.localsOf o = c.localDefaults := by
      rw [localsOf, htype, Option.bind_some, hget]
    cases m with
    | curve c' => cases hkept
    | composite c' members =>
      have hpair := Prod.mk.inj (Option.some.inj (Option.some.inj hkept))
      cases List.map_eq_nil_iff.1 hpair.2
      exact ⟨c', rfl, hpair.1.trans hlocals.symm⟩
  · cases o with
    | header e =>
      obtain ⟨head, items, _, _, m₀, hitems, -, hcreate, h⟩ := runs_readHeader.1 h
      have hm := hr _ _ (Catalogue.createComposite_eq_ok hcreate).1
      rw [Opening.sentItems, hitems]
      exact state_readItems hm (runs_readItems_of_readHeaderItems h)
    | plain =>
      obtain ⟨-, rfl⟩ := Act.runs_ofModel.1 h
      rfl
    | invalid e => exact absurd h Act.runs_throw

theorem within_openingItems {o : Opening} {it : SentItem} (h : it ∈ o.sentItems) : it.within = [] := by
  cases o with
  | header e => exact within_of_mem_filterMap h
  | plain => cases h
  | invalid e => cases h

/-- Adding a part gives the member that it asks for. -/
def AddsPart (r : Reader) (part : Part) : Prop :=
  ∀ (c : Composite) (members : List (Member Model)) (m : Model) (w w' : Work Parents),
    Act.Runs (r.addPart part (.composite c members)) w m w' →
      ∃ new, m = .composite c (members ++ new) ∧ r.Adds c.localDefaults [part] w.state w'.state new

theorem adds_addParts {parts : List Part} (hparts : ∀ p ∈ parts, r.AddsPart p) {c : Composite} {members : List (Member Model)} {m : Model} {w w' : Work Parents}
    (h : Act.Runs (r.addParts parts (.composite c members)) w m w') :
    ∃ new, m = .composite c (members ++ new) ∧
      r.Adds c.localDefaults parts w.state w'.state new := by
  induction parts generalizing members w with
  | nil =>
    obtain ⟨rfl, rfl⟩ := Act.runs_pure.1 h
    refine ⟨[], by rw [List.append_nil], .nil, ?_, id⟩
    intro attr
    split
    · rfl
    · rfl
  | cons part parts ih =>
    obtain ⟨m₁, v, hpart, h⟩ := Act.runs_bind.1 h
    obtain ⟨new, rfl, hadds⟩ := hparts part List.mem_cons_self c members m₁ w v hpart
    obtain ⟨new', rfl, hadds'⟩ := ih (fun p hp => hparts p (List.mem_cons_of_mem part hp)) h
    exact ⟨new ++ new', by rw [List.append_assoc], hadds.append hadds'⟩

/-- The composite of a part, before the composite around it adopts it. -/
theorem readParts_runs {o : Opening} {parts : List Part} (items : List Expr)
    (hr : r.types.Unmarked) (hparts : ∀ p ∈ parts, r.AddsPart p) {new : Model} {w w' : Work Parents}
    (hw : w.state = []) (h : Act.Runs (r.readParts o parts) w new w') :
    r.Built (.composite o parts items) new ∧ (Named.names w'.state).Nodup ∧
      ∀ attr, Named.get? attr w'.state =
        r.lastSent attr (o.sentItems ++ (Part.sentItemsOf parts).map (·.inside o)) := by
  obtain ⟨inner, v, hbegin, h⟩ := Act.runs_bind.1 h
  obtain ⟨inner', v', hadd, hend⟩ := Act.runs_bind.1 h
  obtain ⟨⟨c, rfl, hc⟩, hstate⟩ := beginComposite_runs hr hbegin
  obtain ⟨members, rfl, hadds⟩ := adds_addParts hparts hadd
  obtain ⟨work, hdone, rfl, rfl⟩ := Act.runs_change.1 hend
  have hnodup : (Named.names v.state).Nodup := by
    rw [hstate, hw]
    exact nodup_sendAll nodup_names_nil _
  refine ⟨?_, hadds.nodup hnodup, ?_⟩
  · refine Built.keepsLike ?_ (reaches_endComposite hdone).keepsLike
    intro path o' parts' items' hpart
    cases path with
    | nil =>
      cases hpart
      refine ⟨members.map (·.locals), ?_, ?_⟩
      · rw [← hc]
        rfl
      · rw [← hc]
        exact List.forall₂_map_right_iff.2 (hadds.members.imp fun _ _ h => h.1)
    | cons i path =>
      obtain ⟨part, hi, hpart⟩ := Option.bind_eq_some_iff.1 hpart
      obtain ⟨hlt, rfl⟩ := List.getElem?_eq_some_iff.1 hi
      have hlen := hadds.members.length_eq
      have hbuilt := (hadds.members.get hlt (hlen ▸ hlt)).2
      obtain ⟨locals, hkept, hrouted⟩ := hbuilt path o' parts' items' hpart
      refine ⟨locals, ?_, hrouted⟩
      rw [← hkept]
      change ((([] ++ members)[i]?.bind _).bind Model.kept) = _
      rw [List.nil_append, List.getElem?_eq_getElem (hlen ▸ hlt)]
      rfl
  · intro attr
    change Named.get? attr v'.state = _
    rw [hadds.sent, hstate, hw, get?_sendAll (fun it hit => within_openingItems hit), lastSent_append,
      lastSent_inside, hc]
    split
    · rw [Option.none_or]
      exact Option.or_none
    · exact congrArg _ Option.or_none

theorem addsPart (hr : r.types.Unmarked) (part : Part) : r.AddsPart part := by
  induction part using Part.induct with
  | conditions e =>
    intro c members m w w' h
    obtain ⟨rfl, rfl⟩ := Act.runs_pure.1 h
    refine ⟨[], by rw [List.append_nil], .nil, ?_, id⟩
    intro attr
    split
    · rfl
    · rfl
  | function e =>
    intro c members m w w' h
    obtain ⟨new, v, hread, hadopt⟩ := runs_addPart_function.1 h
    have hstate := sent_readFunction hr hread
    have hwithin : ∀ it ∈ (Part.function e).sentItems, it.within = [] :=
      fun it hit => within_of_mem_filterMap hit
    have hne : ∀ o parts items, Part.function e ≠ .composite o parts items := by
      intro o parts items he
      cases he
    obtain ⟨mem, rfl, hadds⟩ := adds_adopt (.function e) rfl (fun attr => by
        rw [hstate, get?_sendAll hwithin]
        exact Option.or_none) (by
        rw [hstate]
        exact nodup_sendAll nodup_names_nil _) (built_of_ne_composite hne new) hadopt
    exact ⟨[mem], rfl, hadds⟩
  | composite o parts items ih =>
    intro c members m w w' h
    obtain ⟨new, v, v', hread, htrail, hadopt⟩ := runs_addPart_composite.1 h
    obtain ⟨hbuilt, hnodup, hget⟩ := readParts_runs items hr ih rfl hread
    have hstate := state_readTrailing htrail
    obtain ⟨mem, rfl, hadds⟩ := adds_adopt (.composite o parts items) rfl (fun attr => by
        rw [hstate, get?_sendAll (fun it hit => within_of_mem_filterMap hit), hget,
          Part.sentItems, ← lastSent_append]) (by
        rw [hstate]
        exact nodup_sendAll hnodup _) hbuilt hadopt
    exact ⟨[mem], rfl, hadds⟩

/-! ## Reading texts -/

theorem built_of_read {s : Text} {tree : Expr} {m : Model} (hr : r.types.Unmarked)
    (hparse : Expr.parse r.operators r.depth s = .ok tree) (h : r.read s = .ok m) :
    r.Built (Part.ofExpr tree) m := by
  obtain ⟨tree', v, hparse', -, h⟩ := read_eq_ok.1 h
  cases hparse.symm.trans hparse'
  rw [← Part.ofExpr_bracketsRemoved]
  generalize tree.bracketsRemoved = e at h
  rw [readTree] at h
  split at h
  · rename_i hform
    obtain ⟨o, parts, hsequence, hpart⟩ := Part.ofExpr_of_sequence hform
    rw [hpart]
    obtain ⟨o', parts', hsequence', h⟩ := runs_readComposite.1 h
    cases hsequence.symm.trans hsequence'
    exact (readParts_runs [] hr (fun p _ => addsPart hr p) rfl h).1
  · obtain ⟨head, items, _, _, _, hitems, htype, -⟩ := runs_readFunction.1 h
    rw [typeName?] at htype
    split at htype
    · rename_i key value hassign
      rw [← Part.ofExpr_bracketsRemoved, Part.ofExpr_of_functionItems hitems hassign]
      exact built_of_ne_composite (Part.ofItems_ne_composite _) m
    · cases htype

/-- Every slot of every composite of a text holds the value of the last item, of those inside the
member, that no deeper composite keeps for itself; and the default if there is none. -/
theorem localAttribute_of_read {s : Text} {tree : Expr} {m : Model} (hr : r.types.Unmarked)
    (hparse : Expr.parse r.operators r.depth s = .ok tree) (h : r.read s = .ok m)
    {path : List Nat} {o : Opening} {parts : List Part} {items : List Expr}
    (hpart : (Part.ofExpr tree).partAt? path = some (.composite o parts items)) :
    ∃ c members, m.memberAt? path = some (.composite c members) ∧
      c.localDefaults = r.localsOf o ∧ members.length = (Part.members parts).length ∧
      ∀ i part attr default, (Part.members parts)[i]? = some part →
        Named.get? attr c.localDefaults = some default →
        (Model.composite c members).localAttribute i attr =
          match r.lastSent attr part.sentItems with
          | none => .ok default
          | some text => default.reread attr text := by
  obtain ⟨locals, hkept, hrouted⟩ := built_of_read hr hparse h path o parts items hpart
  obtain ⟨inner, hinner, hkept⟩ := Option.bind_eq_some_iff.1 hkept
  cases inner with
  | curve c => cases hkept
  | composite c members =>
    obtain ⟨hdefaults, rfl⟩ := Prod.mk.inj (Option.some.inj hkept)
    refine ⟨c, members, hinner, hdefaults, ?_, ?_⟩
    · rw [hrouted.length_eq, List.length_map]
    · intro i part attr default hi hdefault
      obtain ⟨hlt, rfl⟩ := List.getElem?_eq_some_iff.1 hi
      have hlen := hrouted.length_eq
      obtain ⟨value, hvalue, hslot⟩ :=
        hrouted.get hlt (hlen ▸ hlt) attr default (hdefaults ▸ hdefault)
      have hi' : i < members.length := by
        rw [List.length_map] at hlen
        omega
      have hget : (Model.composite c members).localAttribute i attr =
          (members.get ⟨i, hi'⟩).locals.get c.name attr := by
        rw [Model.localAttribute, show (Model.composite c members).members = members from rfl,
          List.getElem?_eq_getElem hi']
        rfl
      rw [hget, Slots.get]
      rw [List.get_eq_getElem, List.getElem_map] at hvalue
      rw [List.get_eq_getElem, hvalue]
      exact hslot.symm

/-- The built-in types and one more, whose composites keep two attributes for each member. -/
def withPanels : Catalogue :=
  ("Panel".toList, .composite (.new "Panel".toList [] [("role".toList, .string "none".toList),
    ("domains".toList, .string "All".toList)])) :: Catalogue.builtin

/-- A panel around a composite that keeps domains for itself: the role of the first member is the
one behind the brackets, not one from inside them, and the domains inside stay inside. -/
theorem localAttribute_of_read_panel :
    let r : Reader := { types := withPanels }
    let s := "composite=Panel,$domains=0;(composite=MultiDomainFunction,$role=a;".toList ++
      "name=FlatBackground,$domains=1,$role=b),$role=c;name=FlatBackground,$role=d".toList
    ∃ m c members, r.read s = .ok m ∧ m.memberAt? [] = some (.composite c members) ∧
      (Model.composite c members).localAttribute 0 "role".toList = .ok (.string "c".toList) ∧
      (Model.composite c members).localAttribute 0 "domains".toList = .ok (.string "All".toList) := by
  intro r s
  have hr : r.types.Unmarked := Catalogue.unmarked_of_all (by decide +kernel)
  have hread : (r.read s).toOption.any (fun _ => true) = true := by decide +kernel
  have hparse : (Expr.parse r.operators r.depth s).toOption.any (fun tree =>
      (Part.ofExpr tree).inner?.any fun p => (Part.members p.2)[0]?.any fun part =>
        r.lastSent "role".toList part.sentItems = some "c".toList ∧
          r.lastSent "domains".toList part.sentItems = none ∧
          Named.get? "role".toList (r.localsOf p.1) = some (.string "none".toList) ∧
          Named.get? "domains".toList (r.localsOf p.1) = some (.string "All".toList)) = true := by
    decide +kernel
  obtain ⟨m, hm, -⟩ := Result.exists_of_any hread
  obtain ⟨tree, htree, hcheck⟩ := Result.exists_of_any hparse
  obtain ⟨⟨o, parts⟩, hinner, hcheck⟩ := (Option.any_eq_true _ _).1 hcheck
  obtain ⟨part, hfirst, hcheck⟩ := (Option.any_eq_true _ _).1 hcheck
  obtain ⟨hrole, hdomains, hrole', hdomains'⟩ := of_decide_eq_true hcheck
  obtain ⟨items, hpart⟩ := Part.exists_of_inner? hinner
  have hroot : (Part.ofExpr tree).partAt? [] = some (.composite o parts items) := congrArg some hpart
  obtain ⟨c, members, hmember, hlocals, -, hslots⟩ := localAttribute_of_read hr htree hm hroot
  refine ⟨m, c, members, hm, hmember, ?_, ?_⟩
  · rw [hslots 0 part _ _ hfirst (hlocals ▸ hrole'), hrole]
    rfl
  · rw [hslots 0 part _ _ hfirst (hlocals ▸ hdomains'), hdomains]

end Reader
end Lineshape
