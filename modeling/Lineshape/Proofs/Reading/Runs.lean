import Lineshape.Proofs.Model.Ties
import Lineshape.Proofs.Reading.Act

/-! # What the acts of the reader do

One equation for each act of the reader says what a run of it is made of. Proofs about the reader take
runs apart with these equations, and with `Reader.Assigns`, which has one case for each kind of
item. -/

namespace Lineshape.Act
set_option autoImplicit false

theorem runs_applyTies {w w' : Work Model} {u : Unit} :
    Runs applyTies w u w' ↔ w.state.applyTies = (w'.state, none) ∧ w'.journal = w.journal := by
  rw [applyTies, runs_bind]
  cases happly : w.state.applyTies with
  | mk m error? =>
    constructor
    · rintro ⟨s, v, hs, h⟩
      obtain ⟨rfl, rfl⟩ := runs_state.1 hs
      rw [happly] at h
      obtain ⟨_, v, hput, h⟩ := runs_bind.1 h
      cases runs_put.1 hput
      cases error? with
      | some error => exact absurd h runs_throw
      | none =>
        obtain ⟨-, rfl⟩ := runs_pure.1 h
        exact ⟨rfl, rfl⟩
    · rintro ⟨hm, hj⟩
      cases hm
      refine ⟨w.state, w, runs_state.2 ⟨rfl, rfl⟩, ?_⟩
      rw [happly]
      refine runs_bind.2 ⟨(), w', runs_put.2 ?_, runs_pure.2 ⟨rfl, rfl⟩⟩
      rw [← hj]

theorem runs_tie {parameter formula : Text} {w w' : Work Model} {u : Unit} :
    Runs (tie parameter formula) w u w' ↔ ∃ t, w.state.attachTie parameter formula = .ok (w'.state, t) ∧
      w'.journal = w.journal ++ [.tied w.state.name t] := by
  rw [tie, runs_bind]
  constructor
  · rintro ⟨m, v, hstate, h⟩
    obtain ⟨rfl, rfl⟩ := runs_state.1 hstate
    obtain ⟨⟨m', t⟩, v, hof, h⟩ := runs_bind.1 h
    obtain ⟨hattach, rfl⟩ := runs_ofModel.1 hof
    obtain ⟨_, v, hnote, hput⟩ := runs_bind.1 h
    cases runs_note.1 hnote
    cases runs_put.1 hput
    exact ⟨t, hattach, rfl⟩
  · rintro ⟨t, hattach, hj⟩
    refine ⟨w.state, w, runs_state.2 ⟨rfl, rfl⟩, runs_bind.2 ⟨(w'.state, t), w, ?_, ?_⟩⟩
    · exact runs_ofModel.2 ⟨hattach, rfl⟩
    · refine runs_bind.2 ⟨(), _, runs_note.2 rfl, runs_put.2 ?_⟩
      rw [← hj]

theorem runs_bound {b : Bound} {w w' : Work Model} {u : Unit} :
    Runs (bound b) w u w' ↔ w.state.attachBound b = .ok w'.state ∧
      w'.journal = w.journal ++ [.bounded w.state.name b] := by
  rw [bound, runs_bind]
  constructor
  · rintro ⟨m, v, hstate, h⟩
    obtain ⟨rfl, rfl⟩ := runs_state.1 hstate
    obtain ⟨m', v, hof, h⟩ := runs_bind.1 h
    obtain ⟨hattach, rfl⟩ := runs_ofModel.1 hof
    obtain ⟨_, v, hnote, hput⟩ := runs_bind.1 h
    cases runs_note.1 hnote
    cases runs_put.1 hput
    exact ⟨hattach, rfl⟩
  · rintro ⟨hattach, hj⟩
    refine ⟨w.state, w, runs_state.2 ⟨rfl, rfl⟩, runs_bind.2 ⟨w'.state, w, ?_, ?_⟩⟩
    · exact runs_ofModel.2 ⟨hattach, rfl⟩
    · refine runs_bind.2 ⟨(), _, runs_note.2 rfl, runs_put.2 ?_⟩
      rw [← hj]

theorem runs_addMember {new : Model} {w w' : Work Model} {u : Unit} :
    Runs (addMember new) w u w' ↔ w'.state = w.state.addMember new ∧
      w'.journal = w.journal ++ [.memberAdded w.state.name w.state.members.length new.name] := by
  rw [addMember, runs_bind]
  constructor
  · rintro ⟨m, v, hstate, h⟩
    obtain ⟨rfl, rfl⟩ := runs_state.1 hstate
    obtain ⟨_, v, hnote, hput⟩ := runs_bind.1 h
    cases runs_note.1 hnote
    cases runs_put.1 hput
    exact ⟨rfl, rfl⟩
  · rintro ⟨hs, hj⟩
    refine ⟨w.state, w, runs_state.2 ⟨rfl, rfl⟩, runs_bind.2 ⟨(), _, runs_note.2 rfl, runs_put.2 ?_⟩⟩
    rw [← hs, ← hj]

end Lineshape.Act

namespace Lineshape.Reader
set_option autoImplicit false

variable {r : Reader} {m m' : Model} {w w' : Work Parents}

/-! ## Items -/

theorem runs_sendUp {attr : Text} {value : Expr} {u : Unit} :
    Act.Runs (r.sendUp attr value) w u w' ↔
      w' = { w with state := w.state.put attr (r.unquoted value) } := by
  rw [sendUp, Act.runs_bind]
  constructor
  · rintro ⟨p, v, hstate, hput⟩
    obtain ⟨rfl, rfl⟩ := Act.runs_state.1 hstate
    exact Act.runs_put.1 hput
  · intro h
    exact ⟨w.state, w, Act.runs_state.2 ⟨rfl, rfl⟩, Act.runs_put.2 h⟩

/-- What an item with this key and value does to a function, and to what is on its way up. -/
inductive Assigns (r : Reader) (m : Model) (key : Text) (value : Expr) (w : Work Parents) :
    Model → Work Parents → Prop
  | slot {m' : Model} : m.hasAttribute key = true →
    m.setAttributeText key (r.unquoted value) = .ok m' → Assigns r m key value w m' w
  | constraints {v : Work Model} : ¬ m.hasAttribute key = true → Key.ofText key = .constraints →
    Act.Runs (r.addConstraints value.bracketsRemoved) ⟨m, w.journal⟩ () v →
    Assigns r m key value w v.state { w with journal := v.journal }
  | ties {v : Work Model} : ¬ m.hasAttribute key = true → Key.ofText key = .ties →
    Act.Runs (r.addTies value.bracketsRemoved) ⟨m, w.journal⟩ () v →
    Assigns r m key value w v.state { w with journal := v.journal }
  | parent {attr : Text} : ¬ m.hasAttribute key = true → Key.ofText key = .parent attr →
    Assigns r m key value w m { w with state := w.state.put attr (r.unquoted value) }
  | parameter {m' : Model} {x : Float} : ¬ m.hasAttribute key = true →
    Key.ofText key ≠ .constraints → Key.ofText key ≠ .ties →
    (∀ attr, Key.ofText key ≠ .parent attr) → Number.read? (r.render value) = some x →
    m.setParameter key x = .ok m' → Assigns r m key value w m' w

/-- An item with the name of an attribute only sets this attribute. -/
theorem Assigns.of_hasAttribute {key : Text} {value : Expr} (h : r.Assigns m key value w m' w')
    (hhas : m.hasAttribute key = true) :
    m.setAttributeText key (r.unquoted value) = .ok m' ∧ w = w' := by
  cases h with
  | slot _ hset => exact ⟨hset, rfl⟩
  | constraints hnot | ties hnot | parent hnot | parameter hnot => exact absurd hhas hnot

theorem runs_readAssignment {key : Text} {value : Expr} :
    Act.Runs (r.readAssignment m key value) w m' w' ↔ r.Assigns m key value w m' w' := by
  constructor
  · intro h
    rw [readAssignment] at h
    split at h
    · rename_i hhas
      obtain ⟨hset, rfl⟩ := Act.runs_ofModel.1 h
      exact .slot hhas hset
    · rename_i hhas
      split at h
      · rename_i hkey
        obtain ⟨v, hadd, rfl, rfl⟩ := Act.runs_change.1 h
        exact .constraints hhas hkey hadd
      · rename_i hkey
        obtain ⟨v, hadd, rfl, rfl⟩ := Act.runs_change.1 h
        exact .ties hhas hkey hadd
      · rename_i attr hkey
        obtain ⟨_, v, hsend, h⟩ := Act.runs_bind.1 h
        obtain ⟨rfl, rfl⟩ := Act.runs_pure.1 h
        cases runs_sendUp.1 hsend
        exact .parent hhas hkey
      · rename_i hconstraints hties hparent
        dsimp only at h
        split at h
        · exact absurd h Act.runs_throw
        · rename_i x hread
          obtain ⟨hset, rfl⟩ := Act.runs_ofModel.1 h
          exact .parameter hhas hconstraints hties hparent hread hset
  · intro h
    rw [readAssignment]
    cases h with
    | slot hhas hset =>
      rw [if_pos hhas]
      exact Act.runs_ofModel.2 ⟨hset, rfl⟩
    | @constraints v hhas hkey hadd =>
      rw [if_neg hhas, hkey]
      exact Act.runs_change.2 ⟨v, hadd, rfl, rfl⟩
    | @ties v hhas hkey hadd =>
      rw [if_neg hhas, hkey]
      exact Act.runs_change.2 ⟨v, hadd, rfl, rfl⟩
    | parent hhas hkey =>
      rw [if_neg hhas, hkey]
      exact Act.runs_bind.2 ⟨(), _, runs_sendUp.2 rfl, Act.runs_pure.2 ⟨rfl, rfl⟩⟩
    | parameter hhas hconstraints hties hparent hread hset =>
      rw [if_neg hhas]
      split
      · rename_i hkey
        exact absurd hkey hconstraints
      · rename_i hkey
        exact absurd hkey hties
      · rename_i attr hkey
        exact absurd hkey (hparent attr)
      · simp only [hread]
        exact Act.runs_ofModel.2 ⟨hset, rfl⟩

theorem runs_readItem {item : Expr} :
    Act.Runs (r.readItem m item) w m' w' ↔
      ∃ key value, Item.assignment? item = some (key, value) ∧ r.Assigns m key value w m' w' := by
  rw [readItem]
  split
  · rename_i hnone
    constructor
    · exact fun h => absurd h Act.runs_throw
    · rintro ⟨key, value, hassign, -⟩
      cases hnone.symm.trans hassign
  · rename_i key value hassign
    rw [runs_readAssignment]
    constructor
    · exact fun h => ⟨key, value, hassign, h⟩
    · rintro ⟨key', value', hassign', h⟩
      cases hassign.symm.trans hassign'
      exact h

theorem runs_readItems_cons {item : Expr} {items : List Expr} :
    Act.Runs (r.readItems m (item :: items)) w m' w' ↔
      ∃ key value m₁ v, Item.assignment? item = some (key, value) ∧ r.Assigns m key value w m₁ v ∧
        Act.Runs (r.readItems m₁ items) v m' w' := by
  rw [readItems, Act.runs_bind]
  constructor
  · rintro ⟨m₁, v, hitem, h⟩
    obtain ⟨key, value, hassign, hassigns⟩ := runs_readItem.1 hitem
    exact ⟨key, value, m₁, v, hassign, hassigns, h⟩
  · rintro ⟨key, value, m₁, v, hassign, hassigns, h⟩
    exact ⟨m₁, v, runs_readItem.2 ⟨key, value, hassign, hassigns⟩, h⟩

/-- How a function is read: a new one of its type, its items in order, then its ties. -/
theorem runs_readFunction {e : Expr} :
    Act.Runs (r.readFunction e) w m w' ↔
      ∃ head items type m₀ m₁, functionItems e.bracketsRemoved = head :: items ∧
        r.typeName? head = some type ∧ r.types.create type = .ok m₀ ∧
        Act.Runs (r.readItems m₀ items) { w with journal := w.journal ++ [.creating type] } m₁ w' ∧
        m₁.applyTies = (m, none) := by
  constructor
  · intro h
    rw [readFunction] at h
    split at h
    · exact absurd h Act.runs_throw
    · rename_i head items hitems
      split at h
      · exact absurd h Act.runs_throw
      · rename_i type htype
        obtain ⟨m₀, v, hof, h⟩ := Act.runs_bind.1 h
        obtain ⟨hcreate, rfl⟩ := Act.runs_ofModel.1 hof
        obtain ⟨_, v, hnote, h⟩ := Act.runs_bind.1 h
        cases Act.runs_note.1 hnote
        obtain ⟨m₁, v, hread, h⟩ := Act.runs_bind.1 h
        obtain ⟨inner, happly, rfl, rfl⟩ := Act.runs_change.1 h
        obtain ⟨happlied, hjournal⟩ := Act.runs_applyTies.1 happly
        rw [hjournal]
        exact ⟨head, items, type, m₀, m₁, hitems, htype, hcreate, hread, happlied⟩
  · rintro ⟨head, items, type, m₀, m₁, hitems, htype, hcreate, hread, happlied⟩
    simp only [readFunction, hitems, htype, hcreate]
    refine Act.runs_bind.2 ⟨m₀, w, Act.runs_ofModel.2 ⟨rfl, rfl⟩, ?_⟩
    refine Act.runs_bind.2 ⟨(), _, Act.runs_note.2 rfl, Act.runs_bind.2 ⟨m₁, w', hread, ?_⟩⟩
    exact Act.runs_change.2 ⟨⟨m, w'.journal⟩, Act.runs_applyTies.2 ⟨happlied, rfl⟩, rfl, rfl⟩

/-! ## Headers -/

/-- What an item does to a header it does to a function. -/
theorem runs_readItem_of_readHeaderItem {item : Expr} (h : Act.Runs (r.readHeaderItem m item) w m' w') :
    Act.Runs (r.readItem m item) w m' w' := by
  rw [readHeaderItem] at h
  split at h
  · exact absurd h Act.runs_throw
  · rename_i key value hassign
    refine runs_readItem.2 ⟨key, value, hassign, ?_⟩
    split at h
    · rename_i hhas
      obtain ⟨hset, rfl⟩ := Act.runs_ofModel.1 h
      exact .slot hhas hset
    · rename_i hhas
      split at h
      · rename_i attr hkey
        obtain ⟨_, v, hsend, h⟩ := Act.runs_bind.1 h
        obtain ⟨rfl, rfl⟩ := Act.runs_pure.1 h
        cases runs_sendUp.1 hsend
        exact .parent hhas hkey
      · exact absurd h Act.runs_throw

theorem runs_readItems_of_readHeaderItems {items : List Expr}
    (h : Act.Runs (r.readHeaderItems m items) w m' w') : Act.Runs (r.readItems m items) w m' w' := by
  induction items generalizing m w with
  | nil => exact h
  | cons item items ih =>
    obtain ⟨m₁, v, hitem, h⟩ := Act.runs_bind.1 h
    exact Act.runs_bind.2 ⟨m₁, v, runs_readItem_of_readHeaderItem hitem, ih h⟩

theorem runs_readHeader {header : Expr} :
    Act.Runs (r.readHeader header) w m w' ↔
      ∃ head items key type m₀, header.toList [','] = head :: items ∧
        Item.assignment? head = some (key, type) ∧
        r.types.createComposite (r.render type) = .ok m₀ ∧
        Act.Runs (r.readHeaderItems m₀ items) w m w' := by
  constructor
  · intro h
    rw [readHeader] at h
    split at h
    · exact absurd h Act.runs_throw
    · rename_i head items hitems
      split at h
      · exact absurd h Act.runs_throw
      · rename_i key type hhead
        obtain ⟨m₀, v, hof, h⟩ := Act.runs_bind.1 h
        obtain ⟨hcreate, rfl⟩ := Act.runs_ofModel.1 hof
        exact ⟨head, items, key, type, m₀, hitems, hhead, hcreate, h⟩
  · rintro ⟨head, items, key, type, m₀, hitems, hhead, hcreate, h⟩
    simp only [readHeader, hitems, hhead]
    exact Act.runs_bind.2 ⟨m₀, w, Act.runs_ofModel.2 ⟨hcreate, rfl⟩, h⟩

/-! ## Members -/

/-- An attribute that a member sent is kept, or goes further up. -/
theorem runs_keep_cons {place : Nat} {attr value : Text} {sent : Parents} :
    Act.Runs (keep m place ((attr, value) :: sent)) w m' w' ↔
      (m.hasLocal attr = true ∧ ∃ m₁, m.setLocal place attr value = .ok m₁ ∧
        Act.Runs (keep m₁ place sent) w m' w') ∨
      (¬ m.hasLocal attr = true ∧
        Act.Runs (keep m place sent) { w with state := w.state.put attr value } m' w') := by
  by_cases hlocal : m.hasLocal attr = true
  · rw [keep, if_pos hlocal, Act.runs_bind]
    constructor
    · rintro ⟨m₁, v, hof, h⟩
      obtain ⟨hset, rfl⟩ := Act.runs_ofModel.1 hof
      exact .inl ⟨hlocal, m₁, hset, h⟩
    · rintro (⟨-, m₁, hset, h⟩ | ⟨hnot, -⟩)
      · exact ⟨m₁, w, Act.runs_ofModel.2 ⟨hset, rfl⟩, h⟩
      · exact absurd hlocal hnot
  · rw [keep, if_neg hlocal, Act.runs_bind]
    constructor
    · rintro ⟨p, v, hstate, h⟩
      obtain ⟨rfl, rfl⟩ := Act.runs_state.1 hstate
      obtain ⟨_, v, hput, h⟩ := Act.runs_bind.1 h
      cases Act.runs_put.1 hput
      exact .inr ⟨hlocal, h⟩
    · rintro (⟨hhas, -⟩ | ⟨-, h⟩)
      · exact absurd hhas hlocal
      · exact ⟨w.state, w, Act.runs_state.2 ⟨rfl, rfl⟩, Act.runs_bind.2 ⟨(), _, Act.runs_put.2 rfl, h⟩⟩

theorem runs_adopt {new : Model} {sent : Parents} :
    Act.Runs (adopt m new sent) w m' w' ↔
      Act.Runs (keep (m.addMember new) m.members.length sent)
        { w with journal := w.journal ++ [.memberAdded m.name m.members.length new.name] } m' w' := by
  rw [adopt, Act.runs_bind]
  constructor
  · rintro ⟨m₁, v, hchange, h⟩
    obtain ⟨inner, hadd, rfl, rfl⟩ := Act.runs_change.1 hchange
    obtain ⟨hstate, hjournal⟩ := Act.runs_addMember.1 hadd
    rwa [hstate, hjournal] at h
  · intro h
    refine ⟨m.addMember new, _, Act.runs_change.2 ⟨⟨m.addMember new, _⟩, ?_, rfl, rfl⟩, h⟩
    exact Act.runs_addMember.2 ⟨rfl, rfl⟩

theorem runs_readTrailing_cons {item : Expr} {items : List Expr} {u : Unit} :
    Act.Runs (r.readTrailing (item :: items)) w u w' ↔
      ∃ key value attr, Item.assignment? item = some (key, value) ∧ Key.ofText key = .parent attr ∧
        Act.Runs (r.readTrailing items)
          { w with state := w.state.put attr (r.unquoted value) } u w' := by
  constructor
  · intro h
    rw [readTrailing] at h
    split at h
    · exact absurd h Act.runs_throw
    · rename_i key value hassign
      split at h
      · rename_i attr hkey
        obtain ⟨_, v, hsend, h⟩ := Act.runs_bind.1 h
        cases runs_sendUp.1 hsend
        exact ⟨key, value, attr, hassign, hkey, h⟩
      · exact absurd h Act.runs_throw
  · rintro ⟨key, value, attr, hassign, hkey, h⟩
    simp only [readTrailing, hassign, hkey]
    exact Act.runs_bind.2 ⟨(), _, runs_sendUp.2 rfl, h⟩

/-! ## Composites -/

/-- A composite is complete when its conditions are attached and its ties applied. -/
theorem runs_endComposite {parts : List Part} {w w' : Work Model} {u : Unit} :
    Act.Runs (r.endComposite parts) w u w' ↔
      ∃ v, Act.Runs (r.addConditions (Part.conditionItems parts)) w () v ∧
        v.state.applyTies = (w'.state, none) ∧ w'.journal = v.journal ++
          [.createdComposite w'.state.name w'.state.members.length] := by
  rw [endComposite, Act.runs_bind]
  constructor
  · rintro ⟨_, v, hconditions, h⟩
    obtain ⟨_, v', happly, h⟩ := Act.runs_bind.1 h
    obtain ⟨m, v'', hstate, hnote⟩ := Act.runs_bind.1 h
    obtain ⟨rfl, rfl⟩ := Act.runs_state.1 hstate
    cases Act.runs_note.1 hnote
    obtain ⟨happlied, hjournal⟩ := Act.runs_applyTies.1 happly
    exact ⟨v, hconditions, happlied, by rw [hjournal]⟩
  · rintro ⟨v, hconditions, happlied, hjournal⟩
    refine ⟨(), v, hconditions, Act.runs_bind.2 ⟨(), ⟨w'.state, v.journal⟩, ?_, ?_⟩⟩
    · exact Act.runs_applyTies.2 ⟨happlied, rfl⟩
    · refine Act.runs_bind.2 ⟨w'.state, _, Act.runs_state.2 ⟨rfl, rfl⟩, Act.runs_note.2 ?_⟩
      rw [← hjournal]

theorem runs_readComposite {e : Expr} :
    Act.Runs (r.readComposite e) w m w' ↔
      ∃ o parts, Part.sequence? e = some (o, parts) ∧ Act.Runs (r.readParts o parts) w m w' := by
  rw [readComposite]
  split
  · rename_i o parts hsequence
    constructor
    · exact fun h => ⟨o, parts, hsequence, h⟩
    · rintro ⟨o', parts', hsequence', h⟩
      cases hsequence.symm.trans hsequence'
      exact h
  · rename_i hnone
    constructor
    · exact fun h => absurd h Act.runs_throw
    · rintro ⟨o, parts, hsequence, -⟩
      cases hnone.symm.trans hsequence

/-- How a composite in brackets is read: as a text of its own, then what is sent from behind the
brackets. -/
theorem runs_addPart_composite {o : Opening} {parts : List Part} {items : List Expr} :
    Act.Runs (r.addPart (.composite o parts items) m) w m' w' ↔
      ∃ new v v', Act.Runs (r.readParts o parts) ⟨[], w.journal⟩ new v ∧
        Act.Runs (r.readTrailing items) v () v' ∧
        Act.Runs (adopt m new v'.state) { w with journal := v'.journal } m' w' := by
  rw [addPart, Act.runs_bind]
  constructor
  · rintro ⟨⟨new, sent⟩, v, hon, hadopt⟩
    obtain ⟨v₀, hread, hsent, rfl⟩ := Act.runs_on.1 hon
    obtain ⟨inner, v₁, hbegin, hread⟩ := Act.runs_bind.1 hread
    obtain ⟨inner', v₂, hadd, hread⟩ := Act.runs_bind.1 hread
    obtain ⟨inner'', v₃, hend, hread⟩ := Act.runs_bind.1 hread
    obtain ⟨_, v₄, htrail, hread⟩ := Act.runs_bind.1 hread
    obtain ⟨rfl, rfl⟩ := Act.runs_pure.1 hread
    cases hsent
    exact ⟨_, v₃, v₄, Act.runs_bind.2 ⟨inner, v₁, hbegin, Act.runs_bind.2 ⟨inner', v₂, hadd, hend⟩⟩,
      htrail, hadopt⟩
  · rintro ⟨new, v, v', hparts, htrail, hadopt⟩
    obtain ⟨inner, v₁, hbegin, hparts⟩ := Act.runs_bind.1 hparts
    obtain ⟨inner', v₂, hadd, hend⟩ := Act.runs_bind.1 hparts
    refine ⟨(new, v'.state), _, Act.runs_on.2 ⟨v', ?_, rfl, rfl⟩, hadopt⟩
    exact Act.runs_bind.2 ⟨inner, v₁, hbegin, Act.runs_bind.2 ⟨inner', v₂, hadd,
      Act.runs_bind.2 ⟨new, v, hend, Act.runs_bind.2 ⟨(), v', htrail, Act.runs_pure.2 ⟨rfl, rfl⟩⟩⟩⟩⟩

theorem runs_addPart_function {e : Expr} :
    Act.Runs (r.addPart (.function e) m) w m' w' ↔
      ∃ new v, Act.Runs (r.readFunction e) ⟨[], w.journal⟩ new v ∧
        Act.Runs (adopt m new v.state) { w with journal := v.journal } m' w' := by
  rw [addPart, Act.runs_bind]
  constructor
  · rintro ⟨⟨new, sent⟩, v, hon, hadopt⟩
    obtain ⟨v₀, hread, hsent, rfl⟩ := Act.runs_on.1 hon
    cases hsent
    exact ⟨new, v₀, hread, hadopt⟩
  · rintro ⟨new, v, hread, hadopt⟩
    exact ⟨(new, v.state), _, Act.runs_on.2 ⟨v, hread, rfl, rfl⟩, hadopt⟩

end Lineshape.Reader
