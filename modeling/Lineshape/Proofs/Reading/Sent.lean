import Lineshape.Proofs.Model.Kept
import Lineshape.Proofs.Reading.Steps

/-! # Attributes sent up

An item `$a=v` sends the attribute `a` up from where it stands. `Part.sentItems` lists these items
of a part in the order of the text, each with the composites of the part that have it in one of
their members; `Reader.lastSent` is the last one of a name that none of these composites keeps for
itself. -/

namespace Lineshape
set_option autoImplicit false

/-- An item that sends an attribute up. -/
structure SentItem where
  /-- The attribute. -/
  attr : Text
  /-- The value. -/
  value : Expr
  /-- The composites in whose members the item stands, as they begin. -/
  within : List Opening := []

/-- What an item sends up. -/
def Item.sent? (item : Expr) : Option SentItem :=
  match assignment? item with
  | some (key, value) =>
    match Key.ofText key with
    | .parent attr => some { attr, value }
    | _ => none
  | none => none

/-- The items of an opening, which stand in no member of the composite. -/
def Opening.sentItems : Opening → List SentItem
  | .header e => (e.toList [',']).tail.filterMap Item.sent?
  | _ => []

/-- The item in a member of a composite. -/
def SentItem.inside (o : Opening) (item : SentItem) : SentItem :=
  { item with within := o :: item.within }

namespace Part

mutual
/-- The items of a part that send attributes up, in the order of the text. -/
def sentItems : Part → List SentItem
  | .function e => (Reader.functionItems e.bracketsRemoved).tail.filterMap Item.sent?
  | .conditions _ => []
  | .composite o parts items =>
    o.sentItems ++ (sentItemsOf parts).map (·.inside o) ++ items.filterMap Item.sent?
/-- The items of several parts that send attributes up. -/
def sentItemsOf : List Part → List SentItem
  | [] => []
  | part :: more => part.sentItems ++ sentItemsOf more
end

end Part

namespace Reader

variable (r : Reader)

/-- What the composites of an opening keep for their members. -/
def localsOf (o : Opening) : Slots :=
  match (r.openingType? o).bind (Named.get? · r.types) with
  | some (.composite c) => c.localDefaults
  | _ => []

/-- Whether a composite has an item in a member and keeps the attribute for itself. -/
def isCaught (item : SentItem) : Bool :=
  item.within.any fun o => Named.has item.attr (r.localsOf o)

/-- The value of the last item that sends an attribute up past all composites it stands in. -/
def lastSent (attr : Text) (items : List SentItem) : Option Text :=
  (items.filter fun item => item.attr = attr ∧ ¬ r.isCaught item).getLast?.map fun item =>
    r.unquoted item.value

/-- The attributes on their way up with those of some more items. -/
def sendAll (parents : Parents) (items : List SentItem) : Parents :=
  items.foldl (fun parents item => parents.put item.attr (r.unquoted item.value)) parents

variable {r}

theorem lastSent_append (attr : Text) (front back : List SentItem) :
    r.lastSent attr (front ++ back) = (r.lastSent attr back).or (r.lastSent attr front) := by
  rw [lastSent, List.filter_append, List.getLast?_append, lastSent, lastSent]
  cases (back.filter _).getLast? with
  | none => rfl
  | some item => rfl

theorem lastSent_inside (attr : Text) (o : Opening) (items : List SentItem) :
    r.lastSent attr (items.map (·.inside o)) =
      if Named.has attr (r.localsOf o) then none else r.lastSent attr items := by
  have hcaught : ∀ item : SentItem,
      r.isCaught (item.inside o) = (Named.has item.attr (r.localsOf o) || r.isCaught item) :=
    fun _ => rfl
  have hattr : ∀ item : SentItem, (item.inside o).attr = item.attr := fun _ => rfl
  rw [lastSent, List.filter_map, List.getLast?_map, Option.map_map]
  have hfilter : items.filter ((fun item : SentItem =>
      decide (item.attr = attr ∧ ¬ r.isCaught item = true)) ∘ fun item => item.inside o) =
      if Named.has attr (r.localsOf o) then []
      else items.filter fun item => item.attr = attr ∧ ¬ r.isCaught item := by
    split
    · rename_i hhas
      refine List.filter_eq_nil_iff.2 fun item _ => ?_
      rw [Function.comp_apply, decide_eq_true_eq, hcaught, hattr]
      rintro ⟨ha, hnot⟩
      rw [ha, hhas] at hnot
      exact hnot rfl
    · rename_i hhas
      refine List.filter_congr fun item _ => ?_
      rw [Function.comp_apply, hcaught, hattr]
      by_cases ha : item.attr = attr
      · rw [ha, Bool.eq_false_iff.2 hhas, Bool.false_or]
      · rw [decide_eq_false (fun hc => ha hc.1), decide_eq_false (fun hc => ha hc.1)]
  rw [hfilter]
  split
  · rfl
  · rfl

theorem sendAll_append (parents : Parents) (front back : List SentItem) :
    r.sendAll parents (front ++ back) = r.sendAll (r.sendAll parents front) back :=
  List.foldl_append

theorem nodup_names_nil : (Named.names ([] : Parents)).Nodup := List.nodup_nil

theorem nodup_sendAll {parents : Parents} (h : (Named.names parents).Nodup)
    (items : List SentItem) : (Named.names (r.sendAll parents items)).Nodup := by
  induction items generalizing parents with
  | nil => exact h
  | cons item items ih => exact ih (Named.nodup_put h)

/-- Of the items that stand in no composite the last one of a name counts. -/
theorem get?_sendAll {items : List SentItem} (h : ∀ item ∈ items, item.within = [])
    (parents : Parents) (attr : Text) :
    Named.get? attr (r.sendAll parents items) = (r.lastSent attr items).or (Named.get? attr parents) := by
  induction items generalizing parents with
  | nil => rfl
  | cons item items ih =>
    have hrest := ih (fun it hit => h it (List.mem_cons_of_mem item hit))
      (parents.put item.attr (r.unquoted item.value))
    have hcaught : r.isCaught item = false := by
      rw [isCaught, h item List.mem_cons_self]
      rfl
    have hone : r.lastSent attr [item] =
        if attr = item.attr then some (r.unquoted item.value) else none := by
      rw [lastSent, List.filter_singleton, hcaught]
      by_cases ha : attr = item.attr
      · rw [if_pos ha]
        simp [ha]
      · rw [if_neg ha]
        simp [Ne.symm ha]
    change Named.get? attr (r.sendAll (parents.put _ _) items) = _
    rw [hrest, Named.get?_put, ← List.singleton_append, lastSent_append, hone, Option.or_assoc]
    split
    · rfl
    · rfl

theorem within_of_sent? {item : Expr} {it : SentItem} (h : Item.sent? item = some it) :
    it.within = [] := by
  rw [Item.sent?] at h
  split at h
  · split at h
    · cases h
      rfl
    · cases h
  · cases h

theorem within_of_mem_filterMap {items : List Expr} {it : SentItem}
    (h : it ∈ items.filterMap Item.sent?) : it.within = [] := by
  obtain ⟨item, -, hitem⟩ := List.mem_filterMap.1 h
  exact within_of_sent? hitem

/-! ## Reading items -/

theorem ofText_eq_parent {key attr : Text} : Key.ofText key = .parent attr ↔ key = '$' :: attr := by
  constructor
  · intro h
    unfold Key.ofText at h
    split at h
    · cases h
    · split at h
      · cases h
      · split at h
        · cases h
        · split at h
          · cases h
          · split at h
            · cases h
              rfl
            · cases h
  · rintro rfl
    unfold Key.ofText
    simp

end Reader

/-- No attribute of a model begins with the mark of items that are sent up. -/
def Model.Unmarked (m : Model) : Prop := ∀ name ∈ Named.names m.attributes, name.head? ≠ some '$'

namespace Reader

variable {r : Reader}

theorem hasAttribute_marked {m : Model} (h : m.Unmarked) (attr : Text) :
    m.hasAttribute ('$' :: attr) = false := by
  rw [Model.hasAttribute, Bool.eq_false_iff]
  intro hhas
  exact h _ (Named.has_iff_mem_names.1 hhas) rfl

theorem names_attributes_of_step {m m' : Model} (h : r.Step m m') :
    Named.names m'.attributes = Named.names m.attributes := by
  cases h with
  | configure hset =>
    obtain ⟨old, value, -, -, hset⟩ := Model.setAttributeText_eq_ok hset
    rw [(Model.setAttribute_eq_ok hset).1, Named.names_set]
  | parameter hset => rw [Model.attributes_setAt? hset]
  | tie hattach =>
    obtain ⟨-, rfl⟩ := Model.attachTie_eq_ok.1 hattach
    rw [Model.attributes_withTies]
  | bound _ hattach =>
    obtain ⟨-, rfl⟩ := Model.attachBound_eq_ok.1 hattach
    rw [Model.attributes_withBounds]

theorem Reaches.unmarked {m m' : Model} (h : r.Reaches m m') (hm : m.Unmarked) : m'.Unmarked := by
  refine h.keeps (P := Model.Unmarked) ?_ hm
  intro m m' hm hstep
  rw [Model.Unmarked, names_attributes_of_step hstep]
  exact hm

theorem keepsLike_of_step {m m' : Model} (h : r.Step m m') : m.KeepsLike m' := by
  cases h with
  | configure hset =>
    obtain ⟨old, value, -, -, hset⟩ := Model.setAttributeText_eq_ok hset
    exact (Model.setAttribute_eq_ok hset).2
  | parameter hset => exact Model.keepsLike_setAt? hset
  | tie hattach =>
    obtain ⟨-, rfl⟩ := Model.attachTie_eq_ok.1 hattach
    exact Model.keepsLike_withTies _ _
  | bound _ hattach =>
    obtain ⟨-, rfl⟩ := Model.attachBound_eq_ok.1 hattach
    exact Model.keepsLike_withBounds _ _

theorem Reaches.keepsLike {m m' : Model} (h : r.Reaches m m') : m.KeepsLike m' :=
  h.keeps (P := m.KeepsLike) (fun _ _ hm hstep => hm.trans (keepsLike_of_step hstep)) (.refl m)

/-- What an item does to the attributes on their way up. -/
theorem Assigns.state {m m' : Model} {key : Text} {value : Expr} {w w' : Work Parents}
    (hm : m.Unmarked) (h : r.Assigns m key value w m' w') :
    w'.state = match Key.ofText key with
      | .parent attr => w.state.put attr (r.unquoted value)
      | _ => w.state := by
  cases h with
  | slot hhas =>
    split
    · rename_i attr hkey
      rw [ofText_eq_parent.1 hkey, hasAttribute_marked hm] at hhas
      cases hhas
    · rfl
  | constraints _ hkey | ties _ hkey | parent _ hkey => rw [hkey]
  | parameter _ _ _ hparent =>
    split
    · rename_i attr hkey
      exact absurd hkey (hparent attr)
    · rfl

theorem sendAll_cons (parents : Parents) (item : Expr) (items : List Expr) :
    r.sendAll parents ((item :: items).filterMap Item.sent?) =
      r.sendAll (r.sendAll parents (Item.sent? item).toList) (items.filterMap Item.sent?) := by
  rw [← sendAll_append]
  cases hs : Item.sent? item with
  | none =>
    rw [List.filterMap_cons_none hs]
    rfl
  | some it =>
    rw [List.filterMap_cons_some hs]
    rfl

theorem sendAll_sent? (parents : Parents) {item value : Expr} {key : Text}
    (h : Item.assignment? item = some (key, value)) :
    r.sendAll parents (Item.sent? item).toList = match Key.ofText key with
      | .parent attr => parents.put attr (r.unquoted value)
      | _ => parents := by
  rw [Item.sent?, h]
  dsimp only
  split
  · rfl
  · rfl

theorem state_readItems {items : List Expr} {m m' : Model} {w w' : Work Parents} (hm : m.Unmarked)
    (h : Act.Runs (r.readItems m items) w m' w') :
    w'.state = r.sendAll w.state (items.filterMap Item.sent?) := by
  induction items generalizing m w with
  | nil =>
    obtain ⟨-, rfl⟩ := Act.runs_pure.1 h
    rfl
  | cons item items ih =>
    obtain ⟨key, value, m₁, v, hassign, hassigns, h⟩ := runs_readItems_cons.1 h
    rw [ih (hassigns.reaches.unmarked hm) h, hassigns.state hm, sendAll_cons,
      sendAll_sent? _ hassign]

theorem state_readTrailing {items : List Expr} {w w' : Work Parents} {u : Unit}
    (h : Act.Runs (r.readTrailing items) w u w') :
    w'.state = r.sendAll w.state (items.filterMap Item.sent?) := by
  induction items generalizing w with
  | nil =>
    obtain ⟨-, rfl⟩ := Act.runs_pure.1 h
    rfl
  | cons item items ih =>
    obtain ⟨key, value, attr, hassign, hkey, h⟩ := runs_readTrailing_cons.1 h
    rw [ih h, sendAll_cons, sendAll_sent? _ hassign, hkey]

end Reader
end Lineshape
