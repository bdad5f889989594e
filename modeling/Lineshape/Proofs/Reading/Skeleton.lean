import Lineshape.Proofs.Expr.Groups
import Lineshape.Proofs.Reading.Invariant

/-! # Skeletons

The skeleton of a model tells the types of the model and of its members at every level, and nothing
else. Reading fixes it by the tree alone: items, ties and bounds change values and leave the skeleton
as it is, and every part that is no condition adds one member (`Reader.skeleton?_of_read`). -/

namespace Lineshape
set_option autoImplicit false

/-- The types of a model and of its members, level by level. -/
inductive Skeleton where
  | curve (type : Text)
  | composite (type : Text) (members : List Skeleton)

namespace Model

mutual
def skeleton : Model → Skeleton
  | curve c => .curve c.shape.name
  | composite c members => .composite c.name (skeletons members)
def skeletons : List (Member Model) → List Skeleton
  | [] => []
  | ⟨_, m⟩ :: more => m.skeleton :: skeletons more
end

theorem skeletons_eq_map (members : List (Member Model)) :
    skeletons members = members.map fun mem => mem.model.skeleton := by
  induction members with
  | nil => rfl
  | cons mem members ih => rw [skeletons, ih, List.map_cons]

theorem exists_of_skeleton {m : Model} {type : Text} {front : List Skeleton}
    (h : m.skeleton = .composite type front) :
    ∃ c members, m = composite c members ∧ c.name = type ∧ skeletons members = front := by
  cases m with
  | curve c => cases h
  | composite c members =>
    cases h
    exact ⟨c, members, rfl, rfl, rfl⟩

theorem skeletons_set {members : List (Member Model)} {i : Nat} {mem new : Member Model}
    (hmem : members[i]? = some mem) (hnew : new.model.skeleton = mem.model.skeleton) :
    skeletons (members.set i new) = skeletons members := by
  obtain ⟨hi, rfl⟩ := List.getElem?_eq_some_iff.1 hmem
  rw [skeletons_eq_map, skeletons_eq_map, List.map_set, hnew]
  exact List.map_set.symm.trans (by rw [List.set_getElem_self])

theorem skeleton_setAt? {m m' : Model} {value : Float} {path : List Nat} {name : Text}
    (h : m.setAt? value path name = some m') : m'.skeleton = m.skeleton := by
  induction m generalizing path name m' with
  | curve c =>
    obtain ⟨-, -, rfl⟩ := setAt?_curve_eq_some h
    rfl
  | composite c members ih =>
    obtain ⟨i, p, n, mem, new, -, hmem, hnew, rfl⟩ := setAt?_composite_eq_some h
    rw [skeleton, skeleton, skeletons_set hmem (ih mem (List.mem_of_getElem? hmem) hnew)]

theorem skeleton_setAttribute {m m' : Model} {name : Text} {value : Attribute}
    (h : m.setAttribute name value = .ok m') : m'.skeleton = m.skeleton := by
  cases m with
  | curve c =>
    obtain ⟨c', hc, rfl⟩ := Result.map_eq_ok.1 h
    obtain ⟨attributes, -, hc⟩ := Result.bind_eq_ok.1 hc
    rw [skeleton, skeleton, Curve.shape_attributeChanged hc]
  | composite c members =>
    obtain ⟨attributes, -, hc⟩ := Result.bind_eq_ok.1 h
    cases hc
    rfl

theorem skeleton_setLocal {m m' : Model} {i : Nat} {name s : Text}
    (h : m.setLocal i name s = .ok m') : m'.skeleton = m.skeleton := by
  cases m with
  | curve c => cases h
  | composite c members =>
    obtain ⟨mem, old, value, hmem, -, -, rfl⟩ := setLocal_eq_ok h
    exact congrArg (Skeleton.composite c.name) (skeletons_set hmem rfl)

theorem skeleton_withTies (ties : List Tie) (m : Model) :
    (m.withTies ties).skeleton = m.skeleton := by
  cases m <;> rfl

theorem skeleton_withBounds (bounds : List Bound) (m : Model) :
    (m.withBounds bounds).skeleton = m.skeleton := by
  cases m <;> rfl

theorem skeleton_addMember {m : Model} {type : Text} {front : List Skeleton}
    (h : m.skeleton = .composite type front) (new : Model) :
    (m.addMember new).skeleton = .composite type (front ++ [new.skeleton]) := by
  obtain ⟨c, members, rfl, rfl, rfl⟩ := exists_of_skeleton h
  rw [addMember, skeleton, skeletons_eq_map, List.map_append, ← skeletons_eq_map]
  rfl

end Model

namespace Reader

variable {r : Reader}

/-! ## What reading leaves alone -/

theorem Step.skeleton_eq {m m' : Model} (h : r.Step m m') : m'.skeleton = m.skeleton := by
  cases h with
  | configure hset =>
    obtain ⟨old, value, -, -, hset⟩ := Model.setAttributeText_eq_ok hset
    exact Model.skeleton_setAttribute hset
  | parameter hset => exact Model.skeleton_setAt? hset
  | tie hattach =>
    obtain ⟨-, rfl⟩ := Model.attachTie_eq_ok.1 hattach
    exact Model.skeleton_withTies _ _
  | bound _ hattach =>
    obtain ⟨-, rfl⟩ := Model.attachBound_eq_ok.1 hattach
    exact Model.skeleton_withBounds _ _

theorem Reaches.skeleton_eq {m m' : Model} (h : r.Reaches m m') : m'.skeleton = m.skeleton :=
  h.keeps (P := fun m' => m'.skeleton = m.skeleton)
    (fun _ _ hm hstep => hstep.skeleton_eq.trans hm) rfl

theorem skeleton_keep {m m' : Model} {place : Nat} {sent : Parents} {w w' : Work Parents}
    (h : Act.Runs (keep m place sent) w m' w') : m'.skeleton = m.skeleton := by
  induction sent generalizing m w with
  | nil =>
    obtain ⟨rfl, -⟩ := Act.runs_pure.1 h
    rfl
  | cons p sent ih =>
    obtain ⟨-, m₁, hset, h⟩ | ⟨-, h⟩ := runs_keep_cons.1 h
    · exact (ih h).trans (Model.skeleton_setLocal hset)
    · exact ih h

theorem skeleton_adopt {m new m' : Model} {type : Text} {front : List Skeleton} {sent : Parents}
    {w w' : Work Parents} (hm : m.skeleton = .composite type front)
    (h : Act.Runs (adopt m new sent) w m' w') :
    m'.skeleton = .composite type (front ++ [new.skeleton]) := by
  rw [skeleton_keep (runs_adopt.1 h)]
  exact Model.skeleton_addMember hm new

/-! ## The skeleton of a tree -/

/-- The name of the composites that an opening begins. -/
def openingName? (r : Reader) (o : Opening) : Option Text :=
  (r.openingType? o).bind fun type => (r.types.createComposite type).toOption.map Model.name

mutual
/-- The skeleton of the member that a part asks for. -/
def skeleton? (r : Reader) : Part → Option Skeleton
  | .function e =>
    (r.functionType? e).bind fun type => (r.types.create type).toOption.map Model.skeleton
  | .conditions _ => none
  | .composite o parts _ =>
    (r.openingName? o).bind fun type => (skeletons? r parts).map (.composite type)
/-- The skeletons of the members among some parts. -/
def skeletons? (r : Reader) : List Part → Option (List Skeleton)
  | [] => some []
  | part :: more =>
    if part.isMember then
      (skeleton? r part).bind fun first => (skeletons? r more).map (first :: ·)
    else skeletons? r more
end

theorem skeleton?_readFunction {e : Expr} {m : Model} {w w' : Work Parents}
    (h : Act.Runs (r.readFunction e) w m w') : r.skeleton? (.function e) = some m.skeleton := by
  obtain ⟨type, m₀, htype, hcreate, hreaches⟩ := exists_reaches_readFunction h
  rw [skeleton?, htype, Option.bind_some, hcreate, hreaches.skeleton_eq]
  rfl

theorem openingName?_beginComposite {o : Opening} {m : Model} {w w' : Work Parents}
    (h : Act.Runs (r.beginComposite o) w m w') :
    ∃ type, r.openingName? o = some type ∧ m.skeleton = .composite type [] := by
  obtain ⟨type, m₀, htype, hcreate, hreaches⟩ := exists_reaches_beginComposite h
  refine ⟨m₀.name, ?_, ?_⟩
  · rw [openingName?, htype, Option.bind_some, hcreate]
    rfl
  · obtain ⟨-, c, -, rfl⟩ := Catalogue.createComposite_eq_ok hcreate
    exact hreaches.skeleton_eq

/-- Adding a part adds the members that it asks for. -/
def Outlines (r : Reader) (part : Part) : Prop :=
  ∀ {m m' : Model} {type : Text} {front : List Skeleton} {w w' : Work Parents},
    m.skeleton = .composite type front → Act.Runs (r.addPart part m) w m' w' →
      ∃ new, r.skeletons? [part] = some new ∧ m'.skeleton = .composite type (front ++ new)

theorem skeletons?_cons {part : Part} {parts : List Part} {new more : List Skeleton}
    (h : r.skeletons? [part] = some new) (hmore : r.skeletons? parts = some more) :
    r.skeletons? (part :: parts) = some (new ++ more) := by
  rw [skeletons?] at h ⊢
  split at h
  · rename_i hmember
    obtain ⟨first, hfirst, h⟩ := Option.bind_eq_some_iff.1 h
    cases h
    rw [if_pos hmember, hfirst, hmore]
    rfl
  · rename_i hmember
    cases h
    rw [if_neg hmember, hmore]
    rfl

theorem skeletons?_singleton {part : Part} {sk : Skeleton} (hpart : part.isMember = true)
    (h : r.skeleton? part = some sk) : r.skeletons? [part] = some [sk] := by
  rw [skeletons?, if_pos hpart, h]
  rfl

theorem skeletons?_addParts {parts : List Part} (hparts : ∀ p ∈ parts, r.Outlines p)
    {m m' : Model} {type : Text} {front : List Skeleton} {w w' : Work Parents}
    (hm : m.skeleton = .composite type front) (h : Act.Runs (r.addParts parts m) w m' w') :
    ∃ new, r.skeletons? parts = some new ∧ m'.skeleton = .composite type (front ++ new) := by
  induction parts generalizing m front w with
  | nil =>
    obtain ⟨rfl, -⟩ := Act.runs_pure.1 h
    exact ⟨[], rfl, by rw [List.append_nil, hm]⟩
  | cons part parts ih =>
    obtain ⟨m₁, v, hpart, h⟩ := Act.runs_bind.1 h
    obtain ⟨new, hnew, hm₁⟩ := hparts part List.mem_cons_self hm hpart
    obtain ⟨more, hmore, hm'⟩ := ih (fun p hp => hparts p (List.mem_cons_of_mem part hp)) hm₁ h
    exact ⟨new ++ more, skeletons?_cons hnew hmore, by rw [hm', List.append_assoc]⟩

theorem skeleton?_composite {o : Opening} {parts : List Part} (items : List Expr)
    (hparts : ∀ p ∈ parts, r.Outlines p) {m : Model} {w w' : Work Parents}
    (h : Act.Runs (r.readParts o parts) w m w') :
    r.skeleton? (.composite o parts items) = some m.skeleton := by
  obtain ⟨m₀, v₀, hbegin, h⟩ := Act.runs_bind.1 h
  obtain ⟨m₁, v₁, hadd, hend⟩ := Act.runs_bind.1 h
  obtain ⟨type, htype, hm₀⟩ := openingName?_beginComposite hbegin
  obtain ⟨new, hnew, hm₁⟩ := skeletons?_addParts hparts hm₀ hadd
  obtain ⟨inner, hdone, rfl, -⟩ := Act.runs_change.1 hend
  rw [skeleton?, htype, Option.bind_some, hnew, (reaches_endComposite hdone).skeleton_eq, hm₁]
  rfl

theorem outlines (part : Part) : r.Outlines part := by
  induction part using Part.induct with
  | conditions e =>
    intro m m' type front w w' hm h
    obtain ⟨rfl, -⟩ := Act.runs_pure.1 h
    exact ⟨[], rfl, by rw [List.append_nil, hm]⟩
  | function e =>
    intro m m' type front w w' hm h
    obtain ⟨new, v, hread, hadopt⟩ := runs_addPart_function.1 h
    exact ⟨_, skeletons?_singleton rfl (skeleton?_readFunction hread), skeleton_adopt hm hadopt⟩
  | composite o parts items ih =>
    intro m m' type front w w' hm h
    obtain ⟨new, v, v', hread, -, hadopt⟩ := runs_addPart_composite.1 h
    exact ⟨_, skeletons?_singleton rfl (skeleton?_composite items ih hread),
      skeleton_adopt hm hadopt⟩

theorem toList_of_functionItems {e head : Expr} {items : List Expr}
    (h : functionItems e = head :: items) : e.toList [','] = head :: items := by
  rw [functionItems] at h
  split at h
  · rename_i hform
    cases h
    rw [Expr.toList, Part.name_of_form.2.2 hform, if_neg (by simp)]
  · rename_i hform
    obtain ⟨first, more, he⟩ := Part.exists_terms_of_form hform (by decide)
    rw [Part.name_of_form.2.1 hform] at he
    rw [Expr.toList, if_pos (by rw [he]; exact ⟨rfl, rfl⟩), h]
  · cases h

/-- A tree that asks for a type of functions is a part for itself. -/
theorem ofExpr_of_functionType? {e : Expr} {type : Text} (h : r.functionType? e = some type) :
    Part.ofExpr e = .function e.bracketsRemoved := by
  obtain ⟨head, hhead, htype⟩ := Option.bind_eq_some_iff.1 h
  obtain ⟨items, hitems⟩ := List.head?_eq_some_iff.1 hhead
  rw [typeName?] at htype
  split at htype
  · rename_i key value hassign
    rw [← Part.ofExpr_bracketsRemoved, Part.ofExpr_of_functionItems hitems hassign, Part.ofItems,
      Item.firstKey?, toList_of_functionItems hitems]
    simp only [hassign, Option.map_some]
    split
    · rename_i hkey
      rw [Option.some.inj hkey] at htype
      cases htype
    · rename_i hkey
      rw [Option.some.inj hkey] at htype
      cases htype
    · rfl
  · cases htype

/-- The skeleton of a model that is read is the one that the tree of its text asks for. -/
theorem skeleton?_of_read {s : Text} {m : Model} (h : r.read s = .ok m) :
    ∃ tree, Expr.parse r.operators r.depth s = .ok tree ∧
      r.skeleton? (Part.ofExpr tree) = some m.skeleton := by
  obtain ⟨tree, v, hparse, -, h⟩ := read_eq_ok.1 h
  refine ⟨tree, hparse, ?_⟩
  rw [readTree] at h
  split at h
  · rename_i hform
    obtain ⟨o, parts, hsequence, hpart⟩ := Part.ofExpr_of_sequence hform
    obtain ⟨o', parts', hsequence', h⟩ := runs_readComposite.1 h
    cases hsequence.symm.trans hsequence'
    rw [← Part.ofExpr_bracketsRemoved, hpart]
    exact skeleton?_composite [] (fun p _ => outlines p) h
  · obtain ⟨type, -, htype, -, -⟩ := exists_reaches_readFunction h
    have hnode := (Expr.isNode_bracketsRemoved tree).bracketsRemoved_eq
    rw [← Part.ofExpr_bracketsRemoved, ofExpr_of_functionType? htype, hnode]
    exact skeleton?_readFunction h

end Reader
end Lineshape
