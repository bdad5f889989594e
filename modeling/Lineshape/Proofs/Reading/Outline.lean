import Lineshape.Proofs.Model.Pieces
import Lineshape.Proofs.Reading.Composites
import Lineshape.Proofs.Reading.Skeleton

/-! # Skeletons of model texts

The text of a model asks for one skeleton, whatever the ties, bounds and values of the model are, so
long as its strings hide their separators (`Reader.skeleton_of_text`). It is the skeleton of the model
unless, at some level, a composite without members stands first where no header does: that one is
taken for the header (`Model.outline_eq_skeleton_iff`). -/

namespace Lineshape
set_option autoImplicit false

open Reader (builtin)

namespace Model

variable {c : Composite} {members : List (Member Model)} {mem : Member Model} {locals : Slots}

/-- Strings in the text of the model itself hide their separators. -/
structure Hides (m : Model) : Prop where
  attributes : ∀ slot ∈ m.attributes, slot.2.Hidden
  locals : ∀ mem ∈ m.members, ∀ slot ∈ mem.locals, slot.2.Hidden

theorem hides_iff {m : Model} : m.Hides ↔ (∀ slot ∈ m.attributes, slot.2.Hidden) ∧
    ∀ mem ∈ m.members, ∀ slot ∈ mem.locals, slot.2.Hidden :=
  ⟨fun h => ⟨h.attributes, h.locals⟩, fun h => ⟨h.1, h.2⟩⟩

instance (m : Model) : Decidable m.Hides := decidable_of_iff _ hides_iff.symm

/-! ## Outlines -/

mutual
/-- The skeleton that the text of a model asks for: a first member that is taken for the header gives
the composite its type. -/
def outline : Model → Skeleton
  | curve c => .curve c.shape.name
  | composite c members =>
    if (composite c members).losesFirst then
      .composite (members.head?.elim c.name fun mem => mem.model.name) (outlines members).tail
    else .composite c.name (outlines members)
/-- The skeletons that the texts of members ask for. -/
def outlines : List (Member Model) → List Skeleton
  | [] => []
  | ⟨_, m⟩ :: more => m.outline :: outlines more
end

theorem outlines_eq_map (members : List (Member Model)) :
    outlines members = members.map fun mem => mem.model.outline := by
  induction members with
  | nil => rfl
  | cons mem members ih => rw [outlines, ih, List.map_cons]

theorem outline_of_keepsFirst (h : (composite c members).losesFirst = false) :
    (composite c members).outline = .composite c.name (outlines members) := by
  rw [outline, h, if_neg Bool.false_ne_true]

theorem outline_hollow (c : Composite) : (composite c []).outline = .composite c.name [] :=
  outline_of_keepsFirst (Bool.and_false _)

/-- The text of a model asks for its skeleton just if no first member is lost, at any level. -/
theorem outline_eq_skeleton_iff {m : Model} :
    m.outline = m.skeleton ↔ m.Throughout fun m => m.losesFirst = false := by
  induction m with
  | curve c => exact ⟨fun _ => .curve rfl, fun _ => rfl⟩
  | composite c members ih =>
    have hmembers : outlines members = skeletons members ↔
        ∀ mem ∈ members, mem.model.Throughout fun m => m.losesFirst = false := by
      rw [outlines_eq_map, skeletons_eq_map, List.map_inj_left]
      exact forall₂_congr ih
    cases hfirst : (composite c members).losesFirst with
    | false =>
      rw [outline_of_keepsFirst hfirst, skeleton, Skeleton.composite.injEq, hmembers]
      refine ⟨fun h => .composite hfirst h.2, fun h => ⟨rfl, ?_⟩⟩
      cases h with
      | composite _ h => exact h
    | true =>
      refine ⟨fun h => ?_, fun h => absurd h.own (by rw [hfirst]; decide)⟩
      rw [outline, hfirst, if_pos rfl, skeleton] at h
      obtain ⟨mem, members, rfl⟩ : ∃ mem more, members = mem :: more := by
        refine List.exists_cons_of_ne_nil fun hnil => ?_
        rw [hnil, losesFirst, List.head?_nil, Option.any_none, Bool.and_false] at hfirst
        cases hfirst
      have hlength := congrArg List.length (Skeleton.composite.inj h).2
      rw [outlines_eq_map, skeletons_eq_map, List.length_tail, List.length_map, List.length_map,
        List.length_cons] at hlength
      omega

/-! ## Texts as segments -/

theorem segment_item {key value : Text} (hkey : isDotted key = true) (hvalue : isDotted value = true) :
    Piece (item key value) ∧ Text.Trimmed (item key value) := by
  have hword := Word.of_dotted hvalue
  have hitem := Phrase.tight_item (.of_dotted hkey) (.word hword) (Nat.le_refl 2)
  exact ⟨.item (Text.plain_of_dotted hkey) (.of_plain (Text.plain_of_dotted hvalue)
    (dotted_ne_nil hvalue) hword.trimmed), Phrase.trimmed hitem.valid⟩

theorem pieces_header (h : c.Configured) :
    ∀ s ∈ (c.attributes.filter (!Slots.unchanged c.defaults ·)).map
      fun slot => item ([] ++ slot.1) slot.2.modelText, Piece s := by
  obtain ⟨-, b, -, hchanged⟩ := Reader.header_slots h
  refine pieces_slots ?_
  rw [hchanged]
  cases b
  · exact List.forall_mem_nil _
  · exact List.forall_mem_singleton.2 ⟨by decide, trivial⟩

theorem segment_header (h : c.Configured) : Segment (headerText c) := by
  obtain ⟨hpiece, htrimmed⟩ := segment_item (by decide : isDotted "composite".toList = true)
    (Reader.create_composite h).1
  rw [headerText, slotItems_eq]
  exact .of_pieces hpiece htrimmed (pieces_header h)

theorem pieces_locals (hkeeps : c.Keeps locals) (hhidden : ∀ slot ∈ locals, slot.2.Hidden)
    (p : Text × Attribute → Bool) :
    ∀ s ∈ (locals.filter p).map fun slot => item (['$'] ++ slot.1) slot.2.modelText, Piece s := by
  refine pieces_slots fun slot hslot => ?_
  have hmem := (List.mem_filter.1 hslot).1
  refine ⟨?_, hhidden slot hmem⟩
  rcases hkeeps with hnone | hdomains
  · rw [hnone.2] at hmem
    cases hmem
  · obtain ⟨default, s, -, -, rfl⟩ := hdomains
    rw [List.mem_singleton.1 hmem]
    exact (by decide : Text.Plain (['$'] ++ "domains".toList))

theorem segment_member (h : mem.model.Sound) (hhides : mem.model.Hides) (hkeeps : c.Keeps mem.locals)
    (hlocals : ∀ slot ∈ mem.locals, slot.2.Hidden) (hbalanced : Balanced mem.model.text) :
    Segment (memberText c.localDefaults mem) := by
  have hitems := pieces_locals hkeeps hlocals (!Slots.unchanged c.localDefaults ·)
  obtain ⟨locals, m⟩ := mem
  rw [memberText, slotItems_eq]
  cases m with
  | curve c' =>
    obtain ⟨items, hpieces, htext⟩ := h.exists_curve_pieces hhides.attributes
    obtain ⟨hpiece, htrimmed⟩ := segment_item (by decide : isDotted "name".toList = true)
      c'.shape.dotted_name
    have hall := Segment.of_pieces hpiece htrimmed (List.forall_mem_append.2 ⟨hpieces, hitems⟩)
    rw [List.flatMap_append, ← List.append_assoc, ← htext] at hall
    exact hall
  | composite c' members =>
    refine .of_pieces (.bracketed hbalanced) ?_ hitems
    exact Text.Trimmed.around (s := ['(']) (t := [')']) (by decide) (by decide) (by decide) (by decide) _

theorem exists_of_isHollow {m : Model} (h : m.isHollow = true) : ∃ c, m = .composite c [] := by
  cases m with
  | curve c => cases h
  | composite c members => exact ⟨c, congrArg _ (List.isEmpty_iff.1 h)⟩

theorem Sound.text_hollow (h : (Model.composite c []).Sound) :
    (Model.composite c []).text = headerText c ++ [';'] := by
  have hnone : ∀ name, (Model.composite c []).hasParameter name ≠ true := by
    intro name hname
    obtain ⟨i, inner, mem, -, hmem, -⟩ := hasParameter_composite.1 hname
    cases hmem
  have hties : c.ties = [] :=
    List.eq_nil_iff_forall_not_mem.2 fun tie htie => hnone _ (h.attached.ties tie htie).1
  have hbounds : c.bounds = [] :=
    List.eq_nil_iff_forall_not_mem.2 fun b hb => hnone _ (h.attached.bounds b hb).1
  rw [text, hties, hbounds]
  rcases header_cases c [].length with hheader | hheader
  · rw [hheader]
    exact (List.append_nil _).trans (List.append_nil _)
  · exact absurd hheader.2.2.2 (by decide)

/-- How the text of a composite falls apart at semicolons. -/
structure Split (m : Model) (front : Text) (back : List Text) : Prop where
  text : m.text = front ++ back.flatMap (';' :: ·)
  segment : Segment front
  chunks : ∀ s ∈ back, Chunk ';' s ∧ s ≠ [] ∧ ∀ c ∈ s.getLast?, Text.isBlank c = false
  nonEmpty : back ≠ []

theorem Split.trimmed {m : Model} {front : Text} {back : List Text} (h : Split m front back) :
    Text.Trimmed m.text :=
  h.text ▸ Text.trimmed_join h.segment.trimmed h.segment.nonEmpty fun s hs => (h.chunks s hs).2

theorem Split.balanced {m : Model} {front : Text} {back : List Text} (h : Split m front back) :
    Balanced m.text :=
  h.text ▸ h.segment.balanced.append (Expr.balanced_join rfl fun s hs => (h.chunks s hs).1.balanced)

theorem Split.text_ne_nil {m : Model} {front : Text} {back : List Text} (h : Split m front back) :
    m.text ≠ [] := h.text ▸ List.append_ne_nil_of_left_ne_nil h.segment.nonEmpty _

/-- The text of a composite is a header and all members, or the first member and the others, and its
ties and bounds behind them. -/
theorem Sound.exists_split (h : (Model.composite c members).Sound) (hne : members ≠ [])
    (hsegments : ∀ mem ∈ members, Segment (memberText c.localDefaults mem)) :
    ∃ front more sections, (∀ s ∈ sections, IsSection s) ∧
      Split (.composite c members) front (more.map (memberText c.localDefaults) ++ sections) ∧
      ((header c members.length ≠ [] ∧ front = headerText c ∧ more = members) ∨
        (header c members.length = [] ∧ c.name = Composite.plain.name ∧ ∃ first,
          members = first :: more ∧ front = memberText c.localDefaults first)) := by
  have hc : c.Configured := h.configured
  obtain ⟨sections, hsections, htext⟩ := h.exists_sections
  have hjoined : Model.sections ';' c.ties c.bounds = sections.flatMap (';' :: ·) := htext ';'
  have hback : ∀ more : List (Member Model), (∀ mem ∈ more, mem ∈ members) →
      ∀ s ∈ more.map (memberText c.localDefaults) ++ sections, Chunk ';' s ∧ s ≠ [] ∧
        ∀ c ∈ s.getLast?, Text.isBlank c = false := by
    refine fun more hmore => List.forall_mem_append.2 ⟨fun s hs => ?_, fun s hs => ?_⟩
    · obtain ⟨mem, hmem, rfl⟩ := List.mem_map.1 hs
      have hsegment := hsegments mem (hmore mem hmem)
      exact ⟨hsegment.toChunk, hsegment.nonEmpty, hsegment.trimmed.2⟩
    · have hpiece := (hsections s hs).piece
      exact ⟨hpiece.chunk rfl, hpiece.nonEmpty, fun d hd => (hpiece.last d hd).1⟩
  have htexts : ∀ first more, members = first :: more → (Model.composite c members).text =
      header c members.length ++ (memberText c.localDefaults first ++
        (more.map (memberText c.localDefaults) ++ sections).flatMap (';' :: ·)) := by
    rintro first more rfl
    rw [text, memberTexts_eq_map, List.map_cons, Text.intercalate_cons, hjoined, List.flatMap_append,
      List.append_assoc, List.append_assoc]
    rfl
  obtain ⟨first, more, hmembers⟩ := List.exists_cons_of_ne_nil hne
  have htext := htexts first more hmembers
  rcases header_cases c members.length with hheader | ⟨hheader, hname, -, hsize⟩
  · refine ⟨_, members, sections, hsections, ⟨?_, segment_header hc, hback members fun _ h => h,
      ?_⟩, .inl ⟨?_, rfl, rfl⟩⟩
    · rw [htext, hheader, hmembers]
      simp
    · exact List.append_ne_nil_of_left_ne_nil (List.map_eq_nil_iff.not.2 hne) _
    · rw [hheader]
      exact List.append_ne_nil_of_right_ne_nil _ (List.cons_ne_nil _ _)
  · refine ⟨_, more, sections, hsections, ⟨?_, hsegments first (hmembers ▸ List.mem_cons_self),
      hback more fun mem hmem => hmembers ▸ List.mem_cons_of_mem first hmem, ?_⟩,
      .inr ⟨hheader, hname, first, hmembers, rfl⟩⟩
    · rw [htext, hheader, List.nil_append]
    · refine List.append_ne_nil_of_left_ne_nil (List.map_eq_nil_iff.not.2 ?_) _
      rintro rfl
      rw [hmembers] at hsize
      exact absurd hsize (Nat.not_succ_le_self 1)

theorem Sound.balanced_text {m : Model} (h : m.Sound) (hhides : m.Throughout Hides) :
    Balanced m.text := by
  induction h with
  | @curve c' hc ha =>
    obtain ⟨items, hpieces, htext⟩ := (Sound.curve hc ha).exists_curve_pieces hhides.own.attributes
    have hname := segment_item (by decide : isDotted "name".toList = true) c'.shape.dotted_name
    rw [text, htext]
    exact hname.1.balanced.append (Expr.balanced_join rfl fun s hs => (hpieces s hs).balanced)
  | @composite c' members hc hm hk ha ih =>
    have hsound := Sound.composite hc hm hk ha
    by_cases hne : members = []
    · subst hne
      rw [hsound.text_hollow]
      exact (segment_header hc).balanced.append rfl
    · cases hhides with
      | composite hown hhides =>
        obtain ⟨front, more, sections, -, hsplit, -⟩ := hsound.exists_split hne fun mem hmem =>
          segment_member (hm mem hmem) (hhides mem hmem).own (hk mem hmem) (hown.locals mem hmem)
            (ih mem hmem (hhides mem hmem))
        exact hsplit.balanced

theorem Sound.segments_members (h : (Model.composite c members).Sound)
    (hhides : (Model.composite c members).Throughout Hides) :
    ∀ mem ∈ members, Segment (memberText c.localDefaults mem) := by
  intro mem hmem
  cases h with
  | composite _ hm hk _ =>
    cases hhides with
    | composite hown hhides =>
      exact segment_member (hm mem hmem) (hhides mem hmem).own (hk mem hmem) (hown.locals mem hmem)
        ((hm mem hmem).balanced_text (hhides mem hmem))

/-- A composite of the plain type keeps nothing for its members. -/
theorem locals_eq_nil_of_plain (hc : c.Configured) (hname : c.name = Composite.plain.name)
    (hkeeps : c.Keeps locals) : locals = [] := by
  obtain ⟨base, hbase, hbase', -, hdefaults⟩ := hc.type
  have hplain : c.localDefaults = [] := by
    rcases List.mem_cons.1 hbase with rfl | hbase
    · exact hdefaults
    · rw [List.mem_singleton.1 hbase, hname] at hbase'
      exact absurd hbase' (by decide)
  rcases hkeeps with hkeeps | ⟨default, s, hkeeps, -⟩
  · exact hkeeps.2
  · rw [hplain] at hkeeps
    cases hkeeps

/-- A member that stands where no header does and has no members is a header in brackets. -/
theorem memberText_hollow {c' : Composite} (hc : c.Configured) (hname : c.name = Composite.plain.name)
    (hkeeps : c.Keeps locals) (h : (Model.composite c' []).Sound) :
    memberText c.localDefaults ⟨locals, .composite c' []⟩ = '(' :: (headerText c' ++ [';']) ++ [')'] := by
  rw [memberText_composite, locals_eq_nil_of_plain hc hname hkeeps, h.text_hollow]
  exact List.append_nil _

end Model

namespace Reader

variable {n depth : Nat} {op key type : Text} {e head : Expr} {items : List Expr}

/-! ## Functions -/

/-- Pieces with commas between them are a list, and its first item is what the first piece is read as. -/
theorem exists_first_of_pieces {front : Text} {texts : List Text} (hfront : Piece front)
    (htrimmed : Text.Trimmed front) (htexts : ∀ s ∈ texts, Piece s) (hne : texts ≠ [])
    (h : Expr.parseLevel .standard n op (front ++ texts.flatMap (',' :: ·)) = .ok e) :
    ∃ n' first terms, e = ⟨[','], op, first :: terms⟩ ∧
      Expr.parseLevel .standard n' [] front = .ok first := by
  have hall := Segment.of_pieces hfront htrimmed htexts
  obtain ⟨n', first, terms, he, hfirst, -⟩ := Expr.chain_of_parseLevel rfl (.inr hall.toSealed)
    (hfront.chunk rfl) (fun s hs => (htexts s hs).chunk rfl) hne hall.trimmed h
  exact ⟨n', first, terms, he, hfirst⟩

theorem exists_functionItems {texts : List Text} (hkey : isDotted key = true)
    (htype : isDotted type = true) (htexts : ∀ s ∈ texts, Piece s)
    (h : Expr.parseLevel .standard n op (Model.item key type ++ texts.flatMap (',' :: ·)) = .ok e) :
    ∃ o items, functionItems e = (Phrase.item key (.word type false)).tree o :: items := by
  obtain ⟨hpiece, htrimmed⟩ := Model.segment_item hkey htype
  have hphrase : (Phrase.item key (.word type false)).Valid :=
    (Phrase.tight_item (.of_dotted hkey) (.word (.of_dotted htype)) (Nat.le_refl 2)).valid
  by_cases hnone : texts = []
  · rw [hnone, List.flatMap_nil, List.append_nil] at h
    refine ⟨op, [], ?_⟩
    rw [Phrase.eq_tree_of_parseLevel (p := Phrase.item key (.word type false)) hphrase h,
      Phrase.tree_item]
    rfl
  · obtain ⟨n', first, terms, rfl, hfirst⟩ := exists_first_of_pieces hpiece htrimmed htexts hnone h
    rw [Phrase.eq_tree_of_parseLevel (p := Phrase.item key (.word type false)) hphrase hfirst]
    exact ⟨[], terms, rfl⟩

theorem functionType?_of_functionItems {o : Text}
    (h : functionItems e = (Phrase.item key (.word type false)).tree o :: items)
    (hkey : key = "name".toList ∨ key = "composite".toList) (htype : type ≠ Expr.emptyName) :
    (builtin depth).functionType? e = some type := by
  rw [functionType?, (isNode_of_functionItems h).bracketsRemoved_eq, h, List.head?_cons,
    Option.bind_some, typeName?_item hkey htype]

theorem Shape.name_ne_empty (shape : Shape) : shape.name ≠ Expr.emptyName := by
  cases shape <;> decide

/-- A tree that asks for a type of functions asks for the skeleton of a new function. -/
theorem skeleton?_of_functionType? {r : Reader} {m₀ : Model} (h : r.functionType? e = some type)
    (hcreate : r.types.create type = .ok m₀) :
    (Part.ofExpr e).isMember = true ∧ r.skeleton? (Part.ofExpr e) = some m₀.skeleton := by
  have hnode := (Expr.isNode_bracketsRemoved e).bracketsRemoved_eq
  rw [ofExpr_of_functionType? h, skeleton?, functionType?, hnode]
  rw [functionType?] at h
  rw [h, Option.bind_some, hcreate]
  exact ⟨rfl, rfl⟩

/-! ## Members -/

/-- The tree of the text of a member asks for the outline of the member, if it asks for anything, and
opens a plain sum unless the member is hollow. -/
structure Outlined (r : Reader) (m : Model) (e : Expr) : Prop where
  member : (Part.ofExpr e).isMember = true
  skeleton : ∀ sk, r.skeleton? (Part.ofExpr e) = some sk → sk = m.outline
  opening : m.isHollow = false → Opening.of e = .plain

/-- The tree of the text of a composite is a sequence that asks for the outline of the composite. -/
structure OutlinedSequence (r : Reader) (m : Model) (e : Expr) : Prop where
  form : e.form = .sequence
  skeleton : ∀ o parts, Part.sequence? e = some (o, parts) → ∀ items sk,
    r.skeleton? (.composite o parts items) = some sk → sk = m.outline

variable {c : Composite} {c' : Curve} {members : List (Member Model)} {texts : List Text}

theorem outlined_curve (h : (Model.curve c').Sound) (hhides : (Model.curve c').Hides)
    (htexts : ∀ s ∈ texts, Piece s)
    (hparse : Expr.parseLevel .standard n op (Model.curveText c' ++ texts.flatMap (',' :: ·)) = .ok e) :
    Outlined (builtin depth) (.curve c') e := by
  obtain ⟨items, hitems, htext⟩ := h.exists_curve_pieces hhides.attributes
  rw [htext, List.append_assoc, ← List.flatMap_append] at hparse
  obtain ⟨o, more, hfunction⟩ := exists_functionItems (by decide) c'.shape.dotted_name
    (List.forall_mem_append.2 ⟨hitems, htexts⟩) hparse
  have htype : (builtin depth).functionType? e = some c'.shape.name :=
    functionType?_of_functionItems hfunction (.inl rfl) (Shape.name_ne_empty c'.shape)
  obtain ⟨hmember, hskeleton⟩ := skeleton?_of_functionType? htype (Catalogue.create_shape c'.shape)
  refine ⟨hmember, fun sk hsk => Option.some.inj (hsk.symm.trans hskeleton), fun _ => ?_⟩
  have hkey := Item.firstKey?_of_functionItems hfunction
  rw [Phrase.assignment?_item] at hkey
  rw [Opening.of, (isNode_of_functionItems hfunction).bracketsRemoved_eq, hkey]
  rfl

theorem outlined_of_functionItems {o : Text} (hc : c.Configured)
    (h : functionItems e = (Phrase.item "composite".toList (.word c.name false)).tree o :: items) :
    Outlined (builtin depth) (.composite c []) e := by
  obtain ⟨-, hname, hcreate⟩ := create_composite hc
  have htype : (builtin depth).functionType? e = some c.name :=
    functionType?_of_functionItems h (.inr rfl) hname
  obtain ⟨hmember, hskeleton⟩ :=
    skeleton?_of_functionType? htype (Catalogue.createComposite_eq_ok hcreate).1
  refine ⟨hmember, fun sk hsk => ?_, fun hhollow => by cases hhollow⟩
  rw [Model.outline_hollow]
  exact Option.some.inj (hsk.symm.trans hskeleton)

/-- A header with items behind it asks for a composite without members, if it asks for anything. -/
theorem outlined_header {first : Expr} {terms : List Expr} (hc : c.Configured) {o : Text}
    (h : functionItems first = (Phrase.item "composite".toList (.word c.name false)).tree o :: items) :
    Outlined (builtin depth) (.composite c []) ⟨[','], op, first :: terms⟩ := by
  have hfunction : functionItems ⟨[','], op, first :: terms⟩ = first :: terms := rfl
  rw [functionItems] at h
  split at h
  · have hheader : functionItems ⟨[','], op, first :: terms⟩ =
        (Phrase.item "composite".toList (.word c.name false)).tree o :: terms := by
      rw [hfunction, (List.cons.inj h).1]
    exact outlined_of_functionItems hc hheader
  · -- the items of the header are one list, which names no type where it stands first
    rename_i hform
    have hassign : Item.assignment? first = none := by
      rw [Item.assignment?, hform]
    have hnode : first.bracketsRemoved = first := isNode_of_functionItems (h := by
      rw [functionItems, hform]
      exact h) |>.bracketsRemoved_eq
    have hsequence : Part.sequence? first = none := by
      refine Option.eq_none_iff_forall_not_mem.2 fun p hp => ?_
      have hform' := Part.form_of_sequence? hp
      rw [hnode, hform] at hform'
      cases hform'
    have hpart : Part.ofExpr ⟨[','], op, first :: terms⟩ = .function ⟨[','], op, first :: terms⟩ := by
      rw [Part.ofExpr_list, hsequence, Option.elim_none, Part.ofItems,
        Item.firstKey?_of_functionItems hfunction, hassign]
      rfl
    refine ⟨by rw [hpart]; rfl, fun sk hsk => ?_, fun hhollow => by cases hhollow⟩
    rw [hpart, skeleton?, functionType?, (isNode_of_functionItems hfunction).bracketsRemoved_eq,
      hfunction, List.head?_cons, Option.bind_some, typeName?, hassign] at hsk
    cases hsk
  · cases h

/-- The text of a member without what its composite keeps for it. -/
theorem outlined_hollow (hc : c.Configured) (htexts : ∀ s ∈ texts, Piece s)
    (hparse : Expr.parseLevel .standard n op
      ('(' :: (Model.headerText c ++ [';']) ++ [')'] ++ texts.flatMap (',' :: ·)) = .ok e) :
    Outlined (builtin depth) (.composite c []) e := by
  obtain ⟨p, hp⟩ := exists_header hc
  have hclosed := hp.closed hc
  have hname : (Phrase.closed p).text = '(' :: (Model.headerText c ++ [';']) ++ [')'] := by
    rw [Phrase.text, hp.text]
  rw [← hname] at hparse
  by_cases hnone : texts = []
  · obtain ⟨o, items, hfunction⟩ := hp.items op
    rw [hnone, List.flatMap_nil, List.append_nil] at hparse
    rw [Phrase.eq_tree_of_parseLevel hclosed hparse]
    exact outlined_of_functionItems hc hfunction
  · have hbalanced : Balanced (Model.headerText c ++ [';']) :=
      (Model.segment_header hc).balanced.append rfl
    have hpiece : Piece (Phrase.closed p).text := hname ▸ .bracketed hbalanced
    obtain ⟨n', first, terms, rfl, hfirst⟩ :=
      exists_first_of_pieces hpiece (Phrase.trimmed hclosed) htexts hnone hparse
    obtain ⟨o, items, hfunction⟩ := hp.items []
    rw [Phrase.eq_tree_of_parseLevel hclosed hfirst]
    exact outlined_header hc hfunction

theorem sequence?_callNode {inner : Expr} (h : inner.form = .sequence) (op : Text) :
    Part.sequence? (Expr.callNode [] op inner) = Part.sequence? inner := by
  obtain ⟨first, more, he⟩ := Part.exists_terms_of_form h (by decide)
  have hname := Part.name_of_form.1 h
  rw [Expr.callNode_eq (by rw [he]; rfl) (by rw [Expr.isList, hname]; rfl), Part.sequence?,
    if_pos ⟨rfl, rfl⟩]

/-- A composite in brackets is outlined by what stands in the brackets. -/
theorem outlined_composite {m : Model} (hbalanced : Balanced m.text) (htrimmed : Text.Trimmed m.text)
    (hne : m.text ≠ []) (htexts : ∀ s ∈ texts, Piece s)
    (hinner : ∀ {n op inner}, Expr.parseLevel .standard n op m.text = .ok inner →
      OutlinedSequence (builtin depth) m inner)
    (hparse : Expr.parseLevel .standard n op
      ('(' :: m.text ++ [')'] ++ texts.flatMap (',' :: ·)) = .ok e) :
    Outlined (builtin depth) m e := by
  have hbracket : ∀ {n op first}, Expr.parseLevel .standard n op ('(' :: m.text ++ [')']) = .ok first →
      ∃ o parts, Part.sequence? first = some (o, parts) ∧ ∀ items sk,
        (builtin depth).skeleton? (.composite o parts items) = some sk → sk = m.outline := by
    intro n op first hfirst
    obtain ⟨n', op', inner, hread, hcall⟩ := Expr.inside_of_parseLevel hbalanced htrimmed hne hfirst
    obtain ⟨hform, hskeleton⟩ := hinner hread
    obtain ⟨o, parts, hsequence, -⟩ := Part.ofExpr_of_sequence hform
    refine ⟨o, parts, ?_, hskeleton o parts hsequence⟩
    rcases hcall with rfl | rfl
    · exact hsequence
    · rw [sequence?_callNode hform, hsequence]
  have hpart : ∃ o parts items, Part.ofExpr e = .composite o parts items ∧ ∀ sk,
      (builtin depth).skeleton? (.composite o parts items) = some sk → sk = m.outline := by
    by_cases hnone : texts = []
    · rw [hnone, List.flatMap_nil, List.append_nil] at hparse
      obtain ⟨o, parts, hsequence, hskeleton⟩ := hbracket hparse
      exact ⟨o, parts, [], Part.ofExpr_of_sequence? hsequence, hskeleton []⟩
    · have hpiece : Piece ('(' :: m.text ++ [')']) := .bracketed hbalanced
      have hbrackets : Text.Trimmed ('(' :: m.text ++ [')']) :=
        Text.Trimmed.around (s := ['(']) (t := [')']) (by decide) (by decide) (by decide) (by decide) _
      obtain ⟨n', first, terms, rfl, hfirst⟩ :=
        exists_first_of_pieces hpiece hbrackets htexts hnone hparse
      obtain ⟨o, parts, hsequence, hskeleton⟩ := hbracket hfirst
      refine ⟨o, parts, terms, ?_, hskeleton terms⟩
      rw [Part.ofExpr_list, hsequence]
      rfl
  obtain ⟨o, parts, items, hpart, hskeleton⟩ := hpart
  refine ⟨by rw [hpart]; rfl, fun sk hsk => hskeleton sk (hpart ▸ hsk), fun _ => ?_⟩
  exact Part.opening_of_composite hpart

/-! ## Sequences -/

theorem isMember_section {s : Text} (hs : Model.IsSection s)
    (hparse : Expr.parseLevel .standard n op s = .ok e) : (Part.ofExpr e).isMember = false := by
  obtain ⟨key, inner, hkey, hinner, rfl⟩ := hs
  have hword : Word false key := by
    rcases hkey with rfl | rfl <;> exact .of_dotted (by decide)
  obtain ⟨value, rfl⟩ := Expr.assign_of_parseLevel hword hinner hparse
  have hfunction : functionItems ⟨['='], op, [⟨key, [], []⟩, value]⟩ =
      [⟨['='], op, [⟨key, [], []⟩, value]⟩] := rfl
  have hassign : Item.assignment? ⟨['='], op, [⟨key, [], []⟩, value]⟩ = some (key, value) := rfl
  rw [Part.ofExpr_of_functionItems hfunction hassign, Part.ofItems,
    Item.firstKey?_of_functionItems hfunction, hassign]
  rcases hkey with rfl | rfl <;> rfl

theorem skeletons?_of_outlined {r : Reader} {members : List (Member Model)} {terms sections : List Expr}
    (hterms : List.Forall₂ (fun mem e => Outlined r mem.model e) members terms)
    (hsections : ∀ e ∈ sections, (Part.ofExpr e).isMember = false) {sks : List Skeleton}
    (h : r.skeletons? ((terms ++ sections).map Part.ofExpr) = some sks) :
    sks = Model.outlines members := by
  induction hterms generalizing sks with
  | nil =>
    induction sections with
    | nil =>
      cases h
      rfl
    | cons e sections ih =>
      obtain ⟨he, hsections⟩ := List.forall_mem_cons.1 hsections
      rw [List.nil_append, List.map_cons, skeletons?, he] at h
      exact ih hsections h
  | @cons mem e members terms he _ ih =>
    rw [List.cons_append, List.map_cons, skeletons?, if_pos he.member] at h
    obtain ⟨first, hfirst, h⟩ := Option.bind_eq_some_iff.1 h
    obtain ⟨more, hmore, rfl⟩ := Option.map_eq_some_iff.1 h
    rw [he.skeleton first hfirst, ih hmore]
    rfl

theorem OutlinedSequence.of_terms {r : Reader} {m : Model} {first : Expr} {terms : List Expr}
    {o : Opening} {parts : List Expr} (hopening : Opening.of first = o)
    (hparts : (if o.isHeader then terms else first :: terms) = parts)
    (hname : r.openingName? o = some type)
    (hskeletons : ∀ sks, r.skeletons? (parts.map Part.ofExpr) = some sks → sks = Model.outlines members)
    (houtline : m.outline = .composite type (Model.outlines members)) :
    OutlinedSequence r m ⟨[';'], op, first :: terms⟩ where
  form := rfl
  skeleton o' parts' hsequence items sk hsk := by
    have heq : Part.sequence? ⟨[';'], op, first :: terms⟩ = some (o, parts.map Part.ofExpr) := by
      rw [Part.sequence?_sequence, hopening, ← hparts, apply_ite (List.map Part.ofExpr)]
    rw [heq] at hsequence
    cases hsequence
    rw [skeleton?, hname, Option.bind_some] at hsk
    obtain ⟨sks, hsks, rfl⟩ := Option.map_eq_some_iff.1 hsk
    rw [hskeletons sks hsks, houtline]

/-- What stands behind the first segment of a composite. -/
theorem exists_terms {more : List (Member Model)} {sections : List Text}
    (hmember : ∀ mem ∈ more, ∀ {n op e}, Expr.parseLevel .standard n op
      (Model.memberText c.localDefaults mem) = .ok e → Outlined (builtin depth) mem.model e)
    (hsections : ∀ s ∈ sections, Model.IsSection s) {terms : List Expr}
    (h : List.Forall₂ (fun s term => Expr.parseLevel .standard n [';'] s = .ok term)
      (more.map (Model.memberText c.localDefaults) ++ sections) terms) :
    ∃ l l', terms = l ++ l' ∧ List.Forall₂ (fun mem e => Outlined (builtin depth) mem.model e) more l ∧
      ∀ e ∈ l', (Part.ofExpr e).isMember = false := by
  obtain ⟨l, l', rfl, hl, hl'⟩ := Result.forall₂_append_left h
  refine ⟨l, l', rfl, ?_, fun e he => ?_⟩
  · rw [List.forall₂_map_left_iff] at hl
    clear h
    induction hl with
    | nil => exact .nil
    | cons hparse _ ih =>
      exact .cons (hmember _ List.mem_cons_self hparse)
        (ih fun mem hmem => hmember mem (List.mem_cons_of_mem _ hmem))
  · obtain ⟨s, hs, hparse⟩ := Result.exists_of_forall₂ hl' he
    exact isMember_section (hsections s hs) hparse

theorem outlined_sequence (h : (Model.composite c members).Sound)
    (hhides : (Model.composite c members).Throughout Model.Hides) (hne : members ≠ [])
    (hmember : ∀ mem ∈ members, ∀ {n op e}, Expr.parseLevel .standard n op
      (Model.memberText c.localDefaults mem) = .ok e → Outlined (builtin depth) mem.model e)
    (hparse : Expr.parseLevel .standard n op (Model.composite c members).text = .ok e) :
    OutlinedSequence (builtin depth) (.composite c members) e := by
  obtain ⟨front, more, sections, hsections, hsplit, hcases⟩ :=
    h.exists_split hne (h.segments_members hhides)
  have htrimmed := hsplit.trimmed
  rw [hsplit.text] at hparse htrimmed
  obtain ⟨n', first, terms, rfl, hfirst, hterms⟩ := Expr.chain_of_parseLevel rfl (.inl rfl)
    hsplit.segment.toChunk (fun s hs => (hsplit.chunks s hs).1) hsplit.nonEmpty htrimmed hparse
  rcases hcases with ⟨hheader, rfl, rfl⟩ | ⟨hheader, hplain, mem, rfl, rfl⟩
  · -- a header of its own
    have hc : c.Configured := h.configured
    obtain ⟨p, hp⟩ := exists_header hc
    obtain ⟨l, l', rfl, hl, hl'⟩ := exists_terms hmember hsections hterms
    rw [← hp.text] at hfirst
    rw [Phrase.eq_tree_of_parseLevel hp.tight.valid hfirst]
    refine .of_terms (hp.opening []) (if_pos rfl) (hp.openingName? depth [])
      (fun sks => skeletons?_of_outlined hl hl') (Model.outline_of_keepsFirst ?_)
    rw [Model.losesFirst, List.isEmpty_eq_false_iff.2 hheader, Bool.false_and]
  · obtain ⟨l, l', rfl, hl, hl'⟩ :=
      exists_terms (fun mem' hmem => hmember mem' (List.mem_cons_of_mem mem hmem)) hsections hterms
    have hloses : (Model.composite c (mem :: more)).losesFirst = mem.model.isHollow := by
      rw [Model.losesFirst, hheader]
      rfl
    cases hhollow : mem.model.isHollow with
    | false =>
      have houtlined := hmember mem List.mem_cons_self hfirst
      refine .of_terms (houtlined.opening hhollow) (if_neg Bool.false_ne_true) ?_
        (fun sks => skeletons?_of_outlined (.cons houtlined hl) hl')
        (Model.outline_of_keepsFirst (hloses.trans hhollow))
      rw [hplain]
      rfl
    | true =>
      -- the first member is taken for the header
      obtain ⟨locals, m⟩ := mem
      obtain ⟨c', rfl⟩ := Model.exists_of_isHollow hhollow
      cases h with
      | composite hc hm hk _ =>
        have hsound : (Model.composite c' []).Sound := hm _ List.mem_cons_self
        have hc' : c'.Configured := hsound.configured
        obtain ⟨p, hp⟩ := exists_header hc'
        rw [Model.memberText_hollow hc hplain (hk _ List.mem_cons_self) hsound, ← hp.text,
          ← Phrase.text] at hfirst
        rw [Phrase.eq_tree_of_parseLevel (hp.closed hc') hfirst]
        refine .of_terms (hp.opening []) (if_pos rfl) (hp.openingName? depth [])
          (fun sks => skeletons?_of_outlined hl hl') ?_
        rw [Model.outline, hloses, hhollow]
        rfl

/-! ## Whole models -/

/-- The text of a member asks for the outline of the member. -/
theorem outlined_member {m : Model} {locals : Slots} (h : m.Sound) (hhides : m.Throughout Model.Hides)
    (hkeeps : c.Keeps locals) (hlocals : ∀ slot ∈ locals, slot.2.Hidden)
    (hparse : Expr.parseLevel .standard n op (Model.memberText c.localDefaults ⟨locals, m⟩) = .ok e) :
    Outlined (builtin depth) m e := by
  induction h generalizing c locals n op e with
  | @curve c' hc ha =>
    rw [Model.memberText_curve, Model.slotItems_eq] at hparse
    exact outlined_curve (.curve hc ha) hhides.own (Model.pieces_locals hkeeps hlocals _) hparse
  | @composite c' members hc hm hk ha ih =>
    have hsound := Model.Sound.composite hc hm hk ha
    have hitems := Model.pieces_locals hkeeps hlocals (!Slots.unchanged c.localDefaults ·)
    rw [Model.memberText_composite, Model.slotItems_eq] at hparse
    by_cases hne : members = []
    · subst hne
      rw [hsound.text_hollow] at hparse
      exact outlined_hollow hc hitems hparse
    · obtain ⟨front, more, sections, -, hsplit, -⟩ :=
        hsound.exists_split hne (hsound.segments_members hhides)
      refine outlined_composite hsplit.balanced hsplit.trimmed hsplit.text_ne_nil hitems
        (fun hparse => ?_) hparse
      refine outlined_sequence hsound hhides hne (fun mem hmem _ _ _ hparse => ?_) hparse
      cases hhides with
      | composite hown hhides =>
        exact ih mem hmem (hhides mem hmem) (hk mem hmem) (hown.locals mem hmem) hparse

/-- What is read from the text of a model has the outline of the model as its skeleton. -/
theorem skeleton_of_text {m m' : Model} (h : m.Sound) (hhides : m.Throughout Model.Hides)
    (hread : (builtin depth).read m.text = .ok m') : m'.skeleton = m.outline := by
  obtain ⟨tree, hparse, hskeleton⟩ := skeleton?_of_read hread
  have hparse : Expr.parseLevel .standard (depth + 1) [] m.text = .ok tree := hparse
  cases m with
  | curve c' =>
    rw [Model.text, ← List.append_nil (Model.curveText c')] at hparse
    have houtlined : Outlined (builtin depth) (.curve c') tree :=
      outlined_curve h hhides.own (List.forall_mem_nil Piece) hparse
    exact houtlined.skeleton _ hskeleton
  | composite c' members =>
    by_cases hne : members = []
    · subst hne
      have hc : c'.Configured := h.configured
      obtain ⟨p, hp⟩ := exists_header hc
      obtain ⟨o, items, hfunction⟩ := hp.items []
      rw [h.text_hollow, ← hp.text, Phrase.parseLevel_cut hp.tight.valid (hp.closed hc).2] at hparse
      rw [Phrase.eq_tree_of_parseLevel hp.tight.valid hparse] at hskeleton
      exact (outlined_of_functionItems hc hfunction).skeleton _ hskeleton
    · have hmember : ∀ mem ∈ members, ∀ {n op e}, Expr.parseLevel .standard n op
          (Model.memberText c'.localDefaults mem) = .ok e → Outlined (builtin depth) mem.model e := by
        intro mem hmem n op e hparse
        cases h with
        | composite _ hm hk _ =>
          cases hhides with
          | composite hown hhides =>
            exact outlined_member (hm mem hmem) (hhides mem hmem) (hk mem hmem)
              (hown.locals mem hmem) hparse
      obtain ⟨hform, houtline⟩ := outlined_sequence h hhides hne hmember hparse
      obtain ⟨o, parts, hsequence, -⟩ := Part.ofExpr_of_sequence hform
      rw [Part.ofExpr_of_sequence? hsequence] at hskeleton
      exact houtline o parts hsequence [] _ hskeleton

end Reader
end Lineshape
